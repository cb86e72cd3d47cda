import Passion.Lib.Greedy
import Passion.Script.Interpreter

/-!
# Signatures of several keys

The loop of `OP_CHECKMULTISIG` goes through the keys from the top of the stack, and gives the key it
is at to the signature it is at if that one verifies. It never takes a key back. With signatures and
keys whose encodings pass, the loop still succeeds exactly if the keys that are needed can be chosen
in the order of the signatures: giving a signature the first key that verifies it leaves the others
the most keys. It stops when more signatures than keys are left, and checks one signature a key.
-/

namespace Passion.ScriptContext

open Lib List ScriptM

variable (ctx : ScriptContext) (flags : ScriptFlags) (scriptCode : CScript)

abbrev Verifies (vchSig vchPubKey : Valtype) : Prop :=
  ctx.checker.checkSig vchSig vchPubKey scriptCode ctx.sigversion = true

/-- The encodings of the signatures and of the keys pass their checks. -/
structure Encoded (sigs keys : List Valtype) : Prop where
  sigs : ∀ vchSig ∈ sigs, checkSignatureEncoding ctx.crypto flags vchSig = .ok ()
  keys : ∀ vchPubKey ∈ keys, checkPubKeyEncoding flags vchPubKey = .ok ()

/-- The loop leaves true exactly if `C` holds, after at most `bound` checks in all. -/
def Decides (C : Prop) (bound : Nat) (fSuccess : Bool) (m : Machine) : Prop :=
  (fSuccess = true ↔ C) ∧ m.checks ≤ bound

variable {ctx flags} {sigs keys : List Valtype} {m : Machine}

/-- From any round on, with the keys from `k` and the signatures from `s` on the stack. -/
theorem wp_checkSignatures {k s : Nat} {afterKeys afterSigs : List Valtype}
    (hkeys : m.stack.drop k = keys ++ afterKeys) (hsigs : m.stack.drop s = sigs ++ afterSigs)
    (henc : ctx.Encoded flags sigs keys) (hle : sigs.length ≤ keys.length) :
    wp (ctx.checkSignatures flags scriptCode keys.length sigs.length (k + 1) (s + 1))
      (Decides (SublistForall₂ (ctx.Verifies scriptCode) sigs keys) (m.checks + keys.length))
      (fun _ _ => False) m := by
  induction keys generalizing sigs k s m with
  | nil =>
    obtain rfl : sigs = [] := by simpa using hle
    exact ⟨by simp [SublistForall₂.nil], le_refl _⟩
  | cons vchPubKey keys ih => cases sigs with
    | nil => simp [checkSignatures, Decides, SublistForall₂.nil]
    | cons vchSig sigs =>
      obtain ⟨hkey, hkeys'⟩ := of_drop_eq_cons hkeys
      obtain ⟨hsig, hsigs'⟩ := of_drop_eq_cons hsigs
      have hchecks : m.checks + (keys.length + 1) = m.checks + 1 + keys.length := by omega
      have hkeyenc := fun v hv => henc.keys v (.tail vchPubKey hv)
      simp only [checkSignatures, length_cons, if_neg (Nat.succ_ne_zero _), checkEncodings, wp_bind,
        wp_stacktop hsig, wp_stacktop hkey, wp_requireOk,
        henc.sigs _ mem_cons_self, henc.keys _ mem_cons_self, hchecks]
      refine ⟨fun _ => ⟨fun _ => ?_, by simp⟩, by simp⟩
      by_cases hok : ctx.Verifies scriptCode vchSig vchPubKey
      · have hlen := Nat.le_of_succ_le_succ hle
        simp only [if_pos hok, Nat.add_sub_cancel, if_neg (not_lt.mpr hlen),
          sublistForall₂_cons_cons hok]
        exact @ih _ { m with checks := m.checks + 1 } _ _ hkeys' hsigs'
          ⟨fun v hv => henc.sigs v (.tail _ hv), hkeyenc⟩ hlen
      · simp only [if_neg hok, sublistForall₂_cons_skip hok]
        by_cases hlen : keys.length < sigs.length + 1
        · rw [if_pos hlen]
          refine ⟨iff_of_false Bool.false_ne_true fun h => ?_, Nat.le_add_right _ _⟩
          exact absurd (length_le_of_sublistForall₂ h) (not_le.mpr hlen)
        · rw [if_neg hlen]
          exact @ih (vchSig :: sigs) { m with checks := m.checks + 1 } _ _ hkeys' hsigs
            ⟨henc.sigs, hkeyenc⟩ (not_lt.mp hlen)

/-- **The loop finds an assignment where there is one.** It gives the signatures to keys in their
order, each key at most once, exactly if that can be done, and makes at most one check a key. -/
theorem checkSignatures_iff_assignment {vchKeys vchSigs : Valtype} {rest : List Valtype}
    (hstack : m.stack = vchKeys :: (keys ++ vchSigs :: (sigs ++ rest)))
    (henc : ctx.Encoded flags sigs keys) (hle : sigs.length ≤ keys.length) :
    wp (ctx.checkSignatures flags scriptCode keys.length sigs.length 2 (3 + keys.length))
      (Decides (∃ signers, Forall₂ (ctx.Verifies scriptCode) sigs signers ∧ signers <+ keys)
        (m.checks + keys.length))
      (fun _ _ => False) m := by
  have hsigs : m.stack.drop (2 + keys.length) = sigs ++ rest := by
    rw [hstack, add_comm 2]
    simp
  have h := @wp_checkSignatures _ _ scriptCode _ _ _ 1 _ _ _ (by rw [hstack]; rfl) hsigs henc hle
  rwa [sublistForall₂_iff, add_right_comm] at h

namespace MultisigSample

/-- A key verifies the signature that is its copy. -/
def context : ScriptContext :=
  ⟨.sample, ⟨fun vchSig vchPubKey _ _ => vchSig == vchPubKey, fun _ => false, fun _ => false⟩,
    .base, []⟩

/-- Signatures of the first and the third of three keys. -/
def machine : Machine := .start [[3], [1], [2], [3], [2], [1], [3], []] []

theorem checkSignatures_machine : wp (context.checkSignatures 0 [] 3 2 2 6)
      (Decides (∃ signers, Forall₂ (context.Verifies []) [[1], [3]] signers ∧
        signers <+ [[1], [2], [3]]) (0 + 3))
      (fun _ _ => False) machine :=
  @checkSignatures_iff_assignment _ 0 [] [[1], [3]] [[1], [2], [3]] machine _ _ _ rfl
    ⟨by decide, by decide⟩ (by decide)

end MultisigSample

end Passion.ScriptContext
