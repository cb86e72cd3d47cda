import Passion.Lib.Prog
import Passion.Script.Interpreter

/-!
# Verification is monotone in the flags

A flag only adds failures. Where an evaluation under more flags succeeds, the evaluation under
fewer flags takes the same steps and leaves the same stack, so an input that is accepted under the
standard flags is accepted under the mandatory ones.

Two flags are apart. `CHECKLOCKTIMEVERIFY` turns an opcode that does nothing into one that reads
the stack, and `DISCOURAGE_UPGRADABLE_NOPS` concerns that same opcode only while it does nothing;
the two flag sets have to agree on them.

**Idea.** `Lib.Refines x y` says that `y` returns what `x` returns. The programs of the two flag
sets differ in their tests only, and a test that demands less refines one that demands more.
-/

namespace Passion

open CScript ScriptM Lib Refines ScriptContext

/-- `f` is contained in `g`, and they agree on the two flags that change what an opcode does. -/
structure ScriptFlags.Below (f g : ScriptFlags) : Prop where
  contained : f &&& g = f
  lockTime :
    f &&& SCRIPT_VERIFY_CHECKLOCKTIMEVERIFY = g &&& SCRIPT_VERIFY_CHECKLOCKTIMEVERIFY
  nops : f &&& SCRIPT_VERIFY_DISCOURAGE_UPGRADABLE_NOPS =
    g &&& SCRIPT_VERIFY_DISCOURAGE_UPGRADABLE_NOPS

open ScriptFlags

theorem ScriptFlags.has_of_contained {f g mask : ScriptFlags} (h : f &&& g = f)
    (hf : f.has mask = true) : g.has mask = true := by
  simp only [has, bne_iff_ne] at hf ⊢
  intro hg
  apply hf
  rw [← h, UInt32.and_assoc, hg, UInt32.and_zero]

theorem refines_requireOk {a b : Except ScriptError Unit} (hab : a = .ok () → b = .ok ()) :
    Refines (requireOk a) (requireOk b) := by
  cases a with
  | error e =>
    intro s u s' hrun
    cases hrun
  | ok u =>
    rw [hab rfl]
    exact refl _

section

variable {f g : ScriptFlags} (h : f &&& g = f)

include h

/-! ## Tests -/

theorem checkUnder_mono {ε : Type} {mask : ScriptFlags} {check : Except ε Unit}
    (hg : checkUnder (g.has mask) check = .ok ()) : checkUnder (f.has mask) check = .ok () := by
  rw [checkUnder_eq_ok] at hg ⊢
  exact fun hf => hg (has_of_contained h hf)

theorem checkSignatureEncoding_mono {crypto : ScriptCrypto} {vchSig : Valtype}
    (hg : checkSignatureEncoding crypto g vchSig = .ok ()) :
    checkSignatureEncoding crypto f vchSig = .ok () := by
  unfold checkSignatureEncoding at hg ⊢
  split
  · rfl
  · rename_i hempty
    rw [if_neg hempty] at hg
    obtain ⟨_, hder, hg⟩ := bind_eq_ok.mp hg
    obtain ⟨_, hlow, hstrict⟩ := bind_eq_ok.mp hg
    exact bind_eq_ok.mpr ⟨_, checkUnder_mono h hder,
      bind_eq_ok.mpr ⟨_, checkUnder_mono h hlow, checkUnder_mono h hstrict⟩⟩

theorem refines_checkEncodings (ctx : ScriptContext) (vchSig vchPubKey : Valtype) :
    Refines (ctx.checkEncodings g vchSig vchPubKey) (ctx.checkEncodings f vchSig vchPubKey) :=
  (refines_requireOk (checkSignatureEncoding_mono h)).bind fun _ =>
    refines_requireOk (checkUnder_mono h)

/-- A number that is read with its encoding checked is read without the check. -/
theorem refines_scriptNum (vch : Valtype) (nMaxNumSize : Nat) :
    Refines (scriptNum (g.has SCRIPT_VERIFY_MINIMALDATA) vch nMaxNumSize)
      (scriptNum (f.has SCRIPT_VERIFY_MINIMALDATA) vch nMaxNumSize) := by
  cases hf : f.has SCRIPT_VERIFY_MINIMALDATA with
  | true =>
    rw [has_of_contained h hf]
    exact refl _
  | false =>
    intro m n m' hrun
    unfold scriptNum at hrun ⊢
    cases hg : CScriptNum.ofVch vch (g.has SCRIPT_VERIFY_MINIMALDATA) nMaxNumSize with
    | error what =>
      rw [hg] at hrun
      cases hrun
    | ok bn =>
      rw [hg] at hrun
      have hok : CScriptNum.ofVch vch false nMaxNumSize = .ok bn := by
        unfold CScriptNum.ofVch at hg ⊢
        split at hg
        · cases hg
        · rename_i hlen
          split at hg
          · cases hg
          · simpa [hlen] using hg
      rw [hok]
      exact hrun

end

/-! ## Opcodes -/

section

variable {f g : ScriptFlags} (h : f.Below g) (ctx : ScriptContext)

include h

theorem refines_readNum {α : Type} {i nMaxNumSize : Nat} {k k' : Int → ScriptM α}
    (hk : ∀ bn, Refines (k bn) (k' bn)) :
    Refines (stacktop i >>= fun vch =>
        scriptNum (g.has SCRIPT_VERIFY_MINIMALDATA) vch nMaxNumSize >>= k)
      (stacktop i >>= fun vch =>
        scriptNum (f.has SCRIPT_VERIFY_MINIMALDATA) vch nMaxNumSize >>= k') :=
  seq fun vch => (refines_scriptNum h.contained vch _).bind hk

theorem refines_pick (roll : Bool) : Refines (pick (g.has SCRIPT_VERIFY_MINIMALDATA) roll)
      (pick (f.has SCRIPT_VERIFY_MINIMALDATA) roll) :=
  seq fun _ => refines_readNum h fun _ => refl _

theorem refines_unary (op : UnaryOp) : Refines (unary (g.has SCRIPT_VERIFY_MINIMALDATA) op)
      (unary (f.has SCRIPT_VERIFY_MINIMALDATA) op) :=
  seq fun _ => refines_readNum h fun _ => refl _

theorem refines_binary (op : BinaryOp) : Refines (binary (g.has SCRIPT_VERIFY_MINIMALDATA) op)
      (binary (f.has SCRIPT_VERIFY_MINIMALDATA) op) :=
  seq fun _ => refines_readNum h fun _ => refines_readNum h fun _ => refl _

theorem refines_within :
    Refines (within (g.has SCRIPT_VERIFY_MINIMALDATA)) (within (f.has SCRIPT_VERIFY_MINIMALDATA)) :=
  seq fun _ => refines_readNum h fun _ => refines_readNum h fun _ =>
    refines_readNum h fun _ => refl _

theorem refines_checkSig (verify : Bool) :
    Refines (ctx.checkSig g verify) (ctx.checkSig f verify) := by
  refine seq fun _ => seq fun vchSig => ?_
  refine seq fun vchPubKey => seq fun m => ?_
  exact (refines_checkEncodings h.contained ctx vchSig vchPubKey).bind fun _ => refl _

theorem refines_checkSignatures (scriptCode : CScript) (nKeysCount nSigsCount ikey isig : Nat) :
    Refines (ctx.checkSignatures g scriptCode nKeysCount nSigsCount ikey isig)
      (ctx.checkSignatures f scriptCode nKeysCount nSigsCount ikey isig) := by
  induction nKeysCount generalizing nSigsCount ikey isig with
  | zero => exact refl _
  | succ nKeysCount ih =>
    refine ite (refl _) ?_
    refine seq fun vchSig => seq fun vchPubKey => ?_
    refine (refines_checkEncodings h.contained ctx vchSig vchPubKey).bind fun _ => ?_
    refine seq fun _ => ?_
    exact ite (refl _) (ih _ _ _)

theorem refines_readCount (i bound : Nat) (e : ScriptError) :
    Refines (readCount g i bound e) (readCount f i bound e) :=
  seq fun _ => refines_readNum h fun _ => refl _

theorem refines_checkMultiSig (verify : Bool) :
    Refines (ctx.checkMultiSig g verify) (ctx.checkMultiSig f verify) := by
  refine (refines_readCount h _ _ _).bind fun nKeysCount => seq fun _ => ?_
  refine (refines_readCount h _ _ _).bind fun nSigsCount => seq fun _ => ?_
  refine seq fun m => seq fun scriptCode => ?_
  refine (refines_checkSignatures h ctx scriptCode _ _ _ _).bind fun fSuccess => ?_
  refine seq fun _ => seq fun _ => ?_
  refine seq fun dummy => bind ?_ fun _ => refl _
  -- the dummy element
  exact ensure fun hg hf => hg ⟨has_of_contained h.contained hf.1, hf.2⟩

theorem has_lockTime :
    f.has SCRIPT_VERIFY_CHECKLOCKTIMEVERIFY = g.has SCRIPT_VERIFY_CHECKLOCKTIMEVERIFY := by
  simp only [has, h.lockTime]

theorem has_nops : f.has SCRIPT_VERIFY_DISCOURAGE_UPGRADABLE_NOPS =
    g.has SCRIPT_VERIFY_DISCOURAGE_UPGRADABLE_NOPS := by
  simp only [has, h.nops]

theorem refines_checkLockTimeVerify :
    Refines (ctx.checkLockTimeVerify g) (ctx.checkLockTimeVerify f) := by
  unfold checkLockTimeVerify
  rw [has_lockTime h, has_nops h]
  refine ite ?_ (refl _)
  exact seq fun _ => refines_readNum h fun _ => refl _

/-- **A case of the switch under fewer flags returns what it returns under more.** -/
theorem refines_exec (fExec : Bool) (op : Op) :
    Refines (ctx.exec g fExec op) (ctx.exec f fExec op) := by
  cases op with
  | checkLockTimeVerify => exact refines_checkLockTimeVerify h ctx
  | upgradableNop =>
    unfold exec
    rw [has_nops h]
    exact refl _
  | pick roll => exact refines_pick h roll
  | unary op => exact refines_unary h op
  | binary op => exact refines_binary h op
  | within => exact refines_within h
  | checkSig verify => exact refines_checkSig h ctx verify
  | checkMultiSig verify => exact refines_checkMultiSig h ctx verify
  -- the others do not read the flags
  | _ => exact refl _

end

/-! ## Evaluation and verification -/

section

variable {f g : ScriptFlags} (h : f.Below g) (ctx : ScriptContext)

include h

theorem refines_step : Refines (ctx.step g) (ctx.step f) := by
  refine seq fun read => seq fun _ => ?_
  refine seq fun _ => seq fun _ => ?_
  refine bind ?_ fun _ => refl _
  refine seq fun m => ite ?_ (ite ?_ (refl _))
  · refine seq fun _ => bind ?_ fun _ => refl _
    refine ensure (Or.imp_left fun hg => ?_)
    -- the push need not be minimal without the flag
    cases hf : f.has SCRIPT_VERIFY_MINIMALDATA with
    | false => rfl
    | true => simp [has_of_contained h.contained hf] at hg
  · exact seq fun _ => refines_exec h ctx m.fExec _

theorem evalScript_mono {stack result : List Valtype} (hg : ctx.evalScript g stack = .ok result) :
    ctx.evalScript f stack = .ok result := by
  have hrun : Refines (ctx.evaluate g) (ctx.evaluate f) :=
    seq fun _ => (whileLoop (refines_step h ctx) _ _).bind fun _ => refl _
  obtain ⟨m, hm, hresult⟩ := evalScript_eq_ok.mp hg
  exact evalScript_eq_ok.mpr ⟨m, hrun _ _ _ hm, hresult⟩

end

/-- **What more flags accept, fewer flags accept.** -/
theorem verifyScript_mono {crypto : ScriptCrypto} {checker : BaseSignatureChecker}
    {sigversion : SigVersion} {scriptSig scriptPubKey : CScript} {f g : ScriptFlags}
    (hcontained : f &&& g = f)
    (hlockTime : f &&& SCRIPT_VERIFY_CHECKLOCKTIMEVERIFY = g &&& SCRIPT_VERIFY_CHECKLOCKTIMEVERIFY)
    (hnops : f &&& SCRIPT_VERIFY_DISCOURAGE_UPGRADABLE_NOPS =
      g &&& SCRIPT_VERIFY_DISCOURAGE_UPGRADABLE_NOPS)
    (hg : verifyScript crypto checker sigversion g scriptSig scriptPubKey = .ok ()) :
    verifyScript crypto checker sigversion f scriptSig scriptPubKey = .ok () := by
  have h : f.Below g := ⟨hcontained, hlockTime, hnops⟩
  obtain ⟨_, hpush, hg⟩ := bind_eq_ok.mp hg
  obtain ⟨stackCopy, hsig, hg⟩ := bind_eq_ok.mp hg
  obtain ⟨stack, hpubkey, hg⟩ := bind_eq_ok.mp hg
  obtain ⟨_, htop, hg⟩ := bind_eq_ok.mp hg
  refine bind_eq_ok.mpr ⟨_, checkUnder_mono hcontained hpush, bind_eq_ok.mpr ⟨stackCopy, ?_, ?_⟩⟩
  · exact evalScript_mono h _ hsig
  refine bind_eq_ok.mpr ⟨stack, evalScript_mono h _ hpubkey, bind_eq_ok.mpr ⟨_, htop, ?_⟩⟩
  rw [checkUnder_eq_ok] at hg ⊢
  intro hp2sh
  obtain ⟨hf, hhash⟩ := (Bool.and_eq_true ..).mp hp2sh
  have hg := hg ((Bool.and_eq_true ..).mpr ⟨has_of_contained hcontained hf, hhash⟩)
  obtain ⟨_, honly, hredeem⟩ := bind_eq_ok.mp hg
  refine bind_eq_ok.mpr ⟨_, honly, ?_⟩
  cases stackCopy with
  | nil => cases hredeem
  | cons pubKey2 stackCopy =>
    obtain ⟨stack, heval, htop⟩ := bind_eq_ok.mp hredeem
    exact bind_eq_ok.mpr ⟨stack, evalScript_mono h _ heval, htop⟩

namespace FlagsSample

/-- The hash of every redeem script. -/
def scriptPubKey : CScript := [OP_HASH160, 0x14] ++ List.replicate 20 0 ++ [OP_EQUAL]

/-- The redeem script `OP_1`. -/
def scriptSig : CScript := [0x01, OP_1]

def checker : BaseSignatureChecker := ⟨fun _ _ _ _ => false, fun _ => false, fun _ => false⟩

def flags : ScriptFlags :=
  SCRIPT_VERIFY_P2SH ||| SCRIPT_VERIFY_NULLDUMMY ||| SCRIPT_VERIFY_SIGPUSHONLY |||
    SCRIPT_VERIFY_MINIMALDATA

end FlagsSample

open FlagsSample in
theorem verifyScript_mono_scriptHash :
    verifyScript .sample checker .base flags scriptSig scriptPubKey = .ok () ∧
      verifyScript .sample checker .base SCRIPT_VERIFY_P2SH scriptSig scriptPubKey = .ok () := by
  have h : verifyScript .sample checker .base flags scriptSig scriptPubKey = .ok () := by
    decide +kernel
  exact ⟨h, verifyScript_mono (by decide) (by decide) (by decide) h⟩

end Passion
