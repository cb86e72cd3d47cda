import Passion.Script.Script

/-!
# Standard scripts

`Solver` of `script/standard.cpp`: the type of an output script, and the keys or hashes that stand
in it.

Of the scripts that a wallet stakes, those that pay to a key or its hash start with a push or with
`OP_DUP` (`isZerocoinMint_of_solver`). The test for a cold staking script looks at neither of its
first two bytes, so that one of that type may start with any opcode
(`isPayToColdStaking_iff_delegation`).
-/

namespace Passion

inductive TxnOutType where
  | pubkey
  | pubkeyhash
  | scripthash
  | multisig
  | nullData
  | coldstake
  deriving DecidableEq, Repr

namespace CPubKey

/-- `GetLen`: the size that the header byte of a key announces. -/
def getLen (chHeader : UInt8) : Nat :=
  if chHeader = 2 ∨ chHeader = 3 then 33
  else if chHeader = 4 ∨ chHeader = 6 ∨ chHeader = 7 then 65
  else 0

def validSize (vch : Valtype) : Bool :=
  match vch with
  | [] => false
  | chHeader :: _ => getLen chHeader == vch.length

end CPubKey

namespace CScript

/-- The two branches of `MatchPayToPubkey`, for keys of `size` bytes. -/
def matchKeyOfSize (size : Nat) (script : CScript) : Option Valtype :=
  if script.length = size + 2 ∧ script[0]? = some (UInt8.ofNat size) ∧
      script.getLast? = some OP_CHECKSIG then
    let pubkey := (script.drop 1).take size
    if CPubKey.validSize pubkey then some pubkey else none
  else none

/-- `MatchPayToPubkey`. The sizes differ, so that at most one of the branches is entered. -/
def matchPayToPubkey (script : CScript) : Option Valtype :=
  (matchKeyOfSize 65 script).or (matchKeyOfSize 33 script)

def matchPayToPubkeyHash (script : CScript) : Option Valtype :=
  if script.length = 25 ∧ script[0]? = some OP_DUP ∧ script[1]? = some OP_HASH160 ∧
      script[2]? = some 20 ∧ script[23]? = some OP_EQUALVERIFY ∧ script[24]? = some OP_CHECKSIG then
    some ((script.drop 3).take 20)
  else none

/-- `MatchPayToColdStaking`: the hashes of the staker's and the owner's key. -/
def matchPayToColdStaking (script : CScript) : Option (Valtype × Valtype) :=
  if script.isPayToColdStaking then some ((script.drop 6).take 20, (script.drop 28).take 20)
  else none

def isSmallInteger (opcode : UInt8) : Bool := decide (OP_1 ≤ opcode) && decide (opcode ≤ OP_16)

/-- `DecodeOP_N` of a small integer. -/
def decodeOpN (opcode : UInt8) : Nat := opcode.toNat - (OP_1.toNat - 1)

/-- The loop of `MatchMultisig`: the keys, and what it reads behind them. -/
def multisigKeys : Nat → CScript → List Valtype → List Valtype × Option (UInt8 × CScript)
  | 0, _, pubkeys => (pubkeys, none)
  | bound + 1, it, pubkeys =>
    match getOp it with
    | none => (pubkeys, none)
    | some (opcode, data, it) =>
      if CPubKey.validSize data then multisigKeys bound it (pubkeys ++ [data])
      else (pubkeys, some (opcode, it))

/-- `MatchMultisig`: the number of signatures, and the keys. -/
def matchMultisig (script : CScript) : Option (Nat × List Valtype) :=
  if script.getLast? ≠ some OP_CHECKMULTISIG then none
  else
    match getOp script with
    | none => none
    | some (opcode, _, it) =>
      if !isSmallInteger opcode then none
      else
        let required := decodeOpN opcode
        match multisigKeys it.length it [] with
        | (_, none) => none
        | (pubkeys, some (opcode, it)) =>
          if !isSmallInteger opcode then none
          else
            let keys := decodeOpN opcode
            if pubkeys.length ≠ keys ∨ keys < required then none
            else if it.length = 1 then some (required, pubkeys)
            else none

/-- `Solver`: `none` where it returns `false`. -/
def solver (scriptPubKey : CScript) : Option (TxnOutType × List Valtype) :=
  if scriptPubKey.isEmpty then none
  else if scriptPubKey.isPayToScriptHash then
    some (.scripthash, [(scriptPubKey.drop 2).take 20])
  else if scriptPubKey[0]? = some OP_RETURN ∧ isPushOnly (scriptPubKey.drop 1) then
    some (.nullData, [])
  else
    match matchPayToPubkey scriptPubKey with
    | some data => some (.pubkey, [data])
    | none =>
      match matchPayToPubkeyHash scriptPubKey with
      | some data => some (.pubkeyhash, [data])
      | none =>
        match matchPayToColdStaking scriptPubKey with
        | some (data, data1) => some (.coldstake, [data, data1])
        | none =>
          match matchMultisig scriptPubKey with
          | some (required, keys) =>
            some (.multisig, [UInt8.ofNat required] :: (keys ++ [[UInt8.ofNat keys.length]]))
          | none => none

/-! ## First bytes -/

variable {s : CScript}

theorem isZerocoinMint_of_head {opcode : UInt8} (h : s[0]? = some opcode)
    (hne : opcode ≠ OP_ZEROCOINMINT) : isZerocoinMint s = false := by
  cases s with
  | nil => rfl
  | cons b s =>
    cases h
    simpa [isZerocoinMint, startsWithOpcode] using hne

theorem isZerocoinMint_of_matchKeyOfSize {size : Nat} (h : (matchKeyOfSize size s).isSome = true)
    (hne : UInt8.ofNat size ≠ OP_ZEROCOINMINT) :
    isZerocoinMint s = false := by
  unfold matchKeyOfSize at h
  split_ifs at h with htest
  · exact isZerocoinMint_of_head htest.2.1 hne
  · cases h

theorem solver_key_types {data : List Valtype} {type : TxnOutType}
    (h : solver s = some (type, data)) :
    (type = .pubkey → (matchPayToPubkey s).isSome = true) ∧
      (type = .pubkeyhash → (matchPayToPubkeyHash s).isSome = true) := by
  unfold solver at h
  split_ifs at h
  · cases h
    simp
  · cases h
    simp
  · cases hkey : matchPayToPubkey s with
    | some key =>
      rw [hkey] at h
      cases h
      simp
    | none =>
      cases hhash : matchPayToPubkeyHash s with
      | some key =>
        simp only [hkey, hhash] at h
        cases h
        simp
      | none =>
        simp only [hkey, hhash] at h
        split at h
        · cases h
          simp
        · split at h
          · cases h
            simp
          · cases h

/-- Scripts that pay to a key or to its hash are no zerocoin mints. -/
theorem isZerocoinMint_of_solver {data : List Valtype} {type : TxnOutType}
    (h : solver s = some (type, data)) (htype : type = .pubkey ∨ type = .pubkeyhash) :
    isZerocoinMint s = false := by
  rcases htype with rfl | rfl
  · have hkey := (solver_key_types h).1 rfl
    rw [matchPayToPubkey, Option.isSome_or, Bool.or_eq_true] at hkey
    rcases hkey with hkey | hkey <;> exact isZerocoinMint_of_matchKeyOfSize hkey (by decide)
  · have hhash := (solver_key_types h).2 rfl
    unfold matchPayToPubkeyHash at hhash
    split_ifs at hhash with htest
    · exact isZerocoinMint_of_head htest.2.1 (by decide)
    · cases hhash

theorem isZerocoinMint_pushData (b : Valtype) (s : CScript) :
    isZerocoinMint (pushData b ++ s) = false := by
  unfold pushData
  split_ifs with hshort
  · refine isZerocoinMint_of_head rfl fun heq => ?_
    have hlen : b.length < 76 := hshort
    have hnat := congrArg UInt8.toNat heq
    rw [UInt8.toNat_ofNat'] at hnat
    exact absurd hnat (by simp only [OP_ZEROCOINMINT, UInt8.toNat_ofNat]; omega)
  all_goals exact isZerocoinMint_of_head rfl (by decide)

/-! ## The test for cold staking -/

open List

/-- The bytes of a delegation script that `IsPayToColdStaking` compares. -/
def testedBytes : List (Nat × UInt8) :=
  [(2, OP_ROT), (4, OP_CHECKCOLDSTAKEVERIFY), (5, 0x14), (27, 0x14), (49, OP_EQUALVERIFY),
    (50, OP_CHECKSIG)]

/-- Its other opcodes. -/
def untestedBytes : List (Nat × UInt8) :=
  [(0, OP_DUP), (1, OP_HASH160), (3, OP_IF), (26, OP_ELSE), (48, OP_ENDIF)]

def HasBytes (s : CScript) (bytes : List (Nat × UInt8)) : Prop := ∀ p ∈ bytes, s[p.1]? = some p.2

variable {s : CScript}

theorem isPayToColdStaking_eq_true :
    isPayToColdStaking s = true ↔ s.length = 51 ∧ HasBytes s testedBytes := by
  simp [isPayToColdStaking, HasBytes, testedBytes, and_assoc]

theorem hasBytes_delegation (a b : CKeyID) :
    HasBytes (getScriptForStakeDelegation a b) untestedBytes := by
  simp [HasBytes, untestedBytes, getScriptForStakeDelegation, CKeyID.pushData_bytes, a.length_bytes,
    b.length_bytes]

/-- The opcodes and the two hashes between them are the whole script. -/
theorem exists_delegation (hlen : s.length = 51) (htested : HasBytes s testedBytes)
    (huntested : HasBytes s untestedBytes) : ∃ a b, s = getScriptForStakeDelegation a b := by
  have hdrop : ∀ {i b}, s[i]? = some b → s.drop i = b :: s.drop (i + 1) := fun h => by
    rw [drop_eq_getElem?_toList_append, h, Option.toList_some, singleton_append]
  simp only [HasBytes, testedBytes, untestedBytes, forall_mem_cons] at htested huntested
  obtain ⟨h2, h4, h5, h27, h49, h50, -⟩ := htested
  obtain ⟨h0, h1, h3, h26, h48, -⟩ := huntested
  let a : CKeyID := ⟨(s.drop 6).take 20, by simp [hlen]⟩
  let b : CKeyID := ⟨(s.drop 28).take 20, by simp [hlen]⟩
  have ha : s.drop 6 = a.bytes ++ s.drop 26 := by
    rw [← take_append_drop 20 (s.drop 6), drop_drop]
  have hb : s.drop 28 = b.bytes ++ s.drop 48 := by
    rw [← take_append_drop 20 (s.drop 28), drop_drop]
  have hend : s.drop 51 = [] := drop_of_length_le (le_of_eq hlen)
  refine ⟨a, b, ?_⟩
  calc s = s.drop 0 := rfl
    _ = _ := by
      rw [hdrop h0, hdrop h1, hdrop h2, hdrop h3, hdrop h4, hdrop h5, ha, hdrop h26, hdrop h27, hb,
        hdrop h48, hdrop h49, hdrop h50, hend]
      simp [getScriptForStakeDelegation, CKeyID.pushData_bytes]

/-- **The test accepts the delegation scripts and no others** unless it is misled by one of the
bytes that it does not compare. -/
theorem isPayToColdStaking_iff_delegation (s : CScript) :
    (isPayToColdStaking s = true ↔ ∃ a b, s = getScriptForStakeDelegation a b) ↔
      (s.length = 51 → HasBytes s testedBytes → HasBytes s untestedBytes) := by
  constructor
  · intro hiff hlen htested
    obtain ⟨a, b, rfl⟩ := hiff.mp (isPayToColdStaking_eq_true.mpr ⟨hlen, htested⟩)
    exact hasBytes_delegation a b
  · intro hbytes
    refine ⟨fun h => ?_, ?_⟩
    · obtain ⟨hlen, htested⟩ := isPayToColdStaking_eq_true.mp h
      exact exists_delegation hlen htested (hbytes hlen htested)
    · rintro ⟨a, b, rfl⟩
      exact CKeyID.isPayToColdStaking_delegation a b

/-- A script of the right length that begins with `OP_RETURN` and has no branches passes. -/
theorem isPayToColdStaking_misled : ∃ s, isPayToColdStaking s = true ∧ s[0]? = some OP_RETURN ∧
      ¬ ∃ a b, s = getScriptForStakeDelegation a b := by
  refine ⟨[OP_RETURN, OP_NOP, OP_ROT, OP_NOP, OP_CHECKCOLDSTAKEVERIFY, 0x14] ++ replicate 20 0 ++
    [OP_NOP, 0x14] ++ replicate 20 0 ++ [OP_NOP, OP_EQUALVERIFY, OP_CHECKSIG],
    by decide, rfl, ?_⟩
  rintro ⟨a, b, hs⟩
  have hfirst := congrArg (·[0]?) hs
  simp [getScriptForStakeDelegation, OP_RETURN, OP_DUP] at hfirst

end CScript

end Passion
