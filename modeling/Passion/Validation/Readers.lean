import Passion.Validation.Connect

/-!
# The checks of a block only read the view

Every check that `connectBlock` makes on the way leaves the plain chainstate as it is and breaks no
contract, so that only `updateCoins`, `pushAnchor` and `setBestBlock` are left to reason about.
-/

namespace Passion

open Lib (Prog)
open Lib.Prog
open ViewM

/-- A check that does not end with a broken contract. -/
def Clean {α : Type} (x : Except ChainError α) : Prop := x ≠ .error .contract

section

variable {α β : Type}

@[simp] theorem clean_ok (a : α) : Clean (.ok a) := nofun

@[simp] theorem clean_pure (a : α) : Clean (pure a : Except ChainError α) := clean_ok a

@[simp] theorem clean_require (test : Bool) (reason : String) : Clean (require test reason) := by
  unfold Clean require
  split_ifs <;> simp

@[simp] theorem clean_refuse (reason : Option String) : Clean (refuse reason) := by
  cases reason <;> simp [Clean, refuse]

@[simp] theorem clean_liftValue (x : Except CTransaction.ValueError α) : Clean (liftValue x) := by
  cases x <;> simp [Clean, liftValue]

@[simp] theorem clean_bind {x : Except ChainError α} {f : α → Except ChainError β} :
    Clean (x >>= f) ↔ Clean x ∧ ∀ a, x = .ok a → Clean (f a) := by
  cases x <;> simp [Clean, bind, Except.bind]

@[simp] theorem clean_map {x : Except ChainError α} {f : α → β} : Clean (f <$> x) ↔ Clean x := by
  cases x <;> simp [Clean, Functor.map, Except.map]

@[simp] theorem clean_ite {c : Prop} [Decidable c] {x y : Except ChainError α} :
    Clean (if c then x else y) = if c then Clean x else Clean y := apply_ite ..

@[simp] theorem clean_foldlM {f : β → α → Except ChainError β} (hf : ∀ b a, Clean (f b a))
    (l : List α) (b : β) : Clean (l.foldlM f b) := by
  induction l generalizing b <;> simp [*]

@[simp] theorem clean_forM {f : α → Except ChainError PUnit} (hf : ∀ a, Clean (f a))
    (l : List α) : Clean (forM l f) := by
  induction l <;> simp [*]

@[simp] theorem clean_checkShieldedData (params : ConsensusParams) (d : SaplingTxData) :
    Clean (checkShieldedData params d) := by
  simp [checkShieldedData]

@[simp] theorem clean_checkSapling (params : ConsensusParams) (tx : CTransaction)
    (fSaplingActive : Bool) : Clean (checkSapling params tx fSaplingActive) := by
  cases h : tx.sapData <;> simp [checkSapling, h]

variable (env : ValidationEnv) (tx : CTransaction)

@[simp] theorem clean_checkSpecialTx (fSaplingActive : Bool) :
    Clean (checkSpecialTx tx fSaplingActive) := by
  simp [checkSpecialTx]

@[simp] theorem clean_checkOutput (nValueOut : CAmount) (txout : CTxOut) :
    Clean (checkOutput env tx nValueOut txout) := by
  simp [checkOutput]

@[simp] theorem clean_checkTransaction (fZerocoinActive fSaplingActive : Bool) :
    Clean (checkTransaction env tx fZerocoinActive fSaplingActive) := by
  simp [checkTransaction]

@[simp] theorem clean_checkBlock (block : CBlock) : Clean (checkBlock env block) := by
  simp [checkBlock]

theorem clean_connectPrecheck (block : CBlock) (nHeight : Nat) (tx : CTransaction)
    (nSigOps : Nat) : Clean (connectPrecheck env block nHeight tx nSigOps) := by
  simp [connectPrecheck]

@[simp] theorem clean_connectHeader (block : CBlock) (pindex : CBlockIndex) :
    Clean (connectHeader env block pindex) := by
  simp [connectHeader]

theorem clean_connectFooter [MerkleHash UInt256] (block : CBlock)
    (nHeight : Nat) (s : ConnectState) : Clean (connectFooter env block nHeight s) := by
  simp [connectFooter]

theorem clean_appendCommitments [MerkleHash UInt256] (tree : SaplingMerkleTree) :
    Clean (appendCommitments tx tree) := by
  unfold appendCommitments
  cases tx.sapData with
  | none => exact clean_ok _
  | some d =>
    split_ifs
    · refine clean_foldlM (fun tree out => ?_) _ _
      cases SaplingMerkleTree.append tree out.cmu <;> simp [Clean]
    · exact clean_ok _

end

section

/-- The program only asks, and breaks no contract. -/
abbrev ReadOnly {α : Type} (p : ViewM α) : Prop := Within ViewCmd.IsRead (· = .contract) p

@[simp] theorem reads_check {α : Type} {x : Except ChainError α} (hx : Clean x) :
    ReadOnly (check x) := by
  cases x with
  | ok a => exact within_pure a
  | error e => exact within_throw fun he => hx (he ▸ rfl)

@[simp] theorem reads_accessCoin (o : COutPoint) : ReadOnly (accessCoin o) := within_call trivial

@[simp] theorem reads_haveCoin (o : COutPoint) : ReadOnly (haveCoin o) := within_call trivial

@[simp] theorem reads_getNullifier (nf : UInt256) : ReadOnly (getNullifier nf) :=
  within_call trivial

@[simp] theorem reads_getSaplingAnchorAt (rt : UInt256) : ReadOnly (getSaplingAnchorAt rt) :=
  within_call trivial

@[simp] theorem reads_getBestBlock : ReadOnly getBestBlock := within_call trivial

@[simp] theorem reads_getBestAnchor : ReadOnly getBestAnchor := within_call trivial

@[simp] theorem reads_haveCoins (vin : List CTxIn) : ReadOnly (haveCoins vin) := by
  induction vin <;> simp [haveCoins, *]

variable (env : ValidationEnv) (tx : CTransaction)

@[simp] theorem reads_haveInputs : ReadOnly (haveInputs tx) := by
  simp [haveInputs]

@[simp] theorem reads_haveSpendRequirements (spends : List SpendDescription) :
    ReadOnly (haveSpendRequirements spends) := by
  induction spends with
  | nil => exact within_pure true
  | cons s spends ih =>
    refine within_bind.mpr ⟨reads_getNullifier _, fun spent _ => ?_⟩
    split_ifs
    · exact within_pure false
    · refine within_bind.mpr ⟨reads_getSaplingAnchorAt _, fun tree _ => ?_⟩
      cases tree with
      | none => exact within_pure false
      | some tree => exact ih

@[simp] theorem reads_haveShieldedRequirements : ReadOnly (haveShieldedRequirements tx) := by
  cases hd : tx.sapData <;> simp [haveShieldedRequirements, hd]

@[simp] theorem reads_getValueIn : ReadOnly (getValueIn tx) := by
  simp [getValueIn, addInputValue]

@[simp] theorem reads_getP2SHSigOpCount : ReadOnly (getP2SHSigOpCount env tx) := by
  simp [getP2SHSigOpCount]

section

variable (nSpendHeight : Nat)

@[simp] theorem reads_checkTxInput (nValueIn : CAmount) (txin : CTxIn) :
    ReadOnly (checkTxInput env nSpendHeight nValueIn txin) := by
  simp [checkTxInput]

@[simp] theorem reads_checkTxInputs : ReadOnly (checkTxInputs env tx nSpendHeight) := by
  simp [checkTxInputs]

@[simp] theorem reads_checkInputs (fScriptChecks : Bool) :
    ReadOnly (checkInputs env tx nSpendHeight fScriptChecks) := by
  simp [checkInputs]

@[simp] theorem reads_addFee (nFees valueIn : CAmount) (tx : CTransaction) :
    ReadOnly (addFee nFees valueIn tx) := by
  simp [addFee]

theorem reads_connectValues (fScriptChecks : Bool) (tx : CTransaction) (nFees nValueIn : CAmount) :
    ReadOnly (connectValues env nSpendHeight fScriptChecks tx nFees nValueIn) := by
  simp [connectValues]

end

theorem reads_connectInputs (nHeight : Nat) (tx : CTransaction)
    (nValueIn : CAmount) (nSigOps : Nat) :
    ReadOnly (connectInputs env nHeight tx nValueIn nSigOps) := by
  cases hz : env.zerocoinSpends tx nHeight <;> simp [connectInputs, hz]

theorem reads_connectStart (block : CBlock) (pindex pprev : CBlockIndex) :
    ReadOnly (connectStart env block pindex pprev) := by
  refine within_bind.mpr ⟨by simp, fun _ _ => within_bind.mpr ⟨by simp, fun hash _ => ?_⟩⟩
  split_ifs
  · simp
  · refine within_bind.mpr ⟨by simp, fun _ _ => within_bind.mpr ⟨by simp, fun rt _ => ?_⟩⟩
    refine within_bind.mpr ⟨by simp, fun tree _ => ?_⟩
    cases tree <;> simp

end

/-! ## On the plain chainstate -/

section

variable [MerkleHash UInt256]

abbrev plainRun {α : Type} (p : ViewM α) (st : Chainstate) : Except ChainError (α × Chainstate) :=
  p.run Chainstate.handler st

variable {α : Type} {p : ViewM α}

theorem plainRun_bind_ok {β : Type} {f : α → ViewM β} {st st' : Chainstate} {b : β} :
    plainRun (p >>= f) st = .ok (b, st') ↔
      ∃ a t, plainRun p st = .ok (a, t) ∧ plainRun (f a) t = .ok (b, st') :=
  run_bind_ok

/-- On the plain chainstate an answer changes nothing. -/
theorem Chainstate.handler_of_isRead {c : ViewCmd} (hc : c.IsRead) (st : Chainstate) :
    ∃ r, Chainstate.handler c st = .ok (r, st) := by
  cases c <;> first | exact ⟨_, rfl⟩ | exact hc.elim

theorem ReadOnly.avoids (hp : ReadOnly p) (st : Chainstate) :
    Avoids Chainstate.handler (· = .contract) st p :=
  Within.avoids (fun _ st hc => (Chainstate.handler_of_isRead hc st).imp' _ fun _ h => h) hp st

theorem ReadOnly.state_eq (hp : ReadOnly p) {st st' : Chainstate} {a : α}
    (h : plainRun p st = .ok (a, st')) : st' = st := by
  refine Within.keeps (I := fun s => s = st) ?_ hp rfl h
  rintro c s r s' hc rfl hrun
  obtain ⟨r', hr'⟩ := Chainstate.handler_of_isRead hc s
  rw [hr'] at hrun
  cases hrun
  rfl

theorem ReadOnly.avoids_bind (hp : ReadOnly p) {β : Type} {f : α → ViewM β} {st : Chainstate}
    (hf : ∀ a, plainRun p st = .ok (a, st) → Avoids Chainstate.handler (· = .contract) st (f a)) :
    Avoids Chainstate.handler (· = .contract) st (p >>= f) := by
  refine Prog.avoids_bind (hp.avoids st) fun a t hrun => ?_
  obtain rfl := hp.state_eq hrun
  exact hf a hrun

end

end Passion
