import Passion.Chain.Receiving

/-!
# `CheckBlockIndex` after every run

The functions that change the block index, called in any order by callers that keep their promises.
`Consistent` is kept by every call but three:

* `AddToBlockIndex`, if the new block has not more work than its parent,
* `InvalidateBlock`, if it fails in the middle, or disconnects the genesis block, and
* `ReconsiderBlock`, if it is not `ReconsiderSafe`.

`ReconsiderBlock` breaks it in common runs. With two blocks on one parent and the first of them the
tip, let the parent be invalidated and the second block be reconsidered: the first keeps its mark
although no invalid block is left, and the parent is no candidate.

Main results: `Consistent.apply`, `checkBlockIndex_of_reaches` and `reconsiderBlock_leaves_mark`.
-/

namespace Passion.Chain

open Lib Lib.Map ChainState Option

/-! ## Operations -/

inductive Operation where
  | addToBlockIndex (block : CBlock)
  | receivedBlockTransactions (block : CBlock) (pos : CDiskBlockPos)
  | invalidBlockFound (hash : UInt256) (corruptionPossible : Bool)
  /-- `disconnects` says which blocks `DisconnectTip` can undo. -/
  | invalidateBlock (hash : UInt256) (disconnects : UInt256 → Bool)
  | reconsiderBlock (hash : UInt256)
  | findMostWorkChain
  | pruneBlockIndexCandidates
  | activateBestChain

namespace Operation

variable (env : IndexEnv) (st : ChainState)

def apply : Operation → ChainState
  | addToBlockIndex block => Chain.addToBlockIndex env.toChainEnv st block
  | receivedBlockTransactions block pos =>
    Chain.receivedBlockTransactions env.toChainEnv st block (block.getHash env.toChainEnv) pos
  | invalidBlockFound hash corruptionPossible => st.invalidBlockFound hash corruptionPossible
  | invalidateBlock hash disconnects => (st.invalidateBlock env.toChainEnv disconnects hash).2
  | reconsiderBlock hash => st.reconsiderBlock env.toChainEnv hash
  | findMostWorkChain =>
    match st.findMostWorkChain env.toChainEnv with
    | .ok (_, st) => st
    | .error _ => st
  | pruneBlockIndexCandidates => st.pruneBlockIndexCandidates env.toChainEnv
  | activateBestChain => st.activateBestChain env

/-- What the callers have checked. -/
def allowed : Operation → Bool
  -- `GetPrevIndex` finds the parent of every block but the genesis block, which is active before
  -- other blocks come.
  | addToBlockIndex block =>
    block.getHash env.toChainEnv == env.hashGenesisBlock ||
      (!st.chainActive.isEmpty && (st.entry block.hashPrevBlock).isSome)
  -- `AcceptBlockHeader` refuses a failed block and `GetPrevIndex` one with a failed parent, unless
  -- the parent is a checkpoint: then it is reconsidered, and fails again only where it is linked.
  | receivedBlockTransactions block _ =>
    !block.vtx.isEmpty && (st.entry (block.getHash env.toChainEnv)).any fun e =>
      !e.nStatus.haveData && !e.nStatus.failed &&
        (e.prev st.mapBlockIndex).all fun prev => prev.nChainTx != 0 || !prev.nStatus.failed
  -- The block did not connect.
  | invalidBlockFound hash _ => (st.entry hash).any fun e => !st.activeContains e
  | invalidateBlock hash _ => !st.chainActive.isEmpty && (st.entry hash).isSome
  | reconsiderBlock hash => !st.chainActive.isEmpty && (st.entry hash).isSome
  | findMostWorkChain => true
  | pruneBlockIndexCandidates => !st.chainActive.isEmpty
  | activateBestChain => true

/-- The condition under which the call keeps the index consistent. -/
def Meets : Operation → Prop
  | addToBlockIndex block => st.entry (block.getHash env.toChainEnv) = none →
      ∀ prev, st.entry block.hashPrevBlock = some prev →
        prev.nChainWork < prev.nChainWork + getBlockProof block.nBits
  | invalidateBlock hash disconnects => (∃ p, pprevOf st.mapBlockIndex hash = some p) ∧
      ∀ walk ∈ st.chainActive, Above (pprevOf st.mapBlockIndex) hash walk →
        disconnects walk = true
  | reconsiderBlock hash => ReconsiderSafe env.toChainEnv st hash
  | _ => True

end Operation

/-- The states that calls with `P` lead to. -/
inductive Reaches (env : IndexEnv) (P : ChainState → Operation → Prop) : ChainState → Prop where
  | init : Reaches env P .init
  | step {st : ChainState} (op : Operation) : Reaches env P st → P st op →
      Reaches env P (op.apply env st)

/-! ## The steps and the runs -/

theorem consistent_init (env : IndexEnv) : Consistent env .init := by
  have hg := grown_init env.toChainEnv
  have hempty : ∀ h e, init.entry h ≠ some e := by
    intro h e he
    simp [init, entry] at he
  constructor
  case shaped =>
    exact ⟨hg.indexed.toTree, hg.linking, fun h e he => absurd he (hempty h e),
      fun h e he => absurd he (hempty h e)⟩
  case inactive => exact fun _ h e he => absurd he (hempty h e)
  case branch => exact trivial
  case active => exact fun h hmem => absurd hmem List.not_mem_nil
  case marked => exact fun h e he => absurd he (hempty h e)
  case candidate => exact fun h hmem => absurd hmem List.not_mem_nil
  case complete => exact fun h e he => absurd he (hempty h e)

section

variable {env : IndexEnv} {st : ChainState}

theorem allowed_receive {block : CBlock} {pos : CDiskBlockPos}
    (h : (Operation.receivedBlockTransactions block pos).allowed env st = true) :
    block.vtx ≠ [] ∧ ∃ e, st.entry (block.getHash env.toChainEnv) = some e ∧
      e.nStatus.haveData = false ∧ e.nStatus.failed = false ∧
      ∀ prev, e.prev st.mapBlockIndex = some prev →
        prev.nChainTx ≠ 0 ∨ prev.nStatus.failed = false := by
  rw [Operation.allowed, Bool.and_eq_true, any_eq_true] at h
  obtain ⟨hvtx, e, he, h⟩ := h
  simp only [Bool.and_eq_true, Bool.not_eq_true'] at h
  obtain ⟨⟨hdata, hfailed⟩, hparent⟩ := h
  refine ⟨by simpa using hvtx, e, he, hdata, hfailed, fun prev hprev => ?_⟩
  rw [hprev] at hparent
  simpa using hparent

/-- **Every call that meets its condition keeps the index consistent.** -/
theorem Consistent.apply (hc : Consistent env st) {op : Operation}
    (hallowed : op.allowed env st = true) (hmeets : op.Meets env st) :
    Consistent env (op.apply env st) := by
  cases op with
  | addToBlockIndex block =>
    refine hc.addToBlockIndex ?_ hmeets
    rw [Operation.allowed] at hallowed
    simpa [isSome_iff_exists] using hallowed
  | receivedBlockTransactions block pos =>
    obtain ⟨hvtx, e, he, hdata, hfailed, hparent⟩ := allowed_receive hallowed
    exact hc.receivedBlockTransactions pos he hdata hvtx hfailed hparent
  | invalidBlockFound hash corruptionPossible =>
    rw [Operation.allowed, any_eq_true] at hallowed
    obtain ⟨e, he, hnot⟩ := hallowed
    refine hc.invalidBlockFound (fun hmem => ?_) corruptionPossible
    -- An active block stands at its height, where `Contains` looks.
    have hplace := hc.shaped.tree.getElem_branch hc.branch he hmem
    rw [activeContains, hashAt, hplace,
      hc.shaped.tree.hash_eq hash e he, beq_self_eq_true] at hnot
    cases hnot
  | invalidateBlock hash disconnects => exact hc.invalidateBlock hmeets.1 hmeets.2
  | reconsiderBlock hash =>
    rw [Operation.allowed, Bool.and_eq_true, isSome_iff_exists] at hallowed
    obtain ⟨hne, pindex, hp⟩ := hallowed
    exact hc.reconsider (by simpa using hne)
      (reconsidered_reconsiderBlock env.toChainEnv hc.shaped.tree hp) hmeets
  | findMostWorkChain =>
    obtain ⟨result, st', hfind, hc', -⟩ := hc.findMostWork (Nat.lt_succ_self _)
    rw [Operation.apply, ChainState.findMostWorkChain, hfind]
    exact hc'
  | pruneBlockIndexCandidates => exact hc.pruneBlockIndexCandidates
  | activateBestChain => exact hc.activateBestChain

theorem Reaches.consistent
    (h : Reaches env (fun st op => op.allowed env st = true ∧ op.Meets env st) st) :
    Consistent env st := by
  induction h with
  | init => exact consistent_init env
  | step op _ hstep ih => exact ih.apply hstep.1 hstep.2

/-- **The index passes `CheckBlockIndex` in every state of a run whose calls meet their
conditions**, and for `ReconsiderBlock` the condition is exact. -/
theorem checkBlockIndex_of_reaches
    (h : Reaches env (fun st op => op.allowed env st = true ∧ op.Meets env st) st) :
    BlockIndexChecked env st ∧
      ∀ hash, (Operation.reconsiderBlock hash).allowed env st = true →
        (BlockIndexChecked env ((Operation.reconsiderBlock hash).apply env st) ↔
          (Operation.reconsiderBlock hash).Meets env st) := by
  refine ⟨h.consistent.checked, fun hash hallowed => ?_⟩
  rw [Operation.allowed, Bool.and_eq_true, isSome_iff_exists] at hallowed
  obtain ⟨hne, pindex, hp⟩ := hallowed
  exact h.consistent.reconsider_checked_iff (by simpa using hne) hp

end

/-! ## A fork -/

namespace CheckSample

theorem address_injective : Function.Injective (BitVec.toNat : UInt256 → Nat) :=
  fun _ _ => BitVec.eq_of_toNat_eq

/-- A regtest node whose blocks hash to their nonces. The first block is the genesis block. -/
def env : IndexEnv where
  params := .regtest 0
  hashHeader := fun header => BitVec.ofNat 256 header.nNonce
  newStakeModifier := fun _ _ _ => ([], 0)
  address := BitVec.toNat
  address_injective := address_injective
  hashGenesisBlock := 1

def coinbase : CTransaction where
  nVersion := 1
  nType := 0
  vin := [⟨.null, [0x51, 0x51], 4294967295⟩]
  vout := [⟨1, []⟩]
  sapData := none
  extraPayload := none
  hash := 7

def block (hashPrevBlock : UInt256) (nNonce : Nat) : CBlock where
  nVersion := 7
  hashPrevBlock := hashPrevBlock
  hashMerkleRoot := 0
  nTime := 0
  nBits := 0x207fffff
  nNonce := nNonce
  nAccumulatorCheckpoint := 0
  hashFinalSaplingRoot := 0
  vtx := [coinbase]

def arrive (hashPrevBlock : UInt256) (nNonce : Nat) : List Operation :=
  [.addToBlockIndex (block hashPrevBlock nNonce),
    .receivedBlockTransactions (block hashPrevBlock nNonce) ⟨0, 0⟩]

/-- Block 2 on the genesis block, and blocks 3 and 4 on block 2. Block 3 comes first and is the
tip. -/
def operations : List Operation :=
  arrive 0 1 ++ [.activateBestChain] ++ arrive 1 2 ++ arrive 2 3 ++ [.activateBestChain] ++
    arrive 2 4

def run (ops : List Operation) (st : ChainState) : ChainState :=
  ops.foldl (fun st op => op.apply env st) st

/-- Every call passes the test in the state it is made in. -/
def follows (test : ChainState → Operation → Bool) : List Operation → ChainState → Bool
  | [], _ => true
  | op :: ops, st => test st op && follows test ops (op.apply env st)

theorem reaches_run {P : ChainState → Operation → Prop} (test : ChainState → Operation → Bool)
    (htest : ∀ st op, test st op = true → P st op) {ops : List Operation} {st : ChainState}
    (hst : Reaches env P st) (hops : follows test ops st = true) :
    Reaches env P (run ops st) := by
  induction ops generalizing st with
  | nil => exact hst
  | cons op ops ih =>
    rw [follows, Bool.and_eq_true] at hops
    exact ih (hst.step op (htest st op hops.1)) hops.2

/-- The condition on the calls that build the fork. -/
def moreWork (st : ChainState) : Operation → Bool
  | .addToBlockIndex block => (st.entry block.hashPrevBlock).all fun prev =>
      prev.nChainWork < prev.nChainWork + getBlockProof block.nBits
  | .invalidateBlock _ _ => false
  | .reconsiderBlock _ => false
  | _ => true

theorem meets_of_moreWork {st : ChainState} {op : Operation} (h : moreWork st op = true) :
    op.Meets env st := by
  cases op with
  | addToBlockIndex block =>
    intro _ prev hprev
    rw [moreWork, hprev] at h
    exact of_decide_eq_true h
  | invalidateBlock hash disconnects => cases h
  | reconsiderBlock hash => cases h
  | _ => trivial

def forked : ChainState := run operations .init

/-- Block 2 is invalidated, and with it block 3. -/
def invalidated : ChainState := (Operation.invalidateBlock 2 fun _ => true).apply env forked

theorem reaches_invalidated :
    Reaches env (fun st op => op.allowed env st = true ∧ op.Meets env st) invalidated := by
  have hforked : Reaches env (fun st op => op.allowed env st = true ∧ op.Meets env st) forked :=
    reaches_run (fun st op => op.allowed env st && moreWork st op)
      (fun st op h => (Bool.and_eq_true _ _ ▸ h).imp_right meets_of_moreWork) .init
      (by decide +kernel)
  exact hforked.step (.invalidateBlock 2 fun _ => true)
    ⟨by decide +kernel, ⟨1, by decide +kernel⟩, fun _ _ _ => rfl⟩

theorem reconsiderSafe_invalidated : ReconsiderSafe env.toChainEnv invalidated 2 := by
  have hmarks : invalidated.mapBlockIndex.entries.all (fun x =>
      !x.2.nStatus.failed || x.1 == 2 || x.2.pprev == some 2) = true := by
    decide +kernel
  refine .of_below reaches_invalidated.consistent.shaped.tree fun h e he hfailed => ?_
  have hentry := List.all_eq_true.mp hmarks ⟨h, e⟩ (AList.mem_lookup_iff.mp he)
  simp only [hfailed, Bool.not_true, Bool.false_or, Bool.or_eq_true, beq_iff_eq] at hentry
  rcases hentry with rfl | hparent
  · exact above_refl 2
  · exact above_parent ((pprevOf_eq he).trans hparent)

/-- Block 4 is reconsidered after block 2 was invalidated, as by the calls `invalidateblock` and
`reconsiderblock`, which both end with `ActivateBestChain`. Here the last of these is missing. -/
def reconsidered : ChainState :=
  run (operations ++
    [.invalidateBlock 2 fun _ => true, .activateBestChain, .reconsiderBlock 4]) .init

end CheckSample

open CheckSample in
/-- Block 2 is invalidated and reconsidered. -/
theorem reconsidered_checked : Reaches env (fun st op => op.allowed env st = true ∧ op.Meets env st)
        ((Operation.reconsiderBlock 2).apply env invalidated) ∧
      BlockIndexChecked env ((Operation.reconsiderBlock 2).apply env invalidated) := by
  have hreaches := reaches_invalidated.step (.reconsiderBlock 2)
    ⟨by decide +kernel, reconsiderSafe_invalidated⟩
  exact ⟨hreaches, (checkBlockIndex_of_reaches hreaches).1⟩

open CheckSample in
/-- Block 2 is not worse than the tip and no block is invalid any more, but block 2 is no candidate
and block 3 keeps its mark. After `ActivateBestChain` block 4 is the tip and block 3 still has its
mark, so the check fails there too. -/
theorem reconsiderBlock_leaves_mark :
    Reaches env (fun st op => op.allowed env st = true) reconsidered ∧
      reconsidered.mapBlockIndex.entries.all (!·.2.nStatus.failedValid) = true ∧
      (reconsidered.entry 2).any (fun e => !reconsidered.firstMissing e &&
        notWorse env.toChainEnv reconsidered e && !reconsidered.isCandidate 2) = true ∧
      (reconsidered.entry 3).any (·.nStatus.failed) = true ∧
      ¬BlockIndexChecked env reconsidered ∧
      ¬BlockIndexChecked env (Operation.activateBestChain.apply env reconsidered) := by
  have hreaches : Reaches env (fun st op => op.allowed env st = true) reconsidered :=
    reaches_run (fun st op => op.allowed env st) (fun _ _ h => h) .init (by decide +kernel)
  -- Block 3 fails its check, whatever else has happened.
  have hfails : ∀ st : ChainState, st.chainActive.isEmpty = false →
      (st.entry 3).any (fun e => e.nStatus.failed && !st.firstInvalid e) = true →
      ¬BlockIndexChecked env st := by
    intro st hne hmark hchecked
    obtain ⟨e, he, hmark⟩ := (any_eq_true _ _).mp hmark
    rw [Bool.and_eq_true, Bool.not_eq_true'] at hmark
    have hentry := hchecked.entries (by simpa using hne) 3
      (mem_keys.mpr (isSome_iff_exists.mpr ⟨e, he⟩)) e he
    rw [hentry.failed hmark.2] at hmark
    exact Bool.false_ne_true hmark.1
  refine ⟨hreaches, by decide +kernel, by decide +kernel, by decide +kernel,
    hfails _ (by decide +kernel) (by decide +kernel),
    hfails _ (by decide +kernel) (by decide +kernel)⟩

end Passion.Chain
