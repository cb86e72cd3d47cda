import Passion.Chain.Growth
import Passion.Lib.Rank

/-!
# Failed blocks, and the candidates for the tip

The functions of `validation.cpp` that mark blocks as failed and keep `setBlockIndexCandidates`:
`InvalidBlockFound`, `InvalidateBlock`, `ReconsiderBlock`, `FindMostWorkChain` and
`PruneBlockIndexCandidates`, and `CheckBlockIndex`, which asserts that the index is consistent.

A failed mark is of two kinds. `BLOCK_FAILED_VALID` stands at a block that was itself found
invalid. Its descendants are invalid with it, but carry `BLOCK_FAILED_CHILD` only where some
function has walked over them.

The candidates are a set ordered by `CBlockIndexWorkComparator`. The list here is in no order; its
greatest element, and those worse than the tip, are found by comparing.
-/

namespace Passion.Chain

open Lib

/-- The environment of the index, with the genesis block of the chain parameters. -/
structure IndexEnv extends ChainEnv where
  hashGenesisBlock : UInt256

/-! ## Marks -/

namespace CBlockIndex

/-- `nStatus |= BLOCK_FAILED_VALID`. -/
def failValid (e : CBlockIndex) : CBlockIndex :=
  { e with nStatus := { e.nStatus with failedValid := true } }

/-- `nStatus |= BLOCK_FAILED_CHILD`. -/
def failChild (e : CBlockIndex) : CBlockIndex :=
  { e with nStatus := { e.nStatus with failedChild := true } }

/-- `nStatus &= ~BLOCK_FAILED_MASK`. -/
def clearFailed (e : CBlockIndex) : CBlockIndex :=
  { e with nStatus := { e.nStatus with failedValid := false, failedChild := false } }

end CBlockIndex

namespace ChainState

variable (st : ChainState)

/-- `setBlockIndexCandidates.erase`. -/
def eraseCandidate (hash : UInt256) : ChainState :=
  { st with setBlockIndexCandidates := st.setBlockIndexCandidates.filter (· ≠ hash) }

/-- A block on a failed block: it gets its mark, and is no candidate. -/
def dropChild (hash : UInt256) : ChainState := (st.modify hash .failChild).eraseCandidate hash

/-- `pindexBestInvalid` is the invalid block with the most work. -/
def noteInvalid (hash : UInt256) : ChainState :=
  { st with
    pindexBestInvalid :=
      match st.pindexBestInvalid.bind st.entry with
      | none => some hash
      | some best =>
        if (st.entry hash).any (best.nChainWork < ·.nChainWork) then some hash
        else st.pindexBestInvalid }

/-- `InvalidBlockFound`. Of `InvalidChainFound` only `pindexBestInvalid` is left; the rest logs. -/
def invalidBlockFound (hash : UInt256) (corruptionPossible : Bool) : ChainState :=
  if corruptionPossible then st
  else ((st.modify hash .failValid).eraseCandidate hash).noteInvalid hash

/-! ## `InvalidateBlock` -/

/-- `chainActive.SetTip(pindexDelete->pprev)` of `DisconnectTip`. -/
def disconnectTip : ChainState := { st with chainActive := st.chainActive.tail }

/-- The loop over the active blocks from the tip back to `pindex`. `disconnects` says which blocks
`DisconnectTip` can read and undo. Every turn shortens the active chain. -/
def disconnectFrom (disconnects : UInt256 → Bool) (pindex : CBlockIndex) :
    Nat → ChainState → Bool × ChainState
  | 0, st => (true, st)
  | fuel + 1, st =>
    if st.activeContains pindex then
      match st.tip with
      | none => (true, st)
      | some walk =>
        let st := st.dropChild walk
        if disconnects walk then disconnectFrom disconnects pindex fuel st.disconnectTip
        else (false, st)
    else (true, st)

/-- `IsValid(BLOCK_VALID_TRANSACTIONS) && nChainTx`, and not worse than the tip. -/
def eligible (env : ChainEnv) (e : CBlockIndex) : Bool :=
  e.nStatus.isValid BLOCK_VALID_TRANSACTIONS && decide (e.nChainTx ≠ 0) && notWorse env st e

def addEligible (env : ChainEnv) : ChainState :=
  { st with
    setBlockIndexCandidates :=
      st.mapBlockIndex.keys.foldl (fun candidates hash =>
          if (st.entry hash).any (st.eligible env) then insertCandidate hash candidates
          else candidates)
        st.setBlockIndexCandidates }

/-- `InvalidateBlock`. The result is `false` if a block could not be disconnected. -/
def invalidateBlock (env : ChainEnv) (disconnects : UInt256 → Bool) (hash : UInt256) :
    Bool × ChainState :=
  match st.entry hash with
  | none => (false, st)
  | some pindex =>
    let st := (st.modify hash .failValid).eraseCandidate hash
    match disconnectFrom disconnects pindex st.chainActive.length st with
    | (false, st) => (false, st)
    | (true, st) => (true, (st.addEligible env).noteInvalid hash)

/-! ## `ReconsiderBlock` -/

/-- One entry of the index: it is cleared if it descends from the block, or is the block. -/
def reconsiderEntry (env : ChainEnv) (hash : UInt256) (nHeight : Nat) (st : ChainState)
    (h : UInt256) : ChainState :=
  match st.entry h with
  | none => st
  | some e =>
    if !e.nStatus.isValid BLOCK_VALID_TRANSACTIONS &&
        e.getAncestor st.mapBlockIndex nHeight == some hash then
      let e := e.clearFailed
      let st := { st with mapBlockIndex := st.mapBlockIndex.insert h e }
      { st with
        setBlockIndexCandidates :=
          if e.nStatus.isValid BLOCK_VALID_TRANSACTIONS && decide (e.nChainTx ≠ 0) &&
              st.tipEntry.any (workLess env · e) then
            insertCandidate h st.setBlockIndexCandidates
          else st.setBlockIndexCandidates
        pindexBestInvalid :=
          if st.pindexBestInvalid = some h then none else st.pindexBestInvalid }
    else st

def reconsiderBlock (env : ChainEnv) (hash : UInt256) : ChainState :=
  match st.entry hash with
  | none => st
  | some pindex =>
    let st := st.mapBlockIndex.keys.foldl (reconsiderEntry env hash pindex.nHeight) st
    -- The ancestors lose their marks too, but do not become candidates.
    (path (pprevOf st.mapBlockIndex) (pindex.nHeight + 1) hash).foldl (·.modify · .clearFailed) st

/-! ## `FindMostWorkChain` -/

/-- What ends a search without a result. -/
inductive SearchFailure where
  /-- `assert(pindexTest->nChainTx || pindexTest->nHeight == 0)`. -/
  | assertion
  /-- A loop needs more rounds than it is given; see `Searchable.firstUnusable_cases`. -/
  | unfinished
  deriving DecidableEq, Repr

/-- `*setBlockIndexCandidates.rbegin()`. -/
def bestCandidate (env : ChainEnv) : Option CBlockIndex :=
  greatest (workLess env) (st.setBlockIndexCandidates.filterMap st.entry)

/-- The walk from a candidate back to the active chain: the first block that failed or has no
data. -/
def firstUnusable : Nat → CBlockIndex → Except SearchFailure (Option CBlockIndex)
  | 0, _ => .error .unfinished
  | fuel + 1, test =>
    if st.activeContains test then .ok none
    else if test.nChainTx = 0 ∧ test.nHeight ≠ 0 then .error .assertion
    else if test.nStatus.failed || !test.nStatus.haveData then .ok (some test)
    else (test.prev st.mapBlockIndex).elim (.ok none) (firstUnusable fuel)

/-- `mapBlocksUnlinked.emplace(pindexFailed->pprev, pindexFailed)` for a block on missing data. -/
def dropUnlinked (hash : UInt256) : ChainState :=
  { st.eraseCandidate hash with
    mapBlocksUnlinked :=
      st.mapBlocksUnlinked ++ ((pprevOf st.mapBlockIndex hash).map (·, hash)).toList }

/-- Remove the chain from the candidate back to `pindexTest` from the set. -/
def dropChain (pindexTest : UInt256) (fFailedChain : Bool) : Nat → UInt256 → ChainState → ChainState
  | 0, _, st => st
  | fuel + 1, pindexFailed, st =>
    if pindexFailed = pindexTest then st.eraseCandidate pindexTest
    else
      let st' := if fFailedChain then st.dropChild pindexFailed else st.dropUnlinked pindexFailed
      (pprevOf st.mapBlockIndex pindexFailed).elim st'
        (dropChain pindexTest fFailedChain fuel · st')

/-- The loop of `FindMostWorkChain`. Every turn that does not return removes a candidate. -/
def findMostWork (env : ChainEnv) :
    Nat → ChainState → Except SearchFailure (Option UInt256 × ChainState)
  | 0, _ => .error .unfinished
  | fuel + 1, st =>
    match st.bestCandidate env with
    | none => .ok (none, st)
    | some pindexNew =>
      match st.firstUnusable (pindexNew.nHeight + 1) pindexNew with
      | .error failure => .error failure
      | .ok none => .ok (some pindexNew.hash, st)
      | .ok (some pindexTest) =>
        let fFailedChain := pindexTest.nStatus.failed
        let st := if fFailedChain then st.noteInvalid pindexNew.hash else st
        findMostWork env fuel
          (dropChain pindexTest.hash fFailedChain (pindexNew.nHeight + 1) pindexNew.hash st)

def findMostWorkChain (env : ChainEnv) : Except SearchFailure (Option UInt256 × ChainState) :=
  findMostWork env (st.setBlockIndexCandidates.length + 1) st

/-! ## `PruneBlockIndexCandidates` -/

/-- The set is ordered by the comparator, so what is worse than the tip stands at its front. -/
def pruneBlockIndexCandidates (env : ChainEnv) : ChainState :=
  { st with
    setBlockIndexCandidates :=
      st.setBlockIndexCandidates.filter fun hash => (st.entry hash).all (notWorse env st) }

/-! ## `ActivateBestChain` -/

/-- What `ConnectBlock` records: undo data, and that the scripts are valid. It returns early for
the genesis block. -/
def connectBlock (env : IndexEnv) (e : CBlockIndex) : CBlockIndex :=
  if e.hash = env.hashGenesisBlock then e
  else { e with nStatus := { e.nStatus with haveUndo := true }.raiseValidity BLOCK_VALID_SCRIPTS }

def vpindexToConnect (branch : List UInt256) : List UInt256 :=
  branch.filter fun h => !(st.entry h).any st.activeContains

/-- `ActivateBestChain` where every block on the way to the best candidate connects: the branch of
the candidate becomes the active chain. -/
def activateBestChain (env : IndexEnv) : ChainState :=
  match st.findMostWorkChain env.toChainEnv with
  -- the program has ended; see `Consistent.findMostWork`
  | .error _ => st
  | .ok (none, st) => st
  | .ok (some hash, st) =>
    if st.tip = some hash then st
    else
      let branch :=
        path (pprevOf st.mapBlockIndex) (heightOf st.mapBlockIndex hash + 1) hash
      let st := (st.vpindexToConnect branch).foldl (·.modify · (connectBlock env)) st
      { st with chainActive := branch }.pruneBlockIndexCandidates env.toChainEnv

/-! ## `CheckBlockIndex` -/

/-- The entry and its ancestors, which the traversal has passed on its way from the genesis
block. -/
def line (e : CBlockIndex) : List CBlockIndex :=
  (path (pprevOf st.mapBlockIndex) (e.nHeight + 1) e.hash).filterMap st.entry

/-- `pindexFirstInvalid != NULL`. -/
def firstInvalid (e : CBlockIndex) : Bool := (st.line e).any (·.nStatus.failedValid)

/-- `pindexFirstMissing != NULL`. -/
def firstMissing (e : CBlockIndex) : Bool := (st.line e).any (!·.nStatus.haveData)

/-- `pindexFirstNotTreeValid != NULL`, and the same for the other levels. -/
def firstNotValid (nUpTo : Nat) (e : CBlockIndex) : Bool :=
  (st.line e).any fun a => a.pprev.isSome && decide (a.nStatus.valid < nUpTo)

def isCandidate (hash : UInt256) : Bool := st.setBlockIndexCandidates.elem hash

/-- `foundInUnlinked`. -/
def isUnlinked (e : CBlockIndex) : Bool :=
  e.pprev.any fun p => st.mapBlocksUnlinked.elem (p, e.hash)

def roots : List UInt256 :=
  st.mapBlockIndex.keys.filter fun hash => (st.entry hash).any (·.pprev.isNone)

end ChainState

/-- The assertions about one entry. -/
structure EntryChecked (env : IndexEnv) (st : ChainState) (e : CBlockIndex) : Prop where
  /-- The traversal comes to every entry. -/
  visited : ((st.line e).getLast?.map (·.pprev)) = some none
  genesis : e.pprev = none →
    e.hash = env.hashGenesisBlock ∧ st.chainActive.getLast? = some e.hash
  data : e.nStatus.haveData = false ↔ e.nTx = 0
  transactions : BLOCK_VALID_TRANSACTIONS ≤ e.nStatus.valid ↔ 0 < e.nTx
  sequence : e.nChainTx = 0 → e.nSequenceId = 0
  chainTx : st.firstMissing e = true ↔ e.nChainTx = 0
  height : (st.line e).length = e.nHeight + 1
  work : (e.prev st.mapBlockIndex).all (·.nChainWork ≤ e.nChainWork) = true
  skip : e.nHeight < 2 ∨ (e.pskip.bind st.entry).any (·.nHeight < e.nHeight) = true
  treeValid : st.firstNotValid BLOCK_VALID_TREE e = false
  chainValid : BLOCK_VALID_CHAIN ≤ e.nStatus.valid → st.firstNotValid BLOCK_VALID_CHAIN e = false
  scriptsValid :
    BLOCK_VALID_SCRIPTS ≤ e.nStatus.valid → st.firstNotValid BLOCK_VALID_SCRIPTS e = false
  failed : st.firstInvalid e = false → e.nStatus.failed = false
  candidate : (notWorse env.toChainEnv st e && !st.firstMissing e) = true →
    st.firstInvalid e = false → st.isCandidate e.hash = true
  notCandidate : (notWorse env.toChainEnv st e && !st.firstMissing e) = false →
    st.isCandidate e.hash = false
  unlinked : (e.pprev.isSome && e.nStatus.haveData && st.firstMissing e) = true →
    st.firstInvalid e = false → st.isUnlinked e = true
  notUnlinked : (e.pprev.isSome && e.nStatus.haveData && st.firstMissing e) = false →
    st.isUnlinked e = false

/-- `CheckBlockIndex`: its assertions hold. -/
structure BlockIndexChecked (env : IndexEnv) (st : ChainState) : Prop where
  /-- Before the genesis block is active. -/
  inactive : st.chainActive = [] → st.mapBlockIndex.keys.length ≤ 1
  root : st.chainActive ≠ [] → st.roots.length = 1
  entries : st.chainActive ≠ [] → ∀ hash ∈ st.mapBlockIndex.keys, ∀ e,
    st.entry hash = some e → EntryChecked env st e

end Passion.Chain
