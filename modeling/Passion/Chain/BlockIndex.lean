import Passion.Consensus.Params
import Passion.Lib.Ancestry
import Passion.Lib.KeyedMerge

/-!
# The block index

`CBlockIndex` and its skip list (`chain.h`, `chain.cpp`), and the two functions of `validation.cpp`
that build the index while blocks arrive: `AddToBlockIndex` for a header and
`ReceivedBlockTransactions` for the data of a block.

Pointers to entries are the hashes of their blocks, so `pprev` is an optional hash and
`mapBlockIndex` a finite map from hashes to entries. Where the source compares addresses, it asks
`ChainEnv.address`. `nStatus` is a record of its parts: the validity level and four flags.

The data of a block may come before that of its parents. Then the block waits in
`mapBlocksUnlinked`, and is linked from the queue of `ReceivedBlockTransactions` when the last
missing parent arrives.

Counters that are `unsigned int`s in the source (`nTx`, `nChainTx`, `nSequenceId`) are unbounded.
The stake modifier of a new block is computed elsewhere (`legacy/stakemodifier.cpp`); what is read
of it is in `ChainEnv.newStakeModifier`.
-/

namespace Passion.Chain

/-! ## Blocks -/

structure CBlockHeader where
  nVersion : Int
  hashPrevBlock : UInt256
  hashMerkleRoot : UInt256
  nTime : Nat
  nBits : Nat
  nNonce : Nat
  nAccumulatorCheckpoint : UInt256
  hashFinalSaplingRoot : UInt256
  deriving DecidableEq, Repr

def hasAccumulator (nVersion : Int) : Bool := decide (3 < nVersion) && decide (nVersion < 7)

def hasSaplingRoot (nVersion : Int) : Bool := decide (8 ≤ nVersion)

/-- What is serialized of a header, and so hashed: two fields depend on the version. -/
def CBlockHeader.serialized (header : CBlockHeader) : CBlockHeader :=
  { header with
    nAccumulatorCheckpoint :=
      if hasAccumulator header.nVersion then header.nAccumulatorCheckpoint else 0
    hashFinalSaplingRoot :=
      if hasSaplingRoot header.nVersion then header.hashFinalSaplingRoot else 0 }

structure CBlock extends CBlockHeader where
  vtx : List CTransaction
  deriving DecidableEq, Repr

namespace CBlock

def isProofOfStake (block : CBlock) : Bool := (block.vtx[1]?).any CTransaction.isCoinStake

/-- `-tx->sapData->valueBalance` of a shielded transaction. -/
def saplingValueOf (tx : CTransaction) : CAmount :=
  if tx.isShieldedTx then -(tx.sapData.elim 0 (·.valueBalance)) else 0

/-- `saplingValue` of `ReceivedBlockTransactions`. -/
def saplingValue (block : CBlock) : CAmount :=
  block.vtx.foldl (fun value tx => value + saplingValueOf tx) 0

end CBlock

structure CDiskBlockPos where
  nFile : Int
  nPos : Nat
  deriving DecidableEq, Repr

/-! ## Status -/

def BLOCK_VALID_TREE : Nat := 2
def BLOCK_VALID_TRANSACTIONS : Nat := 3
def BLOCK_VALID_CHAIN : Nat := 4
def BLOCK_VALID_SCRIPTS : Nat := 5

/-- `nStatus`: the level under `BLOCK_VALID_MASK`, and the flags. -/
structure BlockStatus where
  valid : Nat := 0
  haveData : Bool := false
  haveUndo : Bool := false
  failedValid : Bool := false
  failedChild : Bool := false
  deriving DecidableEq, Repr

namespace BlockStatus

/-- `nStatus & BLOCK_FAILED_MASK`. -/
def failed (s : BlockStatus) : Bool := s.failedValid || s.failedChild

def isValid (s : BlockStatus) (nUpTo : Nat) : Bool := !s.failed && decide (nUpTo ≤ s.valid)

def raiseValidity (s : BlockStatus) (nUpTo : Nat) : BlockStatus :=
  if s.failed then s else if s.valid < nUpTo then { s with valid := nUpTo } else s

end BlockStatus

/-- `BLOCK_PROOF_OF_STAKE` in `nFlags`. -/
def BLOCK_PROOF_OF_STAKE : Nat := 1

/-! ## Entries -/

/-- The fields of an entry that are written to disk. -/
structure StoredIndex where
  hash : UInt256
  pprev : Option UInt256 := none
  nHeight : Nat := 0
  nFile : Int := 0
  nDataPos : Nat := 0
  nUndoPos : Nat := 0
  nTx : Nat := 0
  nStatus : BlockStatus := {}
  vStakeModifier : List UInt8 := []
  nFlags : Nat := 0
  nSaplingValue : CAmount := 0
  nVersion : Int := 0
  hashMerkleRoot : UInt256 := 0
  hashFinalSaplingRoot : UInt256 := 0
  nTime : Nat := 0
  nBits : Nat := 0
  nNonce : Nat := 0
  nAccumulatorCheckpoint : UInt256 := 0
  deriving DecidableEq, Repr

/-- An entry, with the fields that are in memory only. -/
structure CBlockIndex extends StoredIndex where
  pskip : Option UInt256 := none
  nChainWork : UInt256 := 0
  nChainTx : Nat := 0
  nChainSaplingValue : Option CAmount := none
  nSequenceId : Nat := 0
  nTimeMax : Nat := 0
  deriving DecidableEq, Repr

abbrev BlockMap := Lib.Map UInt256 CBlockIndex

namespace CBlockIndex

/-- `CBlockIndex(const CBlock&)` under the block's hash. -/
def ofBlock (block : CBlock) (hash : UInt256) : CBlockIndex where
  hash := hash
  nVersion := block.nVersion
  hashMerkleRoot := block.hashMerkleRoot
  hashFinalSaplingRoot := block.hashFinalSaplingRoot
  nTime := block.nTime
  nBits := block.nBits
  nNonce := block.nNonce
  nAccumulatorCheckpoint :=
    if hasAccumulator block.nVersion then block.nAccumulatorCheckpoint else 0
  nFlags := if block.isProofOfStake then BLOCK_PROOF_OF_STAKE else 0

/-- `pindex->pprev`, looked up. -/
def prev (e : CBlockIndex) (m : BlockMap) : Option CBlockIndex := e.pprev.bind m.lookup

end CBlockIndex

/-- `pprev` as a function of hashes. -/
def pprevOf (m : BlockMap) (hash : UInt256) : Option UInt256 := (m.lookup hash).bind (·.pprev)

/-! ## Work -/

/-- `SetCompact`: the target, and whether it is negative or overflows. -/
def setCompact (nCompact : Nat) : UInt256 × Bool × Bool :=
  let nSize := nCompact / 16777216
  let nWord := nCompact % 8388608
  let word := if nSize ≤ 3 then nWord / 2 ^ (8 * (3 - nSize)) else nWord
  let target : UInt256 :=
    if nSize ≤ 3 then BitVec.ofNat 256 word else BitVec.ofNat 256 word <<< (8 * (nSize - 3))
  (target, decide (word ≠ 0) && decide (nCompact / 8388608 % 2 = 1),
    decide (word ≠ 0) && (decide (34 < nSize) || (decide (0xff < word) && decide (33 < nSize)) ||
      (decide (0xffff < word) && decide (32 < nSize))))

def getBlockProof (nBits : Nat) : UInt256 :=
  let (bnTarget, fNegative, fOverflow) := setCompact nBits
  if fNegative || fOverflow || bnTarget == 0 then 0
  else BitVec.udiv (~~~bnTarget) (bnTarget + 1) + 1

/-! ## The skip list -/

/-- Turn the lowest one bit into a zero. -/
def invertLowestOne (n : Nat) : Nat := n &&& (n - 1)

/-- The height a skip pointer jumps back to. -/
def getSkipHeight (height : Nat) : Nat :=
  if height < 2 then 0
  else if height % 2 = 1 then invertLowestOne (invertLowestOne (height - 1)) + 1
  else invertLowestOne height

/-- One turn of `GetAncestor`: the skip pointer is followed unless the parent's is better. -/
def followsSkip (heightWalk height : Nat) : Bool :=
  let heightSkip := getSkipHeight heightWalk
  let heightSkipPrev := getSkipHeight (heightWalk - 1)
  heightSkip == height || (decide (height < heightSkip) &&
    !(decide (heightSkipPrev + 2 < heightSkip) && decide (height ≤ heightSkipPrev)))

/-- The loop of `GetAncestor`; every turn lowers the height, so `fuel` turns are enough when it
starts at that height. -/
def ancestorWalk (m : BlockMap) (height : Nat) : Nat → Nat → UInt256 → Option UInt256
  | 0, _, walk => some walk
  | fuel + 1, heightWalk, walk =>
    if height < heightWalk then
      (m.lookup walk).bind fun e =>
        if followsSkip heightWalk height then
          e.pskip.bind (ancestorWalk m height fuel (getSkipHeight heightWalk))
        else e.pprev.bind (ancestorWalk m height fuel (heightWalk - 1))
    else some walk

def CBlockIndex.getAncestor (e : CBlockIndex) (m : BlockMap) (height : Nat) : Option UInt256 :=
  if e.nHeight < height then none else ancestorWalk m height e.nHeight e.nHeight e.hash

def CBlockIndex.buildSkip (e : CBlockIndex) (m : BlockMap) : Option UInt256 :=
  (e.prev m).bind fun prev => prev.getAncestor m (getSkipHeight e.nHeight)

/-! ## The environment and the state -/

/-- What the index takes from the rest of the node. -/
structure ChainEnv where
  params : ConsensusParams
  /-- The hash of the serialized part of a header. -/
  hashHeader : CBlockHeader → UInt256
  /-- The stake modifier of a new block on a parent, and the flags that come with it. -/
  newStakeModifier : BlockMap → CBlock → CBlockIndex → List UInt8 × Nat
  /-- The order of entries in memory. -/
  address : UInt256 → Nat
  address_injective : Function.Injective address

def CBlock.getHash (env : ChainEnv) (block : CBlock) : UInt256 :=
  env.hashHeader block.toCBlockHeader.serialized

/-- The globals of `validation.cpp` about the index. `chainActive` is the list from the tip back
to the genesis block; `mapBlocksUnlinked` is in the order of insertion, which a multimap keeps for
each key. -/
structure ChainState where
  mapBlockIndex : BlockMap
  mapBlocksUnlinked : List (UInt256 × UInt256)
  setBlockIndexCandidates : List UInt256
  chainActive : List UInt256
  pindexBestInvalid : Option UInt256
  pindexBestHeader : Option UInt256
  nBlockSequenceId : Nat

namespace ChainState

/-- Nothing is known yet. Sequence ids start at one. -/
def init : ChainState := ⟨∅, [], [], [], none, none, 1⟩

variable (st : ChainState)

def entry (hash : UInt256) : Option CBlockIndex := st.mapBlockIndex.lookup hash

/-- `chainActive.Tip()`. -/
def tip : Option UInt256 := st.chainActive.head?

def tipEntry : Option CBlockIndex := st.tip.bind st.entry

/-- The hash that `chainActive[nHeight]` points to. -/
def hashAt (nHeight : Nat) : Option UInt256 := st.chainActive.reverse[nHeight]?

/-- `chainActive.Contains(pindex)`. -/
def activeContains (e : CBlockIndex) : Bool := st.hashAt e.nHeight == some e.hash

def modify (hash : UInt256) (f : CBlockIndex → CBlockIndex) : ChainState :=
  { st with mapBlockIndex := st.mapBlockIndex.modify hash f }

end ChainState

/-- `CBlockIndexWorkComparator`: `pa` sorts before `pb`. -/
def workLess (env : ChainEnv) (pa pb : CBlockIndex) : Bool :=
  if pb.nChainWork < pa.nChainWork then false
  else if pa.nChainWork < pb.nChainWork then true
  else if pa.nSequenceId < pb.nSequenceId then false
  else if pb.nSequenceId < pa.nSequenceId then true
  else decide (env.address pb.hash < env.address pa.hash)

/-! ## `AddToBlockIndex` -/

/-- A new entry on its parent, if the parent is known. The source has put the entry into the map
before it looks for the parent, which differs only for a header that names itself as its parent. -/
def linkToParent (env : ChainEnv) (m : BlockMap) (block : CBlock) (e : CBlockIndex) : CBlockIndex :=
  match m.lookup block.hashPrevBlock with
  | none => e
  | some prev =>
    let (vStakeModifier, nFlags) := env.newStakeModifier m block prev
    { e with
      pprev := some prev.hash
      nHeight := prev.nHeight + 1
      pskip := prev.getAncestor m (getSkipHeight (prev.nHeight + 1))
      vStakeModifier := vStakeModifier
      nFlags := e.nFlags ||| nFlags }

/-- The fields that accumulate along the chain, and the validity level. -/
def accumulate (m : BlockMap) (e : CBlockIndex) : CBlockIndex :=
  { e with
    nTimeMax := (e.prev m).elim e.nTime fun prev => max prev.nTimeMax e.nTime
    nChainWork := (e.prev m).elim 0 (·.nChainWork) + getBlockProof e.nBits
    nStatus := e.nStatus.raiseValidity BLOCK_VALID_TREE }

/-- The entry `AddToBlockIndex` makes. -/
def newEntry (env : ChainEnv) (m : BlockMap) (block : CBlock) : CBlockIndex :=
  accumulate m (linkToParent env m block (.ofBlock block (block.getHash env)))

/-- `pindexBestHeader` after a new entry. -/
def betterHeader (st : ChainState) (e : CBlockIndex) : Option UInt256 :=
  match st.pindexBestHeader.bind st.entry with
  | none => some e.hash
  | some best => if best.nChainWork < e.nChainWork then some e.hash else some best.hash

def addToBlockIndex (env : ChainEnv) (st : ChainState) (block : CBlock) : ChainState :=
  match st.entry (block.getHash env) with
  | some _ => st
  | none =>
    let e := newEntry env st.mapBlockIndex block
    { st with
      mapBlockIndex := st.mapBlockIndex.insert e.hash e
      pindexBestHeader := betterHeader st e }

/-! ## `ReceivedBlockTransactions` -/

def recordData (block : CBlock) (pos : CDiskBlockPos) (e : CBlockIndex) : CBlockIndex :=
  { e with
    nFlags := if block.isProofOfStake then e.nFlags ||| BLOCK_PROOF_OF_STAKE else e.nFlags
    nTx := block.vtx.length
    nChainTx := 0
    nSaplingValue := block.saplingValue
    nChainSaplingValue := none
    nFile := pos.nFile
    nDataPos := pos.nPos
    nUndoPos := 0
    nStatus := { e.nStatus with haveData := true }.raiseValidity BLOCK_VALID_TRANSACTIONS }

/-- `SetChainSaplingValue`. -/
def chainSaplingValue (prev : Option CBlockIndex) (e : CBlockIndex) : Option CAmount :=
  match prev with
  | none => some e.nSaplingValue
  | some prev => prev.nChainSaplingValue.map (· + e.nSaplingValue)

/-- `pprev == NULL || pprev->nChainTx`. -/
def parentLinked (m : BlockMap) (e : CBlockIndex) : Bool := (e.prev m).all (·.nChainTx ≠ 0)

/-- An entry taken from the queue: its chain totals and its sequence id. -/
def linkEntry (m : BlockMap) (nSequenceId : Nat) (e : CBlockIndex) : CBlockIndex :=
  { e with
    nChainTx := (e.prev m).elim 0 (·.nChainTx) + e.nTx
    nChainSaplingValue := chainSaplingValue (e.prev m) e
    nSequenceId := nSequenceId }

/-- `setBlockIndexCandidates.insert`. -/
def insertCandidate (hash : UInt256) (candidates : List UInt256) : List UInt256 :=
  candidates.insert hash

/-- `chainActive.Tip() == NULL || !value_comp()(pindex, chainActive.Tip())`. -/
def notWorse (env : ChainEnv) (st : ChainState) (e : CBlockIndex) : Bool :=
  st.tipEntry.all fun tip => !workLess env e tip

def waiting (st : ChainState) (hash : UInt256) : List UInt256 :=
  (st.mapBlocksUnlinked.filter (·.1 = hash)).map (·.2)

/-- One turn of the queue, without the blocks it appends. -/
def linkStep (env : ChainEnv) (st : ChainState) (hash : UInt256) : ChainState :=
  match st.entry hash with
  | none => st
  | some e =>
    let e := linkEntry st.mapBlockIndex st.nBlockSequenceId e
    -- The tip may be this very entry, so it is compared as it is after the update.
    let st := { st with
      mapBlockIndex := st.mapBlockIndex.insert hash e
      nBlockSequenceId := st.nBlockSequenceId + 1 }
    { st with
      setBlockIndexCandidates :=
        if notWorse env st e then insertCandidate hash st.setBlockIndexCandidates
        else st.setBlockIndexCandidates
      mapBlocksUnlinked := st.mapBlocksUnlinked.filter (·.1 ≠ hash) }

/-- The queue. Every turn takes a block off it, and blocks join it only by leaving
`mapBlocksUnlinked`, so the sum of the two lengths is enough fuel. -/
def linkQueue (env : ChainEnv) : Nat → List UInt256 → ChainState → ChainState
  | _, [], st => st
  | 0, _ :: _, st => st
  | fuel + 1, hash :: queue, st =>
    linkQueue env fuel (queue ++ waiting st hash) (linkStep env st hash)

def receivedBlockTransactions (env : ChainEnv) (st : ChainState) (block : CBlock)
    (hash : UInt256) (pos : CDiskBlockPos) : ChainState :=
  match st.entry hash with
  | none => st
  | some e =>
    let st' := st.modify hash (recordData block pos)
    if parentLinked st.mapBlockIndex e then
      linkQueue env (st'.mapBlocksUnlinked.length + 1) [hash] st'
    else
      match e.prev st.mapBlockIndex with
      | none => st'
      | some prev =>
        if prev.nStatus.isValid BLOCK_VALID_TREE then
          { st' with mapBlocksUnlinked := st'.mapBlocksUnlinked ++ [(prev.hash, hash)] }
        else st'

end Passion.Chain
