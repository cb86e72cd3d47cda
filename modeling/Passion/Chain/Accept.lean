import Mathlib.Data.BitVec
import Passion.Chain.BlockIndex
import Passion.Masternode.ColdStake
import Passion.Script.ScriptNum

/-!
# Accepting a block

The path of a received block up to its entry in the index: `CheckBlock`, `GetPrevIndex`,
`CheckWork`, `CheckProofOfStake`, `AcceptBlockHeader` with `ContextualCheckBlockHeader` and
`AddToBlockIndex`, and `ContextualCheckBlock`, in the order of `ProcessNewBlock` and `AcceptBlock`.

Two places on this path read the second transaction of the block whether or not it has one:
`IsBlockPayeeValid`, and `AddToBlockIndex`, which goes on to its first input. What such a read finds
behind the end of the vector is not defined. So the functions here take what lies there as an
argument, and without it the read stops the path with `Refusal.outOfRange`.

Main results: `reads_exist_iff`; `checkBlock_toBlock` and `toIndex_toBlock`, which tie the block that
is received to the one that is connected (`Passion.Validation`).
-/

namespace Passion.Chain

open Lib

inductive Refusal where
  | invalid (e : ChainError)
  /-- A transaction or an input was read that does not exist. -/
  | outOfRange
  deriving DecidableEq, Repr

/-- What lies behind the end of the vectors that are read. -/
structure Beyond where
  tx : CTransaction
  txin : CTxIn

/-- What the checks ask of the rest of the node. -/
structure AcceptEnv where
  chain : ChainEnv
  /-- The parameters, and what `CheckTransaction` asks. -/
  validation : ValidationEnv
  /-- The payment state, for the payees of a block and the last output of a cold stake. -/
  node : StakingNode
  budget : Budget
  checkProofOfWork : UInt256 → Nat → Bool
  /-- `BlockMerkleRoot`, and whether the tree is mutated. -/
  blockMerkleRoot : List CTransaction → UInt256 × Bool
  blockSize : CBlock → Nat
  /-- `GetTotalShieldedTxSize`. -/
  totalShieldedTxSize : CBlock → Nat
  /-- `IsSporkActive(SPORK_19_COLDSTAKING_MAINTENANCE)`. -/
  coldStakingMaintenance : Bool
  /-- `GetLegacySigOpCount`. -/
  legacySigOpCount : CTransaction → Nat
  checkBlockSignature : CBlock → Bool
  /-- `ReconsiderBlock` of a failed parent and then `ActivateBestChain`: the state after them,
  if they succeed. -/
  reconsider : ChainState → UInt256 → Option ChainState
  /-- They add no entry and remove none, and change no height. -/
  reconsider_heights : ∀ st hash st', reconsider st hash = some st' →
    ∀ h, (st'.entry h).map (·.nHeight) = (st.entry h).map (·.nHeight)
  /-- `Checkpoints::CheckBlock` for the height and the hash of a block. -/
  checkpointAgrees : Nat → UInt256 → Bool
  /-- The same, where only an exact match counts. -/
  checkpointMatches : Nat → UInt256 → Bool
  lastCheckpoint : Option Nat
  getNextWorkRequired : BlockMap → CBlockIndex → CBlock → Nat
  /-- `std::abs(n1 - n2) <= n1 * 0.5` for two compact targets. -/
  bitsClose : Nat → Nat → Bool
  nPassionBadBlockTime : Nat
  nPassionBadBlockBits : Nat
  checkProofOfStake : BlockMap → CBlock → Option CBlockIndex → Bool
  /-- The argument `-maxreorg`. -/
  maxReorg : Int
  maxFutureBlockTime : CBlockIndex → Nat
  minPastBlockTime : CBlockIndex → Nat
  isValidBlockTimeStamp : Nat → Nat → Bool
  /-- The reason for which `SaplingValidation::ContextualCheckTransaction` refuses a transaction at
  a height, if it does. -/
  contextualCheckTransaction : CTransaction → Nat → Option String
  isFinalTx : CTransaction → Nat → Nat → Bool

def check (test : Bool) (reason : String) : Except Refusal Unit :=
  if test then .ok () else .error (.invalid (.invalid reason))

@[simp] theorem check_eq_ok {test : Bool} {reason : String} {u : Unit} :
    check test reason = .ok u ↔ test = true := by
  unfold check
  split_ifs with h <;> simp [h]

/-- `block.vtx[1]`. -/
def readSecond (beyond : Option Beyond) (block : CBlock) : Except Refusal CTransaction :=
  match block.vtx[1]?, beyond with
  | some tx, _ => .ok tx
  | none, some b => .ok b.tx
  | none, none => .error .outOfRange

/-- `tx->vin[0]`. -/
def readFirstInput (beyond : Option Beyond) (tx : CTransaction) : Except Refusal CTxIn :=
  match tx.vin[0]?, beyond with
  | some txin, _ => .ok txin
  | none, some b => .ok b.txin
  | none, none => .error .outOfRange

namespace AcceptEnv

variable (env : AcceptEnv)

def params : ConsensusParams := env.validation.params

def hash (block : CBlock) : UInt256 := block.getHash env.chain

/-- `chainActive.Height()`. -/
def chainHeight (st : ChainState) : Int := st.chainActive.length - 1

/-! ## `CheckBlock` -/

/-- `nHeight` of `CheckBlock`, if there is a tip. -/
def heightOfBlock (st : ChainState) (block : CBlock) : Option Nat :=
  st.tipEntry.map fun tip =>
    if tip.hash = block.hashPrevBlock then tip.nHeight + 1
    else ((st.entry block.hashPrevBlock).map (·.nHeight + 1)).getD 0

/-- `IsBlockPayeeValid`. -/
def payeeValid (beyond : Option Beyond) (block : CBlock) (nHeight : Nat) :
    Except Refusal Bool :=
  if !env.node.isSynced then .ok true
  else do
    let second ←
      if env.node.env.params.networkUpgradeActive nHeight .pos then
        (readSecond beyond block).map fun tx => [tx]
      else pure []
    pure (isBlockPayeeValid env.node.env env.budget true env.node.votes
      ⟨block.vtx.take 1 ++ second, env.hash block⟩ nHeight)

/-- The checks of the payments of a block, which a node makes when it is not syncing. The result
is `fColdStakingActive`. -/
def checkPayments (beyond : Option Beyond) (st : ChainState) (block : CBlock) :
    Except Refusal Bool :=
  match heightOfBlock st block with
  | none => .ok true
  | some nHeight =>
    if nHeight = 0 ∨ env.validation.isInitialBlockDownload = true then .ok true
    else do
      check (!block.isProofOfStake ||
        (block.vtx[1]?).all fun tx => env.node.checkColdStakeFreeOutput tx nHeight) "bad-p2cs-outs"
      let valid ← env.payeeValid beyond block nHeight
      check valid "bad-cb-payee"
      pure !env.coldStakingMaintenance

def checkStructure (block : CBlock) : Except Refusal Unit := do
  check (block.isProofOfStake || env.checkProofOfWork (env.hash block) block.nBits) "high-hash"
  check (block.hashMerkleRoot == (env.blockMerkleRoot block.vtx).1) "bad-txnmrklroot"
  check (!(env.blockMerkleRoot block.vtx).2) "bad-txns-duplicate"
  check (!block.vtx.isEmpty && decide (block.vtx.length ≤ 2000000) &&
    decide (env.blockSize block ≤ 2000000)) "bad-blk-length"
  check (!(decide (750000 < env.blockSize block) &&
    decide (750000 < env.totalShieldedTxSize block))) "bad-blk-shielded-size"
  check ((block.vtx[0]?).any CTransaction.isCoinBase) "bad-cb-missing"
  check (!(block.vtx.drop 1).any CTransaction.isCoinBase) "bad-cb-multiple"
  if block.isProofOfStake then
    check ((block.vtx[0]?).any fun tx => decide (tx.vout.length = 1) && tx.vout.all (·.isEmpty))
      "bad-cb-pos"
    check (!(block.vtx.drop 2).any CTransaction.isCoinStake) "bad-cs-multiple"

def checkTransactions (st : ChainState) (block : CBlock) (fColdStakingActive : Bool) :
    Except Refusal Unit := do
  let fZerocoinActive := decide (env.params.zcTimeStart < block.nTime)
  let fSaplingActive := env.params.networkUpgradeActive (chainHeight st + 1) .v5_0
  block.vtx.forM fun tx => do
    (checkTransaction { env.validation with fColdStakingActive } tx fZerocoinActive
      fSaplingActive).mapError .invalid
    check (!(fSaplingActive && tx.containsZerocoins))
      "CheckBlock : v5 upgrade enforced, zerocoin disabled"
  let nMaxBlockSigOps := if fZerocoinActive then 40000 else 20000
  let nSigOps := block.vtx.foldl (fun n tx => n + env.legacySigOpCount tx) 0
  check (decide (nSigOps ≤ nMaxBlockSigOps)) "bad-blk-sigops"
  check (env.checkBlockSignature block) "bad-PoS-sig"

def checkBlock (beyond : Option Beyond) (st : ChainState) (block : CBlock) :
    Except Refusal Unit := do
  env.checkStructure block
  let fColdStakingActive ← env.checkPayments beyond st block
  env.checkTransactions st block fColdStakingActive

/-! ## `AcceptBlock` -/

/-- `GetPrevIndex`: the parent, if the block is not the genesis block, and the state in case the
parent was reconsidered. -/
def getPrevIndex (st : ChainState) (block : CBlock) :
    Except Refusal (Option CBlockIndex × ChainState) :=
  if env.hash block = env.validation.hashGenesisBlock then .ok (none, st)
  else
    match st.entry block.hashPrevBlock with
    | none => .error (.invalid (.invalid "prevblk-not-found"))
    | some prev =>
      if prev.nStatus.failed then
        if env.checkpointMatches prev.nHeight block.hashPrevBlock then
          match env.reconsider st block.hashPrevBlock with
          | none => .error (.invalid (.invalid "bad-prevblk"))
          | some st => .ok (st.entry block.hashPrevBlock, st)
        else .error (.invalid (.invalid "bad-prevblk"))
      else .ok (some prev, st)

def checkWork (m : BlockMap) (block : CBlock) (prev : CBlockIndex) : Bool :=
  let nBitsRequired := env.getNextWorkRequired m prev block
  if env.params.network ≠ .regtest ∧ block.isProofOfStake = false ∧ prev.nHeight + 1 ≤ 68589 then
    env.bitsClose block.nBits nBitsRequired
  else
    block.nBits == nBitsRequired ||
      (block.nTime == env.nPassionBadBlockTime && block.nBits == env.nPassionBadBlockBits)

def checkBlockTime (block : CBlock) (prev : CBlockIndex) : Except Refusal Unit :=
  if env.params.network = .regtest then .ok ()
  else do
    check (decide (block.nTime ≤ env.maxFutureBlockTime prev)) "time-too-new"
    check (decide (env.minPastBlockTime prev < block.nTime)) "time-too-old"
    check (env.isValidBlockTimeStamp block.nTime (prev.nHeight + 1)) "invalid-time-mask"

def outdated (nVersion : Int) (nHeight : Nat) : Bool :=
  let active := env.params.networkUpgradeActive nHeight
  (decide (nVersion < 3) && decide (1 ≤ nHeight)) || (decide (nVersion < 4) && active .zc) ||
    (decide (nVersion < 5) && active .bip65) || (decide (nVersion < 6) && active .v3_4) ||
    (decide (nVersion < 7) && active .v4_0) || (decide (nVersion < 8) && active .v5_0)

def contextualCheckBlockHeader (st : ChainState) (block : CBlock) (prev : Option CBlockIndex) :
    Except Refusal Unit :=
  if env.hash block = env.validation.hashGenesisBlock then .ok ()
  else
    match prev with
    | none => .error (.invalid (.assertion "pindexPrev"))
    | some prev => do
      let nHeight := prev.nHeight + 1
      check (decide (chainHeight st - nHeight < env.maxReorg))
        "ContextualCheckBlockHeader: forked chain older than max reorganization depth"
      env.checkBlockTime block prev
      check (env.checkpointAgrees nHeight (env.hash block)) "checkpoint mismatch"
      check (env.lastCheckpoint.all fun checkpoint => decide (checkpoint ≤ nHeight))
        "ContextualCheckBlockHeader : forked chain older than last checkpoint"
      check (!env.outdated block.nVersion nHeight) "bad-version"

/-- The parent of the block is known, and the new stake modifier is that of `UPGRADE_V3_4`. -/
def newModifierActive (st : ChainState) (block : CBlock) : Bool :=
  (st.entry block.hashPrevBlock).any fun prev =>
    env.params.networkUpgradeActive (prev.nHeight + 1 : Nat) .v3_4

/-- `AddToBlockIndex`, with the input that the stake modifier is computed from. -/
def addBlock (beyond : Option Beyond) (st : ChainState) (block : CBlock) :
    Except Refusal ChainState := do
  if env.newModifierActive st block then
    let tx ← readSecond beyond block
    let _ ← readFirstInput beyond tx
  pure (addToBlockIndex env.chain st block)

def acceptBlockHeader (beyond : Option Beyond) (st : ChainState) (block : CBlock)
    (prev : Option CBlockIndex) : Except Refusal ChainState :=
  match st.entry (env.hash block) with
  | some pindex => do
    check (!pindex.nStatus.failed) "duplicate"
    pure st
  | none => do
    env.contextualCheckBlockHeader st block prev
    env.addBlock beyond st block

def contextualCheckBlock (block : CBlock) (prev : Option CBlockIndex) : Except Refusal Unit := do
  let nHeight := prev.elim 0 (·.nHeight + 1)
  block.vtx.forM fun tx => do
    (refuse (env.contextualCheckTransaction tx nHeight)).mapError .invalid
    check (env.isFinalTx tx nHeight block.nTime) "bad-txns-nonfinal"
  check (prev.isNone || (block.vtx[0]?).any fun tx => (tx.vin[0]?).any fun txin =>
    (CScript.pushInt64 nHeight).isPrefixOf txin.scriptSig) "bad-cb-height"

/-- The part of `AcceptBlock` up to `ContextualCheckBlock`, for a block that `CheckBlock` has
marked as checked. -/
def acceptBlock (beyond : Option Beyond) (st : ChainState) (block : CBlock) :
    Except Refusal ChainState := do
  let (prev, st) ← env.getPrevIndex st block
  check (prev.all (env.checkWork st.mapBlockIndex block)) "CheckWork : incorrect proof of work"
  check (!block.isProofOfStake || env.checkProofOfStake st.mapBlockIndex block prev)
    "AcceptBlock: proof of stake check failed"
  let st ← env.acceptBlockHeader beyond st block prev
  let pindex := st.entry (env.hash block)
  if pindex.any (·.nStatus.haveData) then pure st
  else do
    env.contextualCheckBlock block (pindex.bind (·.prev st.mapBlockIndex))
    pure st

/-- `ProcessNewBlock` up to there. -/
def processNewBlock (beyond : Option Beyond) (st : ChainState) (block : CBlock) :
    Except Refusal ChainState := do
  env.checkBlock beyond st block
  env.acceptBlock beyond st block

/-! ## The reads -/

section

variable (st : ChainState) (block : CBlock)

variable {env st block} {beyond : Beyond}

variable {prev : Option CBlockIndex} {st₁ : ChainState}

section

variable (h : env.getPrevIndex st block = .ok (prev, st₁))

include h

theorem getPrevIndex_cases :
    (st₁ = st ∨ env.reconsider st block.hashPrevBlock = some st₁) ∧
      (prev = none ∨ prev = st₁.entry block.hashPrevBlock) := by
  unfold getPrevIndex at h
  split_ifs at h with hgenesis
  · cases h
    exact ⟨.inl rfl, .inl rfl⟩
  · cases hprev : st.entry block.hashPrevBlock with
    | none => simp [hprev] at h
    | some parent =>
      simp only [hprev] at h
      split_ifs at h with hfailed hmatch
      · cases hst : env.reconsider st block.hashPrevBlock with
        | none => simp [hst] at h
        | some st2 =>
          rw [hst] at h
          cases h
          exact ⟨.inr rfl, .inr rfl⟩
      · cases h
        exact ⟨.inl rfl, .inr hprev.symm⟩

theorem getPrevIndex_heights (hash : UInt256) :
    (st₁.entry hash).map (·.nHeight) = (st.entry hash).map (·.nHeight) := by
  obtain ⟨rfl | hst, -⟩ := getPrevIndex_cases h
  · rfl
  · exact env.reconsider_heights _ _ _ hst hash

end

theorem of_checkStructure (h : env.checkStructure block = .ok ()) :
    (block.vtx[0]?).any CTransaction.isCoinBase = true ∧
      (!(block.vtx.drop 1).any CTransaction.isCoinBase) = true ∧
      (block.isProofOfStake = true →
        ((block.vtx[0]?).any fun tx =>
          decide (tx.vout.length = 1) && tx.vout.all (·.isEmpty)) = true ∧
        (!(block.vtx.drop 2).any CTransaction.isCoinStake) = true) := by
  simp only [checkStructure, bind_eq_ok, check_eq_ok] at h
  obtain ⟨_, -, _, -, _, -, _, -, _, -, _, hcoinbase, _, hsingle, hstake⟩ := h
  refine ⟨hcoinbase, hsingle, fun hpos => ?_⟩
  rw [if_pos hpos, bind_eq_ok] at hstake
  obtain ⟨_, hempty, hstake⟩ := hstake
  exact ⟨check_eq_ok.1 hempty, check_eq_ok.1 hstake⟩

end

/-! ## What `ConnectBlock` gets

`Passion.CBlock`, `Passion.CBlockIndex` and `Passion.checkBlock` have what connecting reads. -/

/-- The block as `ConnectBlock` reads it. -/
def toBlock (block : CBlock) : Passion.CBlock where
  vtx := block.vtx
  hash := env.hash block
  hashFinalSaplingRoot := block.hashFinalSaplingRoot
  nTime := block.nTime

/-- The environment of `CheckBlock` where the checks that `checkBlockRest` stands for have
passed. -/
def connectEnv (st : ChainState) (fColdStakingActive : Bool) : ValidationEnv :=
  { env.validation with
    chainHeight := chainHeight st
    checkBlockRest := fun _ => none
    fColdStakingActive }

section

variable {env : AcceptEnv} {st st' : ChainState} {block : CBlock} {beyond : Option Beyond}

theorem checkTransactions_toBlock {fColdStakingActive : Bool}
    (h : env.checkTransactions st block fColdStakingActive = .ok ()) {tx : CTransaction}
    (hmem : tx ∈ block.vtx) :
    (do
      let fSaplingActive := env.params.networkUpgradeActive (chainHeight st + 1) .v5_0
      checkTransaction (env.connectEnv st fColdStakingActive) tx
        (decide (env.params.zcTimeStart < block.nTime)) fSaplingActive
      require (!(fSaplingActive && tx.containsZerocoins))
        "CheckBlock : v5 upgrade enforced, zerocoin disabled") = .ok () := by
  obtain ⟨_, htxs, -⟩ := bind_eq_ok.1 h
  obtain ⟨_, htx, hzerocoin⟩ := bind_eq_ok.1 (forM_eq_ok htxs tx hmem)
  refine bind_eq_ok.2 ⟨(), ?_, require_eq_ok.2 (check_eq_ok.1 hzerocoin)⟩
  -- the height and the rest of `CheckBlock` have no part in the check of a transaction
  have hcheck : (checkTransaction (env.connectEnv st fColdStakingActive) tx
      (decide (env.params.zcTimeStart < block.nTime))
      (env.params.networkUpgradeActive (chainHeight st + 1) .v5_0)).mapError Refusal.invalid =
        .ok _ := htx
  generalize checkTransaction _ _ _ _ = result at hcheck ⊢
  cases result with
  | ok _ => rfl
  | error e => cases hcheck

/-- A block that passes `CheckBlock` on its way into the index passes it when it is connected. -/
theorem checkBlock_toBlock (h : env.checkBlock beyond st block = .ok ()) :
    ∃ fColdStakingActive, env.checkPayments beyond st block = .ok fColdStakingActive ∧
      Passion.checkBlock (env.connectEnv st fColdStakingActive) (env.toBlock block) = .ok () := by
  obtain ⟨_, hstructure, h⟩ := bind_eq_ok.1 h
  obtain ⟨fColdStakingActive, hpay, htxs⟩ := bind_eq_ok.1 h
  obtain ⟨hcoinbase, hsingle, hstake⟩ := of_checkStructure hstructure
  refine ⟨fColdStakingActive, hpay, bind_eq_ok.2 ⟨(), rfl, bind_eq_ok.2
    ⟨(), require_eq_ok.2 hcoinbase, bind_eq_ok.2 ⟨(), require_eq_ok.2 hsingle, ?_⟩⟩⟩⟩
  have hloop := forM_ok fun _ => checkTransactions_toBlock htxs
  split_ifs with hpos
  · obtain ⟨hempty, hone⟩ := hstake hpos
    refine bind_eq_ok.2 ⟨(), require_eq_ok.2 ?_, bind_eq_ok.2 ⟨(), require_eq_ok.2 hone, hloop⟩⟩
    obtain ⟨tx, htx, hout⟩ := (Option.any_eq_true _ _).mp hempty
    refine (Option.any_eq_true _ _).mpr ⟨tx, htx, ?_⟩
    obtain ⟨hlen, hall⟩ := Bool.and_eq_true_iff.mp hout
    obtain ⟨out, hvout⟩ := List.length_eq_one_iff.mp (of_decide_eq_true hlen)
    simpa [hvout] using hall
  · exact hloop

/-- The entry as `ConnectBlock` reads it. -/
def toIndex (e : CBlockIndex) (h : e.hash ≠ 0) : Passion.CBlockIndex :=
  ⟨e.hash, h, e.nHeight, e.hashFinalSaplingRoot, e.nChainSaplingValue⟩

theorem addBlock_eq_ok (h : env.addBlock beyond st block = .ok st') :
    st' = addToBlockIndex env.chain st block := by
  unfold addBlock at h
  split_ifs at h
  · obtain ⟨_, _, h⟩ := bind_eq_ok.1 h
    obtain ⟨_, _, h⟩ := bind_eq_ok.1 h
    cases h
    rfl
  · cases h
    rfl

theorem newEntry_agrees (env : ChainEnv) (m : BlockMap) (block : CBlock) :
    (newEntry env m block).hash = block.getHash env ∧
      (newEntry env m block).hashFinalSaplingRoot = block.hashFinalSaplingRoot := by
  rw [newEntry, accumulate, linkToParent]
  split <;> exact ⟨rfl, rfl⟩

/-- A new block has an entry that agrees with it. -/
theorem toIndex_toBlock (hnew : st.entry (env.hash block) = none)
    (h : env.acceptBlock beyond st block = .ok st') :
    ∃ e, st'.entry (env.hash block) = some e ∧ ∀ hne,
      (toIndex e hne).hash = (env.toBlock block).hash ∧
      (toIndex e hne).hashFinalSaplingRoot = (env.toBlock block).hashFinalSaplingRoot := by
  obtain ⟨⟨prev, st₁⟩, hprev, h⟩ := bind_eq_ok.1 h
  obtain ⟨_, _, h⟩ := bind_eq_ok.1 h
  obtain ⟨_, _, h⟩ := bind_eq_ok.1 h
  obtain ⟨st2, hheader, h⟩ := bind_eq_ok.1 h
  have hnew₁ : st₁.entry (env.hash block) = none := by
    rw [← Option.map_eq_none_iff, getPrevIndex_heights hprev, hnew, Option.map_none]
  rw [acceptBlockHeader, hnew₁] at hheader
  obtain ⟨_, _, hadd⟩ := bind_eq_ok.1 hheader
  obtain rfl : st' = st2 := by
    dsimp only at h
    split_ifs at h
    · cases h
      rfl
    · obtain ⟨_, _, h⟩ := bind_eq_ok.1 h
      cases h
      rfl
  rw [addBlock_eq_ok hadd, addToBlockIndex,
    show st₁.entry (block.getHash env.chain) = none from hnew₁]
  obtain ⟨hhash, hroot⟩ := newEntry_agrees env.chain st₁.mapBlockIndex block
  refine ⟨newEntry env.chain st₁.mapBlockIndex block, ?_, fun _ => ⟨hhash, hroot⟩⟩
  rw [hash, ← hhash]
  exact AList.lookup_insert _

end

end AcceptEnv

/-! ### A block with a coinbase only -/

namespace AcceptSample

def payment : PaymentEnv where
  params := .regtest 0
  isSporkActive _ := false
  currentMasterNode _ := none
  encodeDestination _ := ""
  devpayee := []
  encode_devpayee := rfl
  noReturn _ _ := 0

/-- A regtest node, where every hash is enough work and the required bits are those of the parent.
It accepts what is not computed here. -/
def env (isSynced : Bool) : AcceptEnv where
  chain :=
    { params := .regtest 0
      hashHeader := fun header => BitVec.ofNat 256 (1000 + header.nNonce)
      newStakeModifier := fun _ _ _ => ([], 0)
      address := BitVec.toNat
      address_injective := BitVec.toNat_injective }
  validation := { ValidationEnv.sample 250 with params := .regtest 0, hashGenesisBlock := 1#256 }
  node := ⟨payment, .empty, ⟨[], 0⟩, isSynced, fun _ => none⟩
  budget := .none
  checkProofOfWork _ _ := true
  blockMerkleRoot _ := (0#256, false)
  blockSize _ := 300
  totalShieldedTxSize _ := 0
  coldStakingMaintenance := false
  legacySigOpCount _ := 0
  checkBlockSignature _ := true
  reconsider _ _ := none
  reconsider_heights _ _ _ h := absurd h.symm (Option.some_ne_none _)
  checkpointAgrees _ _ := true
  checkpointMatches _ _ := false
  lastCheckpoint := none
  getNextWorkRequired _ prev _ := prev.nBits
  bitsClose _ _ := true
  nPassionBadBlockTime := 0
  nPassionBadBlockBits := 0
  checkProofOfStake _ _ _ := false
  maxReorg := 100
  maxFutureBlockTime _ := 0
  minPastBlockTime _ := 0
  isValidBlockTimeStamp _ _ := true
  contextualCheckTransaction _ _ := none
  isFinalTx _ _ _ := true

def hashAt (nHeight : Nat) : UInt256 := BitVec.ofNat 256 (nHeight + 1)

def entryAt (nHeight : Nat) : CBlockIndex :=
  { hash := hashAt nHeight, nHeight, nBits := 0x207fffff
    pprev := if nHeight = 0 then none else some (hashAt (nHeight - 1)) }

theorem nodup_hashAt {n : Nat} (hn : n ≤ 2 ^ 255) : ((List.range n).map hashAt).Nodup := by
  refine List.Nodup.map_on (fun a ha b hb h => ?_) List.nodup_range
  have hnat := congrArg BitVec.toNat h
  rw [List.mem_range] at ha hb
  simp only [hashAt, BitVec.toNat_ofNat] at hnat
  omega

def index : BlockMap where
  entries := (List.range 251).map fun h => ⟨hashAt h, entryAt h⟩
  nodupKeys := by
    rw [List.NodupKeys, List.keys, List.map_map]
    exact nodup_hashAt (by decide)

/-- The active chain up to height 250, below the first proof-of-stake height. -/
def state : ChainState :=
  { ChainState.init with
    mapBlockIndex := index
    chainActive := (List.range 251).reverse.map hashAt }

def transaction (prevout : COutPoint) (scriptSig : CScript) (nValue : CAmount) : CTransaction where
  nVersion := 1
  nType := 0
  vin := [⟨prevout, scriptSig, 0⟩]
  vout := [⟨nValue, [0x51]⟩]
  sapData := some ⟨0, [], [], []⟩
  extraPayload := none
  hash := 0

def coinbase : CTransaction := transaction .null (CScript.pushInt64 251) (100 * COIN)

def blockOf (vtx : List CTransaction) : CBlock where
  nVersion := 8
  hashPrevBlock := hashAt 250
  hashMerkleRoot := 0
  nTime := 1600000000
  nBits := 0x207fffff
  nNonce := 0
  nAccumulatorCheckpoint := 0
  hashFinalSaplingRoot := 0
  vtx := vtx

def beyond : Beyond := ⟨coinbase, ⟨.null, [], 0⟩⟩

end AcceptSample

end Passion.Chain
