import Passion.Chain.Accept
import Passion.Script.Delegation
import Passion.Stake.Kernel

/-!
# The proof of stake of a block

`CheckProofOfStake` of `kernel.cpp`, with the stake inputs of `stakeinput.cpp` and `zpos.cpp`: the
staked output is looked up in the active chain, checked against the height and the time of the new
block, hashed into the kernel, and spent by a signature.

The depth of the staked output is part of the contextual check, but only behind an upgrade. On the
main network that upgrade, `UPGRADE_ZC_PUBLIC`, is never reached, while the rule that the depth
belongs to, `UPGRADE_V3_4`, is active from the first proof-of-stake block on.

Main result: `stakeDepthEnforced_iff`.
-/

namespace Passion

namespace ConsensusParams

variable (params : ConsensusParams)

def nStakeMinAge : Nat :=
  match params.network with
  | .main => 60
  | .testnet => 60 * 60
  | .regtest => 0

def nStakeMinDepth : Int :=
  match params.network with
  | .main => 6
  | .testnet => 100
  | .regtest => 2

def heightLastZCAccumCheckpoint : Int :=
  match params.network with
  | .main => intMax
  | .testnet => -1
  | .regtest => 310

def zcMinStakeDepth : Int :=
  match params.network with
  | .main | .testnet => 200
  | .regtest => 10

/-- `HasStakeMinAgeOrDepth`: an age before the stake modifier V2, a depth since. The sum of the
times is a `uint32_t`. -/
def hasStakeMinAgeOrDepth (contextHeight : Int) (contextTime : Nat) (utxoFromBlockHeight : Int)
    (utxoFromBlockTime : Nat) : Bool :=
  if !params.networkUpgradeActive contextHeight .v3_4 then
    decide ((utxoFromBlockTime + params.nStakeMinAge) % 4294967296 ≤ contextTime)
  else decide (params.nStakeMinDepth ≤ contextHeight - utxoFromBlockHeight)

end ConsensusParams

def STANDARD_SCRIPT_VERIFY_FLAGS : ScriptFlags :=
  SCRIPT_VERIFY_P2SH ||| SCRIPT_VERIFY_DERSIG ||| SCRIPT_VERIFY_STRICTENC |||
    SCRIPT_VERIFY_MINIMALDATA ||| SCRIPT_VERIFY_NULLDUMMY |||
    SCRIPT_VERIFY_DISCOURAGE_UPGRADABLE_NOPS ||| SCRIPT_VERIFY_LOW_S

def CTransaction.getRequiredSigVersion (tx : CTransaction) : SigVersion :=
  if tx.isSaplingVersion then .sapling else .base

open ConsensusParams

namespace Chain

/-! ## The active chain -/

namespace ChainState

variable (st : ChainState)

/-- `chainActive[nHeight]`; `none` is a null pointer. -/
def activeAt (nHeight : Int) : Option CBlockIndex :=
  if nHeight < 0 then none else (st.hashAt nHeight.toNat).bind st.entry

/-- The active chain is a path in the index, with each block at its height. -/
def ActiveChain : Prop :=
  ∀ i hash, st.hashAt i = some hash → ∃ e, st.entry hash = some e ∧ e.hash = hash ∧
    e.nHeight = i ∧ e.pprev = if i = 0 then none else st.hashAt (i - 1)

end ChainState

/-- `GetStakeModifierV2`, as the bytes of the `uint256`. -/
def CBlockIndex.getStakeModifierV2 (params : ConsensusParams) (e : CBlockIndex) : List UInt8 :=
  if e.vStakeModifier.isEmpty || !params.networkUpgradeActive e.nHeight .v3_4 then
    List.replicate 32 0
  else (e.vStakeModifier ++ List.replicate 32 0).take 32

/-! ## Stake inputs -/

def zerocoinDenomList : List Nat := [1, 5, 10, 50, 100, 500, 1000, 5000]

def parseAccChecksum (nCheckpoint : UInt256) (denom : Nat) : Nat :=
  match zerocoinDenomList.idxOf? denom with
  | none => 0
  | some pos => (nCheckpoint >>> (32 * (zerocoinDenomList.length - 1 - pos))).toNat % 4294967296

/-- `CStakeInput`, with `pindexFrom` as found when it was initialized. -/
inductive StakeInput where
  /-- `CPivStake`. -/
  | piv (outputFrom : CTxOut) (outpointFrom : COutPoint) (pindexFrom : CBlockIndex)
  /-- `CLegacyZPivStake`. -/
  | zpiv (nChecksum denom : Nat) (hashSerial : UInt256) (pindexFrom : CBlockIndex)
  deriving DecidableEq, Repr

namespace StakeInput

def getIndexFrom : StakeInput → CBlockIndex
  | piv _ _ pindexFrom | zpiv _ _ _ pindexFrom => pindexFrom

def getValue : StakeInput → CAmount
  | piv outputFrom _ _ => outputFrom.nValue
  | zpiv _ denom _ _ => denom * COIN

def getUniqueness : StakeInput → List UInt8
  | piv _ outpointFrom _ =>
    CScript.writeLE 4 outpointFrom.n ++ CScript.writeLE 32 outpointFrom.hash.toNat
  | zpiv _ _ hashSerial _ => CScript.writeLE 32 hashSerial.toNat

def getTxOutFrom : StakeInput → Option CTxOut
  | piv outputFrom _ _ => some outputFrom
  | zpiv .. => none

def isZPASSION : StakeInput → Bool
  | piv .. => false
  | zpiv .. => true

/-- `ContextCheck`. For a zerocoin stake the checksum is that of the accumulator at a fixed depth;
a null entry there is not checked for. -/
def contextCheck (params : ConsensusParams) (st : ChainState) (nHeight : Int) (nTime : Nat) :
    StakeInput → Bool
  | piv _ _ pindexFrom =>
    !(params.networkUpgradeActive (nHeight + 1) .zcPublic &&
      !params.hasStakeMinAgeOrDepth nHeight nTime pindexFrom.nHeight pindexFrom.nTime)
  | zpiv nChecksum denom _ _ =>
    params.networkUpgradeActive nHeight .zcV2 &&
      decide (nHeight < params.heightLastZCAccumCheckpoint) &&
      (st.activeAt (nHeight - 1 - params.zcMinStakeDepth)).any fun checkpoint =>
        parseAccChecksum checkpoint.nAccumulatorCheckpoint denom == nChecksum

end StakeInput

/-! ## `CheckProofOfStake` -/

/-- What the check asks of the rest of the node. -/
structure StakeEnv where
  params : ConsensusParams
  /-- `Hash` of bytes. -/
  hash : List UInt8 → UInt256
  mempool : UInt256 → Option CTransaction
  fTxIndex : Bool
  /-- `ReadTxIndex`: the transaction at the position found, and the hash of the header there. -/
  readTxIndex : UInt256 → Option (CTransaction × UInt256)
  /-- `AccessCoin` of `pcoinsTip`. -/
  accessCoin : COutPoint → Coin
  readBlockFromDisk : UInt256 → Option CBlock
  /-- What lies behind the end of the outputs of a transaction. -/
  beyondOut : CTxOut
  /-- `InitFromTxIn` of a zerocoin stake. -/
  zerocoinStake : ChainState → CTxIn → Option StakeInput
  zerocoinStake_isZPASSION : ∀ st txin stake, zerocoinStake st txin = some stake →
    stake.isZPASSION = true
  /-- `GetOldStakeModifier`, zero if it fails. -/
  getOldStakeModifier : ChainState → StakeInput → Nat
  crypto : ScriptCrypto
  signatureHash : CScript → CTransaction → Nat → UInt8 → CAmount → SigVersion → UInt256
  verifySignature : Valtype → Valtype → UInt256 → Bool
  checkLockTime : CTransaction → Int → Bool
  /-- `ScriptErrorString`. -/
  scriptErrorString : Failure → String

namespace StakeEnv

variable (env : StakeEnv)

/-- `AccessByTxid` of `pcoinsTip`: the first unspent output of a transaction. -/
def accessByTxid (txid : UInt256) : Coin :=
  (((List.range maxOutputsPerBlock).map fun n => env.accessCoin ⟨txid, n⟩).find?
    fun alternate => !alternate.isSpent).getD .empty

/-- `GetTransaction` with `fAllowSlow`: the transaction and the hash of its block, which stays null
for one of the mempool. -/
def getTransaction (st : ChainState) (hash : UInt256) : Option (CTransaction × UInt256) :=
  match env.mempool hash with
  | some tx => some (tx, 0)
  | none =>
    if env.fTxIndex then (env.readTxIndex hash).filter fun found => found.1.hash == hash
    else
      let coin := env.accessByTxid hash
      if coin.isSpent then none
      else do
        let pindexSlow ← st.activeAt coin.nHeight
        let block ← env.readBlockFromDisk pindexSlow.hash
        let tx ← block.vtx.find? fun tx => tx.hash == hash
        pure (tx, pindexSlow.hash)

/-- `NewPivStake`. The output is read whether or not it exists. -/
def newPivStake (st : ChainState) (txin : CTxIn) : Option StakeInput := do
  let (txPrev, hashBlock) ← env.getTransaction st txin.prevout.hash
  let pindexFrom ← (st.entry hashBlock).filter st.activeContains
  pure (.piv ((txPrev.vout[txin.prevout.n]?).getD env.beyondOut) txin.prevout pindexFrom)

/-- `block.vtx[1]->vin[0]`. -/
def stakeTxIn (block : CBlock) : Option CTxIn := (block.vtx[1]?).bind (·.vin[0]?)

def loadStakeInput (st : ChainState) (block : CBlock) (prev : CBlockIndex) : Option StakeInput :=
  if block.hashPrevBlock ≠ prev.hash then none
  else if !block.isProofOfStake then none
  else (stakeTxIn block).bind fun txin =>
    if txin.isZerocoinSpend then env.zerocoinStake st txin else env.newPivStake st txin

/-- The constructor of `CStakeKernel`. -/
def stakeKernel (st : ChainState) (prev : CBlockIndex) (stake : StakeInput) (nBits nTimeTx : Nat) :
    CStakeKernel where
  stakeModifier :=
    if !env.params.networkUpgradeActive (prev.nHeight + 1 : Nat) .v3_4 then
      CScript.writeLE 8 (env.getOldStakeModifier st stake)
    else prev.getStakeModifierV2 env.params
  nTimeBlockFrom := stake.getIndexFrom.nTime
  stakeUniqueness := stake.getUniqueness
  nTime := nTimeTx
  nBits := nBits
  stakeValue := stake.getValue

def verifyStakeInput (tx : CTransaction) (txin : CTxIn) (stakePrevout : CTxOut) :
    Except Failure Unit :=
  verifyScript env.crypto
    (TransactionSignatureChecker.toBase ⟨tx, 0, stakePrevout.nValue, env.signatureHash,
      env.verifySignature, env.checkLockTime tx⟩)
    tx.getRequiredSigVersion STANDARD_SCRIPT_VERIFY_FLAGS txin.scriptSig stakePrevout.scriptPubKey

/-- `CheckProofOfStake`; an error is `strError`. -/
def checkProofOfStake (st : ChainState) (block : CBlock) (prev : CBlockIndex) :
    Except String Unit :=
  let nHeight := prev.nHeight + 1
  match env.loadStakeInput st block prev with
  | none => .error "stake input initialization failed"
  | some stake =>
    if !stake.contextCheck env.params st nHeight block.nTime then
      .error "stake input failing contextual checks"
    else if !(env.stakeKernel st prev stake block.nBits block.nTime).checkKernelHash env.hash then
      .error "kernel hash check fails"
    else if stake.isZPASSION then .ok ()
    else
      match stake.getTxOutFrom, block.vtx[1]?, stakeTxIn block with
      | some stakePrevout, some tx, some txin =>
        (env.verifyStakeInput tx txin stakePrevout).mapError fun serror =>
          "signature fails: " ++ env.scriptErrorString serror
      | _, _, _ => .error "unable to get stake prevout for coinstake"

/-- What the transaction index points to is in a block on disk. -/
def TxIndexSound : Prop :=
  ∀ hash tx hashBlock, env.readTxIndex hash = some (tx, hashBlock) →
    ∃ block, env.readBlockFromDisk hashBlock = some block ∧ tx ∈ block.vtx

variable {env}

theorem contextCheck_of_checkProofOfStake {st : ChainState} {block : CBlock} {prev : CBlockIndex}
    {stake : StakeInput} (hload : env.loadStakeInput st block prev = some stake)
    (hcheck : env.checkProofOfStake st block prev = .ok ()) :
    stake.contextCheck env.params st (prev.nHeight + 1 : Nat) block.nTime = true := by
  by_contra hcontext
  simp only [checkProofOfStake, hload, Bool.eq_false_iff.mpr hcontext] at hcheck
  cases hcheck

end StakeEnv

/-! ## The depth of a stake on the main network -/

/-- Every proof of stake that the main network accepts for a height stakes an output that was
created `nStakeMinDepth` blocks below, or deeper. -/
def StakeDepthEnforced (nHeight : Nat) : Prop :=
  ∀ (env : StakeEnv) (st : ChainState) (block : CBlock) (prev : CBlockIndex) (stake : StakeInput),
    env.params = .main → env.TxIndexSound → st.ActiveChain →
    st.entry block.hashPrevBlock = some prev → prev.nHeight + 1 = nHeight →
    env.checkProofOfStake st block prev = .ok () →
    env.loadStakeInput st block prev = some stake →
    main.nStakeMinDepth ≤ (nHeight : Int) - stake.getIndexFrom.nHeight

theorem networkUpgradeActive_iff {params : ConsensusParams} {nHeight : Int} {idx : UpgradeIndex}
    (hset : params.nActivationHeight idx ≠ noActivationHeight) :
    params.networkUpgradeActive nHeight idx = true ↔ params.nActivationHeight idx ≤ nHeight := by
  rw [networkUpgradeActive, if_neg hset, decide_eq_true_iff]

/-- No zerocoin stake passes on the main network: the upgrade it needs comes after the last
height at which it is allowed. -/
theorem StakeInput.zpiv_refused_on_main (st : ChainState) (nHeight : Int) (nTime : Nat)
    (nChecksum denom : Nat) (hashSerial : UInt256) (pindexFrom : CBlockIndex) :
    (zpiv nChecksum denom hashSerial pindexFrom).contextCheck .main st nHeight nTime =
      false := by
  by_cases hactive : main.networkUpgradeActive nHeight .zcV2 = true
  · have hlate : ¬ nHeight < main.heightLastZCAccumCheckpoint :=
      not_lt.mpr ((networkUpgradeActive_iff (by decide)).mp hactive)
    simp [contextCheck, hlate]
  · simp [contextCheck, hactive]

theorem StakeInput.depth_of_contextCheck {stake : StakeInput} {st : ChainState} {nHeight : Int}
    {nTime : Nat} (hpublic : intMax ≤ nHeight + 1)
    (hcheck : stake.contextCheck .main st nHeight nTime = true) :
    main.nStakeMinDepth ≤ nHeight - stake.getIndexFrom.nHeight := by
  cases stake with
  | zpiv nChecksum denom hashSerial pindexFrom =>
    rw [zpiv_refused_on_main] at hcheck
    cases hcheck
  | piv outputFrom outpointFrom pindexFrom =>
    have hlate : 51 ≤ nHeight := by
      simp only [intMax] at hpublic
      omega
    have hv34 : main.networkUpgradeActive nHeight .v3_4 = true :=
      (networkUpgradeActive_iff (by decide)).mpr hlate
    have hactive : main.networkUpgradeActive (nHeight + 1) .zcPublic = true :=
      (networkUpgradeActive_iff (by decide)).mpr hpublic
    simpa [contextCheck, hactive, hasStakeMinAgeOrDepth, hv34, getIndexFrom]
      using hcheck

/-! ### A stake of the parent's output -/

open AcceptSample (entryAt transaction blockOf coinbase hashAt nodup_hashAt)

namespace StakeSample

def index (n : Nat) (hn : n ≤ 2 ^ 255) : BlockMap where
  entries := (List.range n).map fun h => ⟨hashAt h, entryAt h⟩
  nodupKeys := by
    rw [List.NodupKeys, List.keys, List.map_map]
    exact nodup_hashAt hn

/-- An active chain of `n` blocks. -/
def chain (n : Nat) (hn : n ≤ 2 ^ 255) : ChainState :=
  { ChainState.init with
    mapBlockIndex := index n hn
    chainActive := ((List.range n).map hashAt).reverse }

variable {n : Nat} (hn : n ≤ 2 ^ 255)

variable {i : Nat}

theorem entry_chain (hi : i < n) : (chain n hn).entry (hashAt i) = some (entryAt i) := by
  refine AList.mem_lookup_iff.mpr ?_
  exact List.mem_map.mpr ⟨i, List.mem_range.mpr hi, rfl⟩

theorem hashAt_chain (i : Nat) :
    (chain n hn).hashAt i = if i < n then some (hashAt i) else none := by
  simp only [ChainState.hashAt, chain]
  by_cases hi : i < n
  · simp [hi]
  · simp [hi]

theorem activeChain_chain : (chain n hn).ActiveChain := by
  intro i hash hhash
  rw [hashAt_chain] at hhash
  by_cases hi : i < n
  · obtain rfl : hashAt i = hash := by simpa [hi] using hhash
    refine ⟨entryAt i, entry_chain hn hi, rfl, rfl, ?_⟩
    have hpred : i - 1 < n := by omega
    simp only [hashAt_chain, hpred]
    rfl
  · simp [hi] at hhash

def funding : CTransaction := { transaction ⟨5, 0⟩ [] (100 * COIN) with hash := 7 }

def coinstake : CTransaction :=
  { transaction ⟨7, 0⟩ [] 0 with vout := [⟨0, []⟩, ⟨100 * COIN, [0x51]⟩] }

/-- A block on `prev` that holds the transactions. -/
def blockOn (prev : UInt256) (vtx : List CTransaction) : CBlock :=
  { blockOf vtx with hashPrevBlock := prev, nBits := 0x1e0fffff }

/-- A node with a transaction index, where `funding` is in the block `hashBlock`. The kernel hashes
are zero. -/
def env (params : ConsensusParams) (hashBlock : UInt256) : StakeEnv where
  params := params
  hash _ := 0
  mempool _ := none
  fTxIndex := true
  readTxIndex _ := some (funding, hashBlock)
  accessCoin _ := .empty
  readBlockFromDisk _ := some (blockOn 0 [coinbase, funding])
  beyondOut := .null
  zerocoinStake _ _ := none
  zerocoinStake_isZPASSION _ _ _ h := absurd h.symm (Option.some_ne_none _)
  getOldStakeModifier _ _ := 0
  crypto := .sample
  signatureHash _ _ _ _ _ _ := 0
  verifySignature _ _ _ := true
  checkLockTime _ _ := true
  scriptErrorString _ := ""

variable (params : ConsensusParams)

theorem txIndexSound_env (hashBlock : UInt256) : (env params hashBlock).TxIndexSound := by
  intro hash tx hashBlock' hread
  obtain ⟨rfl, -⟩ : funding = tx ∧ hashBlock = hashBlock' := by simpa [env] using hread
  exact ⟨_, rfl, by simp [blockOn, blockOf]⟩

/-- The block at height `n` that stakes the output of `funding`. -/
def stakingBlock (n : Nat) : CBlock :=
  blockOn (hashAt (n - 1)) [coinbase, coinstake]

/-- The output of `funding` at height `i` of the chain. -/
def stakeOf (i : Nat) : StakeInput := .piv ⟨100 * COIN, [0x51]⟩ ⟨7, 0⟩ (entryAt i)

theorem loadStakeInput_chain (hi : i < n) :
    (env params (hashAt i)).loadStakeInput (chain n hn) (stakingBlock n)
      (entryAt (n - 1)) = some (stakeOf i) := by
  have hactive : (chain n hn).activeContains (entryAt i) = true := by
    simp only [ChainState.activeContains, hashAt_chain, entryAt, hi, if_true, beq_self_eq_true]
  have hpos : (stakingBlock n).isProofOfStake = true := rfl
  have htxin : StakeEnv.stakeTxIn (stakingBlock n) = some ⟨⟨7, 0⟩, [], 0⟩ := rfl
  have hspend : (⟨⟨7, 0⟩, [], 0⟩ : CTxIn).isZerocoinSpend = false := by decide
  have htx : (env params (hashAt i)).getTransaction (chain n hn) 7 =
      some (funding, hashAt i) := rfl
  have hpiv : (env params (hashAt i)).newPivStake (chain n hn) ⟨⟨7, 0⟩, [], 0⟩ =
      some (stakeOf i) := by
    simp only [StakeEnv.newPivStake, htx, Option.bind_eq_bind, Option.bind_some,
      entry_chain hn hi, Option.filter_some, hactive]
    rfl
  have hparent : (stakingBlock n).hashPrevBlock = (entryAt (n - 1)).hash := rfl
  simp only [StakeEnv.loadStakeInput, hparent, ne_eq, not_true_eq_false, if_false, hpos,
    Bool.not_true, Bool.false_eq_true, htxin, Option.bind_some, hspend, hpiv]

/-- Whatever its depth, the output is accepted where the contextual check passes. -/
theorem checkProofOfStake_chain (hi : i < n)
    (hcontext : (stakeOf i).contextCheck params (chain n hn) (n - 1 + 1 : Nat) 1600000000 = true) :
    (env params (hashAt i)).checkProofOfStake (chain n hn) (stakingBlock n)
      (entryAt (n - 1)) = .ok () := by
  have hkernel : ((env params (hashAt i)).stakeKernel (chain n hn) (entryAt (n - 1))
      (stakeOf i) 0x1e0fffff 1600000000).checkKernelHash (fun _ => 0) = true := by
    have hzero : decide (0 < weightedTarget 0x1e0fffff (100 * COIN)) = true := by decide +kernel
    exact hzero
  have hverify : (env params (hashAt i)).verifyStakeInput coinstake ⟨⟨7, 0⟩, [], 0⟩
      ⟨100 * COIN, [0x51]⟩ = .ok () := rfl
  simp only [StakeEnv.checkProofOfStake, loadStakeInput_chain hn params hi]
  rw [if_neg (by simpa [env, entryAt, stakingBlock, blockOn, blockOf] using hcontext),
    if_neg (by simpa [env, stakingBlock, blockOn, blockOf] using hkernel),
    if_neg (by simp [stakeOf, StakeInput.isZPASSION])]
  exact congrArg (Except.mapError _) hverify

end StakeSample

open StakeSample

/-- **The depth of a stake is enforced** at a height where `UPGRADE_V3_4` is active if and only if
`UPGRADE_ZC_PUBLIC` is active one block later, which is at the greatest height of all. -/
theorem stakeDepthEnforced_iff (nHeight : Nat)
    (hactive : ConsensusParams.main.networkUpgradeActive nHeight .v3_4 = true) :
    StakeDepthEnforced nHeight ↔ ConsensusParams.intMax ≤ nHeight + 1 := by
  constructor
  · intro henforced
    by_contra! hbelow
    simp only [intMax] at hbelow
    have hpos : (51 : Int) ≤ nHeight := (networkUpgradeActive_iff (by decide)).mp hactive
    have hn : nHeight ≤ 2 ^ 255 := by omega
    have hlast : nHeight - 1 < nHeight := by omega
    have hnext : nHeight - 1 + 1 = nHeight := by omega
    -- the output was created in the parent of the staking block
    have hinactive : main.networkUpgradeActive (nHeight + 1) .zcPublic =
        false := by
      rw [Bool.eq_false_iff, ne_eq, networkUpgradeActive_iff (by decide)]
      exact not_le.mpr hbelow
    have hcontext : (stakeOf (nHeight - 1)).contextCheck .main
        (chain nHeight hn) (nHeight - 1 + 1 : Nat) 1600000000 = true := by
      rw [hnext]
      simp only [stakeOf, StakeInput.contextCheck, hinactive, Bool.false_and,
        Bool.not_false]
    have hdepth := henforced (env .main (hashAt (nHeight - 1)))
      (chain nHeight hn) (stakingBlock nHeight)
      (entryAt (nHeight - 1)) (stakeOf (nHeight - 1)) rfl
      (txIndexSound_env _ _) (activeChain_chain hn)
      (entry_chain hn hlast) hnext
      (checkProofOfStake_chain hn .main hlast hcontext)
      (loadStakeInput_chain hn .main hlast)
    have hshallow : 6 ≤ (nHeight : Int) - (nHeight - 1 : Nat) := hdepth
    omega
  · intro hpublic env st block prev stake hmain _ _ _ hheight hcheck hload
    have hcontext := StakeEnv.contextCheck_of_checkProofOfStake hload hcheck
    rw [hmain, hheight] at hcontext
    exact StakeInput.depth_of_contextCheck hpublic hcontext

theorem stakeDepthEnforced_at_intMax :
    ConsensusParams.main.networkUpgradeActive (2147483646 : Nat) .v3_4 = true ∧
      StakeDepthEnforced 2147483646 :=
  ⟨by decide, (stakeDepthEnforced_iff 2147483646 (by decide)).mpr (by decide)⟩

open StakeSample in
/-- At height 60 of the main network a block stakes an output of its parent. -/
theorem parent_output_staked : ConsensusParams.main.networkUpgradeActive (60 : Nat) .v3_4 = true ∧
      (env .main (hashAt 59)).loadStakeInput (chain 60 (by decide)) (stakingBlock 60)
        (entryAt 59) = some (stakeOf 59) ∧
      (env .main (hashAt 59)).checkProofOfStake (chain 60 (by decide))
        (stakingBlock 60) (entryAt 59) = .ok () ∧
      ¬ ConsensusParams.main.nStakeMinDepth ≤ (60 : Int) - (stakeOf 59).getIndexFrom.nHeight :=
  ⟨by decide, loadStakeInput_chain _ .main (by decide),
    checkProofOfStake_chain _ .main (by decide) (by decide), by decide⟩

end Chain

end Passion
