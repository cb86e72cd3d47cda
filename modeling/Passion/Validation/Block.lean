import Passion.Coins.Chainstate
import Passion.Consensus.Params

/-!
# Blocks and their context-free checks

`CheckTransaction` of `consensus/tx_verify.cpp`, `SaplingValidation::CheckTransaction` of
`sapling/sapling_validation.cpp` and the parts of `CheckBlock` of `validation.cpp` that read the
transactions of a block. What they take from cryptography, from serialized sizes and from other
parts of the node is in `ValidationEnv`.
-/

namespace Passion

structure CBlock where
  vtx : List CTransaction
  hash : UInt256
  hashFinalSaplingRoot : UInt256
  nTime : Int

namespace CBlock

def isProofOfStake (block : CBlock) : Bool := (block.vtx[1]?).any CTransaction.isCoinStake

def isProofOfWork (block : CBlock) : Bool := !block.isProofOfStake

end CBlock

/-- The fields of `CBlockIndex` that connecting and disconnecting read. A block hash is not null:
the null hash stands for "no block" throughout the source. -/
structure CBlockIndex where
  hash : UInt256
  hash_ne_zero : hash ≠ 0
  nHeight : Nat
  hashFinalSaplingRoot : UInt256
  nChainSaplingValue : Option CAmount

/-- What validation asks of the rest of the node. -/
structure ValidationEnv where
  params : ConsensusParams
  hashGenesisBlock : UInt256
  /-- `chainActive.Height()`. -/
  chainHeight : Int
  isInitialBlockDownload : Bool
  /-- The reason for which proof of work, Merkle root, sizes, payees, cold stake output, signature
  operations or signature of a block are refused, if they are. -/
  checkBlockRest : CBlock → Option String
  /-- `tx.GetTotalSize() <= nMaxSize`. -/
  checkSize : CTransaction → Bool
  isPayToColdStaking : CScript → Bool
  fColdStakingActive : Bool
  checkZerocoinSpend : CTransaction → Bool
  /-- `GetSigOpCount(false)` of a script. -/
  sigOpCount : CScript → Nat
  /-- `GetSigOpCount(scriptSig)` of a pay-to-script-hash output, and nothing for others. -/
  p2shSigOpCount : CScript → CScript → Nat
  /-- `nTime > GetSporkValue(SPORK_16_ZEROCOIN_MAINTENANCE_MODE)`. -/
  zerocoinMaintenance : Int → Bool
  /-- `nTime > GetSporkValue(SPORK_20_SAPLING_MAINTENANCE)`. -/
  saplingMaintenance : Int → Bool
  /-- The error for which the mints of a transaction are refused, if they are. -/
  checkZerocoinMints : CTransaction → Option String
  /-- The zerocoin spends of a transaction at a height: why they are refused, or the values of
  their denominations. -/
  zerocoinSpends : CTransaction → Nat → Except String (List CAmount)
  /-- `Checkpoints::GetTotalBlocksEstimate()`. -/
  totalBlocksEstimate : Nat
  /-- `CScriptCheck` of an input against the output it spends. -/
  scriptCheck : CTransaction → Nat → CTxOut → Bool
  /-- `masternodeSync.IsSynced()`. -/
  isSynced : Bool
  /-- `IsSporkActive(SPORK_13_ENABLE_SUPERBLOCKS)`. -/
  superblocksActive : Bool
  getExpectedPayeeAmount : Nat → Option CAmount
  /-- `invalid_out::ContainsOutPoint`. -/
  containsOutPoint : COutPoint → Bool
  /-- The zerocoins of a transaction were erased from the zerocoin database. -/
  eraseZerocoins : CTransaction → Bool

namespace ValidationEnv

variable (env : ValidationEnv)

def upgradeActive (nHeight : Int) (idx : UpgradeIndex) : Bool :=
  env.params.networkUpgradeActive nHeight idx

/-- A synced mainnet node for closed examples, which accepts whatever is not computed here. -/
def sample (chainHeight : Int) : ValidationEnv where
  params := .main
  hashGenesisBlock := 0
  chainHeight
  isInitialBlockDownload := false
  checkBlockRest _ := none
  checkSize _ := true
  isPayToColdStaking _ := false
  fColdStakingActive := true
  checkZerocoinSpend _ := true
  sigOpCount _ := 0
  p2shSigOpCount _ _ := 0
  zerocoinMaintenance _ := false
  saplingMaintenance _ := false
  checkZerocoinMints _ := none
  zerocoinSpends _ _ := .ok []
  totalBlocksEstimate := 0
  scriptCheck _ _ _ := true
  isSynced := true
  superblocksActive := false
  getExpectedPayeeAmount _ := none
  containsOutPoint _ := false
  eraseZerocoins _ := true

end ValidationEnv

/-! ## Transactions -/

/-- Refuse unless the test holds, with the reject reason of the source, or the text of its error
where it gives no reason. -/
def require (test : Bool) (reason : String) : Except ChainError Unit :=
  if test then .ok () else .error (.invalid reason)

@[simp] theorem require_eq_ok {test : Bool} {reason : String} {u : Unit} :
    require test reason = .ok u ↔ test = true := by
  unfold require
  split_ifs with h <;> simp [h]

def refuse : Option String → Except ChainError Unit
  | none => .ok ()
  | some reason => .error (.invalid reason)

/-- `CheckTransactionWithoutProofVerification`: the value that moves into the shielded pool. -/
def checkShieldedData (params : ConsensusParams) (d : SaplingTxData) :
    Except ChainError CAmount := do
  require (!(d.vShieldedSpend.isEmpty && d.vShieldedOutput.isEmpty && d.valueBalance != 0))
    "bad-txns-valuebalance-nonzero"
  require (decide (d.valueBalance ≤ params.nMaxMoneyOut) &&
    decide (-params.nMaxMoneyOut ≤ d.valueBalance)) "bad-txns-valuebalance-toolarge"
  let nValueOut : CAmount := if d.valueBalance < 0 then -d.valueBalance else 0
  require (!decide (d.valueBalance < 0) || params.moneyRange nValueOut)
    "bad-txns-txouttotal-toolarge"
  require (!decide (0 < d.valueBalance) || params.moneyRange d.valueBalance)
    "bad-txns-txintotal-toolarge"
  require (decide (d.vShieldedSpend.map (·.nullifier)).Nodup)
    "bad-spend-description-nullifiers-duplicate"
  return nValueOut

/-- `SaplingValidation::CheckTransaction`. -/
def checkSapling (params : ConsensusParams) (tx : CTransaction) (fSaplingActive : Bool) :
    Except ChainError CAmount := do
  require (tx.isSaplingVersion || !tx.hasSaplingData) "bad-txns-form-not-sapling"
  if !tx.hasSaplingData then return 0
  require (!(tx.isCoinStake || tx.isCoinBase || tx.hasZerocoinSpendInputs ||
    tx.hasZerocoinMintOutputs)) "bad-txns-invalid-sapling"
  require fSaplingActive "bad-txns-invalid-sapling-act"
  match tx.sapData with
  | none => return 0
  | some d => checkShieldedData params d

def maxSpecialTxExtraPayload : Nat := 10000

/-- `CheckSpecialTx`; no type but the normal one is known. Before Sapling it refuses an extra
payload without a reason. -/
def checkSpecialTx (tx : CTransaction) (fSaplingActive : Bool) : Except ChainError Unit := do
  if !fSaplingActive then require (!tx.hasExtraPayload) ""
  else
    let normal := decide (tx.nType = CTransaction.typeNormal)
    require (tx.isSaplingVersion || normal) "bad-txns-type-version"
    if normal then require (!tx.hasExtraPayload) "bad-txns-type-payload"
    else
      require tx.hasExtraPayload "bad-txns-payload-empty"
      require (tx.extraPayload.all fun p => decide (p.length ≤ maxSpecialTxExtraPayload))
        "bad-txns-payload-oversize"
      require false "bad-tx-type"

/-- One turn of the output loop of `CheckTransaction`. -/
def checkOutput (env : ValidationEnv) (tx : CTransaction) (nValueOut : CAmount) (txout : CTxOut) :
    Except ChainError CAmount := do
  require (!(txout.isEmpty && !tx.isCoinBase && !tx.isCoinStake)) "bad-txns-vout-empty"
  require (decide (0 ≤ txout.nValue)) "bad-txns-vout-negative"
  require (decide (txout.nValue ≤ env.params.nMaxMoneyOut)) "bad-txns-vout-toolarge"
  -- both terms are in range, so the 64-bit sum is the sum
  let nValueOut := nValueOut + txout.nValue
  require (env.params.moneyRange nValueOut) "bad-txns-txouttotal-toolarge"
  if env.isPayToColdStaking txout.scriptPubKey then
    require env.fColdStakingActive "cold-stake-inactive"
    require (decide (COIN ≤ txout.nValue)) "cold-stake-vout-toosmall"
  return nValueOut

/-- The input loop of `CheckTransaction`: the outpoints of zerocoin spends are not recorded. -/
def noDuplicateInputs : List COutPoint → List CTxIn → Bool
  | _, [] => true
  | seen, txin :: vin =>
    !decide (txin.prevout ∈ seen) &&
      noDuplicateInputs (if txin.isZerocoinSpend then seen else txin.prevout :: seen) vin

def checkTransaction (env : ValidationEnv) (tx : CTransaction) (fZerocoinActive : Bool)
    (fSaplingActive : Bool) : Except ChainError Unit := do
  require (!(tx.vin.isEmpty && tx.sapData.any fun d => d.vShieldedSpend.isEmpty))
    "bad-txns-vin-empty"
  require (!(tx.vout.isEmpty && tx.sapData.any fun d => d.vShieldedOutput.isEmpty))
    "bad-txns-vout-empty"
  require (!fSaplingActive || (decide (1 ≤ tx.nVersion) && decide (tx.nVersion < 4)))
    "bad-tx-version-too-high"
  require (env.checkSize tx) "bad-txns-oversize"
  let nValueOut ← checkSapling env.params tx fSaplingActive
  checkSpecialTx tx fSaplingActive
  let _ ← tx.vout.foldlM (checkOutput env tx) nValueOut
  require (noDuplicateInputs [] tx.vin) "bad-txns-inputs-duplicate"
  if fZerocoinActive then
    require (decide ((tx.vin.filter fun txin =>
      txin.isZerocoinSpend && !txin.isZerocoinPublicSpend).length ≤ env.params.zcMaxSpendsPerTx))
      "CheckTransaction() : there are more zerocoin spends than are allowed in one transaction"
    if tx.hasZerocoinSpendInputs then
      require (tx.vin.all fun txin => txin.isZerocoinSpend || txin.isZerocoinPublicSpend)
        "CheckTransaction() : zerocoinspend contains inputs that are not zerocoins"
      require (env.checkZerocoinSpend tx) "CheckTransaction() : invalid zerocoin spend"
  if tx.isCoinBase then
    require (tx.vin.all fun txin =>
      decide (2 ≤ txin.scriptSig.length) && decide (txin.scriptSig.length ≤ 150)) "bad-cb-length"
  else if fZerocoinActive && tx.hasZerocoinSpendInputs then
    require (decide (tx.vin.length ≤ if tx.hasZerocoinPublicSpendInputs then
      env.params.zcMaxPublicSpendsPerTx else env.params.zcMaxSpendsPerTx)) "bad-zc-spend-max-inputs"
  else
    require (!tx.vin.any fun txin =>
      txin.prevout.isNull && (fZerocoinActive && !txin.isZerocoinSpend)) "bad-txns-prevout-null"

/-! ## Blocks -/

def checkBlock (env : ValidationEnv) (block : CBlock) : Except ChainError Unit := do
  refuse (env.checkBlockRest block)
  require ((block.vtx[0]?).any CTransaction.isCoinBase) "bad-cb-missing"
  require (!(block.vtx.drop 1).any CTransaction.isCoinBase) "bad-cb-multiple"
  if block.isProofOfStake then
    require ((block.vtx[0]?).any fun tx =>
      match tx.vout with
      | [out] => out.isEmpty
      | _ => false) "bad-cb-pos"
    require (!(block.vtx.drop 2).any CTransaction.isCoinStake) "bad-cs-multiple"
  let fZerocoinActive := decide (env.params.zcTimeStart < block.nTime)
  let fSaplingActive := env.upgradeActive (env.chainHeight + 1) .v5_0
  block.vtx.forM fun tx => do
    checkTransaction env tx fZerocoinActive fSaplingActive
    require (!(fSaplingActive && tx.containsZerocoins))
      "CheckBlock : v5 upgrade enforced, zerocoin disabled"

/-! ## The value of a block -/

def getTotalBudget (params : ConsensusParams) (nHeight : Int) : CAmount :=
  (getBlockValue params.network nHeight).tdiv 5 * params.nBudgetCycleBlocks

/-- What `IsBlockValueValid` adds to the expected value, or `none` where it accepts without a
comparison: a testnet node that is not synced, at the heights of superblocks. The amount of a payee
is a 64-bit variable. -/
def budgetAllowance (env : ValidationEnv) (nHeight : Nat) : Option CAmount :=
  if !env.isSynced then
    if (nHeight : Int) % env.params.nBudgetCycleBlocks < 100 then
      if env.params.network = .testnet then none else some (getTotalBudget env.params nHeight)
    else some 0
  else if env.superblocksActive then some (wrap64 ((env.getExpectedPayeeAmount nHeight).getD 0))
  else some 0

def isBlockValueValid (env : ValidationEnv) (nHeight : Nat) (nExpectedValue nMinted : CAmount) :
    Bool :=
  match budgetAllowance env nHeight with
  | none => true
  | some allowance => decide (nMinted ≤ wrap64 (nExpectedValue + allowance))

end Passion
