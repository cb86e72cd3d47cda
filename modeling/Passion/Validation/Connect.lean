import Passion.Validation.Block

/-!
# Connecting and disconnecting a block

`ConnectBlock` and `DisconnectBlock` of `validation.cpp` with the functions they call on a view,
as programs over the commands of a view. A connected block gives the undo data that is written to
disk, in the records of `undo.h`; what is written besides (transaction index, zerocoin database) is
not read back here.

All sums are 64-bit: `wrap64` is applied where the source adds without a range check.
-/

namespace Passion

open Lib (Prog)

namespace ViewM

def accessCoin (o : COutPoint) : ViewM Coin := Prog.call (ViewCmd.accessCoin o)
def haveCoin (o : COutPoint) : ViewM Bool := Prog.call (ViewCmd.haveCoin o)
def spendCoin (o : COutPoint) : ViewM Coin := Prog.call (ViewCmd.spendCoin o)
def addCoin (o : COutPoint) (coin : Coin) (possibleOverwrite : Bool) : ViewM Unit :=
  Prog.call (ViewCmd.addCoin o coin possibleOverwrite)
def getBestBlock : ViewM UInt256 := Prog.call ViewCmd.getBestBlock
def setBestBlock (hash : UInt256) : ViewM Unit := Prog.call (ViewCmd.setBestBlock hash)
def getBestAnchor : ViewM UInt256 := Prog.call ViewCmd.getBestAnchor
def getSaplingAnchorAt (rt : UInt256) : ViewM (Option SaplingMerkleTree) :=
  Prog.call (ViewCmd.getSaplingAnchorAt rt)
def getNullifier (nf : UInt256) : ViewM Bool := Prog.call (ViewCmd.getNullifier nf)
def setNullifiers (tx : CTransaction) (spent : Bool) : ViewM Unit :=
  Prog.call (ViewCmd.setNullifiers tx spent)
def pushAnchor (tree : SaplingMerkleTree) : ViewM Unit := Prog.call (ViewCmd.pushAnchor tree)
def popAnchor (rt : UInt256) : ViewM Unit := Prog.call (ViewCmd.popAnchor rt)

def check {α : Type} : Except ChainError α → ViewM α
  | .ok a => pure a
  | .error e => .throw e

end ViewM

open ViewM

/-! ## Inputs -/

def CTransaction.spendsCoins (tx : CTransaction) : Bool :=
  !tx.isCoinBase && !tx.hasZerocoinSpendInputs

theorem CTransaction.spendsCoins_iff {tx : CTransaction} : tx.spendsCoins = true ↔
    tx.isCoinBase = false ∧ tx.hasZerocoinSpendInputs = false := by
  simp [spendsCoins]

def haveCoins : List CTxIn → ViewM Bool
  | [] => pure true
  | txin :: vin => do if ← haveCoin txin.prevout then haveCoins vin else pure false

def haveInputs (tx : CTransaction) : ViewM Bool :=
  if tx.spendsCoins then haveCoins tx.vin else pure true

/-- The loop of `HaveShieldedRequirements`. -/
def haveSpendRequirements : List SpendDescription → ViewM Bool
  | [] => pure true
  | s :: spends => do
    if ← getNullifier s.nullifier then pure false
    else
      match ← getSaplingAnchorAt s.anchor with
      | none => pure false
      | some _ => haveSpendRequirements spends

def haveShieldedRequirements (tx : CTransaction) : ViewM Bool :=
  match tx.sapData with
  | none => pure true
  | some d => if tx.isShieldedTx then haveSpendRequirements d.vShieldedSpend else pure true

def liftValue {α : Type} : Except CTransaction.ValueError α → Except ChainError α
  | .ok a => .ok a
  | .error e => .error (.exception e.what)

/-- One turn of the loop of `GetValueIn`. -/
def addInputValue (nResult : CAmount) (txin : CTxIn) : ViewM CAmount := do
  let coin ← accessCoin txin.prevout
  return wrap64 (nResult + coin.out.nValue)

def getValueIn (tx : CTransaction) : ViewM CAmount := do
  if tx.isCoinBase then pure 0
  else if tx.hasZerocoinSpendInputs then pure tx.getZerocoinSpent
  else
    let nResult ← tx.vin.foldlM addInputValue 0
    return wrap64 (nResult + (← check (liftValue tx.getShieldedValueIn)))

def getP2SHSigOpCount (env : ValidationEnv) (tx : CTransaction) : ViewM Nat :=
  if tx.spendsCoins then
    tx.vin.foldlM (fun nSigOps txin => do
      let coin ← accessCoin txin.prevout
      return nSigOps + env.p2shSigOpCount coin.out.scriptPubKey txin.scriptSig) 0
  else pure 0

/-- One turn of the loop of `CheckTxInputs`. -/
def checkTxInput (env : ValidationEnv) (nSpendHeight : Nat) (nValueIn : CAmount) (txin : CTxIn) :
    ViewM CAmount := do
  let coin ← accessCoin txin.prevout
  if coin.isSpent then .throw (.assertion "!coin.IsSpent()")
  else
    check <| require (!((coin.fCoinBase || coin.fCoinStake) &&
      decide ((nSpendHeight : Int) - coin.nHeight < env.params.nCoinbaseMaturity)))
      "bad-txns-premature-spend-of-coinbase-coinstake"
    let nValueIn := wrap64 (nValueIn + coin.out.nValue)
    check <| require (env.params.moneyRange coin.out.nValue && env.params.moneyRange nValueIn)
      "bad-txns-inputvalues-outofrange"
    return nValueIn

def checkTxInputs (env : ValidationEnv) (tx : CTransaction) (nSpendHeight : Nat) : ViewM Unit := do
  check <| require (← haveInputs tx) ""
  check <| require (← haveShieldedRequirements tx) ""
  let nValueIn ← tx.vin.foldlM (checkTxInput env nSpendHeight) 0
  let nValueIn := wrap64 (nValueIn + (← check (liftValue tx.getShieldedValueIn)))
  if tx.isCoinStake then pure ()
  else
    let nValueOut ← check (liftValue tx.getValueOut)
    check <| require (!decide (nValueIn < nValueOut)) "bad-txns-in-belowout"
    let nTxFee := wrap64 (nValueIn - nValueOut)
    check <| require (!decide (nTxFee < 0)) "bad-txns-fee-negative"
    check <| require (env.params.moneyRange nTxFee) "bad-txns-fee-outofrange"

/-- `CheckInputs`. The script checks may be run later by other threads; a block is accepted only
if all succeed. -/
def checkInputs (env : ValidationEnv) (tx : CTransaction) (nSpendHeight : Nat)
    (fScriptChecks : Bool) : ViewM Unit := do
  if tx.spendsCoins then
    checkTxInputs env tx nSpendHeight
    if fScriptChecks then
      tx.vin.zipIdx.forM fun (txin, i) => do
        let coin ← accessCoin txin.prevout
        if coin.isSpent then .throw (.assertion "!coin.IsSpent()")
        else check <| require (env.scriptCheck tx i coin.out) "block-validation-failed"

/-! ## Updating the view -/

def skipInvalidUTXOS (env : ValidationEnv) (nHeight : Nat) : Bool :=
  decide (env.params.network = .main) && env.upgradeActive nHeight .zc &&
    decide ((nHeight : Int) ≤ env.params.heightLastInvalidUTXO)

/-- The coin of output `i` of a transaction. -/
def CTransaction.coinOf (tx : CTransaction) (nHeight : Nat) (out : CTxOut) : Coin :=
  ⟨tx.isCoinBase, tx.isCoinStake, out, nHeight⟩

/-- One turn of the loop of `AddCoins`, at output `i`. -/
def addOutput (env : ValidationEnv) (tx : CTransaction) (nHeight : Nat)
    (checkOverwrite fSkipInvalid : Bool) (out : CTxOut) (i : Nat) : ViewM Unit := do
  let o : COutPoint := ⟨tx.hash, i⟩
  if fSkipInvalid && env.containsOutPoint o then
    let _ ← spendCoin o
  else
    let overwrite ← if checkOverwrite then haveCoin o else pure false
    addCoin o (tx.coinOf nHeight out) overwrite

def addCoins (env : ValidationEnv) (tx : CTransaction) (nHeight : Nat)
    (checkOverwrite fSkipInvalid : Bool) : ViewM Unit :=
  tx.vout.zipIdx.forM fun p => addOutput env tx nHeight checkOverwrite fSkipInvalid p.1 p.2

/-- The input loop of `UpdateCoins`: the coins that are moved out. -/
def spendInputCoins (tx : CTransaction) : ViewM (List Coin) :=
  if tx.spendsCoins then tx.vin.mapM fun txin => spendCoin txin.prevout else pure []

/-- `UpdateCoins`: the coins that the inputs spent. -/
def updateCoins (env : ValidationEnv) (tx : CTransaction) (nHeight : Nat) (fSkipInvalid : Bool) :
    ViewM (List Coin) := do
  let vprevout ← spendInputCoins tx
  setNullifiers tx true
  addCoins env tx nHeight false fSkipInvalid
  return vprevout

/-! ## Undo data -/

/-- The undo data of a block: for each transaction after the first, the coins it spent. -/
abbrev CBlockUndo := List (List Coin)

/-- The record of a spent coin on disk: height and flags in one 32-bit code, whether a dummy version
follows it, and the output. -/
structure TxInUndo where
  nCode : Nat
  versionDummy : Bool
  out : CTxOut
  deriving DecidableEq, Repr

/-- `TxInUndoSerializer`. -/
def TxInUndo.serialize (c : Coin) : TxInUndo where
  nCode := (c.nHeight * 4 + (if c.fCoinBase then 2 else 0) + (if c.fCoinStake then 1 else 0)) %
    4294967296
  versionDummy := decide (0 < c.nHeight)
  out := c.out

/-- `TxInUndoDeserializer`. It expects the dummy after a positive height; a record that does not
have it there is read out of step, and the file is refused. -/
def TxInUndo.unserialize (r : TxInUndo) : Option Coin :=
  if r.versionDummy = decide (0 < r.nCode / 4) then
    some { nHeight := r.nCode / 4
           fCoinBase := decide (r.nCode / 2 % 2 = 1)
           fCoinStake := decide (r.nCode % 2 = 1)
           out := r.out }
  else none

abbrev DiskUndo := List (List TxInUndo)

def undoWriteToDisk (blockundo : CBlockUndo) : DiskUndo :=
  blockundo.map fun txundo => txundo.map TxInUndo.serialize

def undoReadFromDisk (undo : DiskUndo) : Option CBlockUndo :=
  undo.mapM fun txundo => txundo.mapM TxInUndo.unserialize

/-! ## ConnectBlock -/

structure ConnectState where
  nFees : CAmount
  nSigOps : Nat
  nValueOut : CAmount
  nValueIn : CAmount
  saplingTree : SaplingMerkleTree
  vtxundo : CBlockUndo

def getLegacySigOpCount (env : ValidationEnv) (tx : CTransaction) : Nat :=
  (tx.vin.map fun txin => env.sigOpCount txin.scriptSig).sum +
    (tx.vout.map fun out => env.sigOpCount out.scriptPubKey).sum

/-- The checks of a transaction that do not read the view, and the signature operations with it. -/
def connectPrecheck (env : ValidationEnv) (block : CBlock) (nHeight : Nat) (tx : CTransaction)
    (nSigOps : Nat) : Except ChainError Unit := do
  require (decide (nSigOps ≤ maxBlockSigOpsCurrent)) "bad-blk-sigops"
  if !env.isInitialBlockDownload then
    require (!(env.zerocoinMaintenance block.nTime && tx.containsZerocoins))
      "ConnectBlock : zerocoin transactions are currently in maintenance mode"
    require (!(env.saplingMaintenance block.nTime && tx.isShieldedTx))
      "ConnectBlock : shielded transactions are currently in maintenance mode"
  require (!(env.upgradeActive nHeight .v5_0 && tx.containsZerocoins))
    "ConnectBlock : v5 upgrade enforced, zerocoin disabled"
  if tx.hasZerocoinMintOutputs then
    require (!env.upgradeActive nHeight .zcPublic)
      s!"ConnectBlock: Mints no longer accepted at height {nHeight}"
    refuse (env.checkZerocoinMints tx)

section

variable [MerkleHash UInt256]

/-- The note commitments of a transaction are appended to the tree. -/
def appendCommitments (tx : CTransaction) (tree : SaplingMerkleTree) :
    Except ChainError SaplingMerkleTree :=
  match tx.sapData with
  | none => .ok tree
  | some d =>
    if tx.isShieldedTx then
      d.vShieldedOutput.foldlM (fun tree out =>
        match SaplingMerkleTree.append tree out.cmu with
        | .ok tree => .ok tree
        | .error what => .error (.exception what)) tree
    else .ok tree

/-- The branch of the loop of `ConnectBlock` on the kind of inputs: the value of zerocoin spends is
added, or the inputs must be there; the new `nValueIn` and `nSigOps`. -/
def connectInputs (env : ValidationEnv) (nHeight : Nat) (tx : CTransaction) (nValueIn : CAmount)
    (nSigOps : Nat) : ViewM (CAmount × Nat) := do
  if tx.hasZerocoinSpendInputs then
    match env.zerocoinSpends tx nHeight with
    | .error reason => .throw (.invalid reason)
    | .ok denominations =>
      return (denominations.foldl (fun v d => wrap64 (v + d)) nValueIn, nSigOps)
  else if tx.isCoinBase then return (nValueIn, nSigOps)
  else
    check <| require (← haveInputs tx) "bad-txns-inputs-missingorspent"
    check <| require (← haveShieldedRequirements tx) "bad-txns-sapling-requirements-not-met"
    let nSigOps := nSigOps + (← getP2SHSigOpCount env tx)
    check <| require (decide (nSigOps ≤ maxBlockSigOpsCurrent)) "bad-blk-sigops"
    return (nValueIn, nSigOps)

/-- `nFees += view.GetValueIn(tx) - tx.GetValueOut()`, except for a coinstake. -/
def addFee (nFees valueIn : CAmount) (tx : CTransaction) : ViewM CAmount :=
  if tx.isCoinStake then pure nFees
  else do
    let valueOut ← check (liftValue tx.getValueOut)
    return wrap64 (nFees + wrap64 (valueIn - valueOut))

/-- Values and input checks of a transaction that is no coinbase: the new `nFees` and
`nValueIn`. -/
def connectValues (env : ValidationEnv) (nSpendHeight : Nat) (fScriptChecks : Bool)
    (tx : CTransaction) (nFees nValueIn : CAmount) : ViewM (CAmount × CAmount) := do
  if tx.isCoinBase then return (nFees, nValueIn)
  else
    let valueIn ← getValueIn tx
    let nFees ← addFee nFees valueIn tx
    checkInputs env tx nSpendHeight fScriptChecks
    return (nFees, wrap64 (nValueIn + valueIn))

/-- One turn of the loop of `ConnectBlock`, for transaction `i`. -/
def connectTx (env : ValidationEnv) (block : CBlock) (nHeight nSpendHeight : Nat)
    (fScriptChecks : Bool) (s : ConnectState) (txi : CTransaction × Nat) : ViewM ConnectState := do
  let tx := txi.1
  let nSigOps := s.nSigOps + getLegacySigOpCount env tx
  check (connectPrecheck env block nHeight tx nSigOps)
  let (nValueIn, nSigOps) ← connectInputs env nHeight tx s.nValueIn nSigOps
  let (nFees, nValueIn) ← connectValues env nSpendHeight fScriptChecks tx s.nFees nValueIn
  let nValueOut := wrap64 (s.nValueOut + (← check (liftValue tx.getValueOut)))
  let vprevout ← updateCoins env tx nHeight (skipInvalidUTXOS env nHeight)
  let saplingTree ← check (appendCommitments tx s.saplingTree)
  return { nFees, nSigOps, nValueOut, nValueIn, saplingTree
           vtxundo := if txi.2 = 0 then s.vtxundo else s.vtxundo ++ [vprevout] }

/-- The checks before the loop of `ConnectBlock`. -/
def connectHeader (env : ValidationEnv) (block : CBlock) (pindex : CBlockIndex) :
    Except ChainError Unit := do
  let isPoSActive := env.upgradeActive pindex.nHeight .pos
  require (isPoSActive || !block.isProofOfStake) "PoS-early"
  require (!(isPoSActive && block.isProofOfWork)) "PoW-ended"
  require (!(pindex.nChainSaplingValue.any fun v => decide (v < 0)))
    "turnstile-violation-sapling-shielded-pool"

def connectFooter (env : ValidationEnv) (block : CBlock) (nHeight : Nat) (s : ConnectState) :
    Except ChainError Unit := do
  require (!(env.upgradeActive nHeight .v5_0 &&
    decide (block.hashFinalSaplingRoot ≠ SaplingMerkleTree.root s.saplingTree)))
    "bad-sapling-root-in-block"
  let nMint := wrap64 (wrap64 (s.nValueOut - s.nValueIn) + s.nFees)
  let nExpectedMint := getBlockValue env.params.network nHeight
  let nExpectedMint :=
    if block.isProofOfWork then wrap64 (nExpectedMint + s.nFees) else nExpectedMint
  require (isBlockValueValid env nHeight nExpectedMint nMint) "bad-cb-amount"

/-- What `ConnectBlock` does before its loop: the tree of note commitments at the parent. -/
def connectStart (env : ValidationEnv) (block : CBlock) (pindex pprev : CBlockIndex) :
    ViewM SaplingMerkleTree := do
  check (checkBlock env block)
  if (← getBestBlock) ≠ pprev.hash then .throw (.assertion "hashPrevBlock == view.GetBestBlock()")
  else
    check (connectHeader env block pindex)
    match ← getSaplingAnchorAt (← getBestAnchor) with
    | none => .throw (.assertion "view.GetSaplingAnchorAt(view.GetBestAnchor(), sapling_tree)")
    | some saplingTree => return saplingTree

/-- `ConnectBlock` with `fJustCheck = false` for a block other than the genesis block, whose parent
is `pprev`. -/
def connectBlock (env : ValidationEnv) (block : CBlock) (pindex pprev : CBlockIndex) :
    ViewM DiskUndo := do
  let saplingTree ← connectStart env block pindex pprev
  let fScriptChecks := decide (env.totalBlocksEstimate ≤ pindex.nHeight)
  -- `GetSpendHeight` looks up the best block, which is the parent
  let s ← block.vtx.zipIdx.foldlM
    (connectTx env block pindex.nHeight (pprev.nHeight + 1) fScriptChecks)
    ⟨0, 0, 0, 0, saplingTree, []⟩
  pushAnchor s.saplingTree
  check (connectFooter env block pindex.nHeight s)
  setBestBlock pindex.hash
  return undoWriteToDisk s.vtxundo

end

/-! ## DisconnectBlock -/

inductive DisconnectResult where
  | ok
  | unclean
  | failed
  deriving DecidableEq, Repr

/-- `MAX_OUTPUTS_PER_BLOCK`: the maximal block size over the 9 bytes of an empty output. -/
def maxOutputsPerBlock : Nat := 2000000 / 9

/-- `AccessByTxid`, with the number of indices still to try. -/
def accessByTxid (txid : UInt256) : Nat → Nat → ViewM Coin
  | 0, _ => pure Coin.empty
  | fuel + 1, n => do
    let alternate ← accessCoin ⟨txid, n⟩
    if !alternate.isSpent then pure alternate else accessByTxid txid fuel (n + 1)

def applyTxInUndo (undo : Coin) (out : COutPoint) : ViewM DisconnectResult := do
  let fClean := !(← haveCoin out)
  let restored ← if undo.nHeight = 0 then do
      let alternate ← accessByTxid out.hash maxOutputsPerBlock 0
      if alternate.isSpent then pure none
      else pure (some { undo with
        nHeight := alternate.nHeight
        fCoinBase := alternate.fCoinBase
        fCoinStake := alternate.fCoinStake })
    else pure (some undo)
  match restored with
  | none => pure .failed
  | some undo =>
    addCoin out undo (!fClean)
    pure (if fClean then .ok else .unclean)

/-- One turn of the loop of `DisconnectBlock` over the outputs of a transaction, at output `o`. -/
def removeOutput (tx : CTransaction) (fClean : Bool) (out : CTxOut) (o : Nat) : ViewM Bool := do
  if !CScript.isUnspendable out.scriptPubKey && !out.isZerocoinMint then
    let coin ← spendCoin ⟨tx.hash, o⟩
    return fClean && decide (out = coin.out)
  else return fClean

/-- The loop over the outputs: whether all of them were there and matched. -/
def removeOutputs (tx : CTransaction) : ViewM Bool :=
  tx.vout.zipIdx.foldlM (fun fClean p => removeOutput tx fClean p.1 p.2) true

/-- The loop of `DisconnectBlock` over the inputs of a transaction, from the last to the first:
`none` is a failure. -/
def restoreInputs : List (Coin × CTxIn) → ViewM (Option Bool)
  | [] => pure (some true)
  | (undo, txin) :: rest => do
    match ← restoreInputs rest with
    | none => pure none
    | some fClean =>
      match ← applyTxInUndo undo txin.prevout with
      | .failed => pure none
      | .ok => pure (some fClean)
      | .unclean => pure (some false)

def disconnectZerocoinTx (env : ValidationEnv) (tx : CTransaction) : Bool :=
  !tx.containsZerocoins || env.eraseZerocoins tx

/-- One turn of the loop of `DisconnectBlock`. The undo data of the first transaction is not
read. -/
def disconnectTx (env : ValidationEnv) (tx : CTransaction) (undo : Option (List Coin)) :
    ViewM (Option Bool) := do
  if !disconnectZerocoinTx env tx then pure none
  else
    let fClean ← removeOutputs tx
    if tx.isCoinBase || tx.hasZerocoinSpendInputs then pure (some fClean)
    else
      setNullifiers tx false
      match undo with
      | none => pure none
      | some vprevout =>
        if vprevout.length ≠ tx.vin.length then pure none
        else return (← restoreInputs (vprevout.zip tx.vin)).map (fClean && ·)

/-- The transactions with their undo data, from the last to the first. -/
def disconnectTxs (env : ValidationEnv) : List (CTransaction × Option (List Coin)) →
    ViewM (Option Bool)
  | [] => pure (some true)
  | (tx, undo) :: rest => do
    match ← disconnectTxs env rest with
    | none => pure none
    | some fClean => return (← disconnectTx env tx undo).map (fClean && ·)

section

variable [MerkleHash UInt256]

/-- The anchor that `DisconnectBlock` goes back to. -/
def previousAnchor (env : ValidationEnv) (pprev : CBlockIndex) : UInt256 :=
  if env.upgradeActive pprev.nHeight .v5_0 then pprev.hashFinalSaplingRoot
  else SaplingMerkleTree.emptyRoot

/-- `DisconnectBlock`, for a block with parent `pprev`. -/
def disconnectBlock (env : ValidationEnv) (block : CBlock) (pprev : CBlockIndex) (undo : DiskUndo) :
    ViewM DisconnectResult :=
  match undoReadFromDisk undo with
  | none => pure .failed
  | some blockUndo =>
    if blockUndo.length + 1 ≠ block.vtx.length then pure .failed
    else do
      match ← disconnectTxs env (block.vtx.zip (none :: blockUndo.map some)) with
      | none => pure .failed
      | some fClean =>
        popAnchor (previousAnchor env pprev)
        setBestBlock pprev.hash
        return if fClean then .ok else .unclean

end

end Passion
