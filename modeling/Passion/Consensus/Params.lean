import Mathlib.Algebra.Order.Ring.Int
import Passion.Primitives.Transaction

/-!
# Consensus parameters and rewards

The parameters of `consensus/params.h` and `chainparams.cpp` that validation reads, with the
values of the three networks, and the block reward and masternode shares of `validation.cpp`.
Heights are C++ `int`s here, since the reward is also asked for at height `-1`.
-/

namespace Passion

/-! ## Limits of a block (consensus.h) -/

def maxBlockSizeCurrent : Nat := 2000000

def maxBlockShieldedTxesSize : Nat := 750000

def maxBlockSigOpsCurrent : Nat := 40000

/-! ## Networks and upgrades -/

/-- `NetworkIDString()`. -/
inductive Network where
  | main
  | testnet
  | regtest
  deriving DecidableEq, Repr

inductive UpgradeIndex where
  | baseNetwork
  | pos
  | posV2
  | zc
  | zcV2
  | bip65
  | zcPublic
  | v3_4
  | v4_0
  | v5_0
  | v6_0
  | testdummy
  deriving DecidableEq, Repr

/-- The fields of `Consensus::Params` that the modelled functions read, with the network they
belong to. -/
structure ConsensusParams where
  network : Network
  nActivationHeight : UpgradeIndex → Int
  nMaxMoneyOut : CAmount
  nCoinbaseMaturity : Int
  nBudgetCycleBlocks : Int
  heightLastInvalidUTXO : Int
  zcTimeStart : Int
  zcMaxSpendsPerTx : Nat
  zcMaxPublicSpendsPerTx : Nat
  nDevFee : Int
  strDevFeeAddress : String

namespace ConsensusParams

def noActivationHeight : Int := -1

def alwaysActive : Int := 0

def intMax : Int := 2147483647

def networkUpgradeActive (params : ConsensusParams) (nHeight : Int) (idx : UpgradeIndex) : Bool :=
  if params.nActivationHeight idx = noActivationHeight then false
  else decide (params.nActivationHeight idx ≤ nHeight)

theorem networkUpgradeActive_mono {params : ConsensusParams} {nHeight nHeight' : Int}
    {idx : UpgradeIndex} (hle : nHeight ≤ nHeight')
    (h : params.networkUpgradeActive nHeight idx = true) :
    params.networkUpgradeActive nHeight' idx = true := by
  unfold networkUpgradeActive at h ⊢
  split_ifs at h ⊢
  exact decide_eq_true (le_trans (of_decide_eq_true h) hle)

def moneyRange (params : ConsensusParams) (nValue : CAmount) : Bool :=
  decide (0 ≤ nValue) && decide (nValue ≤ params.nMaxMoneyOut)

/-- `CMainParams`. -/
def main : ConsensusParams where
  network := .main
  nActivationHeight
    | .baseNetwork => alwaysActive
    | .pos | .posV2 => 51
    | .zc | .zcV2 | .zcPublic => intMax
    | .bip65 => 1
    | .v3_4 | .v4_0 => 51
    | .v5_0 => 1
    | .v6_0 | .testdummy => noActivationHeight
  nMaxMoneyOut := 21000000 * COIN
  nCoinbaseMaturity := 6
  nBudgetCycleBlocks := 43200
  heightLastInvalidUTXO := intMax
  zcTimeStart := 1508214600
  zcMaxSpendsPerTx := 7
  zcMaxPublicSpendsPerTx := 637
  nDevFee := 5
  strDevFeeAddress := "PPP76HHpLF6N8mStbnQcpNdPQTQk4LBWti"

/-- `CTestNetParams`. Its constructor leaves `nDevFee` unset, so the fee is whatever the member
holds, and the address is the empty string. -/
def testnet (nDevFee : Int) : ConsensusParams where
  network := .testnet
  nActivationHeight
    | .baseNetwork => alwaysActive
    | .v6_0 | .testdummy => noActivationHeight
    | _ => 201
  nMaxMoneyOut := 21000000 * COIN
  nCoinbaseMaturity := 15
  nBudgetCycleBlocks := 144
  heightLastInvalidUTXO := -1
  zcTimeStart := 1508214600
  zcMaxSpendsPerTx := 7
  zcMaxPublicSpendsPerTx := 637
  nDevFee := nDevFee
  strDevFeeAddress := ""

/-- `CRegTestParams`, which leaves `nDevFee` unset as `testnet` does. -/
def regtest (nDevFee : Int) : ConsensusParams where
  network := .regtest
  nActivationHeight
    | .baseNetwork | .bip65 | .v4_0 => alwaysActive
    | .pos | .posV2 | .v3_4 => 251
    | .zc | .zcV2 | .v5_0 => 300
    | .zcPublic => 400
    | .v6_0 | .testdummy => noActivationHeight
  nMaxMoneyOut := 43199500 * COIN
  nCoinbaseMaturity := 100
  nBudgetCycleBlocks := 144
  heightLastInvalidUTXO := -1
  zcTimeStart := 0
  zcMaxSpendsPerTx := 7
  zcMaxPublicSpendsPerTx := 637
  nDevFee := nDevFee
  strDevFeeAddress := ""

end ConsensusParams

/-! ## Rewards -/

/-- The mainnet branch of `GetBlockValue`, in coins. -/
def mainSubsidy (nHeight : Int) : Int :=
  if nHeight = 1 then 1200000
  else if nHeight < 51 ∧ 1 < nHeight then 1
  else if nHeight < 43201 ∧ 50 < nHeight then 12
  else if nHeight < 302401 ∧ 43200 < nHeight then 10
  else if nHeight < 561601 ∧ 302400 < nHeight then 8
  else if nHeight < 820801 ∧ 561600 < nHeight then 7
  else if nHeight < 1080001 ∧ 820800 < nHeight then 8
  else if nHeight < 1339201 ∧ 1080000 < nHeight then 9
  else if nHeight < 1598401 ∧ 1339200 < nHeight then 10
  else if nHeight < 2116801 ∧ 1598400 < nHeight then 9
  else if nHeight < 2635201 ∧ 2116800 < nHeight then 8
  else if nHeight < 3153601 ∧ 2635200 < nHeight then 7
  else if nHeight < 4190401 ∧ 3153600 < nHeight then 6
  else if nHeight < 5227201 ∧ 4190400 < nHeight then 5
  else if nHeight < 7300801 ∧ 5227200 < nHeight then 4
  else if nHeight < 11448001 ∧ 7300800 < nHeight then 3
  else if nHeight < 41548321 ∧ 11448000 < nHeight then 2
  else 0

def getBlockValue (network : Network) (nHeight : Int) : CAmount :=
  match network with
  | .testnet => if nHeight < 51 ∧ 0 < nHeight then 250000 * COIN else 7777 * COIN
  | .regtest => if nHeight = 0 then 250 * COIN else 100 * COIN
  | .main => mainSubsidy nHeight * COIN

def blockRewards : List CAmount :=
  [1200000, 12, 10, 9, 8, 7, 6, 5, 4, 3, 2, 1, 0, 250000, 7777, 250, 100].map (· * COIN)

theorem ite_mem_list {α : Type} {l : List α} {a b : α} {p : Prop} [Decidable p] (ha : a ∈ l)
    (hb : b ∈ l) : (if p then a else b) ∈ l := by
  split
  · exact ha
  · exact hb

theorem getBlockValue_mem_blockRewards (network : Network) (h : Int) :
    getBlockValue network h ∈ blockRewards := by
  cases network with
  | main =>
    refine List.mem_map_of_mem ?_
    repeat refine ite_mem_list (by decide) ?_
    decide
  | testnet => exact ite_mem_list (by decide) (by decide)
  | regtest => exact ite_mem_list (by decide) (by decide)

/-! ## Masternode shares

`GetMasternodePayment` multiplies the reward by a `double` literal and truncates. -/

/-- Round to 53 significant bits, ties to even. -/
def roundDouble (n : Nat) : Nat :=
  let s := n.log2 + 1 - 53
  if s = 0 then n
  else
    let q := n / 2 ^ s
    let r := n % 2 ^ s
    let half := 2 ^ (s - 1)
    if half < r ∨ (r = half ∧ q % 2 = 1) then (q + 1) * 2 ^ s else q * 2 ^ s

/-- `v * d`, truncated, for the `double` `d = m / 2 ^ e`. -/
def mulDouble (v : CAmount) (m e : Nat) : CAmount :=
  Int.sign v * (roundDouble (roundDouble v.natAbs * m) / 2 ^ e : Nat)

/-- `GetMasternodePayment`. The literals `0.10`, `0.15`, `0.20` and `0.40` are written by their
binary values. Other levels run off the end of the function; `noReturn` stands for what the caller
then reads. -/
def getMasternodePayment (noReturn : Int → CAmount → CAmount) (mnlevel : Int)
    (blockValue : CAmount) : CAmount :=
  if mnlevel = 1 then mulDouble blockValue 3602879701896397 55
  else if mnlevel = 2 then mulDouble blockValue 5404319552844595 55
  else if mnlevel = 3 then mulDouble blockValue 3602879701896397 54
  else if mnlevel = 4 then mulDouble blockValue 3602879701896397 53
  else noReturn mnlevel blockValue

example : (List.map (fun l => getMasternodePayment (fun _ _ => 0) l (12 * COIN)) [1, 2, 3, 4]) =
    [120000000, 180000000, 240000000, 480000000] := by decide

end Passion
