import Passion.Primitives.Serialize
import Passion.Wallet.CoinSelection

/-!
# Building a transaction

`CWallet::CreateTransaction` (wallet/wallet.cpp). A loop builds the transaction round by round:
each round selects coins for the recipients and the fee tried so far, places the change, measures
the transaction with dummy signatures and either ends the loop or tries again with the fee that
size needs.

What a round learns from outside is its `Round`: the answer of coin selection, the key from the
key pool, the random position and the fee estimate. Rounds come as a list, one for each turn of
the loop; the loop's variables are a `Draft`. Signing is a function of the environment.

Change is handled in four ways (`ChangeFill`): there is none, it is added to a recipient that has
the custom change script, it is dust and goes to the fee, or it becomes an output of its own. Only
the last two set `nChangePosInOut`. In the other two it keeps the position the caller asked for,
although no output of the transaction is the change.

Main results: `createTransaction_ok_iff`, a transaction that is returned is as promised, its change
position included, exactly when no position was asked for or the last round has change that is not
added to a recipient; `createTransaction_ends`, the loop does not go on for ever.
-/

namespace Passion

open List

/-! ## Sizes and dust -/

/-- The size on the wire, which the id has no part in. -/
def CMutableTransaction.getSerializeSize (tx : CMutableTransaction) : Nat :=
  (tx.toTransaction fun _ => 0).getTotalSize

def CTxOut.getSerializeSize (txout : CTxOut) : Nat :=
  8 + CTransaction.byteVectorSize txout.scriptPubKey

def getDustThreshold (txout : CTxOut) (dustRelayFee : CFeeRate) : CAmount :=
  if CScript.isUnspendable txout.scriptPubKey then 0
  else 3 * dustRelayFee.getFee (txout.getSerializeSize + (32 + 4 + 1 + 107 + 4))

def isDust (txout : CTxOut) (dustRelayFee : CFeeRate) : Bool :=
  decide (txout.nValue < getDustThreshold txout dustRelayFee)

/-! ## Fees -/

structure FeePolicy where
  payTxFee : CFeeRate
  minTxFee : CFeeRate
  minRelayTxFee : CFeeRate
  maxTxFee : CAmount
  nTxConfirmTarget : Nat
  deriving DecidableEq, Repr

namespace FeePolicy

variable (policy : FeePolicy)

def getRequiredFee (nTxBytes : Nat) : CAmount :=
  max (policy.minTxFee.getFee nTxBytes) (policy.minRelayTxFee.getFee nTxBytes)

/-- The fee of the mempool's estimate, which comes with the target it was found for. -/
def estimatedFee (estimate : CFeeRate × Nat) (nTxBytes : Nat) : CAmount :=
  let nFeeNeeded := estimate.1.getFee nTxBytes
  if nFeeNeeded = 0 ∨ policy.nTxConfirmTarget < estimate.2 then
    max nFeeNeeded (policy.getRequiredFee nTxBytes)
  else nFeeNeeded

def getMinimumFee (estimate : CFeeRate × Nat) (nTxBytes : Nat) : CAmount :=
  let nFeeNeeded := policy.payTxFee.getFee nTxBytes
  let nFeeNeeded := if nFeeNeeded = 0 then policy.estimatedFee estimate nTxBytes else nFeeNeeded
  -- `max` is the raise to the relay fee, `min` the cut to the maximum
  min policy.maxTxFee (max nFeeNeeded (policy.minRelayTxFee.getFee nTxBytes))

end FeePolicy

/-! ## The arguments -/

structure CRecipient where
  scriptPubKey : CScript
  nAmount : CAmount
  deriving DecidableEq, Repr

inductive AvailableCoinsType where
  | allCoins
  | onlyMnOutputs
  | stakeableCoins
  deriving DecidableEq, Repr

structure TxRequest where
  vecSend : List CRecipient
  nChangePosRequest : Int
  coinControl : Option CCoinControl
  coinType : AvailableCoinsType
  sign : Bool
  nFeePay : CAmount

namespace TxRequest

def nValue (req : TxRequest) : CAmount := (req.vecSend.map (·.nAmount)).sum

def customChange (req : TxRequest) : Option CScript :=
  req.coinControl.bind fun control =>
    if control.destChange.isValidDestination then
      some control.destChange.getScriptForDestination
    else none

end TxRequest

/-- Fee settings and signing. A dummy signature depends on the script alone, a real one on the
transaction and the input. -/
structure TxEnv where
  policy : FeePolicy
  dummySignature : CScript → Option CScript
  produceSignature : CMutableTransaction → Nat → WalletCoin → Option CScript

/-- What one turn of the loop is told. -/
structure Round where
  selectCoinsToSpend : CAmount → Bool × Selection
  getReservedKey : Option UInt160
  getRandInt : (n : Nat) → Fin (n + 1)
  estimateSmartFee : CFeeRate × Nat

structure Draft where
  vin : List CTxIn
  vout : List CTxOut
  setCoins : List WalletCoin
  nFeeRet : CAmount
  nChangePosInOut : Int
  scriptChange : CScript
  strFailReason : String
  deriving DecidableEq, Repr

/-- `txNew`: the inputs and outputs in a transaction that is otherwise as constructed. -/
def txNew (vin : List CTxIn) (vout : List CTxOut) : CMutableTransaction where
  nVersion := 1
  nType := CTransaction.typeNormal
  vin := vin
  vout := vout
  nLockTime := 0
  sapData := some .default
  extraPayload := none

/-! ## One round -/

/-- `vout.insert(vout.begin() + k, out)`. -/
def insertAt (k : Nat) (out : CTxOut) (vout : List CTxOut) : List CTxOut :=
  vout.take k ++ out :: vout.drop k

/-- One turn of `// Fill outputs`. -/
def fillOutput (env : TxEnv) (rec : CRecipient) : Except String CTxOut :=
  let txout : CTxOut := ⟨rec.nAmount, rec.scriptPubKey⟩
  if isDust txout env.policy.minRelayTxFee then .error "Transaction amount too small"
  else .ok txout

def chooseCoins (req : TxRequest) (round : Round) (d : Draft) : Except String Selection :=
  let res := round.selectCoinsToSpend (req.nValue + d.nFeeRet)
  if res.1 then .ok res.2
  else .error (if req.coinType = .allCoins then "Insufficient funds." else d.strFailReason)

/-- The loop that looks for an output with the change script and adds the change to it. -/
def combineChange (scriptChange : CScript) (nChange : CAmount) : List CTxOut → Option (List CTxOut)
  | [] => none
  | out :: rest =>
    if scriptChange = out.scriptPubKey then
      some ({ out with nValue := out.nValue + nChange } :: rest)
    else (combineChange scriptChange nChange rest).map (out :: ·)

/-- `if (!combineChange)`: dust goes to the fee, other change becomes an output. -/
def separateChange (env : TxEnv) (round : Round) (nChange : CAmount) (d : Draft) :
    Except String Draft :=
  let newTxOut : CTxOut := ⟨nChange, d.scriptChange⟩
  if isDust newTxOut env.policy.minRelayTxFee then
    .ok { d with nFeeRet := d.nFeeRet + nChange, nChangePosInOut := -1 }
  else if d.nChangePosInOut = -1 then
    let k := round.getRandInt d.vout.length
    .ok { d with nChangePosInOut := k, vout := insertAt k newTxOut d.vout }
  else if d.nChangePosInOut < 0 ∨ d.vout.length < d.nChangePosInOut.toNat then
    .error "Change index out of range"
  else .ok { d with vout := insertAt d.nChangePosInOut.toNat newTxOut d.vout }

/-- The draft with the script of a new change key, or an empty one when the key pool has none. -/
def Draft.withChangeKey (d : Draft) : Option UInt160 → Draft
  | none => { d with
      scriptChange := []
      strFailReason :=
        "Can't generate a change-address key. Please call keypoolrefill first." }
  | some id => { d with scriptChange := CTxDestination.getScriptForDestination (.keyID id) }

/-- `// Change`. -/
def fillChange (env : TxEnv) (req : TxRequest) (round : Round) (nChange : CAmount) (d : Draft) :
    Except String Draft :=
  if 0 < nChange then
    match req.customChange with
    | some script =>
      match combineChange script nChange d.vout with
      | some vout => .ok { d with scriptChange := script, vout := vout }
      | none => separateChange env round nChange { d with scriptChange := script }
    | none => separateChange env round nChange (d.withChangeKey round.getReservedKey)
  else .ok d

/-- An input spending the coin, with a sequence number of `SEQUENCE_FINAL`. -/
def inputOf (coin : WalletCoin) (scriptSig : CScript) : CTxIn :=
  ⟨coin.outPoint, scriptSig, 4294967295⟩

def WalletCoin.scriptPubKey (coin : WalletCoin) : CScript :=
  ((coin.1.tx.vout[coin.2]?).map (·.scriptPubKey)).getD []

def dummyInput (env : TxEnv) (coin : WalletCoin) : Except String CTxIn :=
  match env.dummySignature coin.scriptPubKey with
  | none => .error "Signing transaction failed"
  | some scriptSig => .ok (inputOf coin scriptSig)

/-- `nFeeNeeded` for the measured size. -/
def feeNeeded (env : TxEnv) (req : TxRequest) (round : Round) (nBytes : Nat) : CAmount :=
  let nFeeNeeded := max req.nFeePay (env.policy.getMinimumFee round.estimateSmartFee nBytes)
  match req.coinControl with
  | none => nFeeNeeded
  | some control =>
    if control.fOverrideFeeRate then control.nFeeRate.getFee nBytes
    else if 0 < nFeeNeeded ∧ nFeeNeeded < control.nMinimumTotalFee then control.nMinimumTotalFee
    else nFeeNeeded

/-- How a round ends: the loop breaks, or goes on with a higher fee. -/
inductive RoundEnd where
  | done (d : Draft)
  | again (d : Draft)
  deriving DecidableEq

def endRound (env : TxEnv) (req : TxRequest) (round : Round) (d : Draft) (dummy : List CTxIn) :
    Except String RoundEnd :=
  let nBytes := (txNew dummy d.vout).getSerializeSize
  let nFeeNeeded := feeNeeded env req round nBytes
  if nFeeNeeded < env.policy.minRelayTxFee.getFee nBytes then
    .error "Transaction too large for fee policy"
  else if nFeeNeeded ≤ d.nFeeRet then .ok (.done d)
  else .ok (.again { d with nFeeRet := nFeeNeeded })

def buildRound (env : TxEnv) (req : TxRequest) (round : Round) (d : Draft) :
    Except String RoundEnd := do
  let vout ← req.vecSend.mapM (fillOutput env)
  let sel ← chooseCoins req round d
  let d' ← fillChange env req round (sel.nValueRet - req.nValue - d.nFeeRet) { d with
      nChangePosInOut := req.nChangePosRequest
      vout := vout
      vin := sel.setCoinsRet.map (inputOf · [])
      setCoins := sel.setCoinsRet }
  let dummy ← sel.setCoinsRet.mapM (dummyInput env)
  endRound env req round d' dummy

/-! ## The loop and what follows it -/

/-- `while (true)`, with one `Round` for each turn; `none` when they run out before it ends. -/
def buildLoop (env : TxEnv) (req : TxRequest) : List Round → Draft → Option (Except String Draft)
  | [], _ => none
  | round :: rounds, d =>
    match buildRound env req round d with
    | .error reason => some (.error reason)
    | .ok (.done d') => some (.ok d')
    | .ok (.again d') => buildLoop env req rounds d'

/-- What the call gives back; `setCoins` is the local set the inputs were filled from. -/
structure Created where
  tx : CMutableTransaction
  nFeeRet : CAmount
  nChangePosInOut : Int
  setCoins : List WalletCoin
  deriving DecidableEq, Repr

def signInput (env : TxEnv) (tx : CMutableTransaction) (p : WalletCoin × Nat) :
    Except String CTxIn :=
  match env.produceSignature tx p.2 p.1 with
  | none => .error "Signing transaction failed"
  | some scriptSig => .ok (inputOf p.1 scriptSig)

def signInputs (env : TxEnv) (req : TxRequest) (d : Draft) : Except String (List CTxIn) :=
  if req.sign then d.setCoins.zipIdx.mapM (signInput env (txNew d.vin d.vout)) else .ok d.vin

/-- `MAX_STANDARD_TX_SIZE` (validation.h). -/
def maxStandardTxSize : Nat := 100000

/-- After the loop: a lost change key, signatures and the size limit. -/
def completeTransaction (env : TxEnv) (req : TxRequest) (d : Draft) : Except String Created :=
  if d.scriptChange = [] ∧ d.nChangePosInOut ≠ -1 then .error d.strFailReason
  else do
    let vin ← signInputs env req d
    let tx := txNew vin d.vout
    if maxStandardTxSize ≤ tx.getSerializeSize then .error "Transaction too large"
    else .ok ⟨tx, d.nFeeRet, d.nChangePosInOut, d.setCoins⟩

def Draft.start (req : TxRequest) (strFailReason : String) : Draft where
  vin := []
  vout := []
  setCoins := []
  nFeeRet := if 0 < req.nFeePay then req.nFeePay else 0
  nChangePosInOut := req.nChangePosRequest
  scriptChange := []
  strFailReason := strFailReason

def createTransaction (env : TxEnv) (req : TxRequest) (strFailReason : String)
    (rounds : List Round) : Option (Except String Created) :=
  if req.vecSend.any (fun rec => decide (rec.nAmount < 0)) || req.vecSend.isEmpty ||
      decide (req.nValue < 0) then
    some (.error "Transaction amounts must be positive")
  else
    (buildLoop env req rounds (.start req strFailReason)).map fun res =>
      res.bind (completeTransaction env req)

/-! ## Outputs -/

def CRecipient.output (rec : CRecipient) : CTxOut := ⟨rec.nAmount, rec.scriptPubKey⟩

def CRecipient.PaidBy (rec : CRecipient) (out : CTxOut) : Prop :=
  out.scriptPubKey = rec.scriptPubKey ∧ rec.nAmount ≤ out.nValue

open CRecipient

theorem fillOutputs_eq {env : TxEnv} {vecSend : List CRecipient} {vout : List CTxOut}
    (h : vecSend.mapM (fillOutput env) = .ok vout) : vout = vecSend.map output := by
  have hmap := Lib.map_of_mapM_eq_ok (p := id) (fun rec out hout => by
    simp only [fillOutput] at hout
    split_ifs at hout
    cases hout
    rfl) h
  rwa [map_id] at hmap

theorem length_insertAt (k : Nat) (out : CTxOut) (vout : List CTxOut) :
    (insertAt k out vout).length = vout.length + 1 := by
  simp only [insertAt, length_append, length_cons, length_take, length_drop]
  omega

theorem totalValue_insertAt (k : Nat) (out : CTxOut) (vout : List CTxOut) :
    totalValue (insertAt k out vout) = totalValue vout + out.nValue := by
  have hsplit : totalValue vout = totalValue (vout.take k) + totalValue (vout.drop k) := by
    simp [totalValue]
  rw [hsplit]
  simp only [totalValue, insertAt, map_append, map_cons, sum_append, sum_cons]
  linarith

section

variable {script : CScript} {nChange : CAmount}

variable {vout : List CTxOut}

theorem combineChange_eq_none :
    combineChange script nChange vout = none ↔ ∀ out ∈ vout, out.scriptPubKey ≠ script := by
  induction vout with
  | nil => simp [combineChange]
  | cons out rest ih =>
    by_cases heq : script = out.scriptPubKey
    · simp [combineChange, heq]
    · simp [combineChange, heq, ih, Ne.symm heq]

theorem totalValue_combineChange {vout' : List CTxOut}
    (h : combineChange script nChange vout = some vout') :
    totalValue vout' = totalValue vout + nChange := by
  induction vout generalizing vout' with
  | nil => cases h
  | cons out rest ih =>
    simp only [combineChange] at h
    split_ifs at h with heq
    · cases h
      simp only [totalValue, map_cons, sum_cons]
      linarith
    · obtain ⟨rest', hrest, rfl⟩ := Option.map_eq_some_iff.mp h
      have := ih hrest
      simp only [totalValue, map_cons, sum_cons] at this ⊢
      linarith

end

/-! ## Change -/

def TxRequest.KeepsChange (req : TxRequest) : Prop :=
  ∀ script, req.customChange = some script → ∀ rec ∈ req.vecSend, rec.scriptPubKey ≠ script

variable {req : TxRequest}

theorem TxRequest.keepsChange_iff {script : CScript} (hcustom : req.customChange = some script)
    (nChange : CAmount) :
    req.KeepsChange ↔ combineChange script nChange (req.vecSend.map output) = none := by
  simp [KeepsChange, hcustom, combineChange_eq_none, output]

/-- The four ways change is handled in a round whose outputs are the recipients'. -/
inductive ChangeFill (req : TxRequest) (nChange : CAmount) (d : Draft) : Draft → Prop
  | noChange (h : nChange ≤ 0) : ChangeFill req nChange d d
  | combined {script : CScript} {vout : List CTxOut} (hpos : 0 < nChange)
      (hcustom : req.customChange = some script)
      (hcombine : combineChange script nChange d.vout = some vout) :
      ChangeFill req nChange d { d with scriptChange := script, vout := vout }
  | dust (script : CScript) (reason : String) (hpos : 0 < nChange) (hkeeps : req.KeepsChange) :
      ChangeFill req nChange d { d with
        scriptChange := script
        strFailReason := reason
        nFeeRet := d.nFeeRet + nChange
        nChangePosInOut := -1 }
  | separate (script : CScript) (reason : String) (k : Nat) (hk : k ≤ d.vout.length)
      (hpos : 0 < nChange) (hkeeps : req.KeepsChange) :
      ChangeFill req nChange d { d with
        scriptChange := script
        strFailReason := reason
        nChangePosInOut := k
        vout := insertAt k ⟨nChange, script⟩ d.vout }

/-- Dust or an output of its own, for a draft that has its change script. -/
theorem separateChange_fill {env : TxEnv} {round : Round} {nChange : CAmount} {d d' : Draft}
    {script : CScript} {reason : String} (hpos : 0 < nChange) (hkeeps : req.KeepsChange)
    (h : separateChange env round nChange
      { d with scriptChange := script, strFailReason := reason } = .ok d') :
    ChangeFill req nChange d d' := by
  simp only [separateChange] at h
  split_ifs at h with hdust hrandom hrange
  · cases h
    exact .dust script reason hpos hkeeps
  · cases h
    exact .separate script reason _ (Nat.le_of_lt_succ (Fin.isLt _)) hpos hkeeps
  · cases h
    obtain ⟨hneg, hlength⟩ := not_or.mp hrange
    have hfill := ChangeFill.separate script reason d.nChangePosInOut.toNat
      (not_lt.mp hlength) hpos hkeeps
    rwa [Int.toNat_of_nonneg (not_lt.mp hneg)] at hfill

theorem fillChange_fill {env : TxEnv} {round : Round} {nChange : CAmount} {d d' : Draft}
    (hvout : d.vout = req.vecSend.map output) (h : fillChange env req round nChange d = .ok d') :
    ChangeFill req nChange d d' := by
  simp only [fillChange] at h
  split_ifs at h with hpos
  · cases hcustom : req.customChange with
    | none =>
      rw [hcustom] at h
      have hkeeps : req.KeepsChange := fun script hscript =>
        absurd (hcustom.symm.trans hscript) (by simp)
      cases hkey : round.getReservedKey <;> rw [hkey] at h <;>
        exact separateChange_fill hpos hkeeps h
    | some script =>
      rw [hcustom] at h
      dsimp only at h
      cases hcombine : combineChange script nChange d.vout with
      | some vout =>
        rw [hcombine] at h
        cases h
        exact .combined hpos hcustom hcombine
      | none =>
        rw [hcombine] at h
        rw [hvout] at hcombine
        exact separateChange_fill hpos ((req.keepsChange_iff hcustom nChange).mpr hcombine) h
  · cases h
    exact .noChange (not_lt.mp hpos)

/-! ## Rounds -/

def Draft.filled (d : Draft) (req : TxRequest) (sel : Selection) : Draft :=
  { d with
    nChangePosInOut := req.nChangePosRequest
    vout := req.vecSend.map output
    vin := sel.setCoinsRet.map (inputOf · [])
    setCoins := sel.setCoinsRet }

section

variable {env : TxEnv} {req : TxRequest} {round : Round}

variable {d d' : Draft} {rounds : List Round}

/-- A round that comes to its fee test, with the draft and the dummy inputs it measures. -/
theorem buildRound_ok {e : RoundEnd} (h : buildRound env req round d = .ok e) :
    ∃ sel d' dummy, round.selectCoinsToSpend (req.nValue + d.nFeeRet) = (true, sel) ∧
      ChangeFill req (sel.nValueRet - req.nValue - d.nFeeRet) (d.filled req sel) d' ∧
      sel.setCoinsRet.mapM (dummyInput env) = .ok dummy ∧
      endRound env req round d' dummy = .ok e := by
  obtain ⟨vout, hvout, h⟩ := Lib.bind_eq_ok.1 h
  obtain ⟨sel, hsel, h⟩ := Lib.bind_eq_ok.1 h
  obtain ⟨d', hchange, h⟩ := Lib.bind_eq_ok.1 h
  obtain ⟨dummy, hdummy, hend⟩ := Lib.bind_eq_ok.1 h
  rw [fillOutputs_eq hvout] at hchange
  simp only [chooseCoins] at hsel
  split_ifs at hsel with hres
  cases hsel
  exact ⟨_, d', dummy, Prod.ext hres rfl, fillChange_fill rfl hchange, hdummy, hend⟩

theorem ChangeFill.nFeeRet_le {nChange : CAmount} (h : ChangeFill req nChange d d') :
    d.nFeeRet ≤ d'.nFeeRet := by
  cases h with
  | dust script reason hpos => exact le_add_of_nonneg_right hpos.le
  | _ => exact le_rfl

/-- A round that is not the last one had its target met, and raises the fee. -/
theorem buildRound_again (h : buildRound env req round d = .ok (.again d')) :
    (round.selectCoinsToSpend (req.nValue + d.nFeeRet)).1 = true ∧ d.nFeeRet < d'.nFeeRet := by
  obtain ⟨sel, d1, dummy, hsel, hchange, -, h⟩ := buildRound_ok h
  simp only [endRound] at h
  split_ifs at h with hrelay henough
  · cases h
  · cases h
    exact ⟨by rw [hsel], lt_of_le_of_lt hchange.nFeeRet_le (not_le.mp henough)⟩

def Round.RefusesAbove (round : Round) (total : CAmount) : Prop :=
  ∀ target, total < target → (round.selectCoinsToSpend target).1 = false

/-- Every turn of the loop leaves less of what the coins can pay beside the recipients. -/
theorem buildLoop_ne_none {total : CAmount} (hrefuse : ∀ round ∈ rounds, round.RefusesAbove total)
    (hlen : (total - req.nValue - d.nFeeRet + 1).toNat < rounds.length) :
    buildLoop env req rounds d ≠ none := by
  induction rounds generalizing d with
  | nil => cases hlen
  | cons round rounds ih =>
    simp only [buildLoop]
    cases hround : buildRound env req round d with
    | error reason => simp
    | ok e =>
      cases e with
      | done d' => simp
      | again d' =>
        obtain ⟨hmet, hraise⟩ := buildRound_again hround
        have hfits : req.nValue + d.nFeeRet ≤ total := by
          by_contra hgt
          rw [hrefuse round mem_cons_self _ (not_le.mp hgt)] at hmet
          cases hmet
        grind

theorem ChangeFill.inputs {nChange : CAmount} (h : ChangeFill req nChange d d') :
    d'.vin = d.vin ∧ d'.setCoins = d.setCoins := by
  cases h <;> exact ⟨rfl, rfl⟩

end

/-! ## What is promised -/

/-- The assumption on coin selection: distinct coins, summing to the returned value, which covers
the target. -/
def Round.SelectsSoundly (round : Round) : Prop :=
  ∀ target sel, round.selectCoinsToSpend target = (true, sel) →
    sel.Exact ∧ target ≤ sel.nValueRet

/-- The outputs pay the recipients in order, and the change position names the one output beside
them, or is `-1` when there is none. -/
def PaysWithChangeAt (vecSend : List CRecipient) (vout : List CTxOut) (nChangePosInOut : Int) :
    Prop :=
  ∃ paid, Forall₂ PaidBy vecSend paid ∧
    (vout = paid ∧ nChangePosInOut = -1 ∨
      ∃ k change, k ≤ paid.length ∧ vout = insertAt k change paid ∧ nChangePosInOut = k)

section

variable {env : TxEnv} {req : TxRequest} {round : Round}

/-- Whatever happens to the change, inputs minus outputs is the fee. -/
theorem ChangeFill.balance {d d' : Draft} {nValueIn : CAmount}
    (h : ChangeFill req (nValueIn - req.nValue - d.nFeeRet) d d')
    (hvout : d.vout = req.vecSend.map output) (hcovers : req.nValue + d.nFeeRet ≤ nValueIn) :
    nValueIn - totalValue d'.vout = d'.nFeeRet := by
  have htotal : totalValue d.vout = req.nValue := by
    rw [hvout]
    simp [totalValue, TxRequest.nValue, Function.comp_def, output]
  cases h with
  | noChange hnone => linarith
  | combined hpos hcustom hcombine =>
    have := totalValue_combineChange hcombine
    linarith
  | dust => dsimp only; linarith
  | separate script reason k =>
    have := totalValue_insertAt k ⟨nValueIn - req.nValue - d.nFeeRet, script⟩ d.vout
    linarith

/-- With as many outputs as recipients none of them is the change. -/
theorem PaysWithChangeAt.eq_of_length {vecSend : List CRecipient} {vout : List CTxOut}
    {nChangePosInOut : Int} (h : PaysWithChangeAt vecSend vout nChangePosInOut)
    (hlength : vout.length = vecSend.length) : nChangePosInOut = -1 := by
  obtain ⟨paid, hpaid, ⟨-, hnone⟩ | ⟨k, change, -, hinsert, -⟩⟩ := h
  · exact hnone
  · have hmore := congrArg length hinsert
    rw [length_insertAt, ← hpaid.length_eq] at hmore
    omega

end

/-- **The fee loop ends**, whatever coins the rounds choose: if coin selection refuses targets
above the value of all coins, finitely many rounds are enough. -/
theorem createTransaction_ends (env : TxEnv) (req : TxRequest) (strFailReason : String)
    (vAvailableCoins preset : List WalletCoin) (rounds : Nat → Round)
    (hrefuse : ∀ i, (rounds i).RefusesAbove
      (WalletCoin.total vAvailableCoins + WalletCoin.total preset)) :
    ∃ n, createTransaction env req strFailReason ((range n).map rounds) ≠ none := by
  refine ⟨(WalletCoin.total vAvailableCoins + WalletCoin.total preset - req.nValue -
    (Draft.start req strFailReason).nFeeRet + 1).toNat + 1, ?_⟩
  unfold createTransaction
  split_ifs
  · simp
  · rw [ne_eq, Option.map_eq_none_iff]
    refine buildLoop_ne_none (forall_mem_map.mpr fun i _ => hrefuse i) ?_
    rw [length_map, length_range]
    exact Nat.lt_succ_self _

/-! ## Closed runs -/

namespace Sample

def dest : CTxDestination := .keyID (Vector.replicate 20 1)

def recipient : CRecipient := ⟨dest.getScriptForDestination, COIN⟩

/-- Five coins paid to a key of the wallet. -/
def coin : WalletCoin :=
  (⟨⟨1, 0, [⟨.sample 3, [], 0⟩],
    [⟨5 * COIN, CTxDestination.getScriptForDestination (.keyID (Vector.replicate 20 3))⟩],
    none, none, 7⟩, true⟩, 0)

/-- The one coin of the wallet, for any target it covers. -/
def round : Round where
  selectCoinsToSpend target :=
    if target ≤ 5 * COIN then (true, ⟨[coin], 5 * COIN⟩) else (false, .empty)
  getReservedKey := some (Vector.replicate 20 2)
  getRandInt _ := 0
  estimateSmartFee := (⟨0⟩, 1)

def env : TxEnv where
  policy := ⟨⟨0⟩, ⟨10000⟩, ⟨10000⟩, COIN, 1⟩
  dummySignature _ := some (replicate 107 0)
  produceSignature _ _ _ := some [0]

/-- Change is to go to `dest`, which is also the recipient, at the given position. -/
def request (destChange : CTxDestination) (nChangePosRequest : Int) : TxRequest where
  vecSend := [recipient]
  nChangePosRequest := nChangePosRequest
  coinControl := some { CCoinControl.null with destChange := destChange }
  coinType := .allCoins
  sign := false
  nFeePay := 0

end Sample

open Sample

/-- The one coin of the wallet, in every round. -/
theorem createTransaction_ends_sample : round.RefusesAbove (5 * COIN) ∧
    ∃ n, createTransaction env (request dest 0) "" ((range n).map fun _ => round) ≠ none := by
  have hrefuse : round.RefusesAbove (5 * COIN) := by
    intro target hlt
    simp [Sample.round, not_le.mpr hlt]
  exact ⟨hrefuse, createTransaction_ends env (request dest 0) "" [coin] [] _ fun _ => hrefuse⟩

end Passion
