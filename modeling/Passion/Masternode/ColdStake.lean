import Passion.Budget.Manager
import Passion.Masternode.Payments
import Passion.Script.Script

/-!
# Cold stakes

A wallet stakes a delegated coin: `CPivStake::CreateTxOuts` and the part of
`CWallet::CreateCoinStake` that builds the transaction, `FillBlockPayee`, which adds the payments
of the block, and the two checks of the result, `CheckColdStake` of the script interpreter and
`CheckColdStakeFreeOutput` of `CheckBlock`.

The interpreter leaves only the last output free. The wallet adds an output for each masternode
level and one for the development fee.

Main result: `coldStake_valid_iff`.
-/

namespace Passion

open Lib List

def CTransaction.hasP2CSOutputs (tx : CTransaction) : Bool :=
  tx.vout.any fun out => CScript.isPayToColdStaking out.scriptPubKey

/-! ## The check of the interpreter -/

/-- The loop of `CheckColdStake` over the outputs after the first, with the value so far. `none`
is a refused output. -/
def coldStakeValue (prevoutScript : CScript) (outs : Nat) : List CTxOut → CAmount → Option CAmount
  | [], outValue => some outValue
  | out :: rest, outValue =>
    if out.scriptPubKey ≠ prevoutScript then
      -- only the last one can be different, and only with three outputs or more
      if rest ≠ [] ∨ outs < 3 then none else coldStakeValue prevoutScript outs rest outValue
    else coldStakeValue prevoutScript outs rest (outValue + out.nValue)

/-- `TransactionSignatureChecker::CheckColdStake`, where the spent output is worth `amount`. -/
def checkColdStake (txTo : CTransaction) (amount : CAmount) (prevoutScript : CScript) : Bool :=
  if !txTo.isCoinStake then false
  else if txTo.vin.length ≠ 1 then false
  else
    match coldStakeValue prevoutScript txTo.vout.length txTo.vout.tail 0 with
    | none => false
    | some outValue => decide (amount < outValue)

/-! ## The node that stakes -/

/-- What the staking node reads: the payment state, the budgets and its transactions. -/
structure StakingNode where
  env : PaymentEnv
  votes : VoteTables
  budgets : CBudgetManager
  /-- `masternodeSync.IsSynced()`. -/
  isSynced : Bool
  /-- `GetTransaction`, with the slow search. -/
  getTransaction : UInt256 → Option CTransaction

namespace StakingNode

variable (node : StakingNode)

/-- `txPrev->vout[prevout.n].nValue`, if the transaction is found. -/
def prevValue (prevout : COutPoint) : Option CAmount :=
  (node.getTransaction prevout.hash).bind fun txPrev => txPrev.vout[prevout.n]?.map (·.nValue)

def superblocksActive : Bool := node.env.isSporkActive .enableSuperblocks

def devFeeActive : Bool := node.env.isSporkActive .developmentFee

def checkColdStakeFreeOutput (tx : CTransaction) (nHeight : Int) : Bool :=
  if !tx.hasP2CSOutputs then true
  else
    let outs := tx.vout.length
    match tx.vout[outs - 1]?, tx.vout[outs - 2]? with
    | some lastOut, some secondLast =>
      if 3 ≤ outs ∧ lastOut.scriptPubKey ≠ secondLast.scriptPubKey then
        if mnLevels.any fun mnlevel =>
            lastOut.nValue == node.env.masternodePayment mnlevel (node.env.blockValue nHeight) then
          true
        -- this could be a budget block
        else if node.env.params.network = .regtest then false
        else if !node.isSynced then
          match tx.vin.head?.bind fun txin => node.prevValue txin.prevout with
          | none => false
          | some prevValue =>
            let amtIn := prevValue + node.env.blockValue nHeight
            let amtOut := totalValue ((tx.vout.take (outs - 1)).drop 1)
            decide (amtOut = amtIn)
        else if node.budgets.isBudgetPaymentBlock nHeight then node.superblocksActive
        else false
      else true
    | _, _ => true

def fillBlockPayee (txNew : CTransaction) (nHeight : Int) (fProofOfStake : Bool) : CTransaction :=
  if nHeight = 0 then txNew
  else
    let superblock :=
      if node.superblocksActive then
        node.budgets.fillBlockPayee node.env.params txNew nHeight fProofOfStake
      else none
    superblock.getD (Passion.fillBlockPayee node.env node.votes txNew nHeight fProofOfStake)

end StakingNode

/-! ## The wallet -/

/-- A delegated coin that the wallet stakes. -/
structure ColdStakeInput where
  txin : CTxIn
  /-- The coin is an output of a transaction. -/
  isNull_prevout : txin.prevout.isNull = false
  nValue : CAmount
  stakingKey : CKeyID
  spendingKey : CKeyID

namespace ColdStakeInput

def scriptPubKey (c : ColdStakeInput) : CScript :=
  getScriptForStakeDelegation c.stakingKey c.spendingKey

/-- The limit of the splits, `MAX_STANDARD_TX_SIZE >> 11`. -/
def txSizeMax : Int := 100000 >>> 11

/-- The number of outputs of `CreateTxOuts`. The quotient is cast to `int`. -/
def stakeOutputs (nStakeSplitThreshold nTotal : CAmount) : Nat :=
  if 0 < nStakeSplitThreshold then
    let nSplit := Int.bmod (nTotal.tdiv nStakeSplitThreshold) 4294967296
    if 1 < nSplit then (min nSplit txSizeMax).toNat else 1
  else 1

/-- `CreateTxOuts` for a coin with a delegation script, which keeps the script. -/
def createTxOuts (c : ColdStakeInput) (nStakeSplitThreshold nTotal : CAmount) : List CTxOut :=
  replicate (stakeOutputs nStakeSplitThreshold nTotal) ⟨0, c.scriptPubKey⟩

/-- Set the amounts of the outputs after the first: equal shares, and what remains on the last. -/
def setAmounts (nCredit : CAmount) (vout : List CTxOut) : List CTxOut :=
  let outputs := vout.length - 1
  let nShare := nCredit.tdiv outputs
  vout.mapIdx fun i out =>
    if i = 0 then out
    else if i < outputs then { out with nValue := nShare }
    else { out with nValue := out.nValue + (nCredit - nShare * (outputs - 1 : Nat)) }

end ColdStakeInput

namespace StakingNode

variable (node : StakingNode)

/-- The transaction that `CreateCoinStake` builds for height `nHeight` once it has found a kernel
in the coin `c`. -/
def createCoinStake (txNew : CTransaction) (c : ColdStakeInput) (nStakeSplitThreshold : CAmount)
    (nHeight : Int) : CTransaction :=
  let nCredit := c.nValue + node.env.blockValue nHeight
  let vout := ⟨0, []⟩ :: c.createTxOuts nStakeSplitThreshold nCredit
  let txNew := { txNew with vin := [], vout := ColdStakeInput.setAmounts nCredit vout }
  { node.fillBlockPayee txNew nHeight true with vin := [c.txin] }

end StakingNode

/-! ## The outputs of the wallet -/

section

theorem scriptPubKey_of_mem_lessShares {amount : CAmount} {stake : List CTxOut} {s : CScript}
    (h : ∀ out ∈ stake.tail, out.scriptPubKey = s) :
    ∀ out ∈ (lessShares amount stake).tail, out.scriptPubKey = s := by
  cases stake with
  | nil => simp [lessShares]
  | cons first stake =>
    intro out hout
    simp only [lessShares, mapIdx_cons, tail_cons, mem_mapIdx] at hout
    obtain ⟨i, hi, rfl⟩ := hout
    exact h stake[i] (getElem_mem hi)

end

/-- The stake outputs of a coin: one or more, all with its script. -/
structure StakeOf (s : CScript) (total : CAmount) (stake : List CTxOut) : Prop where
  ne_nil : stake ≠ []
  scripts : ∀ out ∈ stake, out.scriptPubKey = s
  total : totalValue stake = total

theorem ColdStakeInput.one_le_stakeOutputs (threshold nTotal : CAmount) :
    1 ≤ stakeOutputs threshold nTotal := by
  unfold stakeOutputs txSizeMax
  dsimp only
  split_ifs with _ h1
  · omega
  · exact le_refl 1
  · exact le_refl 1

/-- The outputs before the payments are added: the empty one, and the stake with the whole
credit, however it is split. -/
theorem ColdStakeInput.setAmounts_replicate (s : CScript) (threshold nCredit : CAmount) :
    ∃ stake, setAmounts nCredit
        (⟨0, []⟩ :: replicate (stakeOutputs threshold nCredit) ⟨0, s⟩) = ⟨0, []⟩ :: stake ∧
      StakeOf s nCredit stake := by
  obtain ⟨n, hn⟩ : ∃ n, stakeOutputs threshold nCredit = n + 1 :=
    ⟨_, (Nat.sub_add_cancel (one_le_stakeOutputs threshold nCredit)).symm⟩
  unfold setAmounts
  rw [hn]
  simp only [mapIdx_cons, length_cons, length_replicate, Nat.add_sub_cancel, Nat.add_one_ne_zero,
    if_false]
  refine ⟨_, rfl, ?_, ?_, ?_⟩
  · simp
  · intro out hout
    obtain ⟨i, hi, rfl⟩ := mem_mapIdx.mp hout
    rw [getElem_replicate]
    split_ifs <;> rfl
  · rw [totalValue_mapIdx]
    · have hshares : ∀ i ∈ range n, (if i + 1 < n + 1 then nCredit.tdiv (n + 1) else
          nCredit - nCredit.tdiv (n + 1 : Nat) * n) = nCredit.tdiv (n + 1 : Nat) :=
        fun i hi => if_pos (Nat.succ_lt_succ (mem_range.mp hi))
      have hzero : totalValue (replicate (n + 1) ⟨0, s⟩) = 0 := by
        simp [totalValue]
      rw [hzero, length_replicate, Finset.sum_range_succ, Finset.sum_congr rfl hshares,
        if_neg (lt_irrefl _), Finset.sum_const, Finset.card_range]
      ring
    · intro i out hout
      rw [(mem_replicate.mp hout).2]
      split_ifs <;> simp

/-! ## The two checks in closed form -/

/-- Only the last output may have another script, and none with fewer than three outputs. The
value is that of the outputs with the script. -/
theorem coldStakeValue_eq {s : CScript} {outs : Nat} {vout : List CTxOut} {v : CAmount} :
    coldStakeValue s outs vout v =
      if (∀ out ∈ vout.dropLast, out.scriptPubKey = s) ∧
        (outs < 3 → ∀ out ∈ vout, out.scriptPubKey = s) then
        some (v + totalValue (vout.filter (·.scriptPubKey = s)))
      else none := by
  induction vout generalizing v with
  | nil => simp [coldStakeValue]
  | cons out rest ih =>
    unfold coldStakeValue
    by_cases hs : out.scriptPubKey = s
    · rw [if_neg (not_not.mpr hs), ih]
      cases rest with
      | nil => simp [hs, totalValue_cons]
      | cons next rest => simp [hs, totalValue_cons, add_assoc]
    · rw [if_pos hs]
      cases rest with
      | nil =>
        by_cases houts : outs < 3
        · simp [houts, hs]
        · simp [houts, hs, coldStakeValue]
      | cons next rest => simp [hs]

section

variable {tx : CTransaction} {c : ColdStakeInput} {stake paid : List CTxOut} {total : CAmount}
  {node : StakingNode} {h : Int}

/-- The free output of the payments: the last, if it goes elsewhere. -/
def freeOutput (s : CScript) (paid : List CTxOut) : Option CTxOut :=
  paid.getLast?.filter fun out => out.scriptPubKey ≠ s

theorem totalValue_filter_add_free {s : CScript} (h : ∀ out ∈ paid.dropLast, out.scriptPubKey = s) :
    totalValue (paid.filter (·.scriptPubKey = s)) + totalValue (freeOutput s paid).toList =
      totalValue paid := by
  rcases eq_nil_or_concat paid with rfl | ⟨init, last, rfl⟩
  · simp [freeOutput]
  · rw [concat_eq_append] at h
    rw [concat_eq_append, filter_append, filter_eq_self.mpr (by simpa using h)]
    by_cases hlast : last.scriptPubKey = s <;> simp [freeOutput, Option.filter, hlast]

/-- The last output may have the value `nValue` at height `h`, where the outputs before it hold
`rest`: a level is paid that much, or, except on regtest, this is a superblock, or the node is not
synced and the outputs before hold the coin and the reward. -/
def FreeOutputAllowed (node : StakingNode) (c : ColdStakeInput) (h : Int) (nValue rest : CAmount) :
    Prop :=
  (∃ mnlevel ∈ mnLevels, nValue = node.env.masternodePayment mnlevel (node.env.blockValue h)) ∨
    node.env.params.network ≠ .regtest ∧
      if node.isSynced then
        node.budgets.isBudgetPaymentBlock h = true ∧ node.superblocksActive = true
      else ∃ v, node.prevValue c.txin.prevout = some v ∧ rest = v + node.env.blockValue h

theorem checkColdStakeFreeOutput_last_two {before : List CTxOut} {pen last : CTxOut}
    (hp2cs : tx.hasP2CSOutputs = true) (hvin : tx.vin = [c.txin])
    (hvout : tx.vout = before ++ [pen, last]) :
    node.checkColdStakeFreeOutput tx h = true ↔
      (before ≠ [] → last.scriptPubKey ≠ pen.scriptPubKey →
        FreeOutputAllowed node c h last.nValue (totalValue (before ++ [pen]).tail)) := by
  have htake : (before ++ [pen, last]).take (before.length + 1) = before ++ [pen] := by
    rw [take_append]
    simp
  have hprev : ∀ amtOut : CAmount, (match node.prevValue c.txin.prevout with
      | none => false
      | some prevValue => decide (amtOut = prevValue + node.env.blockValue h)) = true ↔
        ∃ v, node.prevValue c.txin.prevout = some v ∧ amtOut = v + node.env.blockValue h := by
    cases node.prevValue c.txin.prevout <;> simp
  unfold StakingNode.checkColdStakeFreeOutput FreeOutputAllowed
  simp only [hp2cs, hvin, hvout]
  simp [htake, hprev, or_iff_not_imp_left]

variable (hvin : tx.vin = [c.txin]) (hvout : tx.vout = ⟨0, []⟩ :: (stake ++ paid))
  (hstake : StakeOf c.scriptPubKey total stake)

include hvin hvout hstake

theorem checkColdStake_iff (amount : CAmount) : checkColdStake tx amount c.scriptPubKey = true ↔
      (∀ out ∈ paid.dropLast, out.scriptPubKey = c.scriptPubKey) ∧
      amount < total + totalValue (paid.filter (·.scriptPubKey = c.scriptPubKey)) := by
  obtain ⟨hne, hscripts, htotal⟩ := hstake
  have hcoin : tx.isCoinStake = true := by
    obtain ⟨first, rest, rfl⟩ := exists_cons_of_ne_nil hne
    simp [CTransaction.isCoinStake, hvin, hvout, c.isNull_prevout, CTxOut.isEmpty]
  have hallowed : ((∀ out ∈ (stake ++ paid).dropLast, out.scriptPubKey = c.scriptPubKey) ∧
      ((⟨0, []⟩ :: (stake ++ paid)).length < 3 →
        ∀ out ∈ stake ++ paid, out.scriptPubKey = c.scriptPubKey)) ↔
      ∀ out ∈ paid.dropLast, out.scriptPubKey = c.scriptPubKey := by
    by_cases hpaid : paid = []
    · subst hpaid
      rw [append_nil]
      exact iff_of_true ⟨fun out hout => hscripts out (mem_of_mem_dropLast hout),
        fun _ => hscripts⟩ (by simp)
    · have hlen : ¬ (⟨0, []⟩ :: (stake ++ paid)).length < 3 := by
        have := length_pos_iff.mpr hne
        have := length_pos_iff.mpr hpaid
        simp only [length_cons, length_append]
        omega
      rw [dropLast_append_of_ne_nil hpaid]
      simp only [hlen, false_implies, and_true, forall_mem_append]
      exact and_iff_right hscripts
  unfold checkColdStake
  rw [hcoin, hvin, hvout, tail_cons, coldStakeValue_eq, if_congr hallowed rfl rfl, filter_append,
    filter_eq_self.mpr (by simpa using hscripts), totalValue_append, htotal]
  by_cases hscript : ∀ out ∈ paid.dropLast, out.scriptPubKey = c.scriptPubKey
  · rw [and_iff_right hscript, if_pos hscript]
    simp
  · simp [hscript]

omit hvin in
theorem hasP2CSOutputs_of_stake : tx.hasP2CSOutputs = true := by
  obtain ⟨first, rest, rfl⟩ := exists_cons_of_ne_nil hstake.ne_nil
  have hfirst := hstake.scripts first mem_cons_self
  simp [CTransaction.hasP2CSOutputs, hvout, hfirst, ColdStakeInput.scriptPubKey,
    CKeyID.isPayToColdStaking_delegation]

/-- The check looks at the last of the payments, unless it goes back to the script. -/
theorem checkColdStakeFreeOutput_iff
    (hscript : ∀ out ∈ paid.dropLast, out.scriptPubKey = c.scriptPubKey) :
    node.checkColdStakeFreeOutput tx h = true ↔
      ∀ out, freeOutput c.scriptPubKey paid = some out →
        FreeOutputAllowed node c h out.nValue (total + totalValue paid - out.nValue) := by
  have hp2cs := hasP2CSOutputs_of_stake hvout hstake
  have hbody : ∀ out ∈ stake ++ paid.dropLast, out.scriptPubKey = c.scriptPubKey :=
    forall_mem_append.mpr ⟨hstake.scripts, hscript⟩
  rcases eq_nil_or_concat paid with rfl | ⟨init, last, rfl⟩
  · -- without payments the last two outputs are both of the stake, or there are only two
    refine iff_of_true ?_ (by simp [freeOutput])
    obtain ⟨front, last, rfl⟩ := (eq_nil_or_concat stake).resolve_left hstake.ne_nil
    rcases eq_nil_or_concat front with rfl | ⟨front, pen, rfl⟩
    · have hsplit : tx.vout = [] ++ [⟨0, []⟩, last] := hvout
      exact (checkColdStakeFreeOutput_last_two hp2cs hvin hsplit).mpr (absurd rfl)
    · have hsplit : tx.vout = ⟨0, []⟩ :: front ++ [pen, last] := by simpa using hvout
      refine (checkColdStakeFreeOutput_last_two hp2cs hvin hsplit).mpr fun _ hne => absurd ?_ hne
      rw [hbody last (by simp), hbody pen (by simp)]
  · obtain ⟨front, pen, hfront⟩ := (eq_nil_or_concat (stake ++ init)).resolve_left
      (append_ne_nil_of_left_ne_nil hstake.ne_nil init)
    simp only [concat_eq_append] at hvout hfront hbody ⊢
    have hpen : pen.scriptPubKey = c.scriptPubKey := hbody pen (by simp [hfront])
    have hrest : totalValue (front ++ [pen]) =
        total + totalValue (init ++ [last]) - last.nValue := by
      rw [← hfront, totalValue_append, totalValue_append, hstake.total, totalValue_cons,
        totalValue_nil]
      ring
    have hsplit : tx.vout = ⟨0, []⟩ :: front ++ [pen, last] := by
      rw [hvout, ← append_assoc, hfront]
      simp
    rw [checkColdStakeFreeOutput_last_two hp2cs hvin hsplit, hpen, cons_append,
      tail_cons, hrest]
    by_cases hlast : last.scriptPubKey = c.scriptPubKey <;>
      simp [freeOutput]

theorem valid_iff_free : (checkColdStake tx c.nValue c.scriptPubKey = true ∧
        node.checkColdStakeFreeOutput tx h = true) ↔
      (∀ out ∈ paid.dropLast, out.scriptPubKey = c.scriptPubKey) ∧
      c.nValue + totalValue (freeOutput c.scriptPubKey paid).toList < total + totalValue paid ∧
      ∀ out, freeOutput c.scriptPubKey paid = some out →
        FreeOutputAllowed node c h out.nValue (total + totalValue paid - out.nValue) := by
  rw [checkColdStake_iff hvin hvout hstake, and_assoc]
  refine and_congr_right fun hscript => ?_
  rw [checkColdStakeFreeOutput_iff hvin hvout hstake hscript,
    ← totalValue_filter_add_free hscript, ← add_assoc]
  exact and_congr_left fun _ => (add_lt_add_iff_right _).symm

end

/-! ## The payments of the levels -/

section

variable (env : PaymentEnv) (t : VoteTables) (h : Int)

/-- The flag `hasPayment` after the given levels: the last of them without a recorded vote has a
masternode. -/
def hasPaymentAfter (levels : List Int) : Bool :=
  levels.foldl (fun flag l =>
    if (t.getBlockPayee (h + 1) l).isSome then flag else (env.currentMasterNode l).isSome) true

/-- Whom a level pays at height `h`, if anybody, where `below` are the levels before it. -/
def duePayeeAfter (below : List Int) (mnlevel : Int) : Option CScript :=
  match t.getBlockPayee (h + 1) mnlevel with
  | some payee => if hasPaymentAfter env t h below then some payee else none
  | none => env.currentMasterNode mnlevel

/-- Whom a level pays at height `h`, if anybody. -/
def duePayee (mnlevel : Int) : Option CScript :=
  duePayeeAfter env t h (mnLevels.filter (· < mnlevel)) mnlevel

def duePayment (mnlevel : Int) : Option CTxOut :=
  (duePayee env t h mnlevel).map fun payee =>
    ⟨env.masternodePayment mnlevel (env.blockValue h), payee⟩

theorem hasPaymentAfter_concat (below : List Int) (l : Int) :
    hasPaymentAfter env t h (below ++ [l]) =
      if (t.getBlockPayee (h + 1) l).isSome then hasPaymentAfter env t h below
      else (env.currentMasterNode l).isSome := by
  simp [hasPaymentAfter]

theorem levelPayments_cons (below : List Int) (l : Int) (ls : List Int) :
    levelPayments env t h (hasPaymentAfter env t h below) (l :: ls) =
      ((duePayeeAfter env t h below l).map fun payee =>
          (⟨env.masternodePayment l (env.blockValue h), payee⟩ : CTxOut)).toList ++
        levelPayments env t h (hasPaymentAfter env t h (below ++ [l])) ls := by
  rw [hasPaymentAfter_concat]
  cases hvote : t.getBlockPayee (h + 1) l with
  | some payee =>
    cases hflag : hasPaymentAfter env t h below <;>
      simp [levelPayments, duePayeeAfter, hvote, hflag]
  | none =>
    cases hnode : env.currentMasterNode l <;> simp [levelPayments, duePayeeAfter, hvote, hnode]

theorem levelPayments_mnLevels :
    levelPayments env t h true mnLevels = mnLevels.filterMap (duePayment env t h) := by
  calc levelPayments env t h true mnLevels
      = levelPayments env t h (hasPaymentAfter env t h []) [1, 2, 3, 4] := rfl
    _ = mnLevels.filterMap (duePayment env t h) := by
      simp only [levelPayments_cons]
      rw [filterMap_eq_flatMap_toList]
      rfl

/-- All but the last of the values of an ordered list meet `Q` iff every value does that has
another one after it. -/
theorem forall_mem_dropLast_filterMap {β : Type} {f : Int → Option β} {Q : β → Prop}
    {ls : List Int} (hls : ls.Pairwise (· < ·)) :
    (∀ b ∈ (ls.filterMap f).dropLast, Q b) ↔
      ∀ l ∈ ls, ∀ b, f l = some b → ¬ Q b → ∀ l' ∈ ls, l < l' → f l' = none := by
  induction hls with
  | nil => simp
  | @cons l ls hl _ ih =>
    cases hf : f l with
    | none =>
      rw [filterMap_cons_none hf, ih]
      simp [hf]
    | some b =>
      rw [filterMap_cons_some hf]
      by_cases hnil : ls.filterMap f = []
      · have hnone := filterMap_eq_nil_iff.mp hnil
        simp +contextual [hf, hnone]
      · have hle : ∀ l' ∈ ls, l ≤ l' := fun l' hl' => le_of_lt (hl l' hl')
        have hsome : ¬ ∀ l' ∈ ls, f l' = none := fun hall =>
          hnil (filterMap_eq_nil_iff.mpr hall)
        have hhead : (¬ Q b → ∀ l' ∈ ls, f l' = none) ↔ Q b := by
          rw [← not_imp_not, not_not]
          exact ⟨fun hq => hq hsome, fun hq _ => hq⟩
        rw [dropLast_cons_of_ne_nil hnil, forall_mem_cons, ih]
        simp +contextual [hf, hl, hle, hhead]

end

/-! ## What the levels take of the reward -/

theorem masternodePayment_lt_iff (env : PaymentEnv) (h : Int) {l : Int} (hl : l ∈ mnLevels) :
    env.masternodePayment l (env.blockValue h) < env.blockValue h ↔ 0 < env.blockValue h := by
  have hreward := getBlockValue_mem_blockRewards env.params.network h
  have hshares : ∀ r ∈ blockRewards,
      (mulDouble r 3602879701896397 55 < r ↔ 0 < r) ∧
      (mulDouble r 5404319552844595 55 < r ↔ 0 < r) ∧
      (mulDouble r 3602879701896397 54 < r ↔ 0 < r) ∧
      (mulDouble r 3602879701896397 53 < r ↔ 0 < r) := by decide
  obtain ⟨h1, h2, h3, h4⟩ := hshares _ hreward
  unfold mnLevels at hl
  simp only [mem_cons, not_mem_nil, or_false] at hl
  rcases hl with rfl | rfl | rfl | rfl
  · exact h1
  · exact h2
  · exact h3
  · exact h4

/-! ## The cold stake of a node -/

theorem StakeOf.lessShares {s : CScript} {stake : List CTxOut} {total : CAmount}
    (hstake : StakeOf s total stake) (amount : CAmount) :
    ∃ rest, lessShares amount (⟨0, []⟩ :: stake) = ⟨0, []⟩ :: rest ∧
      StakeOf s (total - amount) rest := by
  have hlen : 2 ≤ (⟨0, []⟩ :: stake).length :=
    Nat.succ_le_succ (length_pos_iff.mpr hstake.ne_nil)
  have htotal := totalValue_lessShares amount hlen
  have hscripts : ∀ out ∈ (Passion.lessShares amount (⟨0, []⟩ :: stake)).tail,
      out.scriptPubKey = s := scriptPubKey_of_mem_lessShares hstake.scripts
  have hhead : CTxOut.less (stakeShare ((⟨0, []⟩ :: stake).length - 1) amount 0)
      ⟨0, []⟩ = ⟨0, []⟩ := rfl
  unfold Passion.lessShares at htotal hscripts ⊢
  rw [mapIdx_cons, hhead] at htotal hscripts ⊢
  refine ⟨_, rfl, ?_, hscripts, ?_⟩
  · simpa using hstake.ne_nil
  · simpa [totalValue_cons, hstake.total] using htotal

namespace StakingNode

variable (node : StakingNode) (c : ColdStakeInput) (h : Int)

def superblockPayment : Option (CScript × CAmount) :=
  if node.superblocksActive then node.budgets.getPayeeAndAmount h else none

def devFeeAmount : CAmount := node.env.devFee (node.env.blockValue h)

def duePayments : List CTxOut :=
  mnLevels.filterMap (duePayment node.env node.votes h) ++
    if node.devFeeActive then [⟨node.devFeeAmount h, node.env.devpayee⟩] else []

/-- The payment of the superblock fits: it goes back to the script, or it may be the free
output. -/
def SuperblockFits (payee : CScript) (nAmount : CAmount) : Prop :=
  if payee = c.scriptPubKey then 0 < node.env.blockValue h + nAmount
  else 0 < node.env.blockValue h ∧
    FreeOutputAllowed node c h nAmount (c.nValue + node.env.blockValue h)

/-- The payments of the levels and the fee fit. A level that pays elsewhere is the last that pays
anybody, and no fee follows. A fee that goes elsewhere may be the free output. The payment that
goes elsewhere leaves something of the reward. -/
def PaymentsFit : Prop :=
  (∀ l ∈ mnLevels, ∀ payee, duePayee node.env node.votes h l = some payee →
    payee ≠ c.scriptPubKey → node.devFeeActive = false ∧
      ∀ l' ∈ mnLevels, l < l' → duePayee node.env node.votes h l' = none) ∧
  if node.devFeeActive = true ∧ node.env.devpayee ≠ c.scriptPubKey then
    node.devFeeAmount h < node.env.blockValue h ∧
      FreeOutputAllowed node c h (node.devFeeAmount h)
        (c.nValue + node.env.blockValue h - node.devFeeAmount h)
  else 0 < node.env.blockValue h

/-- The payments that the node adds at height `h` fit a cold stake of the coin `c`. -/
def ColdStakeFits : Prop :=
  match node.superblockPayment h with
  | some (payee, nAmount) => node.SuperblockFits c h payee nAmount
  | none => node.PaymentsFit c h

variable {node c h}

/-- What the levels and the fee pay fits iff the last of it does and the rest goes back. -/
theorem paymentsFit_iff (paid : List CTxOut) (hpaid : paid = node.duePayments h) :
    ((∀ out ∈ paid.dropLast, out.scriptPubKey = c.scriptPubKey) ∧
      totalValue (freeOutput c.scriptPubKey paid).toList < node.env.blockValue h ∧
      ∀ out, freeOutput c.scriptPubKey paid = some out →
        FreeOutputAllowed node c h out.nValue
          (c.nValue + node.env.blockValue h - out.nValue)) ↔ node.PaymentsFit c h := by
  unfold PaymentsFit
  cases hfee : node.devFeeActive with
  | true =>
    rw [duePayments, hfee, if_pos rfl] at hpaid
    have hlevels : (∀ out ∈ paid.dropLast, out.scriptPubKey = c.scriptPubKey) ↔
        ∀ l ∈ mnLevels, ∀ payee, duePayee node.env node.votes h l = some payee →
          payee = c.scriptPubKey := by
      rw [hpaid, dropLast_concat]
      simp only [mem_filterMap, duePayment, Option.map_eq_some_iff]
      constructor
      · intro hall l hl payee hpayee
        exact hall _ ⟨l, hl, payee, hpayee, rfl⟩
      · rintro hall out ⟨l, hl, payee, hpayee, rfl⟩
        exact hall l hl payee hpayee
    have hfree : freeOutput c.scriptPubKey paid = if node.env.devpayee ≠ c.scriptPubKey then
        some ⟨node.devFeeAmount h, node.env.devpayee⟩ else none := by
      simp [freeOutput, hpaid, Option.filter]
    rw [hlevels, hfree]
    by_cases hdev : node.env.devpayee = c.scriptPubKey
    · simp [hdev]
    · simp [hdev, totalValue_cons]
  | false =>
    rw [duePayments, hfee, if_neg Bool.false_ne_true, append_nil] at hpaid
    have hlevels : (∀ out ∈ paid.dropLast, out.scriptPubKey = c.scriptPubKey) ↔
        ∀ l ∈ mnLevels, ∀ payee, duePayee node.env node.votes h l = some payee →
          payee ≠ c.scriptPubKey → ∀ l' ∈ mnLevels, l < l' →
            duePayee node.env node.votes h l' = none := by
      rw [hpaid, forall_mem_dropLast_filterMap (show mnLevels.Pairwise (· < ·) by decide)]
      simp [duePayment]
    rw [hlevels]
    simp only [true_and]
    refine and_congr_right fun _ => ?_
    cases hfree : freeOutput c.scriptPubKey paid with
    | none => simp
    | some out =>
      -- the free output is the payment of a level
      have hmem : out ∈ paid := mem_of_getLast? (Option.filter_eq_some_iff.mp hfree).1
      rw [hpaid] at hmem
      obtain ⟨l, hl, hdue⟩ := mem_filterMap.mp hmem
      obtain ⟨payee, -, rfl⟩ := Option.map_eq_some_iff.mp hdue
      rw [Option.toList_some, totalValue_cons, totalValue_nil, add_zero,
        masternodePayment_lt_iff node.env h hl]
      refine and_iff_left ?_
      intro out hout
      cases hout
      exact .inl ⟨l, hl, rfl⟩

/-- `FillBlockPayee` adds the payment of the superblock, or else those of the levels. -/
theorem vout_fillBlockPayee_eq (txNew : CTransaction) (hpos : 0 < h) :
    (node.fillBlockPayee txNew h true).vout =
      match node.superblockPayment h with
      | some (payee, nAmount) => txNew.vout ++ [⟨nAmount, payee⟩]
      | none => (Passion.fillBlockPayee node.env node.votes txNew h true).vout := by
  have hle : ¬ h ≤ 0 := by omega
  have hne : h ≠ 0 := by omega
  unfold fillBlockPayee superblockPayment CBudgetManager.fillBlockPayee
  rw [if_neg hne]
  cases node.superblocksActive with
  | false => simp
  | true =>
    simp only [hle]
    cases node.budgets.getPayeeAndAmount h <;> simp

theorem vout_fillBlockPayee_levels {stake : List CTxOut} {total : CAmount}
    (txNew : CTransaction) (hvout : txNew.vout = ⟨0, []⟩ :: stake)
    (hstake : StakeOf c.scriptPubKey total stake) (hpos : 0 < h) :
    ∃ rest paid, (Passion.fillBlockPayee node.env node.votes txNew h true).vout =
        ⟨0, []⟩ :: (rest ++ paid) ∧
      StakeOf c.scriptPubKey (total - totalValue paid) rest ∧
      paid = node.duePayments h := by
  have hne : h ≠ 0 := by omega
  have hmint : stakesMint txNew = false := by
    obtain ⟨first, others, hcons⟩ := exists_cons_of_ne_nil hstake.ne_nil
    have hfirst := hstake.scripts first (by simp [hcons])
    simp [stakesMint, hvout, hcons, CTxOut.isZerocoinMint, hfirst, ColdStakeInput.scriptPubKey,
      CKeyID.isZerocoinMint_delegation]
  have hpaid : coinstakePayments node.env node.votes h ++ coinstakeFee node.env txNew h =
      node.duePayments h := by
    unfold coinstakePayments coinstakeFee
    rw [levelPayments_mnLevels]
    cases hfee : node.env.isSporkActive .developmentFee <;>
      simp [hne, hmint, duePayments, devFeeActive, devFeeAmount, hfee]
  obtain ⟨rest, hrest, hrestOf⟩ := hstake.lessShares
    (totalValue (coinstakePayments node.env node.votes h ++ coinstakeFee node.env txNew h))
  refine ⟨rest, _, ?_, hrestOf, hpaid⟩
  have hlen : 2 ≤ txNew.vout.length := by
    rw [hvout]
    exact Nat.succ_le_succ (length_pos_iff.mpr hstake.ne_nil)
  rw [vout_fillBlockPayee _ _ _ _ hlen]
  unfold coinstakeStake
  rw [if_pos ⟨hne, hmint⟩, ← totalValue_append, hvout, hrest, cons_append]

variable (node c)

/-- The outputs of the wallet's coinstake: the empty one, a stake with the script of the coin, and
payments that take `taken` of the coin and the reward. -/
theorem vout_createCoinStake (txNew : CTransaction) (threshold : CAmount) (hpos : 0 < h) :
    ∃ stake paid,
      (node.createCoinStake txNew c threshold h).vout = ⟨0, []⟩ :: (stake ++ paid) ∧
      match node.superblockPayment h with
      | some (payee, nAmount) => paid = [⟨nAmount, payee⟩] ∧
          StakeOf c.scriptPubKey (c.nValue + node.env.blockValue h) stake
      | none =>
        StakeOf c.scriptPubKey (c.nValue + node.env.blockValue h - totalValue paid) stake ∧
        paid = node.duePayments h := by
  obtain ⟨stake, hvout, hstake⟩ :=
    ColdStakeInput.setAmounts_replicate c.scriptPubKey threshold (c.nValue + node.env.blockValue h)
  have hfill := fun txNew => @vout_fillBlockPayee_eq node h txNew hpos
  unfold createCoinStake
  dsimp only [ColdStakeInput.createTxOuts]
  rw [hvout, hfill]
  cases node.superblockPayment h with
  | some payment => exact ⟨stake, [⟨payment.2, payment.1⟩], rfl, rfl, hstake⟩
  | none => exact vout_fillBlockPayee_levels _ rfl hstake hpos

/-- **When the cold stake that a node builds is valid**, whatever the split of the stake. -/
theorem coldStake_valid_iff (txNew : CTransaction) (nStakeSplitThreshold : CAmount)
    (nHeightPrev : Nat) :
    (checkColdStake (node.createCoinStake txNew c nStakeSplitThreshold (nHeightPrev + 1))
        c.nValue c.scriptPubKey = true ∧
      node.checkColdStakeFreeOutput
        (node.createCoinStake txNew c nStakeSplitThreshold (nHeightPrev + 1))
        (nHeightPrev + 1) = true) ↔ node.ColdStakeFits c (nHeightPrev + 1) := by
  have hpos : (0 : Int) < nHeightPrev + 1 := by omega
  generalize (nHeightPrev : Int) + 1 = h at hpos ⊢
  obtain ⟨stake, paid, hvout, hpaid⟩ :=
    node.vout_createCoinStake c txNew nStakeSplitThreshold hpos
  unfold ColdStakeFits
  cases hsuper : node.superblockPayment h with
  | some payment =>
    obtain ⟨payee, nAmount⟩ := payment
    rw [hsuper] at hpaid
    obtain ⟨rfl, hstake⟩ := hpaid
    rw [valid_iff_free rfl hvout hstake]
    unfold SuperblockFits
    by_cases hback : payee = c.scriptPubKey
    · simp [freeOutput, Option.filter, hback, totalValue_cons, add_assoc]
    · simp [freeOutput, Option.filter, hback, totalValue_cons]
  | none =>
    rw [hsuper] at hpaid
    obtain ⟨hstake, hpaid⟩ := hpaid
    rw [valid_iff_free rfl hvout hstake]
    simp only [← paymentsFit_iff paid hpaid, sub_add_cancel, add_lt_add_iff_left]

end StakingNode

/-! ### Stakes that the node refuses -/

namespace ColdStakeSample

def key (b : UInt8) : CKeyID := ⟨replicate 20 b, length_replicate⟩

def payeeScript (b : UInt8) : CScript := [0x76, 0xa9, 0x14] ++ (key b).bytes ++ [0x88, 0xac]

/-- A synced mainnet node with the given sporks, no votes and no budgets, and a masternode for each
of the given levels. -/
def node (sporks : List SporkId) (levels : List Int) : StakingNode where
  env :=
    { PaymentEnv.sample sporks with
      currentMasterNode := fun l => if levels.elem l then some (payeeScript 3) else none }
  votes := .empty
  budgets := ⟨[], 0⟩
  isSynced := true
  getTransaction _ := none

def coin : ColdStakeInput where
  txin := ⟨⟨1, 0⟩, [], 0⟩
  isNull_prevout := by decide
  nValue := 1000 * COIN
  stakingKey := key 1
  spendingKey := key 2

def coinstake (node : StakingNode) : CTransaction :=
  node.createCoinStake (.paying []) coin (500 * COIN) 100

end ColdStakeSample

open ColdStakeSample in
/-- With masternodes of two levels the interpreter refuses the coinstake, and with the fee spork and
no masternode `CheckBlock` refuses it. -/
theorem coldStake_refused :
    checkColdStake (coinstake (node [] [1, 2])) coin.nValue coin.scriptPubKey = false ∧
      (node [.developmentFee] []).checkColdStakeFreeOutput
        (coinstake (node [.developmentFee] [])) 100 = false := by
  decide +kernel

open ColdStakeSample in
example : checkColdStake (coinstake (node [] [1])) coin.nValue coin.scriptPubKey = true ∧
    (node [] [1]).checkColdStakeFreeOutput (coinstake (node [] [1])) 100 = true := by
  decide +kernel

end Passion
