import Mathlib.Algebra.BigOperators.Group.Finset.Piecewise
import Mathlib.Tactic.Ring
import Passion.Masternode.PayeeCheck

/-!
# Paying the masternodes of a block

`CMasternodePayments::FillBlockPayee`, which adds the masternode payments and the development fee
to a coinbase or a coinstake, against the check that other nodes make of the result.

A coinstake is filled in three moves: a payment is appended for each level that has somebody to
pay, their sum and the fee are taken from the stake outputs, and the fee is appended. So the
outputs of the result are the stake outputs less their shares, the level payments, and the fee.

Main results: `vout_fillBlockPayee`, that closed form; `fillBlockPayee_conserves`, that what the
stake outputs lose is what is appended; and `filled_coinstake_accepted_iff`.
-/

namespace Passion

open Lib List

namespace VoteTables

def getBlockPayee (t : VoteTables) (nBlockHeight mnlevel : Int) : Option CScript :=
  (t.mapMasternodeBlocks.lookup nBlockHeight).bind (·.getPayee mnlevel)

end VoteTables

/-- `CMasternode::LevelValue::MIN` to `MAX`. -/
def mnLevels : List Int := [1, 2, 3, 4]

structure FillState where
  hasPayment : Bool
  payee : CScript
  vout : List CTxOut
  mnPaymentsTotal : CAmount
  mnTransactionCount : Nat

/-- The payee of one level. A recorded vote sets `payee` and leaves `hasPayment` alone. -/
def FillState.selectPayee (env : PaymentEnv) (t : VoteTables) (nHeight : Int) (s : FillState)
    (mnlevel : Int) : FillState :=
  match t.getBlockPayee (nHeight + 1) mnlevel with
  | some payee => { s with payee := payee }
  | none =>
    match env.currentMasterNode mnlevel with
    | some payee => { s with payee := payee, hasPayment := true }
    | none => { s with hasPayment := false }

def FillState.fillLevel (env : PaymentEnv) (t : VoteTables) (nHeight : Int) (fProofOfStake : Bool)
    (s : FillState) (mnlevel : Int) : FillState :=
  let s := s.selectPayee env t nHeight mnlevel
  if s.hasPayment && fProofOfStake then
    let masternodePayment := env.masternodePayment mnlevel (env.blockValue nHeight)
    { s with
      vout := s.vout ++ [⟨masternodePayment, s.payee⟩]
      mnPaymentsTotal := s.mnPaymentsTotal + masternodePayment
      mnTransactionCount := s.mnTransactionCount + 1 }
  else s

/-- `out.nValue -= amount`. -/
def CTxOut.less (amount : CAmount) (out : CTxOut) : CTxOut :=
  { out with nValue := out.nValue - amount }

/-- Take `amount` from the stake outputs, which stand between the first output and the last
`mnTransactionCount`. -/
def subtractPayments (vout : List CTxOut) (mnTransactionCount : Nat) (amount : CAmount) :
    List CTxOut :=
  let i := vout.length
  if i = mnTransactionCount + 2 then vout.modify (i - (mnTransactionCount + 1)) (.less amount)
  else if mnTransactionCount + 2 < i then
    let outputs := i - (mnTransactionCount + 1)
    let mnPaymentSplit := amount.tdiv outputs
    let mnPaymentRemainder := amount - mnPaymentSplit * outputs
    let split := (range outputs).foldl
      (fun vout j => vout.modify (j + 1) (.less mnPaymentSplit)) vout
    -- the last stake output also gives what the division leaves
    split.modify outputs (.less mnPaymentRemainder)
  else vout

def fillBlockPayee (env : PaymentEnv) (t : VoteTables) (txNew : CTransaction) (nHeight : Int)
    (fProofOfStake : Bool) : CTransaction :=
  if nHeight = 0 then txNew
  else
    let bDevFee := env.isSporkActive .developmentFee
    let blockValue := env.blockValue nHeight
    let devFeeAmount := if bDevFee then env.devFee blockValue else 0
    let s := mnLevels.foldl (FillState.fillLevel env t nHeight fProofOfStake)
      ⟨true, [], txNew.vout, 0, 0⟩
    let devOutput : List CTxOut := if bDevFee then [⟨devFeeAmount, env.devpayee⟩] else []
    { txNew with
      vout :=
        if fProofOfStake then
          if (s.vout[1]?).any CTxOut.isZerocoinMint then s.vout
          else subtractPayments s.vout s.mnTransactionCount (s.mnPaymentsTotal + devFeeAmount) ++
            devOutput
        else
          (s.vout ++ [(⟨s.mnPaymentsTotal, s.payee⟩ : CTxOut)]).modify 0 (fun out =>
            { out with nValue := blockValue - s.mnPaymentsTotal - devFeeAmount }) ++ devOutput }

/-! ## The level payments -/

open FillState

section

variable (env : PaymentEnv) (t : VoteTables) (h : Int)

/-- The payments of the given levels, where `flag` is `hasPayment` before the first. A level with
a recorded vote is paid only if the flag still stands from the levels before. -/
def levelPayments (flag : Bool) : List Int → List CTxOut
  | [] => []
  | l :: ls =>
    match t.getBlockPayee (h + 1) l with
    | some payee =>
      (if flag then [⟨env.masternodePayment l (env.blockValue h), payee⟩] else []) ++
        levelPayments flag ls
    | none =>
      match env.currentMasterNode l with
      | some payee =>
        ⟨env.masternodePayment l (env.blockValue h), payee⟩ :: levelPayments true ls
      | none => levelPayments false ls

theorem foldl_fillLevel (levels : List Int) (s : FillState) :
    let out := levels.foldl (fillLevel env t h true) s
    let paid := levelPayments env t h s.hasPayment levels
    out.vout = s.vout ++ paid ∧ out.mnPaymentsTotal = s.mnPaymentsTotal + totalValue paid ∧
      out.mnTransactionCount = s.mnTransactionCount + paid.length := by
  induction levels generalizing s with
  | nil => simp [levelPayments]
  | cons l ls ih =>
    have hrest := ih (s.fillLevel env t h true l)
    simp only [foldl_cons]
    obtain ⟨hvout, htotal, hcount⟩ := hrest
    rw [hvout, htotal, hcount]
    -- the three ways to select a payee, and the flag for a recorded vote
    cases hvote : t.getBlockPayee (h + 1) l with
    | some payee =>
      cases hflag : s.hasPayment <;>
        simp [fillLevel, selectPayee, levelPayments, totalValue, hvote, hflag,
          add_assoc, add_assoc, add_comm 1]
    | none =>
      cases hnode : env.currentMasterNode l <;>
        simp [fillLevel, selectPayee, levelPayments, totalValue, hvote, hnode,
          add_assoc, add_assoc, add_comm 1]

end

/-! ## The shares of the stake outputs -/

/-- What stake output `j` of `n` gives of `amount`. The first output of a coinstake is empty. -/
def stakeShare (n : Nat) (amount : CAmount) (j : Nat) : CAmount :=
  if j = 0 then 0
  else amount.tdiv n + if j = n then amount - amount.tdiv n * n else 0

def lessShares (amount : CAmount) (stake : List CTxOut) : List CTxOut :=
  stake.mapIdx fun j out => out.less (stakeShare (stake.length - 1) amount j)

open CTxOut

theorem CTxOut.less_zero : less 0 = id := by
  funext out
  simp [less]

theorem map_less_less (o : Option CTxOut) (a b : CAmount) :
    (o.map (less a)).map (less b) = o.map (less (a + b)) := by
  cases o <;> simp [less, sub_sub]

/-- Every change to the outputs is read as an amount taken from the output at each index. -/
theorem getElem?_modify_less (v : List CTxOut) (i k : Nat) (a : CAmount) :
    (v.modify i (.less a))[k]? = v[k]?.map (.less (if i = k then a else 0)) := by
  by_cases hk : i = k
  · simp [hk]
  · simp [hk, less_zero]

theorem getElem?_foldl_modify_less (v : List CTxOut) (n k : Nat) (a : CAmount) :
    ((range n).foldl (fun v j => v.modify (j + 1) (.less a)) v)[k]? =
      v[k]?.map (.less (if 1 ≤ k ∧ k ≤ n then a else 0)) := by
  induction n with
  | zero =>
    rw [if_neg (by omega), less_zero, Option.map_id]
    rfl
  | succ n ih =>
    rw [range_succ, foldl_append, foldl_cons, foldl_nil,
      getElem?_modify_less, ih, map_less_less]
    by_cases hk : n + 1 = k
    · rw [if_neg (by omega), if_pos hk, if_pos (by omega), zero_add]
    · by_cases hle : 1 ≤ k ∧ k ≤ n
      · rw [if_pos hle, if_neg hk, if_pos (by omega), add_zero]
      · rw [if_neg hle, if_neg hk, if_neg (by omega), add_zero]

theorem getElem?_lessShares_append (amount : CAmount) (stake paid : List CTxOut) (k : Nat) :
    (lessShares amount stake ++ paid)[k]? = (stake ++ paid)[k]?.map
      (.less (if k < stake.length then stakeShare (stake.length - 1) amount k else 0)) := by
  have hlen : (lessShares amount stake).length = stake.length := by simp [lessShares]
  by_cases hk : k < stake.length
  · rw [getElem?_append_left (hlen ▸ hk), getElem?_append_left hk, if_pos hk]
    simp [lessShares]
  · rw [getElem?_append_right (by omega), getElem?_append_right (by omega), if_neg hk,
      hlen, less_zero, Option.map_id]
    rfl

/-- One stake output gives everything; several give equal shares, the last one the rest too. -/
theorem subtractPayments_append (stake paid : List CTxOut) (amount : CAmount)
    (hstake : 2 ≤ stake.length) :
    subtractPayments (stake ++ paid) paid.length amount = lessShares amount stake ++ paid := by
  obtain ⟨n, hn⟩ : ∃ n, stake.length = n + 1 := ⟨stake.length - 1, by omega⟩
  have houtputs : stake.length + paid.length - (paid.length + 1) = n := by omega
  apply ext_getElem?
  intro k
  rw [getElem?_lessShares_append]
  unfold subtractPayments
  simp only [length_append, houtputs]
  by_cases hone : n = 1
  · subst hone
    rw [if_pos (by omega), getElem?_modify_less, hn]
    unfold stakeShare
    rcases lt_trichotomy k 1 with hk | rfl | hk
    · rw [if_neg (by omega), if_pos (by omega), if_pos (by omega)]
    · simp
    · rw [if_neg (by omega), if_neg (by omega)]
  · rw [if_neg (by omega), if_pos (by omega), getElem?_modify_less, getElem?_foldl_modify_less,
      map_less_less, hn]
    unfold stakeShare
    by_cases hk0 : k = 0
    · rw [if_neg (by omega), if_neg (by omega), if_pos (by omega), if_pos hk0, add_zero]
    · by_cases hk : k ≤ n
      · rw [if_pos (show 1 ≤ k ∧ k ≤ n by omega), if_pos (show k < n + 1 by omega), if_neg hk0,
          Nat.add_sub_cancel]
        simp only [eq_comm]
      · rw [if_neg (by omega), if_neg (by omega), if_neg (by omega), add_zero]

/-! ## The value of the outputs -/

theorem totalValue_mapIdx {f : Nat → CTxOut → CTxOut} {d : Nat → CAmount} {vout : List CTxOut}
    (hf : ∀ i, ∀ out ∈ vout, (f i out).nValue = out.nValue + d i) :
    totalValue (vout.mapIdx f) = totalValue vout + ∑ i ∈ Finset.range vout.length, d i := by
  induction vout using reverseRecOn with
  | nil => simp
  | append_singleton vout out ih =>
    have hinit := ih fun i o ho => hf i o (mem_append_left _ ho)
    have hlast := hf vout.length out (by simp)
    rw [mapIdx_append, totalValue_append, hinit]
    simp only [mapIdx_cons, mapIdx_nil, zero_add, totalValue_cons,
      totalValue_append, hlast, length_append, length_singleton, Finset.sum_range_succ]
    ring

theorem totalValue_mapIdx_less (vout : List CTxOut) (d : Nat → CAmount) :
    totalValue (vout.mapIdx fun i out => out.less (d i)) =
      totalValue vout - ∑ i ∈ Finset.range vout.length, d i := by
  rw [totalValue_mapIdx (fun i out _ => Int.sub_eq_add_neg), Finset.sum_neg_distrib, sub_eq_add_neg]

theorem sum_stakeShare (n : Nat) (amount : CAmount) :
    ∑ i ∈ Finset.range (n + 2), stakeShare (n + 1) amount i = amount := by
  rw [Finset.sum_range_succ']
  have hshare : ∀ i, stakeShare (n + 1) amount (i + 1) = amount.tdiv (n + 1 : Nat) +
      if i = n then amount - amount.tdiv (n + 1 : Nat) * (n + 1 : Nat) else 0 := by
    simp [stakeShare]
  simp only [hshare, Finset.sum_add_distrib, Finset.sum_const, Finset.card_range, nsmul_eq_mul,
    Finset.sum_ite_eq', Finset.mem_range, Nat.lt_succ_self]
  simp only [stakeShare, if_true]
  ring

theorem totalValue_lessShares (amount : CAmount) {stake : List CTxOut} (hlen : 2 ≤ stake.length) :
    totalValue (lessShares amount stake) = totalValue stake - amount := by
  obtain ⟨n, hn⟩ : ∃ n, stake.length = n + 2 := ⟨stake.length - 2, by omega⟩
  unfold lessShares
  rw [totalValue_mapIdx_less, hn]
  exact congrArg _ (sum_stakeShare n amount)

/-! ## The filled coinstake -/

section

variable (env : PaymentEnv) (t : VoteTables) (tx : CTransaction) (h : Int)

/-- The coinstake is minted to zerocoin; such a stake pays its levels and nothing is taken. -/
def stakesMint : Bool := (tx.vout[1]?).any isZerocoinMint

/-- The payments that a coinstake at height `h` gets for its levels. -/
def coinstakePayments : List CTxOut :=
  if h = 0 then [] else levelPayments env t h true mnLevels

def coinstakeFee : List CTxOut :=
  if h ≠ 0 ∧ stakesMint tx = false ∧ env.isSporkActive .developmentFee = true then
    [⟨env.devFee (env.blockValue h), env.devpayee⟩]
  else []

/-- The outputs of the coinstake, less what they give for the payments and the fee. -/
def coinstakeStake : List CTxOut :=
  if h ≠ 0 ∧ stakesMint tx = false then
    lessShares (totalValue (coinstakePayments env t h) + totalValue (coinstakeFee env tx h)) tx.vout
  else tx.vout

/-- **The outputs of a filled coinstake.** -/
theorem vout_fillBlockPayee (hvout : 2 ≤ tx.vout.length) : (fillBlockPayee env t tx h true).vout =
      coinstakeStake env t tx h ++ (coinstakePayments env t h ++ coinstakeFee env tx h) := by
  unfold fillBlockPayee
  by_cases h0 : h = 0
  · simp [h0, coinstakeStake, coinstakePayments, coinstakeFee]
  · obtain ⟨hv, htotal, hcount⟩ := foldl_fillLevel env t h mnLevels ⟨true, [], tx.vout, 0, 0⟩
    have hmint : (tx.vout ++ levelPayments env t h true mnLevels)[1]? = tx.vout[1]? :=
      getElem?_append_left (by omega)
    simp only [hv, htotal, hcount, hmint, zero_add]
    by_cases hm : (tx.vout[1]?).any isZerocoinMint = true
    · rw [if_pos hm]
      simp [coinstakeStake, coinstakePayments, coinstakeFee, stakesMint, h0, hm]
    · have hm' : stakesMint tx = false := Bool.eq_false_iff.mpr hm
      rw [if_neg hm, subtractPayments_append _ _ _ hvout]
      cases hfee : env.isSporkActive .developmentFee <;>
        simp [coinstakeStake, coinstakePayments, coinstakeFee, totalValue, h0, hm', hfee]

/-- What is taken from output `j`. -/
def coinstakeTaken (j : Nat) : CAmount :=
  if h = 0 then 0
  else stakeShare (tx.vout.length - 1)
    (totalValue (coinstakePayments env t h) + totalValue (coinstakeFee env tx h)) j

theorem coinstakeStake_eq_mapIdx (hmint : stakesMint tx = false) : coinstakeStake env t tx h =
      tx.vout.mapIdx fun j out => out.less (coinstakeTaken env t tx h j) := by
  unfold coinstakeStake coinstakeTaken
  by_cases h0 : h = 0
  · exact ext_getElem? fun i => by simp [h0, less_zero]
  · simp [h0, hmint, lessShares]

theorem sum_coinstakeTaken (hvout : 2 ≤ tx.vout.length) :
    ∑ j ∈ Finset.range tx.vout.length, coinstakeTaken env t tx h j =
      totalValue (coinstakePayments env t h ++ coinstakeFee env tx h) := by
  obtain ⟨n, hn⟩ : ∃ n, tx.vout.length = n + 2 := ⟨tx.vout.length - 2, by omega⟩
  unfold coinstakeTaken
  by_cases h0 : h = 0
  · simp [h0, coinstakePayments, coinstakeFee]
  · simp only [h0, if_false, hn, Nat.reduceSubDiff, sum_stakeShare, totalValue_append]

theorem totalValue_fillBlockPayee (hvout : 2 ≤ tx.vout.length) (hmint : stakesMint tx = false) :
    totalValue (fillBlockPayee env t tx h true).vout = totalValue tx.vout := by
  rw [vout_fillBlockPayee env t tx h hvout, totalValue_append,
    coinstakeStake_eq_mapIdx env t tx h hmint, totalValue_mapIdx_less,
    sum_coinstakeTaken env t tx h hvout, sub_add_cancel]

/-- **Filling a coinstake moves value and makes none.** The outputs it had are reduced by amounts
that sum to what is appended, the first output by nothing. -/
theorem fillBlockPayee_conserves (hvout : 2 ≤ tx.vout.length) (hmint : stakesMint tx = false) :
    totalValue (fillBlockPayee env t tx h true).vout = totalValue tx.vout ∧
      (fillBlockPayee env t tx h true).vout =
        (tx.vout.mapIdx fun j out => out.less (coinstakeTaken env t tx h j)) ++
          (coinstakePayments env t h ++ coinstakeFee env tx h) ∧
      coinstakeTaken env t tx h 0 = 0 ∧
      ∑ j ∈ Finset.range tx.vout.length, coinstakeTaken env t tx h j =
        totalValue (coinstakePayments env t h ++ coinstakeFee env tx h) := by
  refine ⟨totalValue_fillBlockPayee env t tx h hvout hmint, ?_, ?_,
    sum_coinstakeTaken env t tx h hvout⟩
  · rw [vout_fillBlockPayee env t tx h hvout, coinstakeStake_eq_mapIdx env t tx h hmint]
  · simp [coinstakeTaken, stakeShare]

end

/-! ## Who gets what

Whatever its stake, a coinstake pays the levels and the fee. Whom the levels pay is known from the
recorded votes and the masternodes. -/

section

variable (env : PaymentEnv) (t : VoteTables) (h : Int)

/-- A coinstake, with its empty first output. -/
def coinstakeOf (stake : List CTxOut) : CTransaction := .paying (⟨0, []⟩ :: stake)

/-- Who is to be paid for a level: the payee of the votes, or else the current masternode. -/
def owedPayee (mnlevel : Int) : Option CScript :=
  (t.getBlockPayee (h + 1) mnlevel).or (env.currentMasterNode mnlevel)

/-- The way back over levels with a vote leads to one that has nobody to pay. -/
def leadsToUnpaid : List Int → Bool
  | [] => false
  | l :: lower =>
    if (t.getBlockPayee (h + 1) l).isSome then leadsToUnpaid lower
    else (env.currentMasterNode l).isNone

/-- Whom the level pays. A vote counts for nothing after a level that has nobody to pay. -/
def paidPayee (mnlevel : Int) : Option CScript :=
  if (t.getBlockPayee (h + 1) mnlevel).isSome = true ∧
      leadsToUnpaid env t h (mnLevels.takeWhile (· ≠ mnlevel)).reverse = true then none
  else owedPayee env t h mnlevel

def lowestToFee : Option Int :=
  mnLevels.find? fun l => (paidPayee env t h l).any fun payee => env.paysDev ⟨0, payee⟩

/-- What goes to the fee address first is the fee that is asked for. -/
def FeeAgrees (b : CMasternodeBlockPayees) : Prop :=
  h ≠ 0 ∧ (lowestToFee env t h).elim (env.devFee (env.blockValue h))
    (env.masternodePayment · (env.blockValue h)) = b.requiredDevFee env

/-- What a script gets from every coinstake that is no zerocoin mint. -/
inductive Gets (payee : CScript) : CAmount → Prop where
  /-- The first output is empty. -/
  | empty : payee = [] → Gets payee 0
  | level {l : Int} : h ≠ 0 → l ∈ mnLevels → paidPayee env t h l = some payee →
      Gets payee (env.masternodePayment l (env.blockValue h))
  | fee : h ≠ 0 → env.isSporkActive .developmentFee = true → payee = env.devpayee →
      Gets payee (env.devFee (env.blockValue h))

/-- Fewer than six levels have a payee with enough votes, or each has one that gets the payment. -/
def LevelsAgree (b : CMasternodeBlockPayees) : Prop :=
  b.quorumLevels.card < mnPaymentsSignaturesRequired ∨
    ∀ l ∈ b.quorumLevels, ∃ p ∈ b.vecPayments, p.hasQuorum = true ∧ p.mnlevel = l ∧
      ∃ amount, Gets env t h p.scriptPubKey amount ∧
        env.masternodePayment l (env.blockValue (b.nBlockHeight - 1)) ≤ amount

def Accepts (stake : List CTxOut) : Prop :=
  t.isTransactionValid env (fillBlockPayee env t (coinstakeOf stake) h true) h = true

/-- The first stake output is no zerocoin mint, and none goes to the fee address. -/
def OrdinaryStake (stake : List CTxOut) : Prop :=
  (stake[0]?).any isZerocoinMint = false ∧ ∀ out ∈ stake, env.paysDev out = false

variable {env t h}

theorem levelPayments_eq_filterMap {before after : List Int}
    (hsplit : mnLevels = before.reverse ++ after) :
    levelPayments env t h (!leadsToUnpaid env t h before) after = after.filterMap fun l =>
      (paidPayee env t h l).map fun payee =>
        ⟨env.masternodePayment l (env.blockValue h), payee⟩ := by
  induction after generalizing before with
  | nil => rfl
  | cons l after ih =>
    have hrest := @ih (l :: before) (by simpa using hsplit)
    have hlower : (mnLevels.takeWhile (· ≠ l)).reverse = before := by
      have hnodup : (before.reverse ++ l :: after).Nodup := hsplit ▸ (by decide : mnLevels.Nodup)
      have hne : ∀ m ∈ before.reverse, decide (m ≠ l) = true := fun m hm =>
        decide_eq_true fun heq => disjoint_of_nodup_append hnodup hm (heq ▸ mem_cons_self)
      rw [hsplit, takeWhile_append_of_pos hne, takeWhile_cons_of_neg (by simp), append_nil,
        reverse_reverse]
    rw [filterMap_cons, paidPayee, hlower, owedPayee]
    cases hvote : t.getBlockPayee (h + 1) l with
    | some payee =>
      simp only [leadsToUnpaid, hvote, Option.isSome_some, if_true] at hrest
      cases hlead : leadsToUnpaid env t h before <;>
        simpa [levelPayments, hvote, hlead] using hrest
    | none =>
      simp only [leadsToUnpaid, hvote, Option.isSome_none, Bool.false_eq_true, if_false] at hrest
      cases hnode : env.currentMasterNode l <;>
        simpa [levelPayments, hvote, hnode] using hrest

theorem coinstakePayments_eq (h0 : h ≠ 0) : coinstakePayments env t h =
    mnLevels.filterMap fun l => (paidPayee env t h l).map fun payee =>
      ⟨env.masternodePayment l (env.blockValue h), payee⟩ := by
  rw [coinstakePayments, if_neg h0]
  exact @levelPayments_eq_filterMap env t h [] _ rfl

theorem appended_fee_iff {tx : CTransaction} (hmint : stakesMint tx = false)
    (h30 : env.isSporkActive .developmentFee = true) {fee : CAmount} :
    (∃ out, (coinstakePayments env t h ++ coinstakeFee env tx h).find? env.paysDev = some out ∧
        out.nValue = fee) ↔
      h ≠ 0 ∧ (lowestToFee env t h).elim (env.devFee (env.blockValue h))
        (env.masternodePayment · (env.blockValue h)) = fee := by
  by_cases h0 : h = 0
  · simp [h0, coinstakePayments, coinstakeFee]
  have hfee : (coinstakeFee env tx h).find? env.paysDev =
      some ⟨env.devFee (env.blockValue h), env.devpayee⟩ := by
    rw [coinstakeFee, if_pos ⟨h0, hmint, h30⟩]
    exact find?_cons_of_pos (decide_eq_true env.encode_devpayee.symm)
  have hlowest : (mnLevels.find? fun l => Option.any env.paysDev ((paidPayee env t h l).map
      fun payee => ⟨env.masternodePayment l (env.blockValue h), payee⟩)) = lowestToFee env t h := by
    simp only [Option.any_map]
    rfl
  rw [find?_append, hfee, coinstakePayments_eq h0, find?_filterMap, hlowest, and_iff_right h0]
  cases hlow : lowestToFee env t h with
  | none => simp
  | some l =>
    have hany := find?_some (show mnLevels.find? _ = some l from hlow)
    obtain ⟨payee, hpayee, -⟩ := (Option.any_eq_true _ _).mp hany
    simp [hpayee]

theorem gets_iff {tx : CTransaction} {payee : CScript} {amount : CAmount}
    (hmint : env.isSporkActive .developmentFee = true → stakesMint tx = false) :
    Gets env t h payee amount ↔
      (⟨amount, payee⟩ : CTxOut) ∈
        ⟨0, []⟩ :: (coinstakePayments env t h ++ coinstakeFee env tx h) := by
  rw [mem_cons, mem_append]
  constructor
  · rintro (rfl | ⟨h0, hl, hpaid⟩ | ⟨h0, h30, rfl⟩)
    · exact .inl rfl
    · rw [coinstakePayments_eq h0]
      exact .inr (.inl (mem_filterMap.mpr ⟨_, hl, by rw [hpaid]; rfl⟩))
    · rw [coinstakeFee, if_pos ⟨h0, hmint h30, h30⟩]
      exact .inr (.inr mem_cons_self)
  · rintro (heq | hmem | hmem)
    · cases heq
      exact .empty rfl
    · have h0 : h ≠ 0 := by
        rintro rfl
        simp [coinstakePayments] at hmem
      rw [coinstakePayments_eq h0] at hmem
      obtain ⟨l, hl, hpaid⟩ := mem_filterMap.mp hmem
      obtain ⟨payee', hpayee, heq⟩ := Option.map_eq_some_iff.mp hpaid
      cases heq
      exact .level h0 hl hpayee
    · unfold coinstakeFee at hmem
      split_ifs at hmem with hpaid
      · cases mem_singleton.mp hmem
        exact .fee hpaid.1 hpaid.2.2 rfl
      · cases hmem

theorem coinstakeStake_cons (stake : List CTxOut) :
    ∃ rest, coinstakeStake env t (coinstakeOf stake) h = ⟨0, []⟩ :: rest ∧
      rest.map (·.scriptPubKey) = stake.map (·.scriptPubKey) := by
  unfold coinstakeStake
  split_ifs
  · refine ⟨_, mapIdx_cons, ?_⟩
    apply ext_getElem?
    intro i
    simp [less, Function.comp_def]
  · exact ⟨stake, rfl, rfl⟩

/-- What one stake output loses does not depend on its value. -/
theorem coinstakeStake_single (script : CScript) : ∃ loss, ∀ nValue,
    coinstakeStake env t (coinstakeOf [⟨nValue, script⟩]) h =
      [⟨0, []⟩, ⟨nValue - loss, script⟩] := by
  by_cases hpaid : h ≠ 0 ∧ stakesMint (coinstakeOf [⟨0, script⟩]) = false
  · refine ⟨totalValue (coinstakePayments env t h) +
      totalValue (coinstakeFee env (coinstakeOf [⟨0, script⟩]) h), fun nValue => ?_⟩
    refine (if_pos hpaid).trans ?_
    simp [lessShares, less, stakeShare, coinstakeOf, CTransaction.paying]
    rfl
  · exact ⟨0, fun nValue => (if_neg hpaid).trans (by simp [coinstakeOf, CTransaction.paying])⟩

variable {b : CMasternodeBlockPayees} {stake rest vout : List CTxOut}

open CMasternodeBlockPayees (DevFeeOk LevelPaid)

theorem accepts_iff (hb : t.mapMasternodeBlocks.lookup h = some b) (hne : stake ≠ [])
    (hrest : coinstakeStake env t (coinstakeOf stake) h = ⟨0, []⟩ :: rest)
    (hvout : vout = ⟨0, []⟩ :: rest ++
      (coinstakePayments env t h ++ coinstakeFee env (coinstakeOf stake) h)) :
    Accepts env t h stake ↔ DevFeeOk env b vout ∧
      (b.quorumLevels.card < mnPaymentsSignaturesRequired ∨ ∀ l ∈ b.quorumLevels,
        LevelPaid env (env.blockValue (b.nBlockHeight - 1)) vout b.vecPayments l) := by
  have hlen : 2 ≤ (coinstakeOf stake).vout.length :=
    Nat.succ_le_succ (length_pos_of_ne_nil hne)
  rw [Accepts, VoteTables.isTransactionValid, hb]
  refine (b.isTransactionValid_iff _).trans ?_
  rw [vout_fillBlockPayee env t _ h hlen, hrest, hvout]

theorem OrdinaryStake.stakesMint (hstake : OrdinaryStake env stake) :
    stakesMint (coinstakeOf stake) = false := by
  simpa [Passion.stakesMint, coinstakeOf, CTransaction.paying] using hstake.1

/-- Where the stake does not go to the fee address, the fee is among what is appended. -/
theorem OrdinaryStake.devFeeOk_iff (hstake : OrdinaryStake env stake)
    (hempty : env.paysDev ⟨0, []⟩ = false)
    (hscripts : rest.map (·.scriptPubKey) = stake.map (·.scriptPubKey)) :
    DevFeeOk env b (⟨0, []⟩ :: rest ++
        (coinstakePayments env t h ++ coinstakeFee env (coinstakeOf stake) h)) ↔
      (env.isSporkActive .developmentFee = true → FeeAgrees env t h b) := by
  have hnone : (⟨0, []⟩ :: rest).find? env.paysDev = none := by
    refine find?_eq_none.mpr (forall_mem_cons.mpr ⟨by simpa using hempty, fun out hout hdev => ?_⟩)
    obtain ⟨out', hout', heq⟩ := mem_map.mp (hscripts ▸ mem_map_of_mem hout)
    have hdev' := hstake.2 out' hout'
    rw [PaymentEnv.paysDev, heq] at hdev'
    exact Bool.false_ne_true (hdev'.symm.trans hdev)
  refine forall_congr' fun h30 => ?_
  rw [find?_append, hnone, Option.none_or, appended_fee_iff hstake.stakesMint h30]
  rfl

/-- Whatever the stake, the payees get what is appended. -/
theorem LevelsAgree.accepts (hagree : LevelsAgree env t h b)
    (hb : t.mapMasternodeBlocks.lookup h = some b) (hne : stake ≠ [])
    (hmint : env.isSporkActive .developmentFee = true → stakesMint (coinstakeOf stake) = false)
    (hfee : ∀ rest, rest.map (·.scriptPubKey) = stake.map (·.scriptPubKey) →
      DevFeeOk env b (⟨0, []⟩ :: rest ++
        (coinstakePayments env t h ++ coinstakeFee env (coinstakeOf stake) h))) :
    Accepts env t h stake := by
  obtain ⟨rest, hrest, hscripts⟩ := coinstakeStake_cons stake
  refine (accepts_iff hb hne hrest rfl).mpr ⟨hfee rest hscripts, ?_⟩
  refine hagree.imp_right fun hpaid l hl => ?_
  obtain ⟨p, hp, hquorum, rfl, amount, hgets, hle⟩ := hpaid l hl
  refine ⟨p, hp, hquorum, rfl, ⟨amount, p.scriptPubKey⟩, ?_, by simp [CMasternodePayee.paidBy, hle]⟩
  have hmem := (gets_iff hmint).mp hgets
  simp only [cons_append, mem_cons, mem_append] at hmem ⊢
  exact hmem.imp_right .inr

variable (env) in
/-- Scripts that do not go to the fee address are not finitely many, and the empty one is one. -/
structure FeeAddressRare : Prop where
  empty : env.paysDev ⟨0, []⟩ = false
  fresh : ∀ scripts : List CScript, ∃ s ∉ scripts,
    env.paysDev ⟨0, s⟩ = false ∧ isZerocoinMint ⟨0, s⟩ = false

/-- A coinstake whose stake goes to none of the payees needs the payments. -/
theorem FeeAddressRare.exists_stake (hrare : FeeAddressRare env)
    (hb : t.mapMasternodeBlocks.lookup h = some b) :
    ∃ stake ≠ [], OrdinaryStake env stake ∧ (Accepts env t h stake →
      (env.isSporkActive .developmentFee = true → FeeAgrees env t h b) ∧
        LevelsAgree env t h b) := by
  obtain ⟨s, hs, hdev, hmint⟩ := hrare.fresh (b.vecPayments.map (·.scriptPubKey))
  have hstake : OrdinaryStake env [⟨0, s⟩] := ⟨by simpa using hmint, by simpa using hdev⟩
  refine ⟨[⟨0, s⟩], by simp, hstake, fun haccepts => ?_⟩
  obtain ⟨rest, hrest, hscripts⟩ := coinstakeStake_cons [⟨0, s⟩]
  obtain ⟨hfee, hlevels⟩ := (accepts_iff hb (by simp) hrest rfl).mp haccepts
  refine ⟨(hstake.devFeeOk_iff hrare.empty hscripts).mp hfee,
    hlevels.imp_right fun hpaid l hl => ?_⟩
  obtain ⟨p, hp, hquorum, rfl, out, hout, hpays⟩ := hpaid l hl
  simp only [CMasternodePayee.paidBy, Bool.and_eq_true, decide_eq_true_eq] at hpays
  refine ⟨p, hp, hquorum, rfl, out.nValue, ?_, hpays.2⟩
  rw [hpays.1, gets_iff fun _ => hstake.stakesMint]
  simp only [cons_append, mem_cons, mem_append] at hout ⊢
  rcases hout with hout | hout | hout
  · exact .inl hout
  · -- the stake output does not go to a payee
    have hmem : out.scriptPubKey ∈ rest.map (·.scriptPubKey) := mem_map_of_mem hout
    rw [hscripts, map_singleton, mem_singleton, ← hpays.1] at hmem
    exact absurd (mem_map.mpr ⟨p, hp, hmem⟩) hs
  · exact .inr hout

/-- A stake that goes to the fee address is taken for the fee. -/
theorem FeeAddressRare.sporkInactive (hrare : FeeAddressRare env)
    (hb : t.mapMasternodeBlocks.lookup h = some b)
    (hall : ∀ stake ≠ [], Accepts env t h stake) : env.isSporkActive .developmentFee = false := by
  by_contra hactive
  obtain ⟨loss, hloss⟩ := coinstakeStake_single env.devpayee
  have hvalue : ∀ nValue, nValue - loss = b.requiredDevFee env := by
    intro nValue
    obtain ⟨hfee, -⟩ := (accepts_iff hb (by simp) (hloss nValue) rfl).mp
      (hall [⟨nValue, env.devpayee⟩] (by simp))
    obtain ⟨out, hout, hvalue⟩ := hfee (eq_true_of_ne_false hactive)
    have hdev : env.paysDev ⟨nValue - loss, env.devpayee⟩ = true :=
      decide_eq_true env.encode_devpayee.symm
    rw [cons_append, find?_cons_of_neg (by simp [hrare.empty]), cons_append,
      find?_cons_of_pos hdev] at hout
    cases hout
    exact hvalue
  exact absurd (sub_left_inj.mp ((hvalue 0).trans (hvalue 1).symm)) (by decide)

/-- **When the coinstakes that a node fills for a height are accepted** by a node with the same
votes: those whose stake is no zerocoin mint and does not go to the fee address, and all. -/
theorem filled_coinstake_accepted_iff (hrare : FeeAddressRare env) :
    ((∀ stake ≠ [], OrdinaryStake env stake → Accepts env t h stake) ↔
      ∀ b, t.mapMasternodeBlocks.lookup h = some b →
        (env.isSporkActive .developmentFee = true → FeeAgrees env t h b) ∧
          LevelsAgree env t h b) ∧
    ((∀ stake ≠ [], Accepts env t h stake) ↔
      ∀ b, t.mapMasternodeBlocks.lookup h = some b →
        env.isSporkActive .developmentFee = false ∧ LevelsAgree env t h b) := by
  cases hb : t.mapMasternodeBlocks.lookup h with
  | none => simp [Accepts, VoteTables.isTransactionValid, hb]
  | some b =>
    simp only [Option.some.injEq, forall_eq']
    obtain ⟨fresh, hne, hfresh, hneeds⟩ := hrare.exists_stake hb
    refine ⟨⟨fun hall => hneeds (hall fresh hne hfresh), ?_⟩, ⟨fun hall => ?_, ?_⟩⟩
    · rintro ⟨hfee, hagree⟩ stake hne hstake
      exact hagree.accepts hb hne (fun _ => hstake.stakesMint)
        fun rest hscripts => (hstake.devFeeOk_iff hrare.empty hscripts).mpr hfee
    · exact ⟨hrare.sporkInactive hb hall, (hneeds (hall fresh hne)).2⟩
    · rintro ⟨hinactive, hagree⟩ stake hne
      have hoff : ¬env.isSporkActive .developmentFee = true := by simp [hinactive]
      exact hagree.accepts hb hne (fun h30 => absurd h30 hoff) fun _ _ h30 => absurd h30 hoff

end

def CTransaction.coinstake : CTransaction := .paying [⟨0, []⟩, ⟨1000 * COIN, [0x52]⟩]

/-- A stake that is split in three, on mainnet with the fee spork: what the levels and the fee get
comes from the three. -/
theorem fillBlockPayee_conserves_split : totalValue (fillBlockPayee .enforcing (.sample 100)
        (.paying [⟨0, []⟩, ⟨7 * COIN, [0x52]⟩, ⟨7 * COIN, [0x52]⟩, ⟨8 * COIN, [0x52]⟩]) 99
        true).vout = 22 * COIN ∧
      (fillBlockPayee .enforcing (.sample 100)
        (.paying [⟨0, []⟩, ⟨7 * COIN, [0x52]⟩, ⟨7 * COIN, [0x52]⟩, ⟨8 * COIN, [0x52]⟩]) 99
        true).vout.length = 6 :=
  ⟨(fillBlockPayee_conserves .enforcing (.sample 100)
    (.paying [⟨0, []⟩, ⟨7 * COIN, [0x52]⟩, ⟨7 * COIN, [0x52]⟩, ⟨8 * COIN, [0x52]⟩]) 99 (by decide)
    (by decide)).1.trans (by decide), by decide⟩

theorem feeAddressRare_sample (sporks : List SporkId) : FeeAddressRare (.sample sporks) := by
  have hother : ∀ s ≠ PaymentEnv.devScript, (PaymentEnv.sample sporks).paysDev ⟨0, s⟩ = false := by
    intro s hs
    have hencode : (PaymentEnv.sample sporks).encodeDestination s = "" := if_neg hs
    rw [PaymentEnv.paysDev, hencode]
    exact (by decide : decide (ConsensusParams.main.strDevFeeAddress = "") = false)
  refine ⟨hother [] (by decide), fun scripts => ?_⟩
  -- a script that is longer than all of them, and than that of the fee address
  refine ⟨replicate (scripts.flatten.length + 26) 0x51, fun hmem => ?_, hother _ fun heq => ?_, rfl⟩
  · have hle := (sublist_flatten_of_mem hmem).length_le
    rw [length_replicate] at hle
    omega
  · have hlen := congrArg length heq
    rw [length_replicate, show PaymentEnv.devScript.length = 25 from rfl] at hlen
    omega

/-- Inside a phase of the reward schedule the filled coinstake is accepted. -/
theorem filled_coinstake_accepted_within_phase :
    (VoteTables.sample 100).isTransactionValid .enforcing
      (fillBlockPayee .enforcing (.sample 100) .coinstake 100 true) 100 = true := by
  refine (filled_coinstake_accepted_iff (feeAddressRare_sample _)).1.mpr ?_
    [⟨1000 * COIN, [0x52]⟩] (by simp) ⟨by decide, by decide⟩
  intro b hb
  obtain rfl : ⟨100, [⟨[0x51], 1, 1⟩]⟩ = b :=
    Option.some.inj ((by decide : (VoteTables.sample 100).mapMasternodeBlocks.lookup 100 =
      some ⟨100, [⟨[0x51], 1, 1⟩]⟩).symm.trans hb)
  exact ⟨fun _ => ⟨by decide, by decide⟩, .inl (by decide)⟩

/-- At the first height of the second phase, with the fee spork active and one vote recorded for
the height, the node refuses the coinstake it filled: it pays the fee of a reward of 10 coins, and
the check asks for the fee of 12. -/
theorem filled_coinstake_refused_at_phase_change : VoteTables.Reach (.sample 43201) ∧
      PaymentEnv.enforcing.isSporkActive .enableSuperblocks = false ∧
      (VoteTables.sample 43201).isTransactionValid .enforcing
        (fillBlockPayee .enforcing (.sample 43201) .coinstake 43201 true) 43201 = false :=
  ⟨.vote 1 43201 _ .init, by decide, by decide⟩

end Passion
