import Passion.Validation.Mint

/-!
# Fees

The fee that `ConnectBlock` and the mempool take from `GetValueIn` and `GetValueOut`, for a
transaction that has passed `CheckTransaction` and `CheckTxInputs`. Neither `GetValueIn` nor
`GetValueOut` checks a range: that their sums do not overflow rests on the checks before them. The
shielded balance is added after the last range check of the inputs, so the value that goes in may
be twice the money range.

`CheckInputs` calls `CheckTxInputs` only for transactions that spend coins, and of these a coinstake
has no fee: it creates its reward.
-/

namespace Passion

open Lib (Handler)
open CCoinsViewCache
open Lib.Prog
open ViewM

/-! ## Sums -/

section

variable {l : List CTxOut}

theorem totalValue_take (hl : ∀ out ∈ l, 0 ≤ out.nValue) (k : Nat) :
    0 ≤ totalValue (l.take k) ∧ totalValue (l.take k) ≤ totalValue l := by
  have htake := totalValue_nonneg fun out ho => hl out (List.mem_of_mem_take (i := k) ho)
  have hdrop := totalValue_nonneg fun out ho => hl out (List.mem_of_mem_drop (i := k) ho)
  have hsum := totalValue_append (l.take k) (l.drop k)
  rw [List.take_append_drop] at hsum
  exact ⟨htake, by grind⟩

/-- The sums that `CheckTransaction`, `CheckTxInputs`, `GetValueIn` and `GetValueOut` go through are
64-bit numbers. -/
structure Account.SumsFit (a : Account) : Prop where
  inputs : ∀ k, Fits64 (totalValue (a.spent.take k))
  valueIn : Fits64 a.valueIn
  balance : Fits64 (-a.tx.valueBalance)
  outputs : ∀ k, Fits64 (totalValue (a.tx.vout.take k))
  /-- `CheckTransaction` starts with the shielded balance. -/
  checked : ∀ k, Fits64 (max 0 (-a.tx.valueBalance) + totalValue (a.tx.vout.take k))
  valueOut : Fits64 a.valueOut
  fee : Fits64 (a.valueIn - a.valueOut)

end

section

variable {env : ValidationEnv} {tx : CTransaction} {fZerocoinActive fSaplingActive : Bool}

theorem isSaplingVersion_of_checkTransaction
    (h : checkTransaction env tx fZerocoinActive fSaplingActive = .ok ())
    (hdata : tx.hasSaplingData = true) : tx.isSaplingVersion = true := by
  obtain ⟨poolIn, _, hsapling, -⟩ := checkTransaction_ok h
  exact ((checkSapling_ok hsapling).2 hdata).2.1

theorem exists_getValueOut (htx : tx.ValuesChecked env.params)
    (hmax : env.params.nMaxMoneyOut < 9223372036854775808)
    (hversion : tx.hasSaplingData = true → tx.isSaplingVersion = true) :
    ∃ v, tx.getValueOut = .ok v := by
  have htotal := htx.total
  have hloop := foldlM_addValueOut htx.outputs le_rfl (by grind)
  rw [CTransaction.getValueOut, hloop]
  cases hd : tx.sapData with
  | none => exact ⟨_, rfl⟩
  | some d =>
    cases hdata : tx.hasSaplingData with
    | false => exact ⟨_, rfl⟩
    | true =>
      by_cases hneg : d.valueBalance < 0 <;>
        simp [hversion hdata, hneg, bind, Except.bind]

theorem exists_getShieldedValueIn
    (hversion : tx.hasSaplingData = true → tx.isSaplingVersion = true) :
    ∃ v, tx.getShieldedValueIn = .ok v := by
  unfold CTransaction.getShieldedValueIn
  cases hd : tx.sapData with
  | none => exact ⟨_, rfl⟩
  | some d =>
    cases hdata : tx.hasSaplingData with
    | false => exact ⟨_, rfl⟩
    | true =>
      by_cases hpos : 0 < d.valueBalance <;> simp [hversion hdata, hpos]

theorem Account.InputsChecked.sumsFit {a : Account} (ha : a.InputsChecked env.params)
    (htx : a.tx.ValuesChecked env.params) (hmax : env.params.nMaxMoneyOut < 2305843009213693952) :
    a.SumsFit := by
  have hin := totalValue_nonneg ha.inputs
  have hout := totalValue_nonneg htx.outputs
  have hspent := ha.total
  have htotal := htx.total
  have hbalance := htx.balance
  have hvalueIn : 0 ≤ a.valueIn ∧ a.valueIn < 4611686018427387904 := by
    unfold valueIn
    exact ⟨by grind, by grind⟩
  have hvalueOut : 0 ≤ a.valueOut ∧ a.valueOut < 2305843009213693952 := by
    unfold valueOut
    exact ⟨by grind, by grind⟩
  constructor
  case inputs =>
    intro k
    have htake := totalValue_take ha.inputs k
    exact ⟨by grind, by grind⟩
  case outputs =>
    intro k
    have htake := totalValue_take htx.outputs k
    exact ⟨by grind, by grind⟩
  case checked =>
    intro k
    have htake := totalValue_take htx.outputs k
    exact ⟨by grind, by grind⟩
  all_goals exact ⟨by grind, by grind⟩

end

/-! ## The fee -/

def ConsensusParams.OfNetwork (params : ConsensusParams) : Prop :=
  params = .main ∨ ∃ nDevFee, params = .testnet nDevFee ∨ params = .regtest nDevFee

theorem ConsensusParams.OfNetwork.nMaxMoneyOut {params : ConsensusParams} (h : params.OfNetwork) :
    0 ≤ params.nMaxMoneyOut ∧ params.nMaxMoneyOut < 2305843009213693952 := by
  rcases h with rfl | ⟨nDevFee, rfl | rfl⟩
  · exact ⟨by decide, by decide⟩
  · exact ⟨show 0 ≤ 21000000 * COIN by decide,
      show 21000000 * COIN < 2305843009213693952 by decide⟩
  · exact ⟨show 0 ≤ 43199500 * COIN by decide,
      show 43199500 * COIN < 2305843009213693952 by decide⟩

section

variable [MerkleHash UInt256] {σ : Type} [CCoinsView σ] [LawfulCoinsView σ] [LawfulSaplingView σ]
  [LawfulView σ] {env : ValidationEnv} {tx : CTransaction} {view view' : CCoinsViewCache σ}

omit [LawfulCoinsView σ] [LawfulSaplingView σ] [LawfulView σ] in
theorem exists_foldlM_addInputValue (vin : List CTxIn) (v : CAmount) (view : CCoinsViewCache σ) :
    ∃ r, (vin.foldlM addInputValue v).run handler view = .ok r := by
  induction vin generalizing v view with
  | nil => exact ⟨_, rfl⟩
  | cons txin vin ih =>
    obtain ⟨r, hr⟩ := ih (wrap64 (v + (view.accessCoin txin.prevout).1.out.nValue))
      (view.accessCoin txin.prevout).2
    refine ⟨r, ?_⟩
    exact run_bind_ok.2 ⟨_, _, run_bind_ok.2 ⟨_, _, rfl, rfl⟩, hr⟩

theorem run_getValueIn_eq (hbase : LawfulView.Inv view.base) (hspends : tx.spendsCoins = true)
    (hversion : tx.hasSaplingData = true → tx.isSaplingVersion = true)
    (hfits : Fits64 (⟨tx, spentBy view.shown tx.vin⟩ : Account).valueIn) :
    ∃ view₁, (getValueIn tx).run handler view =
      .ok ((⟨tx, spentBy view.shown tx.vin⟩ : Account).valueIn, view₁) := by
  obtain ⟨⟨nResult, view₁⟩, hloop⟩ := exists_foldlM_addInputValue tx.vin 0 view
  obtain ⟨pool, hpool⟩ := exists_getShieldedValueIn hversion
  have hkind := CTransaction.spendsCoins_iff.mp hspends
  have hrun : (getValueIn tx).run handler view =
      .ok (wrap64 (nResult + pool), view₁) := by
    unfold getValueIn
    simp only [hkind.1, hkind.2, hpool]
    exact run_bind_ok.2 ⟨nResult, view₁, hloop, rfl⟩
  have hexact := showsCoins.run_getValueIn hspends hbase hrun
  rw [wrap64_of_fits hfits] at hexact
  exact ⟨view₁, hexact ▸ hrun⟩

/-- **The fee of a checked transaction is exact.** No sum overflows for a transaction that spends
coins; and if it is no coinstake, what goes in minus what goes out is in the money range. -/
theorem fee_of_checked {fZerocoinActive fSaplingActive : Bool} {nSpendHeight : Nat}
    (hnet : env.params.OfNetwork) (hbase : LawfulView.Inv view.base)
    (hspends : tx.spendsCoins = true)
    (hcheck : checkTransaction env tx fZerocoinActive fSaplingActive = .ok ())
    (hinputs : (checkTxInputs env tx nSpendHeight).run handler view = .ok ((), view')) :
    ∃ a : Account, a = ⟨tx, spentBy view.shown tx.vin⟩ ∧ a.SumsFit ∧
      (∃ view₁, (getValueIn tx).run handler view = .ok (a.valueIn, view₁)) ∧
      tx.getValueOut = .ok a.valueOut ∧
      wrap64 (a.valueIn - a.valueOut) = a.valueIn - a.valueOut ∧
      (tx.isCoinStake = false → env.params.moneyRange (a.valueIn - a.valueOut) = true) := by
  obtain ⟨hmax, hmax'⟩ := hnet.nMaxMoneyOut
  have htx := valuesChecked_of_checkTransaction hcheck hmax
  have hversion := isSaplingVersion_of_checkTransaction hcheck
  have hchecked := showsCoins.run_checkTxInputs hmax hmax' htx hbase hinputs
  have hfits := hchecked.sumsFit htx hmax'
  obtain ⟨v, hv⟩ := exists_getValueOut htx (by grind) hversion
  have hvalueOut := getValueOut_eq htx (by grind) hv (spentBy view.shown tx.vin)
  refine ⟨_, rfl, hfits, run_getValueIn_eq hbase hspends hversion hfits.valueIn, ?_,
    wrap64_of_fits hfits.fee, hchecked.fee⟩
  rw [hv, hvalueOut]

end

section

attribute [local instance] unitHash

/-- A transaction that moves the coin of `COutPoint.sample 5`, and leaves a fee of 100. -/
def CTransaction.payment : CTransaction :=
  ⟨1, 0, [⟨.sample 5, [], 0⟩], [⟨600, [0x51]⟩], none, none, 102⟩

theorem fee_payment : ∃ a : Account,
    a = ⟨.payment, spentBy (sample (.sampleAt 7)).shown CTransaction.payment.vin⟩ ∧
      a.SumsFit ∧
      (∃ view₁, (getValueIn .payment).run handler (sample (.sampleAt 7)) = .ok (a.valueIn, view₁)) ∧
      CTransaction.payment.getValueOut = .ok a.valueOut ∧
      wrap64 (a.valueIn - a.valueOut) = a.valueIn - a.valueOut ∧
      (CTransaction.payment.isCoinStake = false →
        (ValidationEnv.sample 99).params.moneyRange (a.valueIn - a.valueOut) = true) := by
  have hinputs : ∃ view', (checkTxInputs (.sample 99) .payment 100).run handler
      (sample (.sampleAt 7)) = .ok ((), view') := ⟨_, rfl⟩
  obtain ⟨view', hinputs⟩ := hinputs
  exact fee_of_checked (.inl rfl) (inv_sample rfl).base
    (by decide) (show checkTransaction (.sample 99) .payment false true = .ok () from rfl) hinputs

/-- The coinstake passes both checks, and what goes out of it is more than what goes in. -/
theorem coinStake_without_fee : ∃ view' view₁,
    checkTransaction (.sample 99) (.spendWorthless true 0) false true = .ok () ∧
      (checkTxInputs (.sample 99) (.spendWorthless true 0) 100).run handler
        (sample (.sampleAt 7)) = .ok ((), view') ∧
      (getValueIn (.spendWorthless true 0)).run handler (sample (.sampleAt 7)) = .ok (700, view₁) ∧
      (CTransaction.spendWorthless true 0).getValueOut = .ok 2100000000000000 ∧
      (ValidationEnv.sample 99).params.moneyRange (700 - 2100000000000000) = false :=
  ⟨_, _, rfl, rfl, rfl, rfl, by decide⟩

end

end Passion
