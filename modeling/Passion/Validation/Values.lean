import Mathlib.Algebra.Order.BigOperators.Group.List
import Passion.Coins.Shown
import Passion.Validation.Checked

/-!
# Values of transactions

The exact value of what a transaction takes in and gives out (`Account`), and that the 64-bit sums
of `GetValueIn`, `GetValueOut` and `CheckTxInputs` are exact for a transaction that passes all
checks. The sums over a block, which have no range check, are the subject of
`Passion.Validation.Mint`.
-/

namespace Passion

open Lib (Prog Handler bind_eq_ok)
open List
open Lib.Prog
open ViewM

/-! ## 64-bit integers -/

/-- The value fits into an `int64_t`. -/
def Fits64 (x : Int) : Prop := -9223372036854775808 ≤ x ∧ x < 9223372036854775808

instance (x : Int) : Decidable (Fits64 x) := inferInstanceAs (Decidable (_ ∧ _))

theorem wrap64_of_fits {x : Int} (hx : Fits64 x) : wrap64 x = x := by
  obtain ⟨hlo, hhi⟩ := hx
  refine Int.bmod_eq_of_le ?_ ?_ <;> omega

theorem fits_wrap64 (x : Int) : Fits64 (wrap64 x) := by
  unfold Fits64 wrap64 Int.bmod
  dsimp only
  split_ifs <;> omega

theorem wrap64_wrap64 (x : Int) : wrap64 (wrap64 x) = wrap64 x := Int.bmod_bmod

theorem wrap64_add_left (x y : Int) : wrap64 (wrap64 x + y) = wrap64 (x + y) := Int.bmod_add_bmod

theorem wrap64_add_right (x y : Int) : wrap64 (x + wrap64 y) = wrap64 (x + y) := Int.add_bmod_bmod

/-- A sum that overflows upwards only gets smaller. -/
theorem wrap64_le {x : Int} (hx : -9223372036854775808 ≤ x) : wrap64 x ≤ x := by
  unfold wrap64 Int.bmod
  dsimp only
  split_ifs <;> omega

/-! ## What a transaction takes in and gives out -/

def CTransaction.valueBalance (tx : CTransaction) : CAmount :=
  match tx.sapData with
  | none => 0
  | some d => d.valueBalance

structure Account where
  tx : CTransaction
  spent : List CTxOut

namespace Account

variable (a : Account)

/-- Coins that are spent, and value that leaves the shielded pool. -/
def valueIn : Int := totalValue a.spent + max 0 a.tx.valueBalance

/-- Coins that are created, and value that enters the shielded pool. -/
def valueOut : Int := totalValue a.tx.vout + max 0 (-a.tx.valueBalance)

/-- What the transaction leaves to the block; coinbase and coinstake leave nothing. -/
def fee : Int := if a.tx.isCoinBase || a.tx.isCoinStake then 0 else a.valueIn - a.valueOut

/-- Transparent outputs minus coins spent, plus the change of the shielded pool. -/
def supplyChange : Int := totalValue a.tx.vout - totalValue a.spent + -a.tx.valueBalance

theorem supplyChange_eq : a.supplyChange = a.valueOut - a.valueIn := by
  unfold supplyChange valueOut valueIn
  omega

structure Nonneg : Prop where
  valueIn : 0 ≤ a.valueIn
  valueOut : 0 ≤ a.valueOut
  fee : 0 ≤ a.fee

variable {a}

/-- What `CheckTxInputs` says about values. -/
structure InputsChecked (params : ConsensusParams) (a : Account) : Prop where
  inputs : ∀ out ∈ a.spent, 0 ≤ out.nValue
  total : totalValue a.spent ≤ params.nMaxMoneyOut
  fee : a.tx.isCoinStake = false → params.moneyRange (a.valueIn - a.valueOut) = true

theorem Nonneg.fee_le (ha : a.Nonneg) : a.fee ≤ a.valueIn := by
  have hin := ha.valueIn
  have hout := ha.valueOut
  unfold Account.fee
  split_ifs <;> omega

end Account

/-! ## The sums of a checked transaction -/

open CTransaction

section

variable {env : ValidationEnv} {tx : CTransaction}

variable {v : CAmount}

theorem moneyRange_iff {params : ConsensusParams} :
    params.moneyRange v = true ↔ 0 ≤ v ∧ v ≤ params.nMaxMoneyOut := by
  simp [ConsensusParams.moneyRange]

theorem totalValue_nonneg {l : List CTxOut} (hl : ∀ out ∈ l, 0 ≤ out.nValue) :
    0 ≤ totalValue l := by
  exact sum_nonneg (by simpa using hl)

theorem valueBalance_of_no_data (h : tx.hasSaplingData = false) : tx.valueBalance = 0 := by
  unfold valueBalance
  cases hd : tx.sapData with
  | none => rfl
  | some d =>
    simp only [hasSaplingData, hd, Bool.or_eq_false_iff] at h
    simpa using h.1.2

theorem checkShieldedData_ok {params : ConsensusParams} {d : SaplingTxData} {poolIn : CAmount}
    (h : checkShieldedData params d = .ok poolIn) :
    poolIn = max 0 (-d.valueBalance) ∧ d.valueBalance ≤ params.nMaxMoneyOut ∧
      -params.nMaxMoneyOut ≤ d.valueBalance := by
  obtain ⟨_, -, h⟩ := bind_eq_ok.1 h
  obtain ⟨_, hrange, h⟩ := bind_eq_ok.1 h
  obtain ⟨_, -, h⟩ := bind_eq_ok.1 h
  obtain ⟨_, -, h⟩ := bind_eq_ok.1 h
  obtain ⟨_, -, h⟩ := bind_eq_ok.1 h
  simp only [require_eq_ok] at hrange
  have hpool := (Except.ok.inj h).symm
  rw [hpool]
  split_ifs <;> grind

theorem checkSapling_balance {fSaplingActive : Bool} {poolIn : CAmount}
    (h : checkSapling env.params tx fSaplingActive = .ok poolIn)
    (hmax : 0 ≤ env.params.nMaxMoneyOut) :
    poolIn = max 0 (-tx.valueBalance) ∧ tx.valueBalance ≤ env.params.nMaxMoneyOut ∧
      -env.params.nMaxMoneyOut ≤ tx.valueBalance := by
  obtain ⟨hplain, hshielded⟩ := checkSapling_ok h
  cases hdata : tx.hasSaplingData with
  | false =>
    rw [hplain hdata, valueBalance_of_no_data hdata]
    exact ⟨rfl, hmax, by grind⟩
  | true =>
    obtain ⟨-, -, -, -, hd⟩ := hshielded hdata
    unfold valueBalance
    cases hsap : tx.sapData with
    | none => simp [hasSaplingData, hsap] at hdata
    | some d => exact checkShieldedData_ok (hd d hsap)

/-- What `CheckTransaction` says about values. -/
structure CTransaction.ValuesChecked (params : ConsensusParams) (tx : CTransaction) : Prop where
  outputs : ∀ out ∈ tx.vout, 0 ≤ out.nValue
  total : totalValue tx.vout + max 0 (-tx.valueBalance) ≤ params.nMaxMoneyOut
  balance : tx.valueBalance ≤ params.nMaxMoneyOut

theorem valuesChecked_of_checkTransaction {fZerocoinActive fSaplingActive : Bool}
    (h : checkTransaction env tx fZerocoinActive fSaplingActive = .ok ())
    (hmax : 0 ≤ env.params.nMaxMoneyOut) : tx.ValuesChecked env.params := by
  obtain ⟨poolIn, nValueOut, hsapling, hout, -⟩ := checkTransaction_ok h
  obtain ⟨hpool, hle, hge⟩ := checkSapling_balance hsapling hmax
  obtain ⟨hpos, htotal, hrange⟩ := checkOutputs_ok hout
  refine ⟨hpos, ?_, hle⟩
  by_cases hempty : tx.vout = []
  · rw [hempty]
    show 0 + max 0 (-tx.valueBalance) ≤ _
    grind
  · have hin := (moneyRange_iff.1 (hrange hempty)).2
    unfold totalValue
    grind

theorem foldlM_addValueOut {l : List CTxOut} (hl : ∀ out ∈ l, 0 ≤ out.nValue)
    (hv : 0 ≤ v) (hfit : v + totalValue l < 9223372036854775808) :
    l.foldlM addValueOut v = .ok (v + totalValue l) := by
  induction l generalizing v with
  | nil => exact congrArg Except.ok (add_zero v).symm
  | cons out l ih =>
    obtain ⟨hout, hl⟩ := forall_mem_cons.mp hl
    have hnext := totalValue_nonneg hl
    have hsum := totalValue_cons out l
    have hexact : wrap64 (v + out.nValue) = v + out.nValue :=
      wrap64_of_fits ⟨by grind, by grind⟩
    have hstep : addValueOut v out = .ok (v + out.nValue) := by
      rw [addValueOut, hexact, if_neg (by grind), if_neg (by grind)]
    rw [foldlM_cons, hstep]
    refine (ih hl (by grind) (by grind)).trans ?_
    rw [hsum, add_assoc]

theorem getValueOut_eq (htx : tx.ValuesChecked env.params)
    (hmax : env.params.nMaxMoneyOut < 9223372036854775808) (h : tx.getValueOut = .ok v)
    (spent : List CTxOut) : v = (⟨tx, spent⟩ : Account).valueOut := by
  obtain ⟨w, hw, h⟩ := bind_eq_ok.1 h
  have htotal := htx.total
  have hpos := totalValue_nonneg htx.outputs
  have hexact : w = 0 + totalValue tx.vout :=
    (Except.ok.inj ((foldlM_addValueOut htx.outputs le_rfl (by grind)).symm.trans hw)).symm
  unfold Account.valueOut
  cases hd : tx.sapData with
  | none =>
    have hzero : tx.valueBalance = 0 := by simp [valueBalance, hd]
    rw [hd] at h
    cases h
    simp [hexact, hzero]
  | some d =>
    have hbal : tx.valueBalance = d.valueBalance := by simp [valueBalance, hd]
    simp only [hd] at h
    split_ifs at h with hneg hversion
    · cases h
      rw [wrap64_of_fits ⟨by grind, by grind⟩]
      grind
    · cases h
      -- without shielded data the balance is zero
      have hge : 0 ≤ d.valueBalance := by
        cases hdata : tx.hasSaplingData with
        | false => exact le_of_eq ((valueBalance_of_no_data hdata).symm.trans hbal)
        | true => simpa [hdata] using hneg
      grind

theorem getShieldedValueIn_eq (h : tx.getShieldedValueIn = .ok v) : v = max 0 tx.valueBalance := by
  unfold getShieldedValueIn at h
  cases hd : tx.sapData with
  | none =>
    rw [hd] at h
    cases h
    simp [valueBalance, hd]
  | some d =>
    have hbal : tx.valueBalance = d.valueBalance := by simp [valueBalance, hd]
    simp only [hd] at h
    split_ifs at h with hpos hversion
    · cases h
      grind
    · cases h
      have hle : d.valueBalance ≤ 0 := by
        cases hdata : tx.hasSaplingData with
        | false => exact le_of_eq (hbal.symm.trans (valueBalance_of_no_data hdata))
        | true => simpa [hdata] using hpos
      grind

end

/-! ## The sums over coins -/

def spentBy (f : COutPoint → Coin) (vin : List CTxIn) : List CTxOut :=
  vin.map fun txin => (f txin.prevout).out

theorem spentBy_cons (f : COutPoint → Coin) (txin : CTxIn) (vin : List CTxIn) :
    spentBy f (txin :: vin) = (f txin.prevout).out :: spentBy f vin := rfl

namespace ShowsCoins

variable {S : Type} {h : Handler ViewCmd ViewCmd.Answer ChainError S} {Ok : S → Prop}
  {shown : S → COutPoint → Coin} {s s' : S}

section

variable (laws : ShowsCoins h Ok shown)

include laws

theorem run_kept {α : Type} {p : ViewM α} {a : α} (hs : Ok s) (hrun : p.run h s = .ok (a, s')) :
    Ok s' := by
  refine Within.keeps ?_ (within_all p) hs hrun
  exact fun c t r t' _ ht hc => laws.kept ht hc

theorem run_read {α : Type} {p : ViewM α} (hp : ReadOnly p) {a : α}
    (hs : Ok s) (hrun : p.run h s = .ok (a, s')) : Ok s' ∧ shown s' = shown s := by
  refine Within.keeps (I := fun t => Ok t ∧ shown t = shown s) ?_ hp ⟨hs, rfl⟩ hrun
  rintro c t r t' hc ⟨ht, hshown⟩ hrun
  exact ⟨laws.kept ht hrun, (laws.read hc ht hrun).trans hshown⟩

theorem run_accessCoin {o : COutPoint} {c : Coin} (hs : Ok s)
    (hrun : (accessCoin o).run h s = .ok (c, s')) :
    c = shown s o ∧ Ok s' ∧ shown s' = shown s := by
  have hcall := hrun
  rw [accessCoin, run_call] at hcall
  exact ⟨laws.access hs hcall, laws.run_read (reads_accessCoin o) hs hrun⟩

variable {tx : CTransaction} {env : ValidationEnv} {vin : List CTxIn} {v : CAmount}
  {nSpendHeight : Nat}

/-- The loop of `GetValueIn`, up to overflow. -/
theorem run_addInputValue {v' : CAmount} (hs : Ok s)
    (hrun : (vin.foldlM addInputValue v).run h s = .ok (v', s')) :
    wrap64 v' = wrap64 (v + totalValue (spentBy (shown s) vin)) := by
  induction vin generalizing v s with
  | nil =>
    cases hrun
    exact congrArg wrap64 (add_zero _).symm
  | cons txin vin ih =>
    obtain ⟨w, t, hw, hrest⟩ := run_bind_ok.1 hrun
    obtain ⟨coin, t1, hcoin, hret⟩ := run_bind_ok.1 hw
    cases hret
    obtain ⟨rfl, ht, hshown⟩ := laws.run_accessCoin hs hcoin
    rw [ih ht hrest, hshown, wrap64_add_left, spentBy_cons, totalValue_cons, add_assoc]

/-- The loop of `CheckTxInputs` is exact, and every value is in range. -/
theorem run_checkTxInput {v' : CAmount} (hmax : env.params.nMaxMoneyOut < 2305843009213693952)
    (hs : Ok s) (hv : env.params.moneyRange v = true)
    (hrun : (vin.foldlM (checkTxInput env nSpendHeight) v).run h s = .ok (v', s')) :
    v' = v + totalValue (spentBy (shown s) vin) ∧ env.params.moneyRange v' = true ∧
      ∀ out ∈ spentBy (shown s) vin, 0 ≤ out.nValue := by
  induction vin generalizing v s with
  | nil =>
    cases hrun
    exact ⟨(add_zero _).symm, hv, nofun⟩
  | cons txin vin ih =>
    obtain ⟨w, t, hw, hrest⟩ := run_bind_ok.1 hrun
    obtain ⟨coin, t1, hcoin, hw⟩ := run_bind_ok.1 hw
    obtain ⟨rfl, ht1, hshown1⟩ := laws.run_accessCoin hs hcoin
    split_ifs at hw with hspent
    · cases hw
    · obtain ⟨_, -, hw1⟩ := check_bind_ok.1 hw
      obtain ⟨_, hrange, hw2⟩ := check_bind_ok.1 hw1
      cases hw2
      rw [require_eq_ok, Bool.and_eq_true] at hrange
      obtain ⟨hpos, hle⟩ := moneyRange_iff.1 hrange.1
      obtain ⟨hv0, hv1⟩ := moneyRange_iff.1 hv
      have hexact : wrap64 (v + (shown s txin.prevout).out.nValue) =
          v + (shown s txin.prevout).out.nValue := wrap64_of_fits ⟨by grind, by grind⟩
      obtain ⟨hsum, hlast, hall⟩ := ih ht1 hrange.2 hrest
      rw [hshown1] at hsum hall
      refine ⟨?_, hlast, ?_⟩
      · rw [hsum, hexact, spentBy_cons, totalValue_cons, add_assoc]
      · intro out ho
        rcases mem_cons.mp ho with rfl | ho
        · exact hpos
        · exact hall out ho

/-- `UpdateCoins` hands out the coins that were shown, if the inputs are distinct. -/
theorem run_spendInputs {coins : List Coin} (hvin : (vin.map (·.prevout)).Nodup) (hs : Ok s)
    (hrun : (vin.mapM fun txin => spendCoin txin.prevout).run h s = .ok (coins, s')) :
    coins = vin.map fun txin => shown s txin.prevout := by
  induction vin generalizing s coins with
  | nil =>
    cases hrun
    rfl
  | cons txin vin ih =>
    rw [map_cons, nodup_cons] at hvin
    rw [mapM_cons] at hrun
    obtain ⟨coin, t, hcoin, hrun⟩ := run_bind_ok.1 hrun
    obtain ⟨rest, t1, hrest, hret⟩ := run_bind_ok.1 hrun
    cases hret
    have ht := laws.run_kept hs hcoin
    rw [spendCoin, run_call] at hcoin
    obtain ⟨rfl, hother⟩ := laws.spend hs hcoin
    rw [ih hvin.2 ht hrest]
    congr 1
    refine map_congr_left fun txin' hmem => hother _ fun he => hvin.1 ?_
    rw [← he]
    exact mem_map_of_mem hmem

theorem run_checkTxInputs {u : Unit} (hmax : 0 ≤ env.params.nMaxMoneyOut)
    (hmax' : env.params.nMaxMoneyOut < 2305843009213693952) (htx : tx.ValuesChecked env.params)
    (hs : Ok s) (hrun : (checkTxInputs env tx nSpendHeight).run h s = .ok (u, s')) :
    (⟨tx, spentBy (shown s) tx.vin⟩ : Account).InputsChecked env.params := by
  obtain ⟨_, t1, hhave, h1⟩ := run_bind_ok.1 hrun
  obtain ⟨ht1, hshown1⟩ := laws.run_read (reads_haveInputs tx) hs hhave
  obtain ⟨_, -, h2⟩ := check_bind_ok.1 h1
  obtain ⟨_, t3, hshielded, h3⟩ := run_bind_ok.1 h2
  obtain ⟨ht3, hshown3⟩ := laws.run_read (reads_haveShieldedRequirements tx) ht1 hshielded
  obtain ⟨_, -, h4⟩ := check_bind_ok.1 h3
  obtain ⟨nValueIn, t5, hloop, h5⟩ := run_bind_ok.1 h4
  obtain ⟨hsum, hrange, hpos⟩ :=
    laws.run_checkTxInput hmax' ht3 (moneyRange_iff.2 ⟨le_rfl, hmax⟩) hloop
  rw [hshown3, hshown1] at hsum hpos
  obtain ⟨pool, hpool, h6⟩ := check_bind_ok.1 h5
  have hshieldedIn := getShieldedValueIn_eq (liftValue_eq_ok hpool)
  have hbounds := moneyRange_iff.1 hrange
  refine ⟨hpos, by grind, fun hstake => ?_⟩
  simp only [show tx.isCoinStake = false from hstake] at h6
  obtain ⟨nValueOut, hout, h7⟩ := check_bind_ok.1 h6
  have hvalueOut := getValueOut_eq htx (by grind) (liftValue_eq_ok hout) (spentBy (shown s) tx.vin)
  obtain ⟨_, -, h8⟩ := check_bind_ok.1 h7
  obtain ⟨_, -, h9⟩ := check_bind_ok.1 h8
  rw [← bind_pure (check _)] at h9
  obtain ⟨_, hfee, -⟩ := check_bind_ok.1 h9
  rw [require_eq_ok] at hfee
  have hbalance := htx.balance
  have htotal := htx.total
  have houtputs := totalValue_nonneg htx.outputs
  have hin : nValueIn + pool = (⟨tx, spentBy (shown s) tx.vin⟩ : Account).valueIn := by
    unfold Account.valueIn
    grind
  have hout : nValueOut ≤ env.params.nMaxMoneyOut ∧ 0 ≤ nValueOut := by
    rw [hvalueOut]
    unfold Account.valueOut
    exact ⟨htotal, by grind⟩
  rw [wrap64_of_fits (x := nValueIn + pool) ⟨by grind, by grind⟩,
    wrap64_of_fits ⟨by grind, by grind⟩, hin, hvalueOut] at hfee
  exact hfee

theorem run_getValueIn (hspends : tx.spendsCoins = true)
    (hs : Ok s) (hrun : (getValueIn tx).run h s = .ok (v, s')) :
    v = wrap64 (⟨tx, spentBy (shown s) tx.vin⟩ : Account).valueIn := by
  have hkind := spendsCoins_iff.mp hspends
  unfold getValueIn at hrun
  simp only [hkind.1, hkind.2] at hrun
  obtain ⟨nResult, t1, hloop, h1⟩ := run_bind_ok.1 hrun
  obtain ⟨pool, hpool, h2⟩ := check_bind_ok.1 h1
  cases h2
  have hshieldedIn := getShieldedValueIn_eq (liftValue_eq_ok hpool)
  have hsum := laws.run_addInputValue hs hloop
  rw [zero_add] at hsum
  rw [← wrap64_add_left, hsum, wrap64_add_left, hshieldedIn]
  rfl

theorem run_connectValues {fScriptChecks : Bool}
    {nFees nValueIn : CAmount} {r : CAmount × CAmount} (hmax : 0 ≤ env.params.nMaxMoneyOut)
    (hmax' : env.params.nMaxMoneyOut < 2305843009213693952) (htx : tx.ValuesChecked env.params)
    (hspends : tx.spendsCoins = true) (hs : Ok s)
    (hrun : (connectValues env nSpendHeight fScriptChecks tx nFees nValueIn).run h s =
      .ok (r, s')) :
    ∀ a : Account, a = ⟨tx, spentBy (shown s) tx.vin⟩ → a.Nonneg ∧
      r.1 = (if tx.isCoinStake then nFees else wrap64 (nFees + a.fee)) ∧
      r.2 = wrap64 (nValueIn + a.valueIn) := by
  rintro a ha
  have hcb := (spendsCoins_iff.mp hspends).1
  unfold connectValues at hrun
  simp only [hcb] at hrun
  obtain ⟨valueIn, t1, hvalue, h1⟩ := run_bind_ok.1 hrun
  have hvalueIn := laws.run_getValueIn hspends hs hvalue
  obtain ⟨ht1, hshown1⟩ := laws.run_read (reads_getValueIn tx) hs hvalue
  obtain ⟨nFees', t2, hfee, h2⟩ := run_bind_ok.1 h1
  obtain ⟨ht2, hshown2⟩ := laws.run_read (reads_addFee nFees valueIn tx) ht1 hfee
  obtain ⟨_, t3, hinputs, h3⟩ := run_bind_ok.1 h2
  cases h3
  rw [checkInputs, if_pos hspends] at hinputs
  obtain ⟨_, t4, hcheck, -⟩ := run_bind_ok.1 hinputs
  have hchecked := laws.run_checkTxInputs hmax hmax' htx ht2 hcheck
  have hpos := totalValue_nonneg hchecked.inputs
  have hle := hchecked.total
  rw [← ha] at hvalueIn
  have hin : a.valueIn = totalValue (spentBy (shown s) tx.vin) + max 0 tx.valueBalance := by
    rw [ha]
    rfl
  have hout : a.valueOut = totalValue tx.vout + max 0 (-tx.valueBalance) := by
    rw [ha]
    rfl
  have hbalance := htx.balance
  have houtputs := totalValue_nonneg htx.outputs
  have hexact : valueIn = a.valueIn := by
    rw [hvalueIn]
    exact wrap64_of_fits ⟨by grind, by grind⟩
  have hfeeEq : a.fee = if tx.isCoinStake then 0 else a.valueIn - a.valueOut := by
    rw [ha]
    unfold Account.fee
    rw [hcb, Bool.false_or]
  unfold addFee at hfee
  cases hstake : tx.isCoinStake with
  | true =>
    rw [if_pos hstake] at hfee
    cases hfee
    rw [if_pos hstake] at hfeeEq
    exact ⟨⟨by grind, by grind, hfeeEq.ge⟩, rfl, by rw [hexact]⟩
  | false =>
    simp only [hstake] at hfee hfeeEq
    obtain ⟨valueOut, hvout, h5⟩ := check_bind_ok.1 hfee
    cases h5
    have hvalueOut := getValueOut_eq htx (by grind) (liftValue_eq_ok hvout)
      (spentBy (shown s) tx.vin)
    rw [← ha] at hvalueOut
    have hge := (moneyRange_iff.1 (hchecked.fee hstake)).1
    refine ⟨⟨by grind, by grind, by grind⟩, ?_, by rw [hexact]⟩
    rw [hexact, hvalueOut, wrap64_add_right, hfeeEq]
    rfl

theorem run_updateCoins {nHeight : Nat} {fSkipInvalid : Bool}
    {coins : List Coin} (htx : tx.Checked env.params) (hspends : tx.spendsCoins = true)
    (hs : Ok s) (hrun : (updateCoins env tx nHeight fSkipInvalid).run h s = .ok (coins, s')) :
    coins.map (·.out) = spentBy (shown s) tx.vin := by
  obtain ⟨coins', t, hspend, hrest⟩ := run_bind_ok.1 hrun
  obtain ⟨_, t1, -, hrest1⟩ := run_bind_ok.1 hrest
  obtain ⟨_, t2, -, hret⟩ := run_bind_ok.1 hrest1
  cases hret
  rw [spendInputCoins, if_pos hspends] at hspend
  rw [laws.run_spendInputs (htx.nodup hspends) hs hspend, map_map]
  rfl

end

end ShowsCoins

end Passion
