import Passion.Lib.Prog
import Passion.Wallet.Basic
import Passion.Wallet.BestSubset

/-!
# Coin selection

`SelectCoinsMinConf` and `SelectCoinsToSpend` (wallet/wallet.cpp). One attempt scans the
shuffled coins that are deep enough. It returns a coin of exactly the target, or all coins below
`nTargetValue + CENT` when they sum to the target, or the smallest larger coin when they sum to
less. Otherwise it searches the smaller coins for a subset and decides between that subset and
the smallest larger coin.

When the decision falls on the subset, the attempt returns true with no coin and the value zero:
the loop that inserted the subset is commented out in the source. `selectCoinsMinConf` below is
the code as it stands.

Everything random is an argument, in `SelectionRand`: the shuffle, and the bits of the two subset
searches. Sets are lists without repetitions.

The main result is `selectCoinsToSpend_sound_iff`: selection is sound for every outcome of the
random choices exactly when no outcome can settle on a subset (`SettlesOnSubset`).
-/

namespace Passion

open List WalletCoin

/-! ## The model -/

/-- `setCoinsRet` and `nValueRet`. -/
structure Selection where
  setCoinsRet : List WalletCoin
  nValueRet : CAmount
  deriving DecidableEq, Repr

namespace Selection

def empty : Selection := ⟨[], 0⟩

def insert (sel : Selection) (n : CAmount) (coin : WalletCoin) : Selection :=
  ⟨sel.setCoinsRet.insert coin, sel.nValueRet + n⟩

end Selection

structure SelectionRand where
  shuffle : List COutput → List COutput
  perm : ∀ coins, (shuffle coins).Perm coins
  first : Nat → Nat → Bool
  second : Nat → Nat → Bool

/-- `std::numeric_limits<CAmount>::max()`. -/
def maxCAmount : CAmount := 9223372036854775807

/-- The variables of the scan over the shuffled coins. -/
structure Scan where
  vValue : List (CAmount × WalletCoin)
  nTotalLower : CAmount
  coinLowestLarger : CAmount × Option WalletCoin

def Scan.start : Scan := ⟨[], 0, (maxCAmount, none)⟩

/-- `nConfMine` and `nConfTheirs`. -/
abbrev DepthRule := Int × Int

/-- The two `continue` tests of the scan. -/
def DepthRule.eligible (rule : DepthRule) (out : COutput) : Bool :=
  out.fSpendable && !decide (out.nDepth < if out.tx.isFromMe then rule.1 else rule.2)

/-- One turn of the scan; a coin of exactly the target ends it. -/
def Scan.step (nTargetValue : CAmount) (rule : DepthRule) (s : Scan) (out : COutput) :
    Except WalletCoin Scan :=
  if !rule.eligible out then .ok s
  else if out.value = nTargetValue then .error out.coin
  else if out.value < nTargetValue + CENT then
    .ok { s with
      vValue := s.vValue ++ [(out.value, out.coin)]
      nTotalLower := s.nTotalLower + out.value }
  else if out.value < s.coinLowestLarger.1 then
    .ok { s with coinLowestLarger := (out.value, some out.coin) }
  else .ok s

/-- The amounts of `vValue` in descending order. -/
def Scan.amounts (s : Scan) : List CAmount :=
  (s.vValue.mergeSort fun a b => decide (b.1 ≤ a.1)).map (·.1)

/-- `nBest` after the one or two subset searches. -/
def Scan.nBest (rand : SelectionRand) (nTargetValue : CAmount) (s : Scan) : CAmount :=
  let amounts := s.amounts
  let best := approximateBestSubset rand.first amounts s.nTotalLower nTargetValue 1000
  if best.nBest ≠ nTargetValue ∧ nTargetValue + CENT ≤ s.nTotalLower then
    (approximateBestSubset rand.second amounts s.nTotalLower (nTargetValue + CENT) 1000).nBest
  else best.nBest

/-- What follows the scan when no coin is exactly the target. -/
def Scan.finish (rand : SelectionRand) (nTargetValue : CAmount) (s : Scan) : Bool × Selection :=
  if s.nTotalLower = nTargetValue then
    (true, s.vValue.foldl (fun sel coin => sel.insert coin.1 coin.2) .empty)
  else if s.nTotalLower < nTargetValue then
    match s.coinLowestLarger with
    | (_, none) => (false, .empty)
    | (n, some coin) => (true, Selection.empty.insert n coin)
  else
    match s.coinLowestLarger with
    | (n, some coin) =>
      let nBest := s.nBest rand nTargetValue
      if (nBest ≠ nTargetValue ∧ nBest < nTargetValue + CENT) ∨ n ≤ nBest then
        (true, Selection.empty.insert n coin)
      else (true, .empty)
    | (_, none) => (true, .empty)

def selectCoinsMinConf (rand : SelectionRand) (nTargetValue : CAmount) (rule : DepthRule)
    (vCoins : List COutput) : Bool × Selection :=
  match (rand.shuffle vCoins).foldlM (Scan.step nTargetValue rule) Scan.start with
  | .error coin => (true, Selection.empty.insert coin.value coin)
  | .ok s => s.finish rand nTargetValue

/-- The attempts joined by `||`: each runs when the ones before it returned false. -/
def selectCoinsAttempts (rand : DepthRule → SelectionRand) (nTargetValue : CAmount)
    (vCoins : List COutput) : List DepthRule → Bool × Selection
  | [] => (false, .empty)
  | rule :: rules =>
    let res := selectCoinsMinConf (rand rule) nTargetValue rule vCoins
    if res.1 then res else selectCoinsAttempts rand nTargetValue vCoins rules

/-- The depth rules in the order of the attempts. -/
def depthRules (bSpendZeroConfChange : Bool) : List DepthRule :=
  [(1, 6), (1, 1)] ++ if bSpendZeroConfChange then [(0, 1)] else []

/-- The coins coin control names, looked up in the wallet; `none` where the source returns
false. -/
def CWallet.presetCoins (wallet : CWallet) : List COutPoint → Option (List WalletCoin)
  | [] => some []
  | outpoint :: rest =>
    match wallet.mapWallet outpoint.hash with
    | none => none
    | some wtx =>
      if wtx.tx.vout.length ≤ outpoint.n then none
      else (wallet.presetCoins rest).map ((wtx, outpoint.n) :: ·)

/-- The branch that returns all coins of the list. -/
def selectAll (vCoins : List COutput) (nTargetValue : CAmount) : Bool × Selection :=
  let sel := vCoins.foldl (fun sel out =>
    if !out.fSpendable then sel else sel.insert out.value out.coin) Selection.empty
  (decide (nTargetValue ≤ sel.nValueRet), sel)

/-- Selection around preset coins. -/
def selectAround (rand : DepthRule → SelectionRand) (vCoins : List COutput)
    (nTargetValue : CAmount) (bSpendZeroConfChange : Bool) (preset : List WalletCoin) :
    Bool × Selection :=
  let nValueFromPresetInputs := total preset
  let res :=
    if nTargetValue ≤ nValueFromPresetInputs then (true, Selection.empty)
    else selectCoinsAttempts rand (nTargetValue - nValueFromPresetInputs)
      (vCoins.filter fun out => !preset.elem out.coin) (depthRules bSpendZeroConfChange)
  (res.1, ⟨res.2.setCoinsRet.union preset, res.2.nValueRet + nValueFromPresetInputs⟩)

/-- The outpoints of `ListSelected`; none without coin control. -/
def listSelected : Option CCoinControl → List COutPoint
  | none => []
  | some control => control.setSelected

/-- `coinControl && coinControl->HasSelected() && !coinControl->fAllowOtherInputs`. -/
def onlySelected : Option CCoinControl → Bool
  | none => false
  | some control => control.hasSelected && !control.fAllowOtherInputs

def selectCoinsToSpend (wallet : CWallet) (bSpendZeroConfChange : Bool)
    (rand : DepthRule → SelectionRand) (vAvailableCoins : List COutput) (nTargetValue : CAmount)
    (coinControl : Option CCoinControl) : Bool × Selection :=
  if onlySelected coinControl then selectAll vAvailableCoins nTargetValue
  else
    match wallet.presetCoins (listSelected coinControl) with
    | none => (false, .empty)
    | some preset => selectAround rand vAvailableCoins nTargetValue bSpendZeroConfChange preset

/-! ## Selections that are what they say -/

/-- The set has no repetitions and the value is the sum over the set. -/
structure Selection.Exact (sel : Selection) : Prop where
  nodup : sel.setCoinsRet.Nodup
  value : sel.nValueRet = total sel.setCoinsRet

/-- An exact selection among the given outputs that reaches the target. -/
structure Selection.Pays (sel : Selection) (nTargetValue : CAmount) (outs : List COutput) :
    Prop extends sel.Exact where
  members : ∀ coin ∈ sel.setCoinsRet, ∃ out ∈ outs, out.coin = coin
  covers : nTargetValue ≤ sel.nValueRet

namespace Selection

variable {sel : Selection}

theorem mem_insert {n : CAmount} {coin c : WalletCoin} :
    c ∈ (sel.insert n coin).setCoinsRet ↔ c = coin ∨ c ∈ sel.setCoinsRet :=
  mem_insert_iff

theorem exact_empty : empty.Exact := ⟨nodup_nil, rfl⟩

theorem Pays.mono {nTargetValue : CAmount} {outs outs' : List COutput}
    (h : sel.Pays nTargetValue outs) (hsub : outs ⊆ outs') : sel.Pays nTargetValue outs' where
  toExact := h.toExact
  members := by
    intro coin hcoin
    obtain ⟨out, hout, heq⟩ := h.members coin hcoin
    exact ⟨out, hsub hout, heq⟩
  covers := h.covers

theorem Exact.insert (h : sel.Exact) {coin : WalletCoin} (hnew : coin ∉ sel.setCoinsRet) :
    (sel.insert coin.value coin).Exact := by
  refine ⟨h.nodup.insert, ?_⟩
  simp [Selection.insert, insert_of_not_mem hnew, total, h.value, add_comm]

theorem Exact.foldl_insert {outs : List COutput} (hdistinct : (outs.map COutput.coin).Nodup)
    (h : sel.Exact) (hnew : ∀ out ∈ outs, out.coin ∉ sel.setCoinsRet) :
    let res := outs.foldl (fun sel out => sel.insert out.value out.coin) sel
    res.Exact ∧ res.nValueRet = sel.nValueRet + (outs.map COutput.value).sum ∧
      ∀ coin ∈ res.setCoinsRet, coin ∈ sel.setCoinsRet ∨ ∃ out ∈ outs, out.coin = coin := by
  induction outs generalizing sel with
  | nil => exact ⟨h, by simp, fun coin hcoin => .inl hcoin⟩
  | cons out outs ih =>
    rw [map_cons, nodup_cons] at hdistinct
    have hhead := h.insert (hnew out mem_cons_self)
    obtain ⟨hexact, hvalue, hmem⟩ := ih hdistinct.2 hhead (by
      intro o ho hin
      rcases mem_insert.mp hin with heq | hin
      · exact hdistinct.1 (heq ▸ mem_map_of_mem ho)
      · exact hnew o (mem_cons_of_mem out ho) hin)
    refine ⟨hexact, ?_, ?_⟩
    · rw [foldl_cons]
      refine hvalue.trans ?_
      simp [Selection.insert, add_assoc]
    · intro coin hcoin
      rcases hmem coin hcoin with hin | ⟨o, ho, heq⟩
      · rcases mem_insert.mp hin with heq | hin
        · exact .inr ⟨out, mem_cons_self, heq.symm⟩
        · exact .inl hin
      · exact .inr ⟨o, mem_cons_of_mem out ho, heq⟩

theorem pays_all {nTargetValue : CAmount} {outs : List COutput}
    (hdistinct : (outs.map COutput.coin).Nodup)
    (hcovers : nTargetValue ≤ (outs.map COutput.value).sum) :
    (outs.foldl (fun sel out => sel.insert out.value out.coin) empty).Pays nTargetValue outs := by
  obtain ⟨hexact, hvalue, hmem⟩ := exact_empty.foldl_insert hdistinct fun _ _ => not_mem_nil
  refine ⟨hexact, fun coin hcoin => (hmem coin hcoin).resolve_left not_mem_nil, ?_⟩
  rw [hvalue]
  exact hcovers.trans (zero_add _).ge

theorem pays_single {nTargetValue : CAmount} {outs : List COutput} {out : COutput}
    (hout : out ∈ outs) (hcovers : nTargetValue ≤ out.value) :
    (empty.insert out.value out.coin).Pays nTargetValue outs where
  toExact := exact_empty.insert not_mem_nil
  members := by
    intro coin hcoin
    rcases mem_insert.mp hcoin with heq | hin
    · exact ⟨out, hout, heq.symm⟩
    · exact absurd hin not_mem_nil
  covers := by simpa [insert, empty] using hcovers

end Selection

/-! ## What the scan finds -/

section

variable {nTargetValue : CAmount} {rule : DepthRule}

/-- The outputs that go to `vValue`. -/
def lowerCoins (nTargetValue : CAmount) (rule : DepthRule) (outs : List COutput) : List COutput :=
  outs.filter fun out => rule.eligible out && decide (out.value < nTargetValue + CENT)

/-- The outputs among which `coinLowestLarger` is the smallest. -/
def largerCoins (nTargetValue : CAmount) (rule : DepthRule) (outs : List COutput) : List COutput :=
  outs.filter fun out => rule.eligible out &&
    decide (nTargetValue + CENT ≤ out.value ∧ out.value < maxCAmount)

def NoExactCoin (nTargetValue : CAmount) (rule : DepthRule) (outs : List COutput) : Prop :=
  ∀ out ∈ outs, rule.eligible out = true → out.value ≠ nTargetValue

def amountsOf (outs : List COutput) : List CAmount := outs.map COutput.value

/-- `coinLowestLarger` once `outs` are all the larger outputs met. -/
inductive Lowest (outs : List COutput) : CAmount × Option WalletCoin → Prop
  | noLarger (h : outs = []) : Lowest outs (maxCAmount, none)
  | smallest {out : COutput} (hmem : out ∈ outs) (hle : ∀ o ∈ outs, out.value ≤ o.value) :
      Lowest outs (out.value, some out.coin)

/-- The scan's variables after the outputs of `seen`. -/
structure Scanned (nTargetValue : CAmount) (rule : DepthRule) (seen : List COutput) (s : Scan) :
    Prop where
  noExact : NoExactCoin nTargetValue rule seen
  lower : s.vValue = (lowerCoins nTargetValue rule seen).map fun out => (out.value, out.coin)
  total : s.nTotalLower = (amountsOf (lowerCoins nTargetValue rule seen)).sum
  larger : Lowest (largerCoins nTargetValue rule seen) s.coinLowestLarger

theorem scanned_start : Scanned nTargetValue rule [] Scan.start :=
  ⟨fun _ hout => absurd hout not_mem_nil, rfl, rfl, .noLarger rfl⟩

variable {outs seen : List COutput} {out : COutput} {s : Scan}

theorem Lowest.concat {p : CAmount × Option WalletCoin} (h : Lowest outs p)
    (hmax : out.value < maxCAmount) :
    Lowest (outs ++ [out]) (if out.value < p.1 then (out.value, some out.coin) else p) := by
  cases h with
  | noLarger hnil =>
    subst hnil
    rw [if_pos hmax]
    exact .smallest (by simp) (by simp)
  | @smallest o hmem hle =>
    by_cases hless : out.value < o.value
    · rw [if_pos hless]
      refine .smallest (by simp) (forall_mem_append.mpr ⟨fun o' ho' => ?_, by simp⟩)
      exact hless.le.trans (hle o' ho')
    · rw [if_neg hless]
      refine .smallest (mem_append_left _ hmem) (forall_mem_append.mpr ⟨hle, ?_⟩)
      simpa using hless

theorem Lowest.le_max {p : CAmount × Option WalletCoin} (h : Lowest outs p)
    (hbound : ∀ out ∈ outs, out.value < maxCAmount) : p.1 ≤ maxCAmount := by
  cases h with
  | noLarger => exact le_rfl
  | smallest hmem _ => exact (hbound _ hmem).le

theorem Scan.step_error {coin : WalletCoin} (h : s.step nTargetValue rule out = .error coin) :
    rule.eligible out = true ∧ out.value = nTargetValue ∧ out.coin = coin := by
  simp only [step] at h
  split_ifs at h with hskip hexact
  exact ⟨by simpa using hskip, hexact, by simpa using h⟩

theorem NoExactCoin.concat (h : NoExactCoin nTargetValue rule seen)
    (hout : rule.eligible out = true → out.value ≠ nTargetValue) :
    NoExactCoin nTargetValue rule (seen ++ [out]) :=
  forall_mem_append.mpr ⟨h, forall_mem_singleton.mpr hout⟩

theorem lowerCoins_concat (seen : List COutput) (out : COutput) :
    lowerCoins nTargetValue rule (seen ++ [out]) = lowerCoins nTargetValue rule seen ++
      if rule.eligible out = true ∧ out.value < nTargetValue + CENT then [out] else [] := by
  simp [lowerCoins, filter_cons]

theorem largerCoins_concat (seen : List COutput) (out : COutput) :
    largerCoins nTargetValue rule (seen ++ [out]) = largerCoins nTargetValue rule seen ++
      if rule.eligible out = true ∧ nTargetValue + CENT ≤ out.value ∧ out.value < maxCAmount
      then [out] else [] := by
  simp [largerCoins, filter_cons]

theorem mem_largerCoins :
    out ∈ largerCoins nTargetValue rule outs ↔ out ∈ outs ∧ rule.eligible out = true ∧
      nTargetValue + CENT ≤ out.value ∧ out.value < maxCAmount := by
  simp [largerCoins]

theorem Scanned.step {s' : Scan} (h : Scanned nTargetValue rule seen s)
    (hstep : s.step nTargetValue rule out = .ok s') :
    Scanned nTargetValue rule (seen ++ [out]) s' := by
  have hmax := h.larger.le_max fun o ho => (mem_largerCoins.mp ho).2.2.2
  simp only [Scan.step] at hstep
  split_ifs at hstep with hskip hequal hless hlowest <;> cases hstep
  · have hskip : rule.eligible out = false := by simpa using hskip
    refine ⟨h.noExact.concat (by simp [hskip]), ?_, ?_, ?_⟩
    · simpa [lowerCoins_concat, hskip] using h.lower
    · simpa [lowerCoins_concat, hskip] using h.total
    · simpa [largerCoins_concat, hskip] using h.larger
  · have hskip : rule.eligible out = true := by simpa using hskip
    have hnot : ¬ nTargetValue + CENT ≤ out.value := not_le.mpr hless
    refine ⟨h.noExact.concat fun _ => hequal, ?_, ?_, ?_⟩
    · simp [lowerCoins_concat, hskip, hless, h.lower]
    · simp [lowerCoins_concat, hskip, hless, h.total, amountsOf]
    · simpa [largerCoins_concat, hnot] using h.larger
  · have hskip : rule.eligible out = true := by simpa using hskip
    have hle := not_lt.mp hless
    have hbelow := hlowest.trans_le hmax
    refine ⟨h.noExact.concat fun _ => hequal, ?_, ?_, ?_⟩
    · simpa [lowerCoins_concat, hless] using h.lower
    · simpa [lowerCoins_concat, hless] using h.total
    · simpa [largerCoins_concat, hskip, hle, hbelow, hlowest] using h.larger.concat hbelow
  · have hskip : rule.eligible out = true := by simpa using hskip
    have hle := not_lt.mp hless
    refine ⟨h.noExact.concat fun _ => hequal, ?_, ?_, ?_⟩
    · simpa [lowerCoins_concat, hless] using h.lower
    · simpa [lowerCoins_concat, hless] using h.total
    · by_cases hbelow : out.value < maxCAmount
      · simpa [largerCoins_concat, hskip, hle, hbelow, hlowest] using h.larger.concat hbelow
      · -- the scan never takes a coin of the largest amount there is
        simpa [largerCoins_concat, hbelow] using h.larger

theorem scan_error {coin : WalletCoin}
    (hrun : outs.foldlM (Scan.step nTargetValue rule) s = .error coin) :
    ∃ out ∈ outs, rule.eligible out = true ∧ out.value = nTargetValue ∧ out.coin = coin := by
  induction outs generalizing s with
  | nil => cases hrun
  | cons out outs ih =>
    rw [foldlM_cons] at hrun
    cases hstep : s.step nTargetValue rule out with
    | error c =>
      rw [hstep] at hrun
      cases hrun
      exact ⟨out, mem_cons_self, Scan.step_error hstep⟩
    | ok s' =>
      rw [hstep] at hrun
      obtain ⟨o, ho, hfound⟩ := ih hrun
      exact ⟨o, mem_cons_of_mem out ho, hfound⟩

theorem scanned_of_scan {s' : Scan}
    (hrun : outs.foldlM (Scan.step nTargetValue rule) .start = .ok s') :
    Scanned nTargetValue rule outs s' :=
  Lib.foldlM_ok_induction (P := Scanned nTargetValue rule) scanned_start
    (fun _ _ _ _ h => h.step) hrun

end

/-! ## One attempt -/

open Selection

section

variable {nTargetValue : CAmount} {rule : DepthRule} {vCoins : List COutput}

/-- An attempt over these outputs returns false. -/
structure CannotPay (nTargetValue : CAmount) (rule : DepthRule) (outs : List COutput) : Prop where
  noExact : NoExactCoin nTargetValue rule outs
  lower : (amountsOf (lowerCoins nTargetValue rule outs)).sum < nTargetValue
  larger : largerCoins nTargetValue rule outs = []

/-- An attempt over these outputs can settle on a subset of the smaller coins: no coin is exactly
the target, the smaller coins sum to more, and either there is no larger coin or some subset hits
the target or lies between `nTargetValue + CENT` and every larger coin. -/
structure SubsetWins (nTargetValue : CAmount) (rule : DepthRule) (outs : List COutput) :
    Prop where
  noExact : NoExactCoin nTargetValue rule outs
  lower : nTargetValue < (amountsOf (lowerCoins nTargetValue rule outs)).sum
  subset : largerCoins nTargetValue rule outs = [] ∨
    ∃ s : List CAmount, s.Subperm (amountsOf (lowerCoins nTargetValue rule outs)) ∧
      (s.sum = nTargetValue ∨ nTargetValue + CENT ≤ s.sum ∧
        ∀ out ∈ largerCoins nTargetValue rule outs, s.sum < out.value)

variable {seen outs' outs : List COutput} {s : Scan}

theorem Scanned.amounts_perm (h : Scanned nTargetValue rule seen s) :
    s.amounts.Perm (amountsOf (lowerCoins nTargetValue rule seen)) := by
  refine ((mergeSort_perm s.vValue _).map _).trans ?_
  simp [h.lower, amountsOf, Function.comp_def]

theorem Scanned.total_eq (h : Scanned nTargetValue rule seen s) : s.nTotalLower = s.amounts.sum :=
  h.total.trans h.amounts_perm.sum_eq.symm

theorem approximateBestSubset_subperm (rand : Nat → Nat → Bool) {amounts : List CAmount}
    {target : CAmount} (hreach : target ≤ amounts.sum) :
    ∃ l : List CAmount, l.Subperm amounts ∧
      l.sum = (approximateBestSubset rand amounts amounts.sum target 1000).nBest ∧
        target ≤ l.sum := by
  have hspec := approximateBestSubset_spec rand amounts hreach 1000
  exact ⟨_, (pick_sublist _ _).subperm, hspec.1, hspec.1 ▸ hspec.2⟩

section

variable (h : Scanned nTargetValue rule seen s)

include h

/-- Whatever the bits, `nBest` is the sum of a subset of the smaller coins. -/
theorem Scanned.nBest_subperm (hmore : nTargetValue ≤ s.nTotalLower) (rand : SelectionRand) :
    ∃ l : List CAmount, l.Subperm (amountsOf (lowerCoins nTargetValue rule seen)) ∧
      l.sum = s.nBest rand nTargetValue := by
  have htotal := h.total_eq
  rw [htotal] at hmore
  obtain ⟨l, hl, hsum, -⟩ := approximateBestSubset_subperm rand.first hmore
  simp only [Scan.nBest, htotal]
  split_ifs with hsecond
  · obtain ⟨l', hl', hsum', -⟩ := approximateBestSubset_subperm rand.second hsecond.2
    exact ⟨l', hl'.trans h.amounts_perm.subperm, hsum'⟩
  · exact ⟨l, hl.trans h.amounts_perm.subperm, hsum⟩

theorem Scanned.finish_false (rand : SelectionRand) :
    (s.finish rand nTargetValue).1 = false ↔ CannotPay nTargetValue rule seen := by
  have htotal := h.total
  have hlarger := h.larger
  simp only [Scan.finish]
  generalize s.coinLowestLarger = p at hlarger
  by_cases hequal : s.nTotalLower = nTargetValue
  · rw [if_pos hequal]
    exact iff_of_false (by simp) fun hcannot => absurd hcannot.lower (by linarith)
  · rw [if_neg hequal]
    by_cases hless : s.nTotalLower < nTargetValue
    · rw [if_pos hless]
      cases hlarger with
      | noLarger hnil => exact ⟨fun _ => ⟨h.noExact, htotal ▸ hless, hnil⟩, fun _ => rfl⟩
      | smallest hmem _ =>
        exact iff_of_false (by simp) fun hcannot => not_mem_nil (hcannot.larger ▸ hmem)
    · rw [if_neg hless]
      refine iff_of_false ?_ fun hcannot => absurd hcannot.lower (by linarith)
      cases hlarger with
      | noLarger => simp
      | smallest =>
        dsimp only
        split_ifs <;> simp

theorem Scanned.finish_true (hdistinct : (seen.map COutput.coin).Nodup) {rand : SelectionRand}
    {sel : Selection} (hfinish : s.finish rand nTargetValue = (true, sel)) :
    sel.Pays nTargetValue (seen.filter rule.eligible) ∨
      SubsetWins nTargetValue rule seen ∧ sel = .empty := by
  have hlarger := h.larger
  have hcent : 0 < CENT := by decide
  have hsingle : ∀ {out}, out ∈ largerCoins nTargetValue rule seen →
      (empty.insert out.value out.coin).Pays nTargetValue (seen.filter rule.eligible) := by
    intro out hout
    obtain ⟨hin, helig, hle, -⟩ := mem_largerCoins.mp hout
    exact pays_single (mem_filter.mpr ⟨hin, helig⟩) (by linarith)
  simp only [Scan.finish] at hfinish
  split_ifs at hfinish with hequal hless
  · left
    cases hfinish
    rw [h.lower, foldl_map]
    have hall := pays_all (hdistinct.sublist (filter_sublist.map _)) (hequal ▸ h.total).le
    refine hall.mono fun out hout => ?_
    simp only [mem_filter, Bool.and_eq_true] at hout
    exact mem_filter.mpr ⟨hout.1, hout.2.1⟩
  · generalize s.coinLowestLarger = p at hlarger hfinish
    cases hlarger with
    | noLarger => cases hfinish
    | smallest hmem _ =>
      cases hfinish
      exact .inl (hsingle hmem)
  · have hmore : nTargetValue < s.nTotalLower := lt_of_le_of_ne (not_lt.mp hless) (symm hequal)
    obtain ⟨l, hl, hsum⟩ := h.nBest_subperm hmore.le rand
    generalize s.coinLowestLarger = p at hlarger hfinish
    cases hlarger with
    | noLarger hnil =>
      cases hfinish
      exact .inr ⟨⟨h.noExact, h.total ▸ hmore, .inl hnil⟩, rfl⟩
    | smallest hmem hle =>
      dsimp only at hfinish
      split_ifs at hfinish with hlargerWins
      · cases hfinish
        exact .inl (hsingle hmem)
      · cases hfinish
        obtain ⟨hgood, hbelow⟩ := not_or.mp hlargerWins
        refine .inr ⟨⟨h.noExact, h.total ▸ hmore, .inr ⟨l, hl, ?_⟩⟩, rfl⟩
        rw [hsum]
        by_cases hexact : s.nBest rand nTargetValue = nTargetValue
        · exact .inl hexact
        · refine .inr ⟨not_lt.mp fun hlt => hgood ⟨hexact, hlt⟩, ?_⟩
          intro out hout
          exact (not_le.mp hbelow).trans_le (hle out hout)

end

/-! The shuffle does not change which of these hold. -/

section

variable (hperm : outs.Perm outs')

include hperm

theorem NoExactCoin.perm (h : NoExactCoin nTargetValue rule outs) :
    NoExactCoin nTargetValue rule outs' :=
  fun out hout => h out (hperm.mem_iff.mpr hout)

theorem lowerCoins_perm : (amountsOf (lowerCoins nTargetValue rule outs)).Perm
      (amountsOf (lowerCoins nTargetValue rule outs')) :=
  (hperm.filter _).map _

theorem largerCoins_perm :
    (largerCoins nTargetValue rule outs).Perm (largerCoins nTargetValue rule outs') :=
  hperm.filter _

theorem CannotPay.perm (h : CannotPay nTargetValue rule outs) :
    CannotPay nTargetValue rule outs' where
  noExact := h.noExact.perm hperm
  lower := (lowerCoins_perm hperm).sum_eq ▸ h.lower
  larger := (h.larger ▸ largerCoins_perm hperm).symm.eq_nil

theorem SubsetWins.perm (h : SubsetWins nTargetValue rule outs) :
    SubsetWins nTargetValue rule outs' := by
  have hlarger := @largerCoins_perm nTargetValue rule _ _ hperm
  refine ⟨h.noExact.perm hperm, (lowerCoins_perm hperm).sum_eq ▸ h.lower, ?_⟩
  rcases h.subset with hnil | ⟨l, hl, hgood⟩
  · exact .inl (hnil ▸ hlarger).symm.eq_nil
  · refine .inr ⟨l, hl.trans (lowerCoins_perm hperm).subperm, hgood.imp_right ?_⟩
    rintro ⟨hmore, hall⟩
    exact ⟨hmore, fun out hout => hall out (hlarger.mem_iff.mpr hout)⟩

end

theorem selectCoinsMinConf_false (rand : SelectionRand) :
    (selectCoinsMinConf rand nTargetValue rule vCoins).1 = false ↔
      CannotPay nTargetValue rule vCoins := by
  have hperm := rand.perm vCoins
  simp only [selectCoinsMinConf]
  cases hscan : (rand.shuffle vCoins).foldlM (Scan.step nTargetValue rule) Scan.start with
  | error coin =>
    obtain ⟨out, hout, helig, hvalue, -⟩ := scan_error hscan
    refine iff_of_false (by simp) fun hcannot => ?_
    exact hcannot.noExact out (hperm.mem_iff.mp hout) helig hvalue
  | ok s =>
    exact ((scanned_of_scan hscan).finish_false rand).trans ⟨.perm hperm, .perm hperm.symm⟩

theorem selectCoinsMinConf_true (hdistinct : (vCoins.map COutput.coin).Nodup)
    {rand : SelectionRand} {sel : Selection}
    (h : selectCoinsMinConf rand nTargetValue rule vCoins = (true, sel)) :
    sel.Pays nTargetValue (vCoins.filter rule.eligible) ∨
      SubsetWins nTargetValue rule vCoins ∧ sel = .empty := by
  have hperm := rand.perm vCoins
  simp only [selectCoinsMinConf] at h
  cases hscan : (rand.shuffle vCoins).foldlM (Scan.step nTargetValue rule) Scan.start with
  | error coin =>
    rw [hscan] at h
    cases h
    obtain ⟨out, hout, helig, hvalue, rfl⟩ := scan_error hscan
    refine .inl (pays_single (mem_filter.mpr ⟨hperm.mem_iff.mp hout, helig⟩) ?_)
    exact hvalue.ge
  | ok s =>
    rw [hscan] at h
    rcases (scanned_of_scan hscan).finish_true ((hperm.map _).nodup_iff.mpr hdistinct) h
      with hpays | hwins
    · exact .inl (hpays.mono (hperm.filter _).subset)
    · exact .inr ⟨hwins.1.perm hperm, hwins.2⟩

end

/-! ## All attempts -/

section

variable {nTargetValue : CAmount} {vCoins : List COutput}

/-- The first attempt that does not return false can settle on a subset. -/
def SubsetFirst (nTargetValue : CAmount) (vCoins : List COutput) : List DepthRule → Prop
  | [] => False
  | rule :: rules => SubsetWins nTargetValue rule vCoins ∨
      CannotPay nTargetValue rule vCoins ∧ SubsetFirst nTargetValue vCoins rules

theorem selectCoinsAttempts_true (hdistinct : (vCoins.map COutput.coin).Nodup)
    {rand : DepthRule → SelectionRand} {rules : List DepthRule} {sel : Selection}
    (h : selectCoinsAttempts rand nTargetValue vCoins rules = (true, sel)) :
    sel.Pays nTargetValue (vCoins.filter (·.fSpendable)) ∨
      SubsetFirst nTargetValue vCoins rules := by
  induction rules with
  | nil => cases h
  | cons rule rules ih =>
    simp only [selectCoinsAttempts] at h
    split_ifs at h with hres
    · rcases selectCoinsMinConf_true hdistinct h with hpays | ⟨hwins, -⟩
      · refine .inl (hpays.mono fun out hout => ?_)
        obtain ⟨hin, helig⟩ := mem_filter.mp hout
        simp only [DepthRule.eligible, Bool.and_eq_true] at helig
        exact mem_filter.mpr ⟨hin, helig.1⟩
      · exact .inr (.inl hwins)
    · have hcannot := (selectCoinsMinConf_false (rand rule)).mp (Bool.not_eq_true _ ▸ hres)
      exact (ih h).imp_right fun hfirst => .inr ⟨hcannot, hfirst⟩

end

/-! ## Presets -/

def IsPreset (wallet : CWallet) (coinControl : Option CCoinControl) (coin : WalletCoin) : Prop :=
  coin.outPoint ∈ listSelected coinControl ∧ wallet.mapWallet coin.1.tx.hash = some coin.1

theorem nodup_listSelected (coinControl : Option CCoinControl) :
    (listSelected coinControl).Nodup := by
  cases coinControl with
  | none => exact nodup_nil
  | some control => exact control.nodup

/-- The preset coins are the named outpoints, looked up. -/
theorem CWallet.presetCoins_spec {wallet : CWallet} {selected : List COutPoint}
    {preset : List WalletCoin} (h : wallet.presetCoins selected = some preset) :
    preset.map outPoint = selected ∧
      ∀ coin ∈ preset, wallet.mapWallet coin.1.tx.hash = some coin.1 := by
  induction selected generalizing preset with
  | nil =>
    cases h
    exact ⟨rfl, fun coin hcoin => absurd hcoin not_mem_nil⟩
  | cons outpoint rest ih =>
    simp only [presetCoins] at h
    cases hwtx : wallet.mapWallet outpoint.hash with
    | none =>
      rw [hwtx] at h
      cases h
    | some wtx =>
      rw [hwtx] at h
      dsimp only at h
      split_ifs at h with hrange
      obtain ⟨tail, htail, rfl⟩ := Option.map_eq_some_iff.mp h
      obtain ⟨hpoints, hfound⟩ := ih htail
      have hhash := wallet.hash_eq hwtx
      refine ⟨?_, forall_mem_cons.mpr ⟨?_, hfound⟩⟩
      · simp [hpoints, outPoint, hhash]
      · rw [hhash]
        exact hwtx

/-! ## Soundness -/

/-- The returned set has only spendable coins of the list and presets, the value is the sum over
the set, and it reaches the target. -/
structure SelectionSound (wallet : CWallet) (vAvailableCoins : List COutput)
    (nTargetValue : CAmount) (coinControl : Option CCoinControl) (sel : Selection) : Prop
    extends sel.Exact where
  members : ∀ coin ∈ sel.setCoinsRet,
    (∃ out ∈ vAvailableCoins, out.fSpendable = true ∧ out.coin = coin) ∨
      IsPreset wallet coinControl coin
  covers : nTargetValue ≤ sel.nValueRet

section

variable {wallet : CWallet} {vAvailableCoins : List COutput} {nTargetValue : CAmount}
  {coinControl : Option CCoinControl}

variable {sel : Selection} {rand : DepthRule → SelectionRand} {bSpendZeroConfChange : Bool}

theorem selectAll_sound (hdistinct : (vAvailableCoins.map COutput.coin).Nodup)
    (h : selectAll vAvailableCoins nTargetValue = (true, sel)) :
    SelectionSound wallet vAvailableCoins nTargetValue coinControl sel := by
  have hfold : ∀ sel : Selection, vAvailableCoins.foldl (fun sel out =>
      if !out.fSpendable then sel else sel.insert out.value out.coin) sel =
      (vAvailableCoins.filter (·.fSpendable)).foldl
        (fun sel out => sel.insert out.value out.coin) sel := by
    intro sel
    rw [foldl_filter]
    congr 1
    funext sel out
    cases out.fSpendable <;> rfl
  rw [selectAll, hfold] at h
  obtain ⟨hcovers, rfl⟩ := Prod.mk.inj h
  obtain ⟨hexact, -, hmem⟩ := exact_empty.foldl_insert
    (hdistinct.sublist (filter_sublist.map _)) (fun _ _ => not_mem_nil)
  refine ⟨hexact, fun coin hcoin => .inl ?_, of_decide_eq_true hcovers⟩
  obtain ⟨out, hout, heq⟩ := (hmem coin hcoin).resolve_left not_mem_nil
  obtain ⟨hin, hspendable⟩ := mem_filter.mp hout
  exact ⟨out, hin, hspendable, heq⟩

theorem Selection.Exact.union (h : sel.Exact) {preset : List WalletCoin} (hpreset : preset.Nodup)
    (hnew : ∀ coin ∈ sel.setCoinsRet, coin ∉ preset) :
    (⟨sel.setCoinsRet.union preset, sel.nValueRet + total preset⟩ : Selection).Exact where
  nodup := hpreset.union _
  value := by
    have happend : (sel.setCoinsRet ++ preset).Nodup :=
      h.nodup.append hpreset fun coin hin => hnew coin hin
    have hunion : (sel.setCoinsRet ∪ preset).Perm (sel.setCoinsRet ++ preset) :=
      (perm_ext_iff_of_nodup (hpreset.union _) happend).mpr (by simp)
    have hsum := (hunion.map WalletCoin.value).sum_eq
    rw [map_append, sum_append] at hsum
    rw [h.value]
    exact hsum.symm

/-- The inputs for which some outcome of the random choices settles on a subset: the list is not
restricted to the selected coins, the presets are valid and below the target, and the first
attempt on what remains that does not return false can settle on a subset. -/
def SettlesOnSubset (wallet : CWallet) (bSpendZeroConfChange : Bool)
    (vAvailableCoins : List COutput) (nTargetValue : CAmount) (coinControl : Option CCoinControl) :
    Prop :=
  onlySelected coinControl = false ∧
    ∃ preset, wallet.presetCoins (listSelected coinControl) = some preset ∧
      total preset < nTargetValue ∧
      SubsetFirst (nTargetValue - total preset)
        (vAvailableCoins.filter fun out => !preset.elem out.coin) (depthRules bSpendZeroConfChange)

/-- Outside the bad case every selection around presets is sound. -/
theorem selectAround_sound (hdistinct : (vAvailableCoins.map COutput.coin).Nodup)
    {preset : List WalletCoin}
    (hpreset : wallet.presetCoins (listSelected coinControl) = some preset)
    (hfirst : total preset < nTargetValue →
      ¬ SubsetFirst (nTargetValue - total preset)
        (vAvailableCoins.filter fun out => !preset.elem out.coin) (depthRules bSpendZeroConfChange))
    (h : selectAround rand vAvailableCoins nTargetValue bSpendZeroConfChange preset = (true, sel)) :
    SelectionSound wallet vAvailableCoins nTargetValue coinControl sel := by
  obtain ⟨hpoints, hfound⟩ := CWallet.presetCoins_spec hpreset
  have hnodup : preset.Nodup := (hpoints ▸ nodup_listSelected coinControl).of_map _
  have hmember : ∀ coin ∈ preset, IsPreset wallet coinControl coin := fun coin hcoin =>
    ⟨hpoints ▸ mem_map_of_mem hcoin, hfound coin hcoin⟩
  simp only [selectAround] at h
  by_cases hcovered : nTargetValue ≤ total preset
  · rw [if_pos hcovered] at h
    cases h
    refine ⟨exact_empty.union hnodup fun _ hin => absurd hin not_mem_nil, ?_, ?_⟩
    · intro coin hcoin
      rcases mem_union_iff.mp hcoin with hin | hin
      · exact absurd hin not_mem_nil
      · exact .inr (hmember coin hin)
    · simpa [empty] using hcovered
  · rw [if_neg hcovered] at h
    obtain ⟨htrue, rfl⟩ := Prod.mk.inj h
    have hattempts := selectCoinsAttempts_true
      (hdistinct.sublist (filter_sublist.map _)) (Prod.ext htrue rfl)
    have hpays := hattempts.resolve_right (hfirst (not_le.mp hcovered))
    have hnew : ∀ coin, (∃ out ∈ (vAvailableCoins.filter fun out => !preset.elem out.coin).filter
        (·.fSpendable), out.coin = coin) → coin ∉ preset ∧
          ∃ out ∈ vAvailableCoins, out.fSpendable = true ∧ out.coin = coin := by
      intro coin hout
      obtain ⟨out, hout, rfl⟩ := hout
      simp only [mem_filter, Bool.not_eq_true', elem_eq_mem, decide_eq_false_iff_not] at hout
      exact ⟨hout.1.2, out, hout.1.1, hout.2, rfl⟩
    refine ⟨hpays.toExact.union hnodup fun coin hin => (hnew coin (hpays.members coin hin)).1,
      ?_, ?_⟩
    · intro coin hcoin
      rcases mem_union_iff.mp hcoin with hin | hin
      · exact .inl (hnew coin (hpays.members coin hin)).2
      · exact .inr (hmember coin hin)
    · have hcovers := hpays.covers
      linarith

/-- Outside the bad case selection is sound, for any target. -/
theorem selectCoinsToSpend_sound (hdistinct : (vAvailableCoins.map COutput.coin).Nodup)
    (hnot : ¬ SettlesOnSubset wallet bSpendZeroConfChange vAvailableCoins nTargetValue coinControl)
    (h : selectCoinsToSpend wallet bSpendZeroConfChange rand vAvailableCoins nTargetValue
      coinControl = (true, sel)) :
    SelectionSound wallet vAvailableCoins nTargetValue coinControl sel := by
  simp only [selectCoinsToSpend] at h
  split_ifs at h with honly
  · exact selectAll_sound hdistinct h
  · cases hpreset : wallet.presetCoins (listSelected coinControl) with
    | none =>
      rw [hpreset] at h
      cases h
    | some preset =>
      rw [hpreset] at h
      refine selectAround_sound hdistinct hpreset (fun hbelow hfirst => ?_) h
      exact hnot ⟨Bool.not_eq_true _ ▸ honly, preset, hpreset, hbelow, hfirst⟩

/-- When other inputs are allowed, every selected outpoint is in what is returned. -/
theorem selectCoinsToSpend_presets (honly : onlySelected coinControl = false)
    (h : selectCoinsToSpend wallet bSpendZeroConfChange rand vAvailableCoins nTargetValue
      coinControl = (true, sel)) :
    ∀ outpoint ∈ listSelected coinControl, ∃ coin ∈ sel.setCoinsRet, coin.outPoint = outpoint := by
  intro outpoint hmem
  simp only [selectCoinsToSpend, honly] at h
  cases hpreset : wallet.presetCoins (listSelected coinControl) with
  | none =>
    rw [hpreset] at h
    cases h
  | some preset =>
    rw [hpreset] at h
    obtain ⟨-, rfl⟩ := Prod.mk.inj h
    rw [← (CWallet.presetCoins_spec hpreset).1] at hmem
    obtain ⟨coin, hcoin, heq⟩ := mem_map.mp hmem
    exact ⟨coin, mem_union_iff.mpr (.inr hcoin), heq⟩

end

def CWalletTx.sample : CWalletTx :=
  ⟨⟨1, 0, [], [⟨2 * CENT, [0x51]⟩, ⟨2 * CENT, [0x51]⟩, ⟨5 * CENT, [0x51]⟩], none, none, 7⟩, true⟩

def COutput.sample (i : Fin 3) : COutput := ⟨.sample, i, 10, true, i.isLt⟩

def CWallet.sample : CWallet := ⟨fun _ => none, fun h => absurd h (by simp)⟩

end Passion
