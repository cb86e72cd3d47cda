import Mathlib.Algebra.BigOperators.Intervals
import Mathlib.Algebra.BigOperators.Ring.Finset
import Mathlib.Tactic.Positivity
import Mathlib.Tactic.Ring
import Passion.Consensus.Params

/-!
# The money supply

`GetBlockValue` of `validation.cpp` summed over the heights of a chain, against `nMaxMoneyOut` of
`chainparams.cpp`, the bound of every `MoneyRange` check.

Within a phase of the reward the supply grows by a constant (`mainCoins_phase`), so that its value
at the end of each phase follows from the one before. The ninth phase pays past the bound.

Main result: `moneySupply_le_max_iff`, up to which height the supply stays in range.
-/

namespace Passion

open Finset

/-- What the blocks of heights `1` to `nHeight` pay together. -/
def moneySupply (network : Network) (nHeight : Nat) : CAmount :=
  ∑ h ∈ Icc 1 nHeight, getBlockValue network h

/-! ## The supply of the main network, in coins -/

/-- The sum of `mainSubsidy` over the heights `1` to `nHeight`. -/
def mainCoins (nHeight : Nat) : Int := ∑ h ∈ Icc 1 nHeight, mainSubsidy h

theorem moneySupply_main (H : Nat) : moneySupply .main H = mainCoins H * COIN := by
  simp only [moneySupply, mainCoins, getBlockValue, sum_mul]

theorem mainCoins_succ (H : Nat) : mainCoins (H + 1) = mainCoins H + mainSubsidy (H + 1) := by
  rw [mainCoins, sum_Icc_succ_top (Nat.le_add_left 1 H), Nat.cast_succ, mainCoins]

theorem mainSubsidy_nonneg (h : Int) : 0 ≤ mainSubsidy h := by
  unfold mainSubsidy
  positivity

variable {H : Nat}

theorem mainCoins_mono {K : Nat} (h : H ≤ K) : mainCoins H ≤ mainCoins K := by
  induction K, h using Nat.le_induction with
  | base => exact le_rfl
  | succ K _ ih =>
    rw [mainCoins_succ]
    have := mainSubsidy_nonneg (K + 1)
    omega

theorem mainCoins_phase {a : Nat} {c : Int} (H : Nat) (haH : a ≤ H)
    (hc : ∀ h : Nat, a < h → h ≤ H → mainSubsidy h = c) :
    mainCoins H = mainCoins a + (H - a) * c := by
  induction H, haH using Nat.le_induction with
  | base => simp
  | succ H haH ih =>
    have hlast : mainSubsidy (H + 1) = c := hc (H + 1) (by omega) le_rfl
    rw [mainCoins_succ, hlast, ih fun h hah hhH => hc h hah (by omega)]
    push_cast
    ring

/-! ## The phases -/

/-- From height `start` on, `f` pays the given reward up to and including each given height. -/
def PaysPhases (f : Int → Int) (start : Nat) : List (Nat × Int) → Prop
  | [] => True
  | (last, reward) :: rest =>
    start ≤ last ∧ (∀ h : Int, start < h → h ≤ last → f h = reward) ∧ PaysPhases f last rest

def paidByPhases (start : Nat) : List (Nat × Int) → Int
  | [] => 0
  | (last, reward) :: rest => (last - start) * reward + paidByPhases last rest

def lastOfPhases (start : Nat) : List (Nat × Int) → Nat
  | [] => start
  | (last, _) :: rest => lastOfPhases last rest

/-- The premine, the proof-of-work blocks and the phases `1` to `15`. -/
def mainPhases : List (Nat × Int) :=
  [(1, 1200000), (50, 1), (43200, 12), (302400, 10), (561600, 8), (820800, 7), (1080000, 8),
    (1339200, 9), (1598400, 10), (2116800, 9), (2635200, 8), (3153600, 7), (4190400, 6),
    (5227200, 5), (7300800, 4), (11448000, 3), (41548320, 2)]

theorem mainSubsidy_paysPhases : PaysPhases mainSubsidy 0 mainPhases := by
  simp only [PaysPhases, mainPhases, and_true]
  repeat' apply And.intro
  all_goals first | omega | (intro h hlo hhi; grind [mainSubsidy])

theorem mainCoins_lastOfPhases {start : Nat} {phases : List (Nat × Int)}
    (hpays : PaysPhases mainSubsidy start phases) :
    mainCoins (lastOfPhases start phases) = mainCoins start + paidByPhases start phases := by
  induction phases generalizing start with
  | nil => simp [lastOfPhases, paidByPhases]
  | cons phase rest ih =>
    obtain ⟨hle, hreward, hrest⟩ := hpays
    have hphase := mainCoins_phase phase.1 hle fun h hlo hhi => hreward h (by omega) (by omega)
    rw [lastOfPhases, paidByPhases, ih hrest, hphase, add_assoc]

theorem PaysPhases.take {f : Int → Int} {start : Nat} {phases : List (Nat × Int)}
    (hpays : PaysPhases f start phases) (n : Nat) : PaysPhases f start (phases.take n) := by
  induction phases generalizing start n with
  | nil => simpa using hpays
  | cons phase rest ih =>
    cases n with
    | zero => exact trivial
    | succ n => exact ⟨hpays.1, hpays.2.1, ih hpays.2.2 n⟩

theorem mainCoins_of_phases (n : Nat) :
    mainCoins (lastOfPhases 0 (mainPhases.take n)) = paidByPhases 0 (mainPhases.take n) := by
  rw [mainCoins_lastOfPhases (mainSubsidy_paysPhases.take n), mainCoins]
  simp

/-! ## The bound -/

theorem mainCoins_phase_nine (hlo : 2116800 ≤ H) (hhi : H ≤ 2635200) :
    mainCoins H = 19861849 + (H - 2116800) * 8 := by
  have hstart : mainCoins 2116800 = 19861849 := mainCoins_of_phases 10
  have hreward : ∀ h : Nat, 2116800 < h → h ≤ H → mainSubsidy h = 8 := by
    grind [mainSubsidy]
  simpa [hstart] using mainCoins_phase H hlo hreward

theorem mainCoins_le_iff (H : Nat) : mainCoins H ≤ 21000000 ↔ H ≤ 2259068 := by
  constructor
  · intro hle
    by_contra! hH
    have hover := mainCoins_phase_nine (H := 2259069) (by decide) (by decide)
    have hmono : mainCoins 2259069 ≤ mainCoins H := mainCoins_mono hH
    omega
  · intro hH
    have hlast := mainCoins_phase_nine (H := 2259068) (by decide) (by decide)
    have hmono := mainCoins_mono hH
    omega

/-- **The supply stays below the maximum up to height 2259068**, and from there on it is outside the
range of `MoneyRange`. -/
theorem moneySupply_le_max_iff (H : Nat) :
    (moneySupply .main H ≤ ConsensusParams.main.nMaxMoneyOut ↔ H ≤ 2259068) ∧
      (ConsensusParams.main.moneyRange (moneySupply .main H) = true ↔ H ≤ 2259068) := by
  have hnonneg : 0 ≤ mainCoins H := mainCoins_mono (Nat.zero_le H)
  have hmax : ConsensusParams.main.nMaxMoneyOut = 2100000000000000 := by decide
  have hle : mainCoins H * COIN ≤ 2100000000000000 ↔ H ≤ 2259068 := by
    rw [← mainCoins_le_iff, COIN]
    omega
  have hpos : 0 ≤ mainCoins H * COIN := mul_nonneg hnonneg (by decide)
  simp [ConsensusParams.moneyRange, hmax, moneySupply_main, hle, hpos]

/-- One block more, and the supply is 21000001 coins. -/
theorem moneySupply_exceeds_max :
    ConsensusParams.main.nMaxMoneyOut < moneySupply .main 2259069 := by
  have hover := mainCoins_phase_nine (H := 2259069) (by decide) (by decide)
  rw [moneySupply_main, hover]
  decide

end Passion
