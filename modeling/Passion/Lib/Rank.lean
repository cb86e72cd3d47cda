import Mathlib.Data.List.Basic

/-!
# Ranks in a list of scores

A list of scored keys, and the place at which a key first stands in it. Where the list is sorted by
score, the place bounds how many scores are better.

`greatest less l` is the last element of `l` in the order of a comparator. Where keys are unique, an
element is found by its key (`find?_of_nodup`).
-/

namespace Passion.Lib

open List

section

variable {α : Type} {less : α → α → Bool} {l : List α} {a : α}

def greatest (less : α → α → Bool) : List α → Option α
  | [] => none
  | a :: l =>
    match greatest less l with
    | none => some a
    | some b => if less b a then some a else some b

theorem greatest_cons_isSome (less : α → α → Bool) (a : α) (l : List α) :
    (greatest less (a :: l)).isSome = true := by
  simp only [greatest]
  split
  · rfl
  · split_ifs <;> rfl

theorem mem_of_greatest (h : greatest less l = some a) : a ∈ l := by
  induction l generalizing a with
  | nil => cases h
  | cons b l ih =>
    simp only [greatest] at h
    split at h
    · cases h
      exact mem_cons_self
    · next c hc =>
      split_ifs at h
      · cases h
        exact mem_cons_self
      · cases h
        exact mem_cons_of_mem b (ih hc)

theorem not_less_of_greatest (hasymm : ∀ a b, less a b = true → less b a = false)
    (hsplit : ∀ a b c, less a b = true → less c b = false → less a c = true)
    (h : greatest less l = some a) {b : α} (hb : b ∈ l) : less a b = false := by
  have hirrefl : ∀ c, less c c = false := by
    intro c
    by_contra hc
    exact hc (hasymm c c (by simpa using hc))
  induction l generalizing a with
  | nil => cases hb
  | cons c l ih =>
    simp only [greatest] at h
    split at h
    · next hnone =>
      cases h
      cases l with
      | nil => rw [mem_singleton.mp hb, hirrefl]
      | cons d l =>
        have hsome := greatest_cons_isSome less d l
        rw [hnone] at hsome
        cases hsome
    · next d hd =>
      split_ifs at h with hless
      · cases h
        rcases mem_cons.mp hb with rfl | hb
        · exact hirrefl b
        · by_contra hcb
          have hcd := hsplit c b d (by simpa using hcb) (ih hd hb)
          rw [hasymm d c hless] at hcd
          cases hcd
      · cases h
        rcases mem_cons.mp hb with rfl | hb
        · exact eq_false_of_ne_true hless
        · exact ih hd hb

end

variable {σ κ : Type} [DecidableEq κ]

/-- The place of the first entry with a key, counted on from `n`. -/
def rankFrom (k : κ) : Nat → List (σ × κ) → Option Nat
  | _, [] => none
  | n, s :: scores => if s.2 = k then some (n + 1) else rankFrom k (n + 1) scores

theorem find?_of_nodup {α : Type} {key : α → κ} {l : List α} {a : α} (h : (l.map key).Nodup)
    (ha : a ∈ l) : l.find? (fun x => decide (key x = key a)) = some a := by
  induction l with
  | nil => cases ha
  | cons b l ih =>
    obtain ⟨hb, htail⟩ := nodup_cons.mp h
    rcases mem_cons.mp ha with rfl | ha
    · simp
    · have hne : key b ≠ key a := fun heq => hb (mem_map.mpr ⟨a, ha, heq.symm⟩)
      simp [hne, ih htail ha]

variable {k : κ} {n r : Nat} {scores : List (σ × κ)}

theorem rankFrom_eq_none_iff : rankFrom k n scores = none ↔ k ∉ scores.map Prod.snd := by
  induction scores generalizing n with
  | nil => simp [rankFrom]
  | cons s scores ih =>
    by_cases hs : s.2 = k
    · simp [rankFrom, hs]
    · simp [rankFrom, hs, ih, Ne.symm hs]

theorem lt_of_rankFrom (h : rankFrom k n scores = some r) : n < r := by
  induction scores generalizing n with
  | nil => cases h
  | cons s scores ih =>
    by_cases hs : s.2 = k
    · rw [rankFrom, if_pos hs] at h
      cases h
      exact Nat.lt_succ_self n
    · rw [rankFrom, if_neg hs] at h
      exact Nat.lt_of_succ_lt (ih h)

theorem rankFrom_le_iff (h : rankFrom k n scores = some r) (m : Nat) :
    r ≤ n + m ↔ k ∈ (scores.take m).map Prod.snd := by
  induction scores generalizing n m with
  | nil => cases h
  | cons s scores ih =>
    cases m with
    | zero =>
      have hlt := lt_of_rankFrom h
      simp only [take_zero, map_nil, not_mem_nil, iff_false]
      omega
    | succ m =>
      by_cases hs : s.2 = k
      · rw [rankFrom, if_pos hs] at h
        cases h
        simp [hs]
      · rw [rankFrom, if_neg hs] at h
        rw [take_succ_cons, map_cons, mem_cons, ← ih h m, or_iff_right (Ne.symm hs)]
        omega

end Passion.Lib
