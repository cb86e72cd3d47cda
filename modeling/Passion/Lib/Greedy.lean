import Mathlib.Algebra.BigOperators.Group.List.Basic
import Mathlib.Data.List.Forall2
import Mathlib.Order.Lattice

/-!
# Greedy choice

**Under a capacity.** A list is gone through once. An element is taken if it fits into what the
elements taken before it leave of the capacity, and left out otherwise; nothing that was left out is
looked at again.

The choice is a sublist (`greedy_sublist`) that fits the capacity (`used_add_sum_greedy_le`), and an
element is left out only on account of the elements taken before it (`exists_split_of_not_taken`).

**Matching in order.** The elements of one list are to be given elements of another, each at most
once and in order (`List.SublistForall₂`). An element may be given the first one it is related to
(`sublistForall₂_cons_cons`): that leaves the most to the others.
-/

namespace Passion.Lib

variable {α M : Type} [AddCommMonoid M]

section

variable [LE M] [DecidableLE M]

/-- The elements taken, where `used` of the capacity `total` is taken already. -/
def greedy (weight : α → M) (total used : M) : List α → List α
  | [] => []
  | a :: l =>
    if weight a + used ≤ total then a :: greedy weight total (weight a + used) l
    else greedy weight total used l

variable (weight : α → M) (total used : M)

@[simp] theorem greedy_nil : greedy weight total used [] = [] := rfl

theorem greedy_cons (a : α) (l : List α) : greedy weight total used (a :: l) =
      if weight a + used ≤ total then a :: greedy weight total (weight a + used) l
      else greedy weight total used l := rfl

theorem greedy_sublist (l : List α) : (greedy weight total used l).Sublist l := by
  induction l generalizing used with
  | nil => simp
  | cons a l ih =>
    rw [greedy_cons]
    split_ifs
    · exact (ih _).cons_cons a
    · exact (ih _).cons a

theorem greedy_append (xs ys : List α) : greedy weight total used (xs ++ ys) =
      greedy weight total used xs ++
        greedy weight total (((greedy weight total used xs).map weight).sum + used) ys := by
  induction xs generalizing used with
  | nil => simp
  | cons a xs ih =>
    rw [List.cons_append, greedy_cons, greedy_cons]
    split_ifs
    · rw [ih, List.map_cons, List.sum_cons, List.cons_append]
      rw [add_left_comm, add_assoc]
    · exact ih used

theorem used_add_sum_greedy_le {used : M} (hused : used ≤ total) (l : List α) :
    ((greedy weight total used l).map weight).sum + used ≤ total := by
  induction l generalizing used with
  | nil => simpa using hused
  | cons a l ih =>
    rw [greedy_cons]
    split_ifs with hfits
    · rw [List.map_cons, List.sum_cons, add_right_comm, add_comm]
      exact ih hfits
    · exact ih hused

end

theorem exists_split_of_not_taken [LinearOrder M] {weight : α → M} {total used : M} {l : List α}
    {a : α} (ha : a ∈ l) (hout : a ∉ greedy weight total used l) :
    ∃ before after, l = before ++ a :: after ∧
      ∃ rest, rest.Sublist after ∧
        greedy weight total used l = greedy weight total used before ++ rest ∧
        total < weight a + (((greedy weight total used before).map weight).sum + used) := by
  obtain ⟨before, after, rfl⟩ := List.append_of_mem ha
  refine ⟨before, after, rfl, ?_⟩
  rw [greedy_append, greedy_cons] at hout ⊢
  split_ifs at hout ⊢ with hfits
  · simp at hout
  · exact ⟨_, greedy_sublist .., rfl, not_le.mp hfits⟩

section

open List

variable {α β : Type} {R : α → β → Prop} {a : α} {b : β} {as as' : List α} {bs : List β}

theorem sublistForall₂_of_cons (h : SublistForall₂ R (a :: as) bs) : SublistForall₂ R as bs := by
  obtain ⟨_, hall, hsub⟩ := sublistForall₂_iff.mp h
  cases hall with
  | cons _ hall => exact sublistForall₂_iff.mpr ⟨_, hall, (sublist_cons_self _ _).trans hsub⟩

theorem sublistForall₂_cons_cons (hab : R a b) :
    SublistForall₂ R (a :: as) (b :: bs) ↔ SublistForall₂ R as bs := by
  refine ⟨fun h => ?_, .cons hab⟩
  cases h with
  | cons _ h => exact h
  | cons_right h => exact sublistForall₂_of_cons h

theorem sublistForall₂_cons_skip (hab : ¬R a b) :
    SublistForall₂ R (a :: as) (b :: bs) ↔ SublistForall₂ R (a :: as) bs := by
  refine ⟨fun h => ?_, .cons_right⟩
  cases h with
  | cons hab' _ => exact absurd hab' hab
  | cons_right h => exact h

theorem length_le_of_sublistForall₂ (h : SublistForall₂ R as bs) : as.length ≤ bs.length := by
  obtain ⟨_, hall, hsub⟩ := sublistForall₂_iff.mp h
  exact hall.length_eq ▸ hsub.length_le

theorem of_drop_eq_cons {n : Nat} (h : as.drop n = a :: as') :
    as[n]? = some a ∧ as.drop (n + 1) = as' := by
  rw [← head?_drop, ← tail_drop, h]
  exact ⟨rfl, rfl⟩

end

end Passion.Lib
