import Mathlib.Data.Fin.Basic
import Mathlib.Data.Nat.ModEq

/-!
# A ring that caches the end of a list

A ring of `n` slots is written and read at an index modulo `n`. Written in step with a list that
grows and shrinks at its end, it holds the last `n` elements of the list (`Ring.Caches`). When the
list shrinks, the slot of the removed element must take the element `n` places before it, which
comes into the window again.
-/

namespace Passion.Lib

variable {α : Type} {n : Nat}

structure Ring (n : Nat) (α : Type) where
  slots : Fin n → α

namespace Ring

def replicate (n : Nat) (a : α) : Ring n α := ⟨fun _ => a⟩

variable [NeZero n]

def get (r : Ring n α) (i : Nat) : α := r.slots (Fin.ofNat n i)

def set (r : Ring n α) (i : Nat) (a : α) : Ring n α :=
  ⟨fun slot => if slot = Fin.ofNat n i then a else r.slots slot⟩

theorem get_set (r : Ring n α) (i j : Nat) (a : α) :
    (r.set i a).get j = if j % n = i % n then a else r.get j := by
  simp only [get, set, Fin.ext_iff, Fin.val_ofNat]

theorem set_sub (r : Ring n α) {i : Nat} (h : n ≤ i) (a : α) : r.set (i - n) a = r.set i a := by
  have hslot : Fin.ofNat n (i - n) = Fin.ofNat n i :=
    Fin.ext (by simp only [Fin.val_ofNat, ← Nat.mod_eq_sub_mod h])
  rw [set, set, hslot]

omit [NeZero n] in
theorem mod_ne {i j : Nat} (hlt : i < j) (hnear : j < i + n) : i % n ≠ j % n := fun h => by
  have hdvd := (Nat.modEq_iff_dvd' hlt.le).1 h
  have hle := Nat.le_of_dvd (by omega) hdvd
  omega

/-- The ring holds the last `n` elements of the list, each at its index. -/
def Caches (r : Ring n α) (l : List α) : Prop :=
  ∀ i a, l[i]? = some a → l.length ≤ i + n → r.get i = a

theorem Caches.push {r : Ring n α} {l : List α} (h : r.Caches l) (a : α) :
    (r.set l.length a).Caches (l ++ [a]) := by
  intro i b hi hwindow
  rw [List.length_append, List.length_singleton] at hwindow
  rw [get_set]
  have hlt : i < l.length + 1 := by
    have := (getElem?_eq_some_iff.1 hi).1
    simpa using this
  by_cases hlast : i = l.length
  · subst hlast
    simpa using hi
  · have hold : i < l.length := by omega
    rw [if_neg (mod_ne hold (by omega))]
    exact h i b (by rwa [List.getElem?_append_left hold] at hi) (by omega)

/-- Shrinking: the free slot takes the element that comes into the window, if there is one. -/
theorem Caches.pop {r : Ring n α} {l : List α} {a : α} (h : r.Caches (l ++ [a])) (b : α)
    (hb : n ≤ l.length → l[l.length - n]? = some b) : (r.set l.length b).Caches l := by
  intro i c hi hwindow
  have hlt : i < l.length := (getElem?_eq_some_iff.1 hi).1
  rw [get_set]
  by_cases hnew : l.length = i + n
  · -- the element that comes into the window has the slot of the removed one
    have hmod : i % n = l.length % n := by rw [hnew, Nat.add_mod_right]
    rw [if_pos hmod]
    have hi' := hb (by omega)
    rw [show l.length - n = i by omega, hi] at hi'
    exact (Option.some.inj hi').symm
  · rw [if_neg (mod_ne hlt (by omega))]
    refine h i c (by rwa [List.getElem?_append_left hlt]) ?_
    rw [List.length_append, List.length_singleton]
    omega

/-- Write the `k` elements of the list below index `i`, from the last one down. -/
def load (l : List α) : Nat → Nat → Ring n α → Ring n α
  | k + 1, i + 1, r => load l k i (match l[i]? with
    | some a => r.set i a
    | none => r)
  | _, _, r => r

/-- Loading goes down from the end of the list, and what it has written stays while it does not go
below the window. -/
theorem get_load (l : List α) (k i : Nat) (r : Ring n α)
    (hfilled : ∀ j a, l[j]? = some a → i ≤ j → r.get j = a) (hwindow : l.length ≤ i - k + n)
    {j : Nat} {a : α} (hj : l[j]? = some a) (hlow : i - k ≤ j) : (load l k i r).get j = a := by
  fun_induction load l k i r with
  | case1 k i r ih =>
    refine ih (fun j a hj hij => ?_) (by omega) (by omega)
    have hlt : j < l.length := (getElem?_eq_some_iff.1 hj).1
    cases hi : l[i]? with
    | none =>
      have : l.length ≤ i := List.getElem?_eq_none_iff.1 hi
      omega
    | some b =>
      rw [get_set]
      rcases eq_or_lt_of_le hij with rfl | hij
      · rw [if_pos rfl]
        exact Option.some.inj (hi.symm.trans hj)
      · rw [if_neg (mod_ne hij (by omega)).symm]
        exact hfilled j a hj hij
  | case2 k i r hstop =>
    refine hfilled j a hj ?_
    rcases k with _ | k
    · exact hlow
    · rcases i with _ | i
      · exact Nat.zero_le j
      · exact (hstop k i rfl rfl).elim

theorem caches_load (l : List α) (r : Ring n α) : (load l n l.length r).Caches l := by
  intro j a hj hwindow
  refine get_load l n l.length r (fun j a hj hle => ?_) (by omega) hj (by omega)
  have : j < l.length := (getElem?_eq_some_iff.1 hj).1
  omega

end Ring

end Passion.Lib
