import Mathlib.Data.Option.Basic
import Mathlib.Tactic.Cases

/-!
# Ancestors in a forest of parent pointers

A forest is given by a partial function `parent`. `ancestor parent n k` follows it `n` times, and
`Above parent a k` says that `a` is `k` or an ancestor of it. When `height` grows by one along
every pointer (`Graded`), the ancestor of a node at a height is unique.

`path parent n k` lists a node and its first ancestors, and `Branch parent l` says that `l` is a
whole path, down to a node without a parent. A branch has the ancestors of its members.

A forest that grows by new nodes keeps the ancestors of the old ones (`ancestor_of_extends`).
-/

namespace Passion.Lib

open List

variable {κ : Type}

/-- The `n`-th ancestor. -/
def ancestor (parent : κ → Option κ) : Nat → κ → Option κ
  | 0, k => some k
  | n + 1, k => (parent k).bind (ancestor parent n)

/-- `a` is `k` or an ancestor of it. -/
def Above (parent : κ → Option κ) (a k : κ) : Prop := ∃ n, ancestor parent n k = some a

/-- Heights grow by one along every pointer. -/
def Graded (parent : κ → Option κ) (height : κ → Nat) : Prop :=
  ∀ k p, parent k = some p → height k = height p + 1

section

variable {parent : κ → Option κ}

@[simp] theorem ancestor_zero (k : κ) : ancestor parent 0 k = some k := rfl

variable {k : κ}

theorem ancestor_succ {p : κ} (h : parent k = some p) (n : Nat) :
    ancestor parent (n + 1) k = ancestor parent n p := by
  rw [ancestor, h]
  rfl

theorem ancestor_add (m n : Nat) (k : κ) :
    ancestor parent (m + n) k = (ancestor parent m k).bind (ancestor parent n) := by
  induction m generalizing k with
  | zero => simp
  | succ m ih =>
    rw [Nat.succ_add, ancestor, ancestor]
    cases parent k with
    | none => rfl
    | some p => exact ih p

theorem above_refl (k : κ) : Above parent k k := ⟨0, rfl⟩

theorem above_parent {p : κ} (h : parent k = some p) : Above parent p k :=
  ⟨1, by simp [ancestor, h]⟩

theorem Above.trans {a b c : κ} (hab : Above parent a b) (hbc : Above parent b c) :
    Above parent a c := by
  obtain ⟨m, hm⟩ := hab
  obtain ⟨n, hn⟩ := hbc
  exact ⟨n + m, by rw [ancestor_add, hn]; exact hm⟩

theorem above_iff {a : κ} :
    Above parent a k ↔ a = k ∨ ∃ p, parent k = some p ∧ Above parent a p := by
  constructor
  · rintro ⟨n, hn⟩
    cases n with
    | zero => exact .inl (Option.some.inj hn).symm
    | succ n =>
      obtain ⟨p, hp, hn⟩ := Option.bind_eq_some_iff.mp hn
      exact .inr ⟨p, hp, n, hn⟩
  · rintro (rfl | ⟨p, hp, habove⟩)
    · exact above_refl a
    · exact habove.trans (above_parent hp)

end

section

variable {parent : κ → Option κ} {height : κ → Nat}

variable {a k : κ}

theorem Graded.height_eq (h : Graded parent height) {n : Nat} (ha : ancestor parent n k = some a) :
    height k = height a + n := by
  induction n generalizing k with
  | zero =>
    cases ha
    rfl
  | succ n ih =>
    obtain ⟨p, hp, ha⟩ := Option.bind_eq_some_iff.mp ha
    rw [h k p hp, ih ha]
    omega

theorem Graded.height_le (h : Graded parent height) (ha : Above parent a k) :
    height a ≤ height k := by
  obtain ⟨n, hn⟩ := ha
  rw [h.height_eq hn]
  omega

theorem Graded.eq_of_height (h : Graded parent height) (ha : Above parent a k)
    (hheight : height a = height k) : a = k := by
  obtain ⟨n, hn⟩ := ha
  have := h.height_eq hn
  obtain rfl : n = 0 := by omega
  exact (Option.some.inj hn).symm

theorem Graded.antisymm (h : Graded parent height) {b : κ} (hab : Above parent a b)
    (hba : Above parent b a) : a = b :=
  h.eq_of_height hab (Nat.le_antisymm (h.height_le hab) (h.height_le hba))

end

section

variable {parent : κ → Option κ}

/-- The node and its ancestors, `n` nodes at most. -/
def path (parent : κ → Option κ) : Nat → κ → List κ
  | 0, _ => []
  | n + 1, k => k :: (parent k).elim [] (path parent n)

variable {l : List κ} {k a : κ}

theorem mem_path {n : Nat} : a ∈ path parent n k ↔ ∃ i < n, ancestor parent i k = some a := by
  induction n generalizing k with
  | zero => simp [path]
  | succ n ih =>
    rw [path, mem_cons]
    constructor
    · rintro (rfl | hmem)
      · exact ⟨0, Nat.succ_pos n, rfl⟩
      · cases hp : parent k with
        | none => simp [hp] at hmem
        | some p =>
          rw [hp] at hmem
          obtain ⟨i, hi, ha⟩ := ih.mp hmem
          exact ⟨i + 1, Nat.succ_lt_succ hi, by rw [ancestor_succ hp, ha]⟩
    · rintro ⟨i, hi, ha⟩
      cases i with
      | zero => exact .inl (Option.some.inj ha).symm
      | succ i =>
        obtain ⟨p, hp, ha⟩ := Option.bind_eq_some_iff.mp ha
        rw [hp]
        exact .inr (ih.mpr ⟨i, Nat.lt_of_succ_lt_succ hi, ha⟩)

theorem Graded.nodup_path {height : κ → Nat} (h : Graded parent height) (n : Nat) (k : κ) :
    (path parent n k).Nodup := by
  induction n generalizing k with
  | zero => exact nodup_nil
  | succ n ih =>
    rw [path]
    cases hp : parent k with
    | none => simp
    | some p =>
      refine nodup_cons.mpr ⟨fun hmem => ?_, ih p⟩
      obtain ⟨i, -, hi⟩ := mem_path.mp hmem
      have h1 := h.height_eq hi
      have h2 := h k p hp
      omega

/-- A whole path: the parent of each node is the next one, and the last node has none. -/
def Branch (parent : κ → Option κ) : List κ → Prop
  | [] => True
  | k :: l => parent k = l.head? ∧ Branch parent l

theorem branch_path {n : Nat} (h : ancestor parent n k = none) :
    Branch parent (path parent n k) := by
  induction n generalizing k with
  | zero => simp at h
  | succ n ih =>
    rw [path]
    cases hp : parent k with
    | none => exact ⟨hp, trivial⟩
    | some p =>
      rw [ancestor_succ hp] at h
      refine ⟨?_, ih h⟩
      cases n with
      | zero => simp at h
      | succ n => exact hp

theorem Branch.mem_of_above (hl : Branch parent l) (hk : k ∈ l) (ha : Above parent a k) :
    a ∈ l := by
  induction l generalizing k with
  | nil => cases hk
  | cons b l ih =>
    rcases mem_cons.mp hk with rfl | hk
    · rcases above_iff.mp ha with rfl | ⟨p, hp, ha⟩
      · exact mem_cons_self
      · rw [hl.1] at hp
        exact mem_cons_of_mem _ (ih hl.2 (mem_of_head? hp) ha)
    · exact mem_cons_of_mem _ (ih hl.2 hk ha)

theorem Branch.parent_last (hl : Branch parent l) (hk : l.getLast? = some k) : parent k = none := by
  induction l with
  | nil => cases hk
  | cons a l ih =>
    cases l with
    | nil =>
      obtain rfl : a = k := by simpa using hk
      exact hl.1
    | cons b l =>
      exact ih hl.2 hk

theorem Branch.above_head (hl : Branch parent (k :: l)) (ha : a ∈ k :: l) : Above parent a k := by
  induction l generalizing k with
  | nil =>
    obtain rfl : a = k := by simpa using ha
    exact above_refl a
  | cons p l ih =>
    rcases mem_cons.mp ha with rfl | ha
    · exact above_refl a
    · exact (ih hl.2 ha).trans (above_parent hl.1)

theorem Branch.of_append {l1 l2 : List κ} (h : Branch parent (l1 ++ l2)) : Branch parent l2 := by
  induction l1 with
  | nil => exact h
  | cons k l1 ih => exact ih h.2

theorem Branch.nodup {height : κ → Nat} (hg : Graded parent height) (hl : Branch parent l) :
    l.Nodup := by
  induction l with
  | nil => exact nodup_nil
  | cons k l ih =>
    refine nodup_cons.mpr ⟨fun hmem => ?_, ih hl.2⟩
    cases l with
    | nil => cases hmem
    | cons p l =>
      have h1 := hg.height_le (hl.2.above_head hmem)
      have h2 := hg k p hl.1
      omega

theorem Branch.above_of_append {rest : List κ} (h : Branch parent (l ++ a :: rest))
    (hk : k ∈ l ++ [a]) : Above parent a k := by
  rcases mem_append.mp hk with hk | hk
  · obtain ⟨s, t, rfl⟩ := append_of_mem hk
    rw [append_assoc] at h
    exact h.of_append.above_head (by simp)
  · rw [mem_singleton.mp hk]
    exact above_refl a

theorem Branch.congr {parent' : κ → Option κ} (hl : Branch parent l)
    (h : ∀ k ∈ l, parent' k = parent k) : Branch parent' l := by
  induction l with
  | nil => trivial
  | cons k l ih =>
    exact ⟨(h k mem_cons_self).trans hl.1,
      ih hl.2 fun k' hk' => h k' (mem_cons_of_mem k hk')⟩

end

section

variable {parent parent' : κ → Option κ} {S : κ → Prop}

/-- A forest that keeps the pointers of the nodes in `S`, which is closed under parents, keeps
their ancestors. -/
theorem ancestor_of_extends (hsame : ∀ k, S k → parent' k = parent k)
    (hclosed : ∀ k p, S k → parent k = some p → S p) {k : κ} (hk : S k) (n : Nat) :
    ancestor parent' n k = ancestor parent n k := by
  induction n generalizing k with
  | zero => rfl
  | succ n ih =>
    rw [ancestor, ancestor, hsame k hk]
    cases hp : parent k with
    | none => rfl
    | some p => exact ih (hclosed k p hk hp)

end

end Passion.Lib
