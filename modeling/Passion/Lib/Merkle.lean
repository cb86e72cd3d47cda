import Mathlib.Tactic.Ring

/-!
# Complete binary Merkle trees

Nodes over an infinite sequence of leaves: `node d k` has height `d` and covers the leaves from
`k * 2 ^ d` up to `(k + 1) * 2 ^ d`. The combining function also gets the height of its arguments.

On the way from a node to the root there is one sibling on each level. Those on the right hand side
are the *gaps*: a tree that is filled from the left has not seen them yet. They follow each other
without overlap up to the end of the tree (`tiles_gaps`), and all siblings together recompute the
root (`recompute_siblings`).
-/

namespace Passion.Lib.Merkle

open List

variable {H : Type} (combine : H → H → Nat → H)

/-! ## Nodes -/

/-- The node of height `d` and index `k` over the leaves `f`. -/
def node (f : Nat → H) : Nat → Nat → H
  | 0, k => f k
  | d + 1, k => combine (node f d (2 * k)) (node f d (2 * k + 1)) d

/-- The leaves of a list, and `u` from its end on. -/
def padded (u : H) (leaves : List H) : Nat → H := fun i => leaves.getD i u

/-- The root of the complete tree of depth `D` over the leaves of a list, padded with `u`. -/
def root (u : H) (D : Nat) (leaves : List H) : H := node combine (padded u leaves) D 0

variable {combine}

theorem padded_of_le {u : H} {leaves : List H} {j : Nat} (h : leaves.length ≤ j) :
    padded u leaves j = u := by
  simp [padded, h]

theorem div_two_pow_succ (i d : Nat) : i / 2 ^ (d + 1) = i / 2 ^ d / 2 := by
  rw [pow_succ, Nat.div_div_eq_div_mul]

variable {k d s e : Nat} {g : Nat × Nat} {G : List (Nat × Nat)}

theorem node_congr {f g : Nat → H} (h : ∀ i, i / 2 ^ d = k → f i = g i) :
    node combine f d k = node combine g d k := by
  induction d generalizing k with
  | zero => exact h k (by simp)
  | succ d ih =>
    have hleft : ∀ i, i / 2 ^ d = 2 * k → f i = g i := by
      intro i hi
      apply h
      rw [div_two_pow_succ]
      omega
    have hright : ∀ i, i / 2 ^ d = 2 * k + 1 → f i = g i := by
      intro i hi
      apply h
      rw [div_two_pow_succ]
      omega
    rw [node, node, ih hleft, ih hright]

/-- The node over a constant sequence is the entry of the table of empty roots. -/
theorem node_const (empty : Nat → H) (d k : Nat)
    (hempty : ∀ e < d, empty (e + 1) = combine (empty e) (empty e) e) :
    node combine (fun _ => empty 0) d k = empty d := by
  induction d generalizing k with
  | zero => rfl
  | succ d ih =>
    have hbelow : ∀ e < d, empty (e + 1) = combine (empty e) (empty e) e :=
      fun e he => hempty e (by omega)
    rw [node, ih _ hbelow, ih _ hbelow, hempty d (by omega)]

theorem node_shift (f : Nat → H) (d s k : Nat) :
    node combine (fun i => f (s * 2 ^ d + i)) d k = node combine f d (s + k) := by
  induction d generalizing s k with
  | zero => simp [node]
  | succ d ih =>
    have hstart : ∀ i, s * 2 ^ (d + 1) + i = 2 * s * 2 ^ d + i := by
      intro i
      ring
    simp only [node, hstart, ih]
    rw [show 2 * s + 2 * k = 2 * (s + k) by ring,
      show 2 * s + (2 * k + 1) = 2 * (s + k) + 1 by ring]

/-! ## Siblings -/

/-- The siblings on the way up from the node of height `d` and index `k`, over `n` levels; the flag
says whether the node itself is on the right. -/
def siblings (node : Nat → Nat → H) : Nat → Nat → Nat → List (Bool × H)
  | _, _, 0 => []
  | d, k, n + 1 =>
    (if k % 2 = 1 then (true, node d (k - 1)) else (false, node d (k + 1))) ::
      siblings node (d + 1) (k / 2) n

variable (combine) in
/-- Go up from a node of height `d` with the siblings that are given. -/
def recompute : H → Nat → List (Bool × H) → H
  | x, _, [] => x
  | x, d, (true, sibling) :: path => recompute (combine sibling x d) (d + 1) path
  | x, d, (false, sibling) :: path => recompute (combine x sibling d) (d + 1) path

theorem recompute_append (x : H) (d : Nat) (path path' : List (Bool × H)) :
    recompute combine x d (path ++ path') =
      recompute combine (recompute combine x d path) (d + path.length) path' := by
  induction path generalizing x d with
  | nil => rfl
  | cons level path ih =>
    obtain ⟨right, sibling⟩ := level
    rw [length_cons, show d + (path.length + 1) = d + 1 + path.length by omega]
    cases right with
    | false => exact ih _ _
    | true => exact ih _ _

theorem node_succ_of_odd (f : Nat → H) (hk : k % 2 = 1) :
    node combine f (d + 1) (k / 2) = combine (node combine f d (k - 1)) (node combine f d k) d := by
  rw [node, show 2 * (k / 2) = k - 1 by omega, show k - 1 + 1 = k by omega]

variable (combine) in
/-- **The siblings recompute the node above.** -/
theorem recompute_siblings (f : Nat → H) (d k n : Nat) :
    recompute combine (node combine f d k) d (siblings (node combine f) d k n) =
      node combine f (d + n) (k / 2 ^ n) := by
  induction n generalizing d k with
  | zero => simp [siblings, recompute]
  | succ n ih =>
    have hnext := ih (d + 1) (k / 2)
    rw [Nat.div_div_eq_div_mul, ← pow_succ', show d + 1 + n = d + (n + 1) by omega] at hnext
    unfold siblings
    split_ifs with hk
    · rw [recompute, ← hnext, node_succ_of_odd f hk]
    · rw [recompute, ← hnext, node, show 2 * (k / 2) = k by omega]

theorem map_fst_siblings (node : Nat → Nat → H) (d k n : Nat) :
    (siblings node d k n).map Prod.fst = (range n).map k.testBit := by
  induction n generalizing d k with
  | zero => rfl
  | succ n ih =>
    have hbits : (range n).map (k / 2).testBit = (range n).map (k.testBit ∘ Nat.succ) := by
      refine map_congr_left fun j _ => ?_
      rw [Function.comp_apply, Nat.testBit_succ]
    rw [siblings, map_cons, ih, hbits, range_succ_eq_map]
    split_ifs with hk <;> simp [hk]

/-! ## Gaps -/

/-- The siblings on the right hand side, with height and index. -/
def gaps : Nat → Nat → Nat → List (Nat × Nat)
  | _, _, 0 => []
  | d, k, n + 1 =>
    if k % 2 = 1 then gaps (d + 1) (k / 2) n else (d, k + 1) :: gaps (d + 1) (k / 2) n

/-- The leaves below the nodes of the list follow each other, from the leaf `s` to the leaf `e`. -/
def Tiles : Nat → List (Nat × Nat) → Nat → Prop
  | s, [], e => s = e
  | s, (d, k) :: G, e => s = k * 2 ^ d ∧ Tiles ((k + 1) * 2 ^ d) G e

/-- **The gaps fill the tree** from the end of a node on. -/
theorem tiles_gaps (d k n : Nat) :
    Tiles ((k + 1) * 2 ^ d) (gaps d k n) ((k / 2 ^ n + 1) * 2 ^ (d + n)) := by
  induction n generalizing d k with
  | zero => simp [gaps, Tiles]
  | succ n ih =>
    have hnext := ih (d + 1) (k / 2)
    rw [Nat.div_div_eq_div_mul, ← pow_succ', show d + 1 + n = d + (n + 1) by omega] at hnext
    unfold gaps
    split_ifs with hk
    · rw [show (k + 1) * 2 ^ d = (k / 2 + 1) * 2 ^ (d + 1) by
        rw [show k + 1 = (k / 2 + 1) * 2 by omega]
        ring]
      exact hnext
    · refine ⟨rfl, ?_⟩
      rw [show (k + 1 + 1) * 2 ^ d = (k / 2 + 1) * 2 ^ (d + 1) by
        rw [show k + 1 + 1 = (k / 2 + 1) * 2 by omega]
        ring]
      exact hnext

theorem tiles_gaps_root {i D : Nat} (hi : i + 1 ≤ 2 ^ D) : Tiles (i + 1) (gaps 0 i D) (2 ^ D) := by
  have h := tiles_gaps 0 i D
  rw [Nat.div_eq_of_lt hi, pow_zero, mul_one, zero_add, zero_add, one_mul] at h
  exact h

theorem Tiles.le_of_mem (h : Tiles s G e) (hg : g ∈ G) : s ≤ g.2 * 2 ^ g.1 := by
  induction G generalizing s with
  | nil => cases hg
  | cons g' G ih =>
    obtain ⟨rfl, hrest⟩ := h
    rcases mem_cons.mp hg with rfl | hg
    · exact le_rfl
    · exact (Nat.mul_le_mul_right _ (Nat.le_succ _)).trans (ih hrest hg)

theorem Tiles.le (h : Tiles s G e) : s ≤ e := by
  induction G generalizing s with
  | nil => exact le_of_eq h
  | cons g G ih =>
    obtain ⟨rfl, hrest⟩ := h
    exact (Nat.mul_le_mul_right _ (Nat.le_succ _)).trans (ih hrest)

theorem Tiles.end_le_of_mem (h : Tiles s G e) (hg : g ∈ G) : (g.2 + 1) * 2 ^ g.1 ≤ e := by
  induction G generalizing s with
  | nil => cases hg
  | cons g' G ih =>
    obtain ⟨rfl, hrest⟩ := h
    rcases mem_cons.mp hg with rfl | hg
    · exact hrest.le
    · exact ih hrest hg

theorem lt_of_mem_gaps {n : Nat} (h : g ∈ gaps d k n) : g.1 < d + n := by
  induction n generalizing d k with
  | zero => cases h
  | succ n ih =>
    unfold gaps at h
    split_ifs at h
    · have := ih h
      omega
    · rcases mem_cons.mp h with rfl | h
      · show d < d + (n + 1)
        omega
      · have := ih h
        omega

/-! ## Leaves in a row -/

theorem foldlM_leaves {f : Nat → H} {S : Type} {step : S → H → Except String S}
    {P : Nat → S → Prop} {N n : Nat}
    (hstep : ∀ n s, P n s → n < N → ∃ s', step s (f n) = .ok s' ∧ P (n + 1) s') (leaves : List H)
    {s : S} (h : P n s) (hleaves : ∀ j (hj : j < leaves.length), leaves[j] = f (n + j))
    (hn : n + leaves.length ≤ N) :
    ∃ s', leaves.foldlM step s = .ok s' ∧ P (n + leaves.length) s' := by
  induction leaves generalizing n s with
  | nil => exact ⟨s, rfl, h⟩
  | cons x leaves ih =>
    simp only [length_cons] at hn
    obtain ⟨s1, happ, h1⟩ := hstep n s h (by omega)
    have hx : x = f n := hleaves 0 (by simp)
    have hrest : ∀ j hj, leaves[j] = f (n + 1 + j) := by
      intro j hj
      have := hleaves (j + 1) (by simpa using hj)
      rw [show n + 1 + j = n + (j + 1) by omega]
      simpa using this
    obtain ⟨s2, hall, h2⟩ := ih h1 hrest (by omega)
    refine ⟨s2, ?_, ?_⟩
    · rw [foldlM_cons, hx, happ]
      exact hall
    · rw [length_cons, show n + (leaves.length + 1) = n + 1 + leaves.length by omega]
      exact h2

end Passion.Lib.Merkle
