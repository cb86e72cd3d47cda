import Passion.Lib.Merkle
import Passion.Sapling.IncrementalMerkleTree

/-!
# The incremental tree computes the Merkle root

After `n` leaves the tree holds the last pair of leaves, and on every level above the root of the
full subtree to the left of that pair, if there is one (`Collapsed`, `Holds`). Appending a leaf is
a binary increment of `n`: the carry of `propagate` combines full subtrees until it finds a free
level.

**Theorem (`append_root_correct`).** Up to `2 ^ D` leaves can be appended to the empty tree of
depth `D`, its root is then the root of the complete tree over these leaves padded with the
uncommitted leaf, and the leaf after the last one throws.

`root` and `path` go the same way up: the root is what the path recomputes from the last leaf
(`rootFilled_eq_recompute`). So both follow from the one fact that the levels of the path are the
siblings of that leaf (`pathLevels_eq`), if the fillers supply the siblings to the right.
-/

namespace Passion

open Lib.Merkle MerkleHash List

variable {H : Type} [MerkleHash H]

/-- Every entry of the table of empty roots combines two copies of the entry below it. -/
def EmptyRootTable (H : Type) [MerkleHash H] (D : Nat) : Prop :=
  ∀ d < D, (emptyRoot (d + 1) : H) =
    combine (emptyRoot d) (emptyRoot d) d

theorem EmptyRootTable.mono {d D : Nat} (h : EmptyRootTable H D) (hd : d ≤ D) :
    EmptyRootTable H d :=
  fun e he => h e (he.trans_le hd)

/-- A node over the leaves `f`, with the hash of the tree. -/
abbrev merkleNode (f : Nat → H) (d k : Nat) : H := node combine f d k

/-- The root of the complete tree of depth `D` over the leaves, padded with the uncommitted one. -/
def merkleRoot (D : Nat) (leaves : List H) : H :=
  root combine (emptyRoot 0) D leaves

namespace IncrementalMerkleTree

/-! ## The invariant -/

/-- From level `d` on, where the current subtree has index `p`: each level has the root of its left
sibling exactly if there is one, and the list ends with the last of them. -/
def Collapsed (f : Nat → H) : Nat → Nat → List (Option H) → Prop
  | _, p, [] => p = 0
  | d, p, x :: parents =>
    p ≠ 0 ∧ x = (if p % 2 = 1 then some (merkleNode f d (p - 1)) else none) ∧
      Collapsed f (d + 1) (p / 2) parents

/-- The tree holds the first `n` of the leaves `f`. -/
def Holds (f : Nat → H) : Nat → IncrementalMerkleTree H → Prop
  | 0, t => t = empty
  | i + 1, t =>
    t.left = some (f (2 * (i / 2))) ∧ t.right = (if i % 2 = 1 then some (f i) else none) ∧
      Collapsed f 1 (i / 2) t.parents

variable {f : Nat → H}

variable {D n d p i : Nat} {t : IncrementalMerkleTree H} {queue : List H}
  {parents : List (Option H)}

theorem Collapsed.length_le {m : Nat} (h : Collapsed f d p parents) (hp : p < 2 ^ m) :
    parents.length ≤ m := by
  induction parents generalizing d p m with
  | nil => exact Nat.zero_le _
  | cons x parents ih =>
    obtain ⟨hne, -, hrest⟩ := h
    cases m with
    | zero => simp at hp; omega
    | succ m =>
      have := ih hrest (m := m) (by omega)
      simpa using this

theorem Collapsed.full_iff (h : Collapsed f d p parents) (m : Nat) :
    parents.length = m ∧ parents.all Option.isSome = true ↔ p + 1 = 2 ^ m := by
  induction parents generalizing d p m with
  | nil =>
    have hp : p = 0 := h
    cases m with
    | zero => simp [hp]
    | succ m =>
      simp
      omega
  | cons x parents ih =>
    obtain ⟨hne, rfl, hrest⟩ := h
    cases m with
    | zero => simp [hne]
    | succ m =>
      have hnext := ih hrest m
      split_ifs with hodd
      · simp only [length_cons, all_cons, Option.isSome_some, Bool.true_and,
          add_right_cancel_iff, hnext]
        omega
      · simp
        omega

/-- The carry: one more full subtree on level `i + 1`. -/
theorem Collapsed.propagate {fuel : Nat} (h : Collapsed f (i + 1) p parents)
    (hfuel : parents.length < fuel) :
    Collapsed f (i + 1) (p + 1)
      (propagate fuel i (merkleNode f (i + 1) p) parents) := by
  induction parents generalizing i p fuel with
  | nil =>
    obtain ⟨fuel, rfl⟩ : ∃ k, fuel = k + 1 := ⟨fuel - 1, by simp at hfuel; omega⟩
    have hp : p = 0 := h
    subst hp
    exact ⟨by omega, rfl, rfl⟩
  | cons x parents ih =>
    obtain ⟨fuel, rfl⟩ : ∃ k, fuel = k + 1 := ⟨fuel - 1, by simp at hfuel; omega⟩
    obtain ⟨hne, rfl, hrest⟩ := h
    have hlen : parents.length < fuel := by simpa using hfuel
    split_ifs with hodd
    · -- both siblings are full: the carry goes on with the node above
      have hcarry := ih hrest hlen
      rw [merkleNode, node_succ_of_odd f hodd] at hcarry
      refine ⟨by omega, by rw [if_neg (by omega)], ?_⟩
      rw [show (p + 1) / 2 = p / 2 + 1 by omega]
      exact hcarry
    · refine ⟨by omega, by rw [if_pos (by omega), Nat.add_sub_cancel], ?_⟩
      rw [show (p + 1) / 2 = p / 2 by omega]
      exact hrest

/-! ## Appending -/

theorem Holds.isComplete_iff (h : Holds f n t) (hD : 1 ≤ D) :
    t.isComplete D = true ↔ n = 2 ^ D := by
  obtain ⟨D, rfl⟩ : ∃ k, D = k + 1 := ⟨D - 1, by omega⟩
  rw [pow_succ]
  cases n with
  | zero =>
    rw [show t = empty from h]
    simp [isComplete, empty]
  | succ i =>
    obtain ⟨hleft, hright, hparents⟩ := h
    have hfull := hparents.full_iff D
    unfold isComplete
    rw [hleft, hright]
    split_ifs with hodd
    · simp only [Option.isSome_some, true_and, Bool.and_eq_true, beq_iff_eq,
        Nat.add_sub_cancel, hfull]
      omega
    · simp
      omega

/-- **One leaf more.** -/
theorem Holds.append (h : Holds f n t) (hD : 1 ≤ D) (hn : n < 2 ^ D) :
    ∃ t', t.append D (f n) = .ok t' ∧ Holds f (n + 1) t' := by
  have hfree : ¬ t.isComplete D = true := by
    rw [h.isComplete_iff hD]
    omega
  unfold IncrementalMerkleTree.append
  rw [if_neg hfree]
  cases n with
  | zero =>
    rw [show t = empty from h]
    exact ⟨_, rfl, rfl, rfl, rfl⟩
  | succ i =>
    obtain ⟨hleft, hright, hparents⟩ := h
    rw [hleft, hright]
    by_cases hodd : i % 2 = 1
    · rw [if_pos hodd]
      refine ⟨_, rfl, ?_, ?_, ?_⟩
      · rw [show 2 * ((i + 1) / 2) = i + 1 by omega]
      · rw [if_neg (by omega)]
      · have hlen : t.parents.length < D := by
          have hbound : i / 2 < 2 ^ (D - 1) := by
            have : 2 ^ D = 2 ^ (D - 1) * 2 := by rw [← pow_succ, Nat.sub_add_cancel hD]
            omega
          have := hparents.length_le hbound
          omega
        have hcarry := hparents.propagate hlen
        rw [show merkleNode f (0 + 1) (i / 2) =
            combine (f (2 * (i / 2))) (f i) 0 from by
          rw [merkleNode, node_succ_of_odd f hodd, show 2 * (i / 2) = i - 1 by omega]
          rfl] at hcarry
        rw [show (i + 1) / 2 = i / 2 + 1 by omega]
        exact hcarry
    · rw [if_neg hodd]
      refine ⟨_, rfl, ?_, ?_, ?_⟩
      · rw [show (i + 1) / 2 = i / 2 by omega]
      · rw [if_pos (by omega)]
      · rw [show (i + 1) / 2 = i / 2 by omega]
        exact hparents

def appendAll (Depth : Nat) (t : IncrementalMerkleTree H) (leaves : List H) :
    Except String (IncrementalMerkleTree H) :=
  leaves.foldlM (fun t obj => t.append Depth obj) t

theorem Holds.appendAll (leaves : List H) (h : Holds f n t) (hD : 1 ≤ D)
    (hleaves : ∀ j (hj : j < leaves.length), leaves[j] = f (n + j))
    (hn : n + leaves.length ≤ 2 ^ D) :
    ∃ t', appendAll D t leaves = .ok t' ∧ Holds f (n + leaves.length) t' :=
  foldlM_leaves (fun _ _ h hn => h.append hD hn) leaves h hleaves hn

/-! ## The way up -/

/-- The queue has the nodes of the first gaps; the gaps after them are empty. -/
def Supplies (f : Nat → H) : List H → List (Nat × Nat) → Prop
  | [], G => ∀ g ∈ G, merkleNode f g.1 g.2 = emptyRoot g.1
  | _ :: _, [] => False
  | h :: queue, g :: G => h = merkleNode f g.1 g.2 ∧ Supplies f queue G

theorem Supplies.next {k : Nat} {G : List (Nat × Nat)} (h : Supplies f queue ((d, k) :: G)) :
    ∃ queue', fillerNext queue d = (merkleNode f d k, queue') ∧ Supplies f queue' G := by
  cases queue with
  | nil =>
    refine ⟨[], ?_, fun g hg => h g (mem_cons_of_mem _ hg)⟩
    rw [fillerNext, h (d, k) mem_cons_self]
  | cons x queue =>
    obtain ⟨rfl, hrest⟩ := h
    exact ⟨queue, rfl, hrest⟩

theorem pathFill_eq (h : Supplies f queue (gaps d 0 n)) :
    pathFill n queue d = siblings (merkleNode f) d 0 n := by
  induction n generalizing d queue with
  | zero => rfl
  | succ n ih =>
    obtain ⟨queue', hnext, hrest⟩ := Supplies.next h
    rw [pathFill, hnext]
    exact congrArg _ (ih hrest)

/-- The path from level `d` on: a parent on the left, or a filler on the right. -/
theorem Collapsed.pathParents_eq (h : Collapsed f d p parents) (hlen : parents.length ≤ n)
    (hqueue : Supplies f queue (gaps d p n)) :
    ∃ path queue', pathParents queue d parents = (path, d + parents.length, queue') ∧
      path ++ pathFill (n - parents.length) queue' (d + parents.length) =
        siblings (merkleNode f) d p n := by
  induction parents generalizing d p n queue with
  | nil =>
    have hp : p = 0 := h
    subst hp
    exact ⟨[], queue, rfl, pathFill_eq hqueue⟩
  | cons x parents ih =>
    obtain ⟨n, rfl⟩ : ∃ k, n = k + 1 := ⟨n - 1, by simp at hlen; omega⟩
    obtain ⟨-, rfl, hrest⟩ := h
    have hlen' : parents.length ≤ n := by simpa using hlen
    unfold gaps at hqueue
    rw [length_cons, show d + (parents.length + 1) = d + 1 + parents.length by omega,
      Nat.add_sub_add_right]
    unfold siblings
    split_ifs at hqueue ⊢ with hodd
    · obtain ⟨path, queue', hpath, hup⟩ := ih hrest hlen' hqueue
      refine ⟨(true, merkleNode f d (p - 1)) :: path, queue', ?_, ?_⟩
      · rw [pathParents, hpath]
      · rw [cons_append, hup]
    · obtain ⟨queue1, hnext, hqueue1⟩ := hqueue.next
      obtain ⟨path, queue', hpath, hup⟩ := ih hrest hlen' hqueue1
      refine ⟨(false, merkleNode f d (p + 1)) :: path, queue', ?_, ?_⟩
      · rw [pathParents, hnext]
        simp only [hpath]
      · rw [cons_append, hup]

/-- **The levels of the path are the siblings of the last leaf.** -/
theorem Holds.pathLevels_eq (h : Holds f (i + 1) t) (hD : 1 ≤ D) (hi : i < 2 ^ D)
    (hqueue : Supplies f queue (gaps 0 i D)) :
    t.pathLevels D queue = .ok (siblings (merkleNode f) 0 i D) := by
  obtain ⟨D, rfl⟩ : ∃ k, D = k + 1 := ⟨D - 1, by omega⟩
  obtain ⟨hleft, hright, hparents⟩ := h
  have hlen : t.parents.length ≤ D := hparents.length_le (by omega)
  unfold gaps at hqueue
  unfold pathLevels siblings
  rw [hleft, hright]
  split_ifs at hqueue ⊢ with hodd
  · obtain ⟨path, queue', hpath, hup⟩ := hparents.pathParents_eq hlen hqueue
    simp only [hpath]
    rw [show D + 1 - (1 + t.parents.length) = D - t.parents.length by omega, cons_append, hup,
      show 2 * (i / 2) = i - 1 by omega]
    rfl
  · obtain ⟨queue1, hnext, hqueue1⟩ := hqueue.next
    obtain ⟨path, queue', hpath, hup⟩ := hparents.pathParents_eq hlen hqueue1
    simp only [hnext, hpath]
    rw [show D + 1 - (1 + t.parents.length) = D - t.parents.length by omega, cons_append, hup]

/-! ## The root -/

theorem rootParentsFilled_eq (queue : List H) (x : H) (d : Nat) (parents : List (Option H)) :
    rootParentsFilled queue x d parents =
      (recompute combine x d (pathParents queue d parents).1,
        (pathParents queue d parents).2) := by
  induction parents generalizing queue x d with
  | nil => rfl
  | cons p parents ih =>
    cases p with
    | none => exact ih _ _ _
    | some p => exact ih _ _ _

theorem pathParents_depth (queue : List H) (d : Nat) (parents : List (Option H)) :
    (pathParents queue d parents).2.1 = d + (pathParents queue d parents).1.length := by
  induction parents generalizing queue d with
  | nil => rfl
  | cons p parents ih =>
    cases p with
    | none =>
      have := ih (fillerNext queue d).2 (d + 1)
      simp only [pathParents, length_cons]
      omega
    | some p =>
      have := ih queue (d + 1)
      simp only [pathParents, length_cons]
      omega

theorem rootFillFilled_eq (k : Nat) (queue : List H) (x : H) (d : Nat) :
    rootFillFilled k queue x d = recompute combine x d (pathFill k queue d) := by
  induction k generalizing queue x d with
  | zero => rfl
  | succ k ih => exact ih _ _ _

/-- **The root is what the path recomputes** from the last leaf. -/
theorem Holds.rootFilled_eq_recompute {levels : List (Bool × H)} (h : Holds f (i + 1) t)
    (hlevels : t.pathLevels D queue = .ok levels) :
    t.rootFilled D queue = recompute combine (f i) 0 levels := by
  obtain ⟨hleft, hright, -⟩ := h
  unfold pathLevels at hlevels
  unfold rootFilled leafOrFiller
  rw [hleft, hright] at hlevels ⊢
  split_ifs at hlevels ⊢ with hodd
  · cases hlevels
    simp only [rootParentsFilled_eq, rootFillFilled_eq, cons_append, recompute, recompute_append,
      pathParents_depth]
  · rcases hnext : fillerNext queue 0 with ⟨x, rest⟩
    simp only at hlevels ⊢
    cases hlevels
    rw [show 2 * (i / 2) = i by omega]
    simp only [rootParentsFilled_eq, rootFillFilled_eq, cons_append, recompute, recompute_append,
      pathParents_depth]

/-- **The root of the padded tree**, if the fillers supply what is to the right. -/
theorem Holds.rootFilled_eq (h : Holds f (i + 1) t) (hD : 1 ≤ D) (hi : i < 2 ^ D)
    (hqueue : Supplies f queue (gaps 0 i D)) :
    t.rootFilled D queue = merkleNode f D 0 := by
  rw [h.rootFilled_eq_recompute (h.pathLevels_eq hD hi hqueue)]
  have hup := recompute_siblings combine f 0 i D
  rw [zero_add, Nat.div_eq_of_lt hi] at hup
  exact hup

/-- The table has the nodes of the gaps from the leaf `s` on, if there are no leaves in them. -/
theorem supplies_nil {s e : Nat} {G : List (Nat × Nat)} (htable : EmptyRootTable H D)
    (hG : Tiles s G e) (hlt : ∀ g ∈ G, g.1 ≤ D) (hpad : ∀ j, s ≤ j → j < e → f j = emptyRoot 0) :
    Supplies f [] G := by
  intro g hg
  have hconst : merkleNode f g.1 g.2 =
      merkleNode (fun _ => (emptyRoot 0)) g.1 g.2 := by
    refine node_congr fun j hj => hpad j ?_ ?_
    · have hstart : g.2 * 2 ^ g.1 ≤ j := (Nat.le_div_iff_mul_le (Nat.two_pow_pos _)).mp hj.ge
      exact (hG.le_of_mem hg).trans hstart
    · have hend : j < (g.2 + 1) * 2 ^ g.1 :=
        (Nat.div_lt_iff_lt_mul (Nat.two_pow_pos _)).mp (by omega)
      exact hend.trans_le (hG.end_le_of_mem hg)
  rw [hconst]
  refine node_const emptyRoot g.1 g.2 fun e he => htable e ?_
  exact he.trans_le (hlt g hg)

theorem rootParentsFilled_nil (x : H) (d : Nat) (parents : List (Option H)) :
    rootParentsFilled [] x d parents =
      ((rootParents x d parents).1, (rootParents x d parents).2, []) := by
  induction parents generalizing x d with
  | nil => rfl
  | cons p parents ih =>
    cases p with
    | none => exact ih _ _
    | some p => exact ih _ _

theorem rootFillFilled_nil (k : Nat) (x : H) (d : Nat) :
    rootFillFilled k [] x d = rootFill k x d := by
  induction k generalizing x d with
  | zero => rfl
  | succ k ih => exact ih _ _

theorem rootFilled_nil (depth : Nat) (t : IncrementalMerkleTree H) :
    t.rootFilled depth [] = t.root depth := by
  have hleaf : ∀ leaf : Option H,
      leafOrFiller leaf [] = (leaf.getD (emptyRoot 0), []) := by
    rintro (_ | x) <;> rfl
  unfold rootFilled root
  simp only [hleaf, rootParentsFilled_nil, rootFillFilled_nil]

theorem rootFill_emptyRoot {k : Nat} (htable : EmptyRootTable H D) (hd : d + k ≤ D) :
    rootFill k (emptyRoot d) d = (emptyRoot (d + k) : H) := by
  induction k generalizing d with
  | zero => rfl
  | succ k ih =>
    rw [rootFill, ← htable d (by omega), ih (by omega), show d + 1 + k = d + (k + 1) by omega]

/-- **The root of the tree** over its leaves and nothing else. -/
theorem Holds.root_eq (h : Holds f n t) (htable : EmptyRootTable H D) (hD : 1 ≤ D)
    (hn : n ≤ 2 ^ D) (hpad : ∀ j, n ≤ j → j < 2 ^ D → f j = emptyRoot 0) :
    t.root D = merkleNode f D 0 := by
  cases n with
  | zero =>
    have hconst : merkleNode f D 0 = merkleNode (fun _ => (emptyRoot 0)) D 0 := by
      refine node_congr fun j hj => hpad j (Nat.zero_le j) ?_
      exact (Nat.div_eq_zero_iff_lt (Nat.two_pow_pos D)).mp hj
    rw [hconst, show t = empty from h]
    have hnode : node combine (fun _ => emptyRoot 0) D 0 =
        (emptyRoot D) := node_const emptyRoot D 0 htable
    rw [merkleNode, hnode]
    have hfill := rootFill_emptyRoot (k := D - 1) (d := 1) htable (by omega)
    rw [htable 0 (by omega), show 1 + (D - 1) = D by omega] at hfill
    exact hfill
  | succ i =>
    rw [← rootFilled_nil]
    refine h.rootFilled_eq hD (by omega) ?_
    exact supplies_nil htable (tiles_gaps_root hn)
      (fun g hg => (lt_of_mem_gaps hg).le.trans (by simp)) hpad

end IncrementalMerkleTree

open IncrementalMerkleTree

theorem exists_holds {D n : Nat} (hD : 1 ≤ D) (leaves : List H) (hn : n ≤ leaves.length)
    (hfit : n ≤ 2 ^ D) :
    ∃ t : IncrementalMerkleTree H, appendAll D empty (leaves.take n) = .ok t ∧
      Holds (padded (emptyRoot 0) leaves) n t := by
  have hzero : Holds (padded (emptyRoot 0) leaves) 0 empty := rfl
  have hlen : (leaves.take n).length = n := length_take_of_le hn
  have hleaves : ∀ j hj,
      (leaves.take n)[j] = padded (emptyRoot 0) leaves (0 + j) := by
    intro j hj
    have : j < leaves.length := by omega
    simp [padded, this]
  have h := hzero.appendAll (leaves.take n) hD hleaves (by omega)
  rwa [hlen, zero_add] at h

/-- **The tree is the padded Merkle tree.** The list fits: no `append` throws and the root is that
of the complete tree; a full tree takes no further leaf. The source asserts `Depth >= 1`. -/
theorem append_root_correct (D : Nat) (hD : 1 ≤ D) (htable : EmptyRootTable H D) (leaves : List H)
    (hfit : leaves.length ≤ 2 ^ D) :
    ∃ t : IncrementalMerkleTree H, appendAll D empty leaves = .ok t ∧
      t.root D = merkleRoot D leaves ∧
      (leaves.length = 2 ^ D → ∀ obj, t.append D obj = .error "tree is full") := by
  obtain ⟨t, hall, ht⟩ := exists_holds hD leaves le_rfl hfit
  rw [take_length] at hall
  refine ⟨t, hall, ht.root_eq htable hD hfit fun j hj _ => padded_of_le hj, ?_⟩
  intro hfull obj
  unfold append
  rw [if_pos ((ht.isComplete_iff hD).mpr hfull)]

theorem orHash_emptyRootTable (D : Nat) : @EmptyRootTable UInt256 orHash D :=
  fun _ _ => show (1 : UInt256) = 1 ||| 1 by decide

theorem append_root_correct_three : @EmptyRootTable UInt256 orHash 2 ∧
    ∃ t : IncrementalMerkleTree UInt256, @appendAll UInt256 orHash 2 empty [2, 4, 8] = .ok t ∧
      @IncrementalMerkleTree.root UInt256 orHash 2 t = @merkleRoot UInt256 orHash 2 [2, 4, 8] := by
  refine ⟨orHash_emptyRootTable 2, ?_⟩
  obtain ⟨t, hall, hroot, -⟩ :=
    @append_root_correct UInt256 orHash 2 (by decide) (orHash_emptyRootTable 2) [2, 4, 8]
      (by decide)
  exact ⟨t, hall, hroot⟩

end Passion
