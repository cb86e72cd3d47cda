import Passion.Sapling.MerkleRoot

/-!
# Witnesses of a leaf

`IncrementalWitness` of `sapling/incrementalmerkletree.h`: the tree at the moment its last leaf was
appended, and what came after that leaf. The leaves after it fall into the gaps of the tree, the
subtrees to the right of the way up. `filled` has the roots of the gaps that are full and `cursor`
is the tree of the gap that is being filled; which gap comes next is counted by `next_depth`.

**Theorem (`witness_correct`).** A witness that was fed all later leaves has the root of the tree
over all leaves, and its path recomputes that root from the leaf it watches.

The invariant (`Watches`) cuts the gaps into those that are full and the rest. As the gaps follow
each other without overlap, the leaf that comes next always belongs to the first gap of the rest.
-/

namespace Passion

open Lib.Merkle IncrementalMerkleTree MerkleHash List

structure IncrementalWitness (H : Type) where
  tree : IncrementalMerkleTree H
  filled : List H
  cursor : Option (IncrementalMerkleTree H)
  cursor_depth : Nat
  deriving DecidableEq, Repr

variable {H : Type} [MerkleHash H]

/-- `IncrementalMerkleTree::witness()`. -/
def IncrementalMerkleTree.witness (t : IncrementalMerkleTree H) : IncrementalWitness H :=
  ⟨t, [], none, 0⟩

namespace IncrementalWitness

/-- `partial_path`: the roots of the gaps as far as they are known. -/
def partialPath (w : IncrementalWitness H) : List H :=
  match w.cursor with
  | some cursor => w.filled ++ [cursor.root w.cursor_depth]
  | none => w.filled

def append (Depth : Nat) (w : IncrementalWitness H) (obj : H) :
    Except String (IncrementalWitness H) :=
  match w.cursor with
  | some cursor => do
    let cursor ← cursor.append Depth obj
    if cursor.isComplete w.cursor_depth then
      .ok { w with filled := w.filled ++ [cursor.root w.cursor_depth], cursor := none }
    else .ok { w with cursor := some cursor }
  | none =>
    let cursor_depth := w.tree.nextDepth w.filled.length
    if Depth ≤ cursor_depth then .error "tree is full"
    else if cursor_depth = 0 then
      .ok { w with filled := w.filled ++ [obj], cursor_depth := cursor_depth }
    else do
      let cursor ← empty.append Depth obj
      .ok { w with cursor := some cursor, cursor_depth := cursor_depth }

def root (Depth : Nat) (w : IncrementalWitness H) : H := w.tree.rootFilled Depth w.partialPath

def path (bytes : H → List (BitVec 8)) (Depth : Nat) (w : IncrementalWitness H) :
    Except String MerklePath :=
  w.tree.path bytes Depth w.partialPath

def appendAll (Depth : Nat) (w : IncrementalWitness H) (leaves : List H) :
    Except String (IncrementalWitness H) :=
  leaves.foldlM (fun w obj => w.append Depth obj) w

end IncrementalWitness

variable {f : Nat → H}

/-! ## Counting gaps -/

omit [MerkleHash H] in
theorem IncrementalMerkleTree.add_le_nextDepthParents (skip d : Nat) (parents : List (Option H)) :
    d + skip ≤ nextDepthParents skip d parents := by
  fun_induction nextDepthParents skip d parents <;> omega

theorem map_fst_gaps_zero (d n skip : Nat) :
    ((gaps d 0 n)[skip]?).map Prod.fst = if d + skip < d + n then some (d + skip) else none := by
  induction n generalizing d skip with
  | zero => simp [gaps]
  | succ n ih =>
    cases skip with
    | zero => simp [gaps]
    | succ skip =>
      have hnext := ih (d + 1) skip
      rw [show d + 1 + skip = d + (skip + 1) by omega,
        show d + 1 + n = d + (n + 1) by omega] at hnext
      simpa [gaps] using hnext

/-- The loop of `next_depth` finds the level of the gap after `skip` others, or leaves the tree. -/
theorem IncrementalMerkleTree.Collapsed.map_fst_gaps {d p : Nat} {parents : List (Option H)}
    (h : Collapsed f d p parents) (n skip : Nat) :
    ((gaps d p n)[skip]?).map Prod.fst =
      if nextDepthParents skip d parents < d + n then some (nextDepthParents skip d parents)
      else none := by
  induction parents generalizing d p n skip with
  | nil =>
    have hp : p = 0 := h
    subst hp
    exact map_fst_gaps_zero d n skip
  | cons x parents ih =>
    cases n with
    | zero =>
      rw [add_zero, if_neg (not_lt.mpr
        ((Nat.le_add_right d skip).trans (add_le_nextDepthParents skip d _)))]
      rfl
    | succ n =>
      obtain ⟨-, rfl, hrest⟩ := h
      have hnext := ih hrest n
      rw [show d + 1 + n = d + (n + 1) by omega] at hnext
      unfold gaps
      by_cases hodd : p % 2 = 1
      · rw [if_pos hodd, if_pos hodd]
        exact hnext skip
      · rw [if_neg hodd, if_neg hodd]
        cases skip with
        | zero => simp [nextDepthParents]
        | succ skip => exact hnext skip

/-- **`next_depth` counts gaps.** -/
theorem IncrementalMerkleTree.Holds.map_fst_gaps {i D : Nat} {t : IncrementalMerkleTree H}
    (h : Holds f (i + 1) t) (hD : 1 ≤ D) (skip : Nat) :
    ((gaps 0 i D)[skip]?).map Prod.fst =
      if t.nextDepth skip < D then some (t.nextDepth skip) else none := by
  obtain ⟨D, rfl⟩ : ∃ k, D = k + 1 := ⟨D - 1, by omega⟩
  obtain ⟨hleft, hright, hparents⟩ := h
  have hup := hparents.map_fst_gaps D
  rw [show 1 + D = D + 1 by omega] at hup
  unfold gaps nextDepth
  rw [hleft, hright]
  by_cases hodd : i % 2 = 1
  · rw [if_pos hodd, if_pos hodd]
    exact hup skip
  · rw [if_neg hodd, if_neg hodd]
    cases skip with
    | zero => simp
    | succ skip => exact hup skip

/-! ## The invariant -/

namespace IncrementalWitness

/-- The gap `g` is being filled: the cursor has its first leaves, one at least, and some are still
to come. -/
structure Filling (f : Nat → H) (n : Nat) (g : Nat × Nat) (depth : Nat)
    (cursor : IncrementalMerkleTree H) : Prop where
  depth_eq : depth = g.1
  depth_pos : 1 ≤ g.1
  start_lt : g.2 * 2 ^ g.1 < n
  lt_end : n < (g.2 + 1) * 2 ^ g.1
  holds : Holds (fun j => f (g.2 * 2 ^ g.1 + j)) (n - g.2 * 2 ^ g.1) cursor

/-- What the witness knows of the gaps that are not full, after the first `n` leaves. -/
def Pending (f : Nat → H) (D n : Nat) (w : IncrementalWitness H) : List (Nat × Nat) → Prop :=
  match w.cursor with
  | none => fun rest => Tiles n rest (2 ^ D)
  | some cursor => fun rest => ∃ g rest', rest = g :: rest' ∧
      Filling f n g w.cursor_depth cursor ∧ Tiles ((g.2 + 1) * 2 ^ g.1) rest' (2 ^ D)

/-- The witness watches the leaf `i` and has seen the first `n` leaves. -/
structure Watches (f : Nat → H) (D i n : Nat) (w : IncrementalWitness H) : Prop where
  tree : Holds f (i + 1) w.tree
  gaps : ∃ full rest, gaps 0 i D = full ++ rest ∧
    w.filled = full.map (fun g => merkleNode f g.1 g.2) ∧ Pending f D n w rest

variable {D i n : Nat} {w : IncrementalWitness H}

theorem cursor_root {g : Nat × Nat} {cursor : IncrementalMerkleTree H}
    (htable : EmptyRootTable H D) (hg : 1 ≤ g.1) (hD : g.1 ≤ D)
    (h : Holds (fun j => f (g.2 * 2 ^ g.1 + j)) (n - g.2 * 2 ^ g.1) cursor)
    (hstart : g.2 * 2 ^ g.1 ≤ n) (hn : n ≤ (g.2 + 1) * 2 ^ g.1)
    (hpad : ∀ j, n ≤ j → j < (g.2 + 1) * 2 ^ g.1 → f j = emptyRoot 0) :
    cursor.root g.1 = merkleNode f g.1 g.2 := by
  rw [Nat.succ_mul] at hn hpad
  rw [h.root_eq (htable.mono hD) hg (by omega) (fun j hj hlt => hpad _ (by omega) (by omega))]
  exact node_shift f g.1 g.2 0

theorem nextDepth_of_gaps {t : IncrementalMerkleTree H} {g : Nat × Nat}
    {full rest : List (Nat × Nat)} (h : Holds f (i + 1) t) (hD : 1 ≤ D)
    (hgaps : gaps 0 i D = full ++ g :: rest) :
    t.nextDepth full.length = g.1 ∧ g.1 < D := by
  have hnext := h.map_fst_gaps hD full.length
  rw [hgaps] at hnext
  split_ifs at hnext with hlt
  · obtain heq : g.1 = t.nextDepth full.length := by simpa using hnext
    exact ⟨heq.symm, heq ▸ hlt⟩
  · simp at hnext

theorem Watches.append_none (h : Watches f D i n w) (hD : 1 ≤ D) (hn : n < 2 ^ D)
    (hcursor : w.cursor = none) :
    ∃ w', w.append D (f n) = .ok w' ∧ Watches f D i (n + 1) w' := by
  obtain ⟨htree, full, rest, hgaps, hfilled, hpending⟩ := h
  unfold Pending at hpending
  rw [hcursor] at hpending
  cases rest with
  | nil => exact absurd hpending hn.ne
  | cons g rest =>
    obtain ⟨hstart, hrest⟩ := hpending
    obtain ⟨hdepth, hlt⟩ := nextDepth_of_gaps htree hD hgaps
    have hlen : w.filled.length = full.length := by rw [hfilled, length_map]
    unfold append
    simp only [hcursor, hlen, hdepth, if_neg (not_le.mpr hlt)]
    by_cases hzero : g.1 = 0
    · -- the gap is a single leaf
      rw [if_pos hzero]
      rw [hzero, pow_zero, mul_one] at hstart
      refine ⟨_, rfl, htree, full ++ [g], rest, ?_, ?_, ?_⟩
      · rw [hgaps, append_assoc]
        rfl
      · rw [hfilled, hstart]
        simp [hzero, node]
      · show Tiles (n + 1) rest (2 ^ D)
        rw [hzero, pow_zero, mul_one, ← hstart] at hrest
        exact hrest
    · -- the gap gets a cursor, with this leaf as its first
      rw [if_neg hzero]
      have hempty : Holds (fun j => f (g.2 * 2 ^ g.1 + j)) 0 empty := rfl
      obtain ⟨cursor, happ, hholds⟩ := hempty.append hD (Nat.two_pow_pos D)
      rw [add_zero, ← hstart] at happ
      rw [happ]
      refine ⟨_, rfl, htree, full, g :: rest, hgaps, hfilled, g, rest, rfl, ?_, hrest⟩
      have htwo : 2 ≤ 2 ^ g.1 := Nat.le_self_pow hzero 2
      constructor
      · rfl
      · omega
      · omega
      · rw [Nat.succ_mul]
        omega
      · rw [← hstart, Nat.add_sub_cancel_left, hstart]
        exact hholds

theorem Watches.append_some {cursor : IncrementalMerkleTree H} (h : Watches f D i n w)
    (htable : EmptyRootTable H D) (hD : 1 ≤ D) (hn : n < 2 ^ D) (hcursor : w.cursor = some cursor) :
    ∃ w', w.append D (f n) = .ok w' ∧ Watches f D i (n + 1) w' := by
  obtain ⟨htree, full, rest, hgaps, hfilled, hpending⟩ := h
  unfold Pending at hpending
  rw [hcursor] at hpending
  obtain ⟨g, rest, rfl, ⟨hdepth, hpos, hstart, hend, hholds⟩, hrest⟩ := hpending
  obtain ⟨-, hlt⟩ := nextDepth_of_gaps htree hD hgaps
  obtain ⟨cursor', happ, hholds'⟩ := hholds.append hD (by omega)
  rw [Nat.add_sub_cancel' hstart.le] at happ
  rw [← Nat.sub_add_comm hstart.le] at hholds'
  have hcomplete := hholds'.isComplete_iff hpos
  have hsplit : (g.2 + 1) * 2 ^ g.1 = g.2 * 2 ^ g.1 + 2 ^ g.1 := Nat.succ_mul _ _
  unfold append
  simp only [hcursor, happ]
  by_cases hfull : cursor'.isComplete w.cursor_depth = true
  · -- the gap is full, the next one starts with the leaf after this one
    have hlast : n + 1 = (g.2 + 1) * 2 ^ g.1 := by
      have := hcomplete.mp (hdepth ▸ hfull)
      omega
    have hroot : cursor'.root g.1 = merkleNode f g.1 g.2 :=
      cursor_root htable hpos hlt.le hholds' (by omega) hlast.le (fun j hj hlt => by omega)
    refine ⟨_, if_pos hfull, htree, full ++ [g], rest, ?_, ?_, ?_⟩
    · rw [hgaps, append_assoc]
      rfl
    · rw [hfilled, map_append, hdepth, hroot]
      rfl
    · show Tiles (n + 1) rest (2 ^ D)
      rw [hlast]
      exact hrest
  · have hlast : n + 1 ≠ (g.2 + 1) * 2 ^ g.1 := by
      intro heq
      apply hfull
      rw [hdepth]
      exact hcomplete.mpr (by omega)
    refine ⟨_, if_neg hfull, htree, full, g :: rest, hgaps, hfilled, g, rest, rfl, ?_, hrest⟩
    exact ⟨hdepth, hpos, by omega, by omega, hholds'⟩

/-- **One leaf more.** -/
theorem Watches.append (h : Watches f D i n w) (htable : EmptyRootTable H D) (hD : 1 ≤ D)
    (hn : n < 2 ^ D) :
    ∃ w', w.append D (f n) = .ok w' ∧ Watches f D i (n + 1) w' := by
  cases hcursor : w.cursor with
  | none => exact h.append_none hD hn hcursor
  | some cursor => exact h.append_some htable hD hn hcursor

theorem Watches.append_full (h : Watches f D i (2 ^ D) w) (hD : 1 ≤ D) (obj : H) :
    w.append D obj = .error "tree is full" := by
  obtain ⟨htree, full, rest, hgaps, hfilled, hpending⟩ := h
  unfold Pending at hpending
  cases hcursor : w.cursor with
  | some cursor =>
    rw [hcursor] at hpending
    obtain ⟨g, rest, rfl, hfilling, hrest⟩ := hpending
    have := hfilling.lt_end
    have := hrest.le
    omega
  | none =>
    rw [hcursor] at hpending
    cases rest with
    | cons g rest =>
      have hle := hpending.2.le
      have hstart := hpending.1
      have hpos := Nat.two_pow_pos g.1
      rw [Nat.succ_mul] at hle
      omega
    | nil =>
      have hnext := htree.map_fst_gaps hD full.length
      have hlen : w.filled.length = full.length := by rw [hfilled, length_map]
      rw [hgaps, append_nil, getElem?_eq_none le_rfl] at hnext
      have hle : D ≤ w.tree.nextDepth full.length := by
        by_contra hlt
        rw [if_pos (not_le.mp hlt)] at hnext
        cases hnext
      unfold IncrementalWitness.append
      simp only [hcursor, hlen, if_pos hle]

/-! ## Root and path -/

theorem supplies_append {queue : List H} (full : List (Nat × Nat)) {rest : List (Nat × Nat)}
    (h : Supplies f queue rest) :
    Supplies f (full.map (fun g => merkleNode f g.1 g.2) ++ queue) (full ++ rest) := by
  induction full with
  | nil => exact h
  | cons g full ih => exact ⟨rfl, ih⟩

/-- **The partial path supplies the gaps**, if no leaf is to come. -/
theorem Watches.supplies (h : Watches f D i n w) (htable : EmptyRootTable H D)
    (hpad : ∀ j, n ≤ j → j < 2 ^ D → f j = emptyRoot 0) :
    Supplies f w.partialPath (Lib.Merkle.gaps 0 i D) := by
  obtain ⟨-, full, rest, hgaps, hfilled, hpending⟩ := h
  have hle : ∀ g ∈ full ++ rest, g.1 ≤ D := by
    intro g hg
    have := lt_of_mem_gaps (hgaps ▸ hg)
    omega
  unfold Pending at hpending
  unfold partialPath
  rw [hgaps, hfilled]
  cases hcursor : w.cursor with
  | none =>
    rw [hcursor] at hpending
    have hrest : Supplies f [] rest :=
      supplies_nil htable hpending (fun g hg => hle g (mem_append_right _ hg)) hpad
    simpa using supplies_append full hrest
  | some cursor =>
    rw [hcursor] at hpending
    obtain ⟨g, rest, rfl, ⟨hdepth, hpos, hstart, hend, hholds⟩, hrest⟩ := hpending
    have hroot : cursor.root g.1 = merkleNode f g.1 g.2 :=
      cursor_root htable hpos (hle g (by simp)) hholds hstart.le hend.le
        (fun j hj hlt => hpad j hj (hlt.trans_le hrest.le))
    refine supplies_append full ⟨?_, ?_⟩
    · rw [hdepth, hroot]
    · refine supplies_nil htable hrest (fun g' hg => hle g' ?_)
        fun j hj => hpad j (hend.le.trans hj)
      exact mem_append_right _ (mem_cons_of_mem _ hg)

/-- **Leaves in a row**, from the `n`-th on. -/
theorem Watches.appendAll (leaves : List H) (h : Watches f D i n w) (htable : EmptyRootTable H D)
    (hD : 1 ≤ D) (hleaves : ∀ j (hj : j < leaves.length), leaves[j] = f (n + j))
    (hn : n + leaves.length ≤ 2 ^ D) :
    ∃ w', w.appendAll D leaves = .ok w' ∧ Watches f D i (n + leaves.length) w' :=
  foldlM_leaves (fun _ _ h hn => h.append htable hD hn) leaves h hleaves hn

end IncrementalWitness

open IncrementalWitness

theorem watches_all {D i : Nat} (hD : 1 ≤ D) (htable : EmptyRootTable H D) (leaves : List H)
    (hi : i < leaves.length) (hfit : leaves.length ≤ 2 ^ D) :
    ∃ t w, appendAll D empty (leaves.take (i + 1)) = .ok t ∧
      t.witness.appendAll D (leaves.drop (i + 1)) = .ok w ∧
      Watches (padded (emptyRoot 0) leaves) D i leaves.length w := by
  have hdrop : i + 1 + (leaves.drop (i + 1)).length = leaves.length := by
    rw [length_drop]
    omega
  obtain ⟨t, hall, ht⟩ := exists_holds hD leaves hi (by omega)
  -- a witness starts with all gaps open
  have hwatches : Watches (padded (emptyRoot 0) leaves) D i (i + 1) t.witness :=
    ⟨ht, [], _, rfl, rfl, tiles_gaps_root (by omega)⟩
  obtain ⟨w, hfed, hw⟩ := hwatches.appendAll (leaves.drop (i + 1)) htable hD (fun j hj => by
      have : i + 1 + j < leaves.length := by omega
      simp [padded, this])
    (by omega)
  rw [hdrop] at hw
  exact ⟨t, w, hall, hfed, hw⟩

/-- The path has the bits of `i` and siblings that recompute `root` from `leaf`; both are listed
from the root down. -/
def IncrementalWitness.Authenticates (bytes : H → List (BitVec 8)) (D i : Nat) (leaf root : H)
    (w : IncrementalWitness H) : Prop :=
  ∃ (path : MerklePath) (siblings : List H), w.path bytes D = .ok path ∧
    path.index.reverse = (range D).map i.testBit ∧
    path.authentication_path.reverse =
      siblings.map (fun h => convertBytesVectorToVector (bytes h)) ∧
    recompute combine leaf 0 (path.index.reverse.zip siblings) = root

theorem IncrementalWitness.Watches.root_path {D i : Nat} {leaves : List H}
    {w : IncrementalWitness H} (bytes : H → List (BitVec 8)) (hD : 1 ≤ D)
    (htable : EmptyRootTable H D) (hi : i < leaves.length) (hfit : leaves.length ≤ 2 ^ D)
    (hw : Watches (padded (emptyRoot 0) leaves) D i leaves.length w) :
    w.root D = merkleRoot D leaves ∧
      w.Authenticates bytes D i leaves[i] (merkleRoot D leaves) := by
  have hlt : i < 2 ^ D := by omega
  have hpad : ∀ j, leaves.length ≤ j → j < 2 ^ D →
      padded (emptyRoot 0) leaves j = emptyRoot 0 := fun j hj _ => padded_of_le hj
  have hleaf : padded (emptyRoot 0) leaves i = leaves[i] := by simp [padded, hi]
  have hroot : w.root D = merkleRoot D leaves :=
    hw.tree.rootFilled_eq hD hlt (hw.supplies htable hpad)
  have hlevels := hw.tree.pathLevels_eq hD hlt (hw.supplies htable hpad)
  refine ⟨hroot, ?_⟩
  generalize hsib : siblings (merkleNode (padded (emptyRoot 0) leaves)) 0 i D = levels
    at hlevels
  have hbits : levels.map Prod.fst = (range D).map i.testBit := by
    rw [← hsib]
    exact map_fst_siblings _ 0 i D
  have hpath : w.path bytes D =
      .ok ⟨(levels.map fun level => convertBytesVectorToVector (bytes level.2)).reverse,
        (levels.map Prod.fst).reverse⟩ := by
    unfold path IncrementalMerkleTree.path
    rw [hlevels]
    rfl
  refine ⟨_, levels.map Prod.snd, hpath, ?_, ?_, ?_⟩
  · rw [reverse_reverse, hbits]
  · rw [reverse_reverse, map_map]
    rfl
  · rw [reverse_reverse, ← hroot, ← hleaf, ← unzip_fst, ← unzip_snd, zip_unzip]
    exact (hw.tree.rootFilled_eq_recompute hlevels).symm

/-- **The witness follows the tree.** No leaf that fits into the tree throws. After all leaves the
root is that of the whole list, and the path authenticates leaf `i`. -/
theorem witness_correct (bytes : H → List (BitVec 8)) (D : Nat) (hD : 1 ≤ D)
    (htable : EmptyRootTable H D) (leaves : List H) (i : Nat) (hi : i < leaves.length)
    (hfit : leaves.length ≤ 2 ^ D) :
    ∃ t w, appendAll D empty (leaves.take (i + 1)) = .ok t ∧
      t.witness.appendAll D (leaves.drop (i + 1)) = .ok w ∧
      w.root D = merkleRoot D leaves ∧
      w.Authenticates bytes D i leaves[i] (merkleRoot D leaves) ∧
      ∀ obj, (∃ e, w.append D obj = .error e) ↔ leaves.length = 2 ^ D := by
  obtain ⟨t, w, hall, hfed, hw⟩ := watches_all hD htable leaves hi hfit
  obtain ⟨hroot, hpath⟩ := hw.root_path bytes hD htable hi hfit
  refine ⟨t, w, hall, hfed, hroot, hpath, fun obj => ?_⟩
  constructor
  · rintro ⟨e, herr⟩
    by_contra hne
    -- with this leaf the list still fits, so the witness would have taken it
    have hlonger : (leaves ++ [obj]).length ≤ 2 ^ D := by
      rw [length_append, length_singleton]
      omega
    obtain ⟨t', w', hall', hfed', -⟩ := watches_all hD htable (i := i) (leaves ++ [obj])
      (by rw [length_append]; omega) hlonger
    rw [take_append_of_le_length hi, hall] at hall'
    cases hall'
    rw [drop_append_of_le_length hi, IncrementalWitness.appendAll] at hfed'
    rw [IncrementalWitness.appendAll] at hfed
    simp [hfed, herr, bind, Except.bind] at hfed'
  · intro hfull
    rw [hfull] at hw
    exact ⟨_, hw.append_full hD obj⟩

theorem witness_correct_second : @EmptyRootTable UInt256 orHash 2 ∧
    ∃ t w, @appendAll UInt256 orHash 2 empty [2, 4] = .ok t ∧
      @IncrementalWitness.appendAll UInt256 orHash 2 t.witness [8] = .ok w ∧
      @IncrementalWitness.root UInt256 orHash 2 w = @merkleRoot UInt256 orHash 2 [2, 4, 8] := by
  refine ⟨orHash_emptyRootTable 2, ?_⟩
  obtain ⟨t, w, hall, hfed, hroot, -⟩ :=
    @witness_correct UInt256 orHash (fun _ => []) 2 (by decide) (orHash_emptyRootTable 2)
      [2, 4, 8] 1
      (by decide) (by decide)
  exact ⟨t, w, hall, hfed, hroot⟩

end Passion
