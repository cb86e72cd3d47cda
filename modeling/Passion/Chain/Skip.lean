import Passion.Chain.BlockIndex

/-!
# The skip list finds ancestors

`GetAncestor` follows `pskip` where it can and `pprev` elsewhere. In a tree whose skip pointers
are the ancestors at `GetSkipHeight` (`Tree`), it returns the ancestor at the height asked for
(`getAncestor_eq`), so the choice between the two pointers is one of speed only. `BuildSkip` calls
`GetAncestor` itself, on blocks that are built already: an index where every block was built after
its parent is such a tree (`SkipsBuilt.tree`).
-/

namespace Passion.Chain

open Lib Lib.Map

/-! ## Skip heights -/

theorem invertLowestOne_le (n : Nat) : invertLowestOne n ≤ n - 1 := Nat.and_le_right

theorem getSkipHeight_lt {height : Nat} (h : 0 < height) : getSkipHeight height < height := by
  have hodd := invertLowestOne_le (invertLowestOne (height - 1))
  have hodd' := invertLowestOne_le (height - 1)
  have heven := invertLowestOne_le height
  simp only [getSkipHeight]
  split_ifs <;> omega

/-! ## Trees -/

def heightOf (m : BlockMap) (hash : UInt256) : Nat := ((m.lookup hash).map (·.nHeight)).getD 0

/-- Entries are under their hashes, parents are known and one lower, and skip pointers are right. -/
structure Tree (m : BlockMap) : Prop where
  hash_eq : ∀ h e, m.lookup h = some e → e.hash = h
  parent : ∀ h e p, m.lookup h = some e → e.pprev = some p →
    ∃ pe, m.lookup p = some pe ∧ e.nHeight = pe.nHeight + 1
  root : ∀ h e, m.lookup h = some e → e.pprev = none → e.nHeight = 0 ∧ e.pskip = none
  skip : ∀ h e p, m.lookup h = some e → e.pprev = some p →
    e.pskip = ancestor (pprevOf m) (e.nHeight - getSkipHeight e.nHeight) h

section

variable {m : BlockMap}

variable {h : UInt256} {e : CBlockIndex}

theorem heightOf_eq (he : m.lookup h = some e) : heightOf m h = e.nHeight := by
  simp [heightOf, he]

theorem pprevOf_eq (he : m.lookup h = some e) : pprevOf m h = e.pprev := by
  simp [pprevOf, he]

theorem exists_entry_of_pprevOf {p : UInt256} (hp : pprevOf m h = some p) :
    ∃ e, m.lookup h = some e ∧ e.pprev = some p :=
  Option.bind_eq_some_iff.mp hp

theorem Tree.graded (ht : Tree m) : Graded (pprevOf m) (heightOf m) := by
  intro k p hp
  obtain ⟨e, he, hep⟩ := exists_entry_of_pprevOf hp
  obtain ⟨pe, hpe, hheight⟩ := ht.parent k e p he hep
  rw [heightOf_eq he, heightOf_eq hpe, hheight]

theorem Tree.exists_ancestor (ht : Tree m) (he : m.lookup h = some e) {n : Nat}
    (hn : n ≤ e.nHeight) :
    ∃ a ae, ancestor (pprevOf m) n h = some a ∧ m.lookup a = some ae ∧
      ae.nHeight + n = e.nHeight := by
  induction n generalizing h e with
  | zero => exact ⟨h, e, rfl, he, rfl⟩
  | succ n ih =>
    cases hp : e.pprev with
    | none =>
      have := (ht.root h e he hp).1
      omega
    | some p =>
      obtain ⟨pe, hpe, hheight⟩ := ht.parent h e p he hp
      obtain ⟨a, ae, ha, hae, hsum⟩ := ih hpe (by omega)
      exact ⟨a, ae, by rw [ancestor_succ ((pprevOf_eq he).trans hp), ha], hae, by omega⟩

/-- The walk of `GetAncestor`, by induction on the turns left: after either pointer the rest of
the way is the ancestor that many blocks further. -/
theorem Tree.ancestorWalk_eq (ht : Tree m) (height : Nat) :
    ∀ (fuel : Nat) {walk : UInt256} {e : CBlockIndex}, m.lookup walk = some e →
      e.nHeight ≤ fuel →
      ancestorWalk m height fuel e.nHeight walk =
        ancestor (pprevOf m) (e.nHeight - height) walk := by
  intro fuel
  induction fuel with
  | zero =>
    intro walk e he hfuel
    have hzero : e.nHeight - height = 0 := by omega
    rw [hzero]
    rfl
  | succ fuel ih =>
    intro walk e he hfuel
    by_cases hlt : height < e.nHeight
    · obtain ⟨p, hp⟩ : ∃ p, e.pprev = some p := by
        cases hp : e.pprev with
        | none =>
          have := (ht.root walk e he hp).1
          omega
        | some p => exact ⟨p, rfl⟩
      have hskip := getSkipHeight_lt (Nat.zero_lt_of_lt hlt)
      rw [ancestorWalk, if_pos hlt, he, Option.bind_some]
      by_cases hfollow : followsSkip e.nHeight height = true
      · -- The skip pointer never jumps below the height asked for.
        have hge : height ≤ getSkipHeight e.nHeight := by
          simp only [followsSkip, Bool.or_eq_true, beq_iff_eq, Bool.and_eq_true,
            decide_eq_true_eq] at hfollow
          omega
        have hsum : e.nHeight - height =
            (e.nHeight - getSkipHeight e.nHeight) + (getSkipHeight e.nHeight - height) := by
          omega
        rw [if_pos hfollow, ht.skip walk e p he hp, hsum, ancestor_add]
        obtain ⟨a, ae, ha, hae, hheight⟩ :=
          ht.exists_ancestor he (Nat.sub_le e.nHeight (getSkipHeight e.nHeight))
        have hae' : ae.nHeight = getSkipHeight e.nHeight := by omega
        rw [ha, ← hae']
        exact ih hae (by omega)
      · obtain ⟨pe, hpe, hheight⟩ := ht.parent walk e p he hp
        have hprev : e.nHeight - 1 = pe.nHeight := by omega
        have hsucc : e.nHeight - height = (pe.nHeight - height) + 1 := by omega
        rw [if_neg hfollow, hp, hprev, hsucc, ancestor_succ ((pprevOf_eq he).trans hp)]
        exact ih hpe (by omega)
    · have hzero : e.nHeight - height = 0 := by omega
      rw [ancestorWalk, if_neg hlt, hzero]
      rfl

theorem Tree.getAncestor_eq (ht : Tree m) (he : m.lookup h = some e) {height : Nat}
    (hle : height ≤ e.nHeight) :
    e.getAncestor m height = ancestor (pprevOf m) (e.nHeight - height) h := by
  rw [CBlockIndex.getAncestor, if_neg (by omega), ht.hash_eq h e he]
  exact ht.ancestorWalk_eq height e.nHeight he le_rfl

end

/-! ## Pointers built in the order of the heights -/

/-- A block whose parent, if it has one, is there and one lower, after `BuildSkip`. -/
structure Joins (m : BlockMap) (e : CBlockIndex) : Prop where
  parent : ∀ p, e.pprev = some p → ∃ pe, m.lookup p = some pe ∧ e.nHeight = pe.nHeight + 1
  root : e.pprev = none → e.nHeight = 0
  skip : e.pskip = e.buildSkip m

section

variable {m : BlockMap} {q h : UInt256} {e x : CBlockIndex}

theorem lookup_insert_cases (hx : (m.insert q e).lookup h = some x) :
    (h = q ∧ x = e) ∨ (h ≠ q ∧ m.lookup h = some x) := by
  rw [lookup_insert'] at hx
  by_cases hhq : h = q
  · rw [if_pos hhq] at hx
    exact .inl ⟨hhq, (Option.some.inj hx).symm⟩
  · rw [if_neg hhq] at hx
    exact .inr ⟨hhq, hx⟩

theorem lookup_insert_old (hq : m.lookup q = none) (hx : m.lookup h = some x) :
    (m.insert q e).lookup h = some x := by
  have hne : h ≠ q := by
    rintro rfl
    rw [hq] at hx
    cases hx
  rw [lookup_insert', if_neg hne, hx]

theorem Tree.ancestor_insert (ht : Tree m) (hq : m.lookup q = none) (hx : m.lookup h = some x)
    (n : Nat) :
    ancestor (pprevOf (m.insert q e)) n h = ancestor (pprevOf m) n h := by
  refine ancestor_of_extends (S := fun k => ∃ y, m.lookup k = some y) ?_ ?_ ⟨x, hx⟩ n
  · rintro k ⟨y, hy⟩
    have hne : k ≠ q := by
      rintro rfl
      rw [hq] at hy
      cases hy
    simp [pprevOf, hne]
  · rintro k p ⟨y, hy⟩ hp
    rw [pprevOf_eq hy] at hp
    obtain ⟨pe, hpe, -⟩ := ht.parent k y p hy hp
    exact ⟨pe, hpe⟩

theorem Tree.insert (ht : Tree m) (hj : Joins m e) (hq : m.lookup e.hash = none) :
    Tree (m.insert e.hash e) := by
  constructor
  · intro h x hx
    rcases lookup_insert_cases hx with ⟨rfl, rfl⟩ | ⟨-, hx⟩
    · rfl
    · exact ht.hash_eq h x hx
  · intro h x p hx hp
    rcases lookup_insert_cases hx with ⟨rfl, rfl⟩ | ⟨-, hx⟩
    · obtain ⟨pe, hpe, hheight⟩ := hj.parent p hp
      exact ⟨pe, lookup_insert_old hq hpe, hheight⟩
    · obtain ⟨pe, hpe, hheight⟩ := ht.parent h x p hx hp
      exact ⟨pe, lookup_insert_old hq hpe, hheight⟩
  · intro h x hx hp
    rcases lookup_insert_cases hx with ⟨rfl, rfl⟩ | ⟨-, hx⟩
    · refine ⟨hj.root hp, ?_⟩
      rw [hj.skip, CBlockIndex.buildSkip, CBlockIndex.prev, hp]
      rfl
    · exact ht.root h x hx hp
  · intro h x p hx hp
    rcases lookup_insert_cases hx with ⟨rfl, rfl⟩ | ⟨-, hx⟩
    · -- The skip pointer of the new entry is an ancestor of its parent.
      obtain ⟨pe, hpe, hheight⟩ := hj.parent p hp
      have hlt := getSkipHeight_lt (show 0 < x.nHeight by omega)
      have hsucc : x.nHeight - getSkipHeight x.nHeight =
          (pe.nHeight - getSkipHeight x.nHeight) + 1 := by omega
      have hparent : pprevOf (m.insert x.hash x) x.hash = some p := by
        rw [pprevOf_eq (lookup_insert' m x.hash x.hash x |>.trans (if_pos rfl)), hp]
      rw [hj.skip, CBlockIndex.buildSkip, CBlockIndex.prev, hp, Option.bind_some, hpe,
        Option.bind_some, ht.getAncestor_eq hpe (by omega), hsucc, ancestor_succ hparent,
        ht.ancestor_insert hq hpe]
    · rw [ht.ancestor_insert hq hx, ht.skip h x p hx hp]

end

/-- The indexes that blocks built one after the other, every parent before its children. -/
inductive SkipsBuilt : BlockMap → Prop where
  | empty : SkipsBuilt ∅
  | add {m : BlockMap} {e : CBlockIndex} (hm : SkipsBuilt m) (hnew : m.lookup e.hash = none)
      (hj : Joins m e) : SkipsBuilt (m.insert e.hash e)

theorem SkipsBuilt.tree {m : BlockMap} (hm : SkipsBuilt m) : Tree m := by
  induction hm with
  | empty => constructor <;> simp
  | add _ hnew hj ih => exact ih.insert hj hnew

/-- `GetAncestor` of the `int` it is called with. -/
def CBlockIndex.getAncestorAt (e : CBlockIndex) (m : BlockMap) (height : Int) : Option UInt256 :=
  if height < 0 then none else e.getAncestor m height.toNat

/-- **`GetAncestor` follows `pprev`.** It answers with a block at every height from zero to that of
the block it starts at, the one that `pprev` leads to; more turns of its loop change nothing. -/
theorem getAncestorAt_correct {m : BlockMap} (hm : SkipsBuilt m) {h : UInt256} {e : CBlockIndex}
    (he : m.lookup h = some e) (height : Int) :
    (e.getAncestorAt m height = none ↔ height < 0 ∨ e.nHeight < height) ∧
    (0 ≤ height → height ≤ e.nHeight → ∃ a ae, e.getAncestorAt m height = some a ∧
      ancestor (pprevOf m) (e.nHeight - height.toNat) h = some a ∧
      m.lookup a = some ae ∧ (ae.nHeight : Int) = height ∧
      ∀ fuel ≥ e.nHeight, ancestorWalk m height.toNat fuel e.nHeight h = some a) := by
  have ht := hm.tree
  obtain ⟨a, ae, ha, hae, hheight⟩ := ht.exists_ancestor he (Nat.sub_le e.nHeight height.toNat)
  have hget : 0 ≤ height → height ≤ e.nHeight → e.getAncestorAt m height = some a := by
    intro hpos hle
    rw [CBlockIndex.getAncestorAt, if_neg (by omega), ht.getAncestor_eq he (by omega), ha]
  refine ⟨⟨fun hnone => ?_, fun hout => ?_⟩, fun hpos hle =>
    ⟨a, ae, hget hpos hle, ha, hae, by omega, fun fuel hfuel => ?_⟩⟩
  · by_contra hin
    rw [hget (by omega) (by omega)] at hnone
    cases hnone
  · rw [CBlockIndex.getAncestorAt]
    split_ifs with hneg
    · rfl
    · rw [CBlockIndex.getAncestor, if_pos (by omega)]
  · rw [ht.ancestorWalk_eq height.toNat fuel he hfuel, ha]

/-- Two blocks over the first one, and what `GetAncestor` of the last answers at height zero. -/
theorem getAncestorAt_first_block :
    ∃ (m : BlockMap) (e : CBlockIndex), SkipsBuilt m ∧ m.lookup 3 = some e ∧ e.pprev = some 2 ∧
      e.getAncestorAt m 0 = some 1 := by
  have h1 := SkipsBuilt.empty.add (e := { hash := 1 }) rfl ⟨nofun, fun _ => rfl, rfl⟩
  have h2 := h1.add (e := { hash := 2, pprev := some 1, nHeight := 1, pskip := some 1 }) rfl
    ⟨fun _ hp => ⟨{ hash := 1 }, by cases hp; rfl, rfl⟩, nofun, rfl⟩
  have h3 := h2.add (e := { hash := 3, pprev := some 2, nHeight := 2, pskip := some 1 }) rfl
    ⟨fun _ hp => ⟨{ hash := 2, pprev := some 1, nHeight := 1, pskip := some 1 },
      by cases hp; rfl, rfl⟩, nofun, rfl⟩
  obtain ⟨a, -, hget, hparent, -⟩ :=
    (getAncestorAt_correct h3 (h := 3) rfl 0).2 (by decide) (by decide)
  exact ⟨_, _, h3, rfl, rfl, hget.trans (hparent.symm.trans rfl)⟩

end Passion.Chain
