import Passion.Lib.KeyedMerge

/-!
# A map with an index by a second key

Objects are stored under their identity, and an index leads from a second key of an object, its
*reference*, to the identity. Both are plain maps, and nothing keeps a second object with a
reference that is taken out of the store: its entry in the index is then not made.

The index is **exact** (`Indexed.Exact`) when it has the reference of every object and nothing else;
no two objects share a reference then (`Exact.eq_of_ref`). Every operation keeps the index exact,
as long as the objects that are added come with a fresh reference.
-/

namespace Passion.Lib

open Option

variable {φ κ β : Type} [DecidableEq φ] [DecidableEq κ]

/-- Objects under their identity, and an index. -/
structure Indexed (φ : Type) {κ β : Type} [DecidableEq κ] (ident : β → κ) where
  objects : Map κ β
  index : Map φ κ
  keyed : ∀ k v, objects.lookup k = some v → ident v = k

namespace Indexed

variable {ident : β → κ} (ref : β → φ)

def empty : Indexed φ ident := ⟨∅, ∅, fun k v h => absurd h (by simp)⟩

omit [DecidableEq φ] in
theorem keyed_insertNew (st : Indexed φ ident) (v : β) (k : κ) (w : β)
    (h : (st.objects.insertNew (ident v) v).lookup k = some w) : ident w = k := by
  rw [Map.lookup_insertNew] at h
  split_ifs at h with hk
  · rw [hk]
    cases hold : st.objects.lookup (ident v) with
    | none =>
      rw [hold] at h
      exact congrArg ident (some.inj h).symm
    | some old =>
      rw [hold] at h
      exact (some.inj h) ▸ st.keyed _ _ hold
  · exact st.keyed k w h

def add (v : β) (st : Indexed φ ident) : Indexed φ ident where
  objects := st.objects.insertNew (ident v) v
  index := st.index.insertNew (ref v) (ident v)
  keyed := st.keyed_insertNew v

def removeAt (f : φ) (st : Indexed φ ident) : Indexed φ ident :=
  match st.index.lookup f with
  | none => st
  | some k =>
    { objects := st.objects.erase k
      index := st.index.erase f
      keyed := fun k' v h => by
        rw [Map.lookup_erase'] at h
        split_ifs at h
        exact st.keyed k' v h }

/-- Keep the objects that pass a test; the references of the others leave the index. -/
def clean (test : β → Bool) (st : Indexed φ ident) : Indexed φ ident where
  objects := st.objects.keep fun _ v => test v
  index := st.objects.entries.foldl
    (fun index e => if test e.2 then index else index.erase (ref e.2)) st.index
  keyed k v h := by
    rw [Map.lookup_keep, filter_eq_some_iff] at h
    exact st.keyed k v h.1

def update (g : β → β) (hg : ∀ v, ident (g v) = ident v) (st : Indexed φ ident) :
    Indexed φ ident where
  objects := st.objects.mapVal fun _ v => g v
  index := st.index
  keyed k v h := by
    rw [Map.lookup_mapVal, map_eq_some_iff] at h
    obtain ⟨w, hw, rfl⟩ := h
    rw [hg]
    exact st.keyed k w hw

/-! ## What is stored after each operation -/

def refAt (st : Indexed φ ident) (k : κ) : Option φ := (st.objects.lookup k).map ref

omit [DecidableEq φ] in
@[simp] theorem refAt_empty (k : κ) : (empty : Indexed φ ident).refAt ref k = none := by
  simp [refAt, empty]

variable {ref}

variable {st : Indexed φ ident}

theorem refAt_add {v : β} (hnew : st.objects.lookup (ident v) = none) (k : κ) :
    (st.add ref v).refAt ref k = if k = ident v then some (ref v) else st.refAt ref k := by
  simp only [refAt, add, Map.lookup_insertNew, hnew]
  split_ifs <;> rfl

theorem refAt_removeAt (st : Indexed φ ident) (f : φ) (k : κ) :
    (st.removeAt f).refAt ref k =
      if st.index.lookup f = some k then none else st.refAt ref k := by
  unfold removeAt
  cases hf : st.index.lookup f with
  | none => simp
  | some k0 =>
    by_cases hk : k = k0
    · simp [refAt, Map.lookup_erase', hk]
    · simp [refAt, hk, Ne.symm hk]

theorem index_removeAt (st : Indexed φ ident) (f f' : φ) :
    (st.removeAt f).index.lookup f' = if f' = f then none else st.index.lookup f' := by
  unfold removeAt
  cases hf : st.index.lookup f with
  | none =>
    split_ifs with h
    · rw [h, hf]
    · rfl
  | some k0 => exact Map.lookup_erase' _ _ _

omit [DecidableEq φ] in
theorem refAt_eq_some {k : κ} {f : φ} :
    st.refAt ref k = some f ↔ ∃ v, st.objects.lookup k = some v ∧ ref v = f :=
  map_eq_some_iff

theorem refAt_clean {test : β → Bool} {k : κ} {f : φ} :
    (st.clean ref test).refAt ref k = some f ↔
      ∃ v, st.objects.lookup k = some v ∧ test v = true ∧ ref v = f := by
  simp only [refAt_eq_some, clean, Map.lookup_keep, filter_eq_some_iff, and_assoc]

theorem index_clean (st : Indexed φ ident) (test : β → Bool) (f : φ) (k : κ) :
    (st.clean ref test).index.lookup f = some k ↔
      st.index.lookup f = some k ∧
        ∀ k' v, st.objects.lookup k' = some v → ref v = f → test v = true := by
  -- the entries that are erased are the references of the objects that fail the test
  have hfold : (st.clean ref test).index =
      ((st.objects.entries.filter fun e => !test e.2).map fun e => ref e.2).foldl
        (fun index f => index.erase f) st.index := by
    rw [List.foldl_map, List.foldl_filter, clean]
    simp only [Bool.not_eq_true', ← Bool.not_eq_true, ite_not]
  rw [hfold, Map.lookup_foldl_erase]
  have hdropped : f ∈ ((st.objects.entries.filter fun e => !test e.2).map fun e => ref e.2) ↔
      ∃ k' v, st.objects.lookup k' = some v ∧ ref v = f ∧ test v = false := by
    simp only [List.mem_map, List.mem_filter, Bool.not_eq_true']
    constructor
    · rintro ⟨e, ⟨he, ht⟩, hf⟩
      exact ⟨e.1, e.2, AList.mem_lookup_iff.2 he, hf, ht⟩
    · rintro ⟨k', v, hv, hf, ht⟩
      exact ⟨⟨k', v⟩, ⟨AList.mem_lookup_iff.1 hv, ht⟩, hf⟩
  by_cases hf : f ∈ ((st.objects.entries.filter fun e => !test e.2).map fun e => ref e.2)
  · obtain ⟨k', v, hv, href, ht⟩ := hdropped.1 hf
    simp only [hf, if_true, reduceCtorEq, false_iff, not_and, not_forall]
    exact fun _ => ⟨k', v, hv, href, by simp [ht]⟩
  · simp only [hf, if_false, iff_self_and]
    intro _ k' v hv href
    by_contra ht
    exact hf (hdropped.2 ⟨k', v, hv, href, by simpa using ht⟩)

omit [DecidableEq φ] in
theorem refAt_update {g : β → β} (hg : ∀ v, ident (g v) = ident v) (href : ∀ v, ref (g v) = ref v)
    (k : κ) : (st.update g hg).refAt ref k = st.refAt ref k := by
  simp [refAt, update, Map.lookup_mapVal, Function.comp_def, href]

/-! ## The exact index -/

variable (ref) in
/-- The index has the reference of every object, and nothing else. -/
def Exact (st : Indexed φ ident) : Prop :=
  ∀ f k, st.index.lookup f = some k ↔ st.refAt ref k = some f

theorem exact_empty : Exact ref (empty : Indexed φ ident) := by
  intro f k
  simp [empty, refAt]

namespace Exact

variable {st : Indexed φ ident}

theorem eq_of_ref (h : st.Exact ref) {k k' : κ} {f : φ} (hk : st.refAt ref k = some f)
    (hk' : st.refAt ref k' = some f) : k = k' :=
  some.inj (((h f k).2 hk).symm.trans ((h f k').2 hk'))

theorem add (h : st.Exact ref) {v : β} (hnew : st.objects.lookup (ident v) = none)
    (hfresh : ∀ k, st.refAt ref k ≠ some (ref v)) : (st.add ref v).Exact ref := by
  intro f k
  have hfree : st.index.lookup (ref v) = none := by
    rw [eq_none_iff_forall_ne_some]
    exact fun k' hk' => hfresh k' ((h _ _).1 hk')
  have hnone : st.refAt ref (ident v) = none := by simp [refAt, hnew]
  rw [refAt_add hnew]
  simp only [Indexed.add, Map.lookup_insertNew, hfree]
  by_cases hf : f = ref v
  · by_cases hk : k = ident v
    · simp [hf, hk]
    · simp [hf, hk, Ne.symm hk, hfresh k]
  · by_cases hk : k = ident v
    · simp [hf, hk, Ne.symm hf, h f, hnone]
    · simp [hf, hk, h f]

theorem removeAt (h : st.Exact ref) (f : φ) : (st.removeAt f).Exact ref := by
  intro f' k
  simp only [index_removeAt, refAt_removeAt, h f k]
  by_cases hf : f' = f
  · subst hf
    by_cases hk : st.refAt ref k = some f' <;> simp
  · by_cases hk : st.refAt ref k = some f
    · simp [hk, h f', Ne.symm hf]
    · simp [hf, hk, h f']

theorem refAt_removeAt_ne (h : st.Exact ref) (f : φ) (k : κ) :
    (st.removeAt f).refAt ref k ≠ some f := by
  simp only [refAt_removeAt, h f k]
  by_cases hk : st.refAt ref k = some f <;> simp

theorem clean (h : st.Exact ref) (test : β → Bool) : (st.clean ref test).Exact ref := by
  intro f k
  rw [index_clean, refAt_clean, h f k, refAt_eq_some]
  constructor
  · rintro ⟨⟨v, hv, href⟩, hall⟩
    exact ⟨v, hv, hall k v hv href, href⟩
  · rintro ⟨v, hv, ht, href⟩
    refine ⟨⟨v, hv, href⟩, fun k' w hw hwref => ?_⟩
    -- the object that is kept is the only one with its reference
    have hk : k' = k := h.eq_of_ref (refAt_eq_some.2 ⟨w, hw, hwref⟩) (refAt_eq_some.2 ⟨v, hv, href⟩)
    have hwv : w = v := some.inj (hw.symm.trans (hk ▸ hv))
    rwa [hwv]

theorem update (h : st.Exact ref) {g : β → β} (hg : ∀ v, ident (g v) = ident v)
    (href : ∀ v, ref (g v) = ref v) : (st.update g hg).Exact ref := by
  intro f k
  rw [refAt_update hg href]
  exact h f k

end Exact

end Indexed

end Passion.Lib
