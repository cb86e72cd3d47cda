import Passion.Mempool.Pool

/-!
# What the operations of the pool change

The operations of `txmempool.cpp` touch either the totals of some entries, or the links of some
entries, or take entries out. The three kinds are told apart here.

* `Adjusts`: a change of totals leaves everything else of the entries as it is (`core`) and adds
  given amounts.
* `LinksOk`: links go both ways and lead to entries of the pool.
* `removeStaged_links`: whatever set of entries is removed, the links that stay are those between
  entries that stay.
-/

namespace Passion

open Lib (Map)
open List

/-! ## Entries without their totals -/

namespace CTxMemPoolEntry

/-- What an entry is, apart from its totals. -/
def core (e : CTxMemPoolEntry) : CTxMemPoolEntry :=
  { e with
    nCountWithDescendants := 0
    nSizeWithDescendants := 0
    nModFeesWithDescendants := 0
    nCountWithAncestors := 0
    nSizeWithAncestors := 0
    nModFeesWithAncestors := 0
    nSigOpCountWithAncestors := 0 }

/-- Count, size, modified fees and signature operations. -/
abbrev AncestorTotals := Int × Int × Int × Int

/-- Count, size and modified fees. -/
abbrev DescendantTotals := Int × Int × Int

def ancestorTotals (e : CTxMemPoolEntry) : AncestorTotals :=
  (e.nCountWithAncestors, e.nSizeWithAncestors, e.nModFeesWithAncestors, e.nSigOpCountWithAncestors)

def descendantTotals (e : CTxMemPoolEntry) : DescendantTotals :=
  (e.nCountWithDescendants, e.nSizeWithDescendants, e.nModFeesWithDescendants)

/-- What an entry adds to the ancestor totals of its descendants, and of itself. -/
def ownAncestorTotals (e : CTxMemPoolEntry) : AncestorTotals :=
  (1, e.nTxSize, e.getModifiedFee, e.sigOpCount)

/-- What an entry adds to the descendant totals of its ancestors, and of itself. -/
def ownDescendantTotals (e : CTxMemPoolEntry) : DescendantTotals := (1, e.nTxSize, e.getModifiedFee)

def addAncestorTotals (δ : AncestorTotals) (e : CTxMemPoolEntry) : CTxMemPoolEntry :=
  e.updateAncestorState δ.2.1 δ.2.2.1 δ.1 δ.2.2.2

def addDescendantTotals (δ : DescendantTotals) (e : CTxMemPoolEntry) : CTxMemPoolEntry :=
  e.updateDescendantState δ.2.1 δ.2.2 δ.1

@[simp] theorem core_tx (e : CTxMemPoolEntry) : e.core.tx = e.tx := rfl

end CTxMemPoolEntry

namespace CTxMemPool

open CTxMemPoolEntry

/-- The entry of an id without its totals. -/
def core (pool : CTxMemPool) (h : UInt256) : Option CTxMemPoolEntry :=
  (pool.mapTx.lookup h).map CTxMemPoolEntry.core

theorem contains_eq_isSome_core (pool : CTxMemPool) (h : UInt256) :
    pool.contains h = (pool.core h).isSome := by
  simp [contains, core]

theorem contains_congr {pool pool' : CTxMemPool} {h : UInt256}
    (hcore : pool'.core h = pool.core h) :
    pool'.contains h = pool.contains h := by
  rw [contains_eq_isSome_core, contains_eq_isSome_core, hcore]

theorem ne_of_contains {pool : CTxMemPool} {x y : UInt256} (hx : pool.contains x = true)
    (hy : pool.contains y = false) : x ≠ y := by
  rintro rfl
  rw [hx] at hy
  cases hy

def total {M : Type} [Zero M] (f : CTxMemPoolEntry → M) (pool : CTxMemPool) (h : UInt256) : M :=
  (pool.mapTx.lookup h).elim 0 f

theorem total_of_lookup {M : Type} [Zero M] {f : CTxMemPoolEntry → M} {pool : CTxMemPool}
    {h : UInt256} {e : CTxMemPoolEntry} (he : pool.mapTx.lookup h = some e) :
    pool.total f h = f e := by
  rw [total, he]
  rfl

theorem total_eq_core {M : Type} [Zero M] {f : CTxMemPoolEntry → M} (hf : ∀ e, f e.core = f e)
    (pool : CTxMemPool) (h : UInt256) : pool.total f h = (pool.core h).elim 0 f := by
  rw [total, core]
  cases pool.mapTx.lookup h with
  | none => rfl
  | some e => exact (hf e).symm

/-! ## Changes of totals -/

/-- The totals of the entries grow by `a` and `d`; nothing else of the entries changes. -/
structure Adjusts (pool pool' : CTxMemPool) (a : UInt256 → AncestorTotals)
    (d : UInt256 → DescendantTotals) : Prop where
  core : ∀ h, pool'.core h = pool.core h
  ancestors : ∀ h, pool.contains h = true →
    pool'.total ancestorTotals h = pool.total ancestorTotals h + a h
  descendants : ∀ h, pool.contains h = true →
    pool'.total descendantTotals h = pool.total descendantTotals h + d h

variable {pool pool' pool'' : CTxMemPool} {a a' : UInt256 → AncestorTotals}
  {d d' : UInt256 → DescendantTotals}

theorem adjusts_of_mapTx (h : pool'.mapTx = pool.mapTx) : Adjusts pool pool' 0 0 := by
  refine ⟨fun x => ?_, fun x _ => ?_, fun x _ => ?_⟩
  · rw [core, core, h]
  · rw [total, total, h, Pi.zero_apply, add_zero]
  · rw [total, total, h, Pi.zero_apply, add_zero]

theorem Adjusts.contains (h : Adjusts pool pool' a d) (x : UInt256) :
    pool'.contains x = pool.contains x :=
  contains_congr (h.core x)

theorem Adjusts.trans (h : Adjusts pool pool' a d) (h' : Adjusts pool' pool'' a' d') :
    Adjusts pool pool'' (a + a') (d + d') := by
  refine ⟨fun x => (h'.core x).trans (h.core x), fun x hx => ?_, fun x hx => ?_⟩
  · rw [h'.ancestors x (by rwa [h.contains]), h.ancestors x hx, Pi.add_apply, add_assoc]
  · rw [h'.descendants x (by rwa [h.contains]), h.descendants x hx, Pi.add_apply, add_assoc]

variable {l S : List UInt256}

theorem lookup_foldl_modify (hl : l.Nodup) (f : CTxMemPoolEntry → CTxMemPoolEntry)
    (pool : CTxMemPool) (h : UInt256) :
    (l.foldl (fun pool it => pool.modify it f) pool).mapTx.lookup h =
      if h ∈ l then (pool.mapTx.lookup h).map f else pool.mapTx.lookup h := by
  have hclosed : l.foldl (fun pool it => pool.modify it f) pool =
      { pool with mapTx := l.foldl (fun m it => m.modify it f) pool.mapTx } :=
    foldl_hom (fun m => { pool with mapTx := m }) fun _ _ => rfl
  rw [hclosed]
  exact Map.lookup_foldl_modify f hl pool.mapTx h

theorem adjusts_foldl_modify {f : CTxMemPoolEntry → CTxMemPoolEntry} {α : AncestorTotals}
    {δ : DescendantTotals} (hcore : ∀ e, (f e).core = e.core)
    (hancestors : ∀ e, (f e).ancestorTotals = e.ancestorTotals + α)
    (hdescendants : ∀ e, (f e).descendantTotals = e.descendantTotals + δ) (hl : l.Nodup)
    (pool : CTxMemPool) :
    Adjusts pool (l.foldl (fun pool it => pool.modify it f) pool)
      (fun h => if h ∈ l then α else 0) (fun h => if h ∈ l then δ else 0) := by
  have hlookup := lookup_foldl_modify hl f pool
  refine ⟨fun h => ?_, fun h hh => ?_, fun h hh => ?_⟩
  · rw [core, core, hlookup]
    split_ifs
    · cases pool.mapTx.lookup h with
      | none => rfl
      | some e => exact congrArg some (hcore e)
    · rfl
  · obtain ⟨e, he⟩ := Option.isSome_iff_exists.mp hh
    rw [total, total, hlookup, he]
    split_ifs
    · exact hancestors e
    · exact (add_zero _).symm
  · obtain ⟨e, he⟩ := Option.isSome_iff_exists.mp hh
    rw [total, total, hlookup, he]
    split_ifs
    · exact hdescendants e
    · exact (add_zero _).symm

theorem adjusts_foldl_ancestors (hl : l.Nodup) (α : AncestorTotals) (pool : CTxMemPool) :
    Adjusts pool (l.foldl (fun pool it => pool.modify it (addAncestorTotals α)) pool)
      (fun h => if h ∈ l then α else 0) 0 := by
  have h := adjusts_foldl_modify (f := addAncestorTotals α) (fun _ => rfl)
    (fun _ => rfl) (fun e => (add_zero e.descendantTotals).symm) hl pool
  simp only [ite_self] at h
  exact h

theorem adjusts_foldl_descendants (hl : l.Nodup) (δ : DescendantTotals) (pool : CTxMemPool) :
    Adjusts pool (l.foldl (fun pool it => pool.modify it (addDescendantTotals δ)) pool)
      0 (fun h => if h ∈ l then δ else 0) := by
  have h := adjusts_foldl_modify (f := addDescendantTotals δ) (fun _ => rfl)
    (fun e => (add_zero e.ancestorTotals).symm) (fun _ => rfl) hl pool
  simp only [ite_self] at h
  exact h

/-! ## Changes of links -/

section

variable (pool)

theorem lookup_updateChild (entry child h : UInt256) (add : Bool) :
    (pool.updateChild entry child add).getMemPoolParents h = pool.getMemPoolParents h ∧
    (pool.updateChild entry child add).getMemPoolChildren h =
      if h = entry ∧ (pool.mapLinks.lookup entry).isSome = true then
        if add then (pool.getMemPoolChildren h).insert child
        else (pool.getMemPoolChildren h).erase child
      else pool.getMemPoolChildren h := by
  unfold updateChild getMemPoolParents getMemPoolChildren
  simp only [Map.lookup_modify]
  by_cases hh : h = entry
  · subst hh
    cases pool.mapLinks.lookup h <;> simp
  · simp [hh]

theorem lookup_updateParent (entry parent h : UInt256) (add : Bool) :
    (pool.updateParent entry parent add).getMemPoolChildren h = pool.getMemPoolChildren h ∧
    (pool.updateParent entry parent add).getMemPoolParents h =
      if h = entry ∧ (pool.mapLinks.lookup entry).isSome = true then
        if add then (pool.getMemPoolParents h).insert parent
        else (pool.getMemPoolParents h).erase parent
      else pool.getMemPoolParents h := by
  unfold updateParent getMemPoolParents getMemPoolChildren
  simp only [Map.lookup_modify]
  by_cases hh : h = entry
  · subst hh
    cases pool.mapLinks.lookup h <;> simp
  · simp [hh]

theorem isSome_mapLinks_updateParent (entry parent h : UInt256) (add : Bool) :
    ((pool.updateParent entry parent add).mapLinks.lookup h).isSome =
      (pool.mapLinks.lookup h).isSome :=
  Map.isSome_lookup_modify ..

def SameButLinks (pool' : CTxMemPool) : Prop := pool' = { pool with mapLinks := pool'.mapLinks }

theorem lookup_foldl_modifyLinks (hl : l.Nodup) (f : TxLinks → TxLinks) :
    let pool' := l.foldl (fun pool it => { pool with mapLinks := pool.mapLinks.modify it f }) pool
    SameButLinks pool pool' ∧ ∀ h, pool'.mapLinks.lookup h =
      if h ∈ l then (pool.mapLinks.lookup h).map f else pool.mapLinks.lookup h := by
  have hclosed : l.foldl (fun pool it => { pool with mapLinks := pool.mapLinks.modify it f }) pool =
      { pool with mapLinks := l.foldl (fun m it => m.modify it f) pool.mapLinks } :=
    foldl_hom (fun m => { pool with mapLinks := m }) fun _ _ => rfl
  rw [hclosed]
  exact ⟨rfl, Map.lookup_foldl_modify f hl pool.mapLinks⟩

theorem foldl_updateChild (it : UInt256) (add : Bool) (hl : l.Nodup) :
    let pool' := l.foldl (fun pool piter => pool.updateChild piter it add) pool
    SameButLinks pool pool' ∧
    (∀ h, (pool'.mapLinks.lookup h).isSome = (pool.mapLinks.lookup h).isSome) ∧
    (∀ h, pool'.getMemPoolParents h = pool.getMemPoolParents h) ∧
    ∀ h, pool'.getMemPoolChildren h =
      if h ∈ l ∧ (pool.mapLinks.lookup h).isSome = true then
        if add then (pool.getMemPoolChildren h).insert it else (pool.getMemPoolChildren h).erase it
      else pool.getMemPoolChildren h := by
  obtain ⟨hsame, hlookup⟩ := lookup_foldl_modifyLinks pool hl fun links => { links with
    children := if add then links.children.insert it else links.children.erase it }
  unfold updateChild getMemPoolParents getMemPoolChildren
  simp only [hlookup]
  refine ⟨hsame, fun h => ?_, fun h => ?_, fun h => ?_⟩ <;>
    by_cases hh : h ∈ l <;> cases pool.mapLinks.lookup h <;> simp [hh]

theorem foldl_eraseParent (it : UInt256) (hl : l.Nodup) :
    let pool' := l.foldl (fun pool updateIt => pool.updateParent updateIt it false) pool
    SameButLinks pool pool' ∧
    (∀ h, (pool'.mapLinks.lookup h).isSome = (pool.mapLinks.lookup h).isSome) ∧
    (∀ h, pool'.getMemPoolChildren h = pool.getMemPoolChildren h) ∧
    ∀ h, pool'.getMemPoolParents h =
      if h ∈ l then (pool.getMemPoolParents h).erase it else pool.getMemPoolParents h := by
  obtain ⟨hsame, hlookup⟩ := lookup_foldl_modifyLinks pool hl fun links => { links with
    parents := links.parents.erase it }
  unfold updateParent getMemPoolParents getMemPoolChildren
  simp only [Bool.false_eq_true, if_false, hlookup]
  refine ⟨hsame, fun h => ?_, fun h => ?_, fun h => ?_⟩ <;>
    by_cases hh : h ∈ l <;> cases pool.mapLinks.lookup h <;> simp [hh]

end

/-! ## Links that go both ways -/

/-- Links lead to entries of the pool, and back. -/
structure LinksOk (pool : CTxMemPool) : Prop where
  hash : ∀ h e, pool.core h = some e → e.tx.hash = h
  keys : ∀ h, (pool.mapLinks.lookup h).isSome = pool.contains h
  symm : ∀ c p, p ∈ pool.getMemPoolParents c ↔ c ∈ pool.getMemPoolChildren p
  parent_mem : ∀ c p, p ∈ pool.getMemPoolParents c → pool.contains p = true
  parents_nodup : ∀ h, (pool.getMemPoolParents h).Nodup
  children_nodup : ∀ h, (pool.getMemPoolChildren h).Nodup

theorem LinksOk.mem_of_parent (hok : LinksOk pool) {c p : UInt256}
    (h : p ∈ pool.getMemPoolParents c) : pool.contains c = true := by
  rw [← hok.keys c]
  unfold getMemPoolParents at h
  cases hc : pool.mapLinks.lookup c with
  | none =>
    rw [hc] at h
    cases h
  | some links => rfl

theorem LinksOk.child_mem (hok : LinksOk pool) {c p : UInt256} (h : c ∈ pool.getMemPoolChildren p) :
    pool.contains c = true :=
  hok.mem_of_parent ((hok.symm c p).mpr h)

/-- What the ways up through the pool rest on. -/
structure ParentsOk (pool : CTxMemPool) : Prop where
  hash : ∀ h e, pool.core h = some e → e.tx.hash = h
  parent_mem : ∀ c p, p ∈ pool.getMemPoolParents c → pool.contains p = true
  parents_nodup : ∀ h, (pool.getMemPoolParents h).Nodup

theorem LinksOk.parentsOk (hok : LinksOk pool) : ParentsOk pool :=
  ⟨hok.hash, hok.parent_mem, hok.parents_nodup⟩

theorem linksOk_clear (pool : CTxMemPool) : LinksOk pool.clear where
  hash _ _ h := nomatch h
  keys _ := rfl
  symm _ _ := ⟨nofun, nofun⟩
  parent_mem _ _ h := nomatch h
  parents_nodup _ := nodup_nil
  children_nodup _ := nodup_nil

theorem linksOk_empty : LinksOk empty := linksOk_clear empty

/-! ## Removing a set of entries -/

/-- The entries in `S` are gone, with their links, inputs and nullifiers. -/
structure Removes (pool pool' : CTxMemPool) (S : List UInt256) : Prop where
  core : ∀ h, pool'.core h = if h ∈ S then none else pool.core h
  keys : ∀ h, (pool'.mapLinks.lookup h).isSome = pool'.contains h
  parents : ∀ c p, p ∈ pool'.getMemPoolParents c ↔ p ∈ pool.getMemPoolParents c ∧ c ∉ S ∧ p ∉ S
  children : ∀ c p, c ∈ pool'.getMemPoolChildren p ↔ c ∈ pool.getMemPoolChildren p ∧ c ∉ S ∧ p ∉ S
  parents_nodup : ∀ h, (pool'.getMemPoolParents h).Nodup
  children_nodup : ∀ h, (pool'.getMemPoolChildren h).Nodup
  next : ∀ o, pool'.mapNextTx.lookup o =
    if ∃ r ∈ S, ∃ e, pool.core r = some e ∧ o ∈ e.tx.vin.map (·.prevout) then none
    else pool.mapNextTx.lookup o
  nullifiers : ∀ nf, pool'.mapSaplingNullifiers.lookup nf =
    if ∃ r ∈ S, ∃ e, pool.core r = some e ∧ nf ∈ e.tx.shieldedNullifiers then none
    else pool.mapSaplingNullifiers.lookup nf
  deltas : pool'.mapDeltas = pool.mapDeltas

theorem Removes.contains (h : Removes pool pool' S) (x : UInt256) :
    pool'.contains x = true ↔ pool.contains x = true ∧ x ∉ S := by
  rw [contains_eq_isSome_core, contains_eq_isSome_core, h.core]
  split_ifs with hx <;> simp [hx]

theorem LinksOk.removes (hok : LinksOk pool) (h : Removes pool pool' S) : LinksOk pool' := by
  refine ⟨fun x e hx => ?_, h.keys, fun c p => ?_, fun c p hp => ?_, h.parents_nodup,
    h.children_nodup⟩
  · rw [h.core] at hx
    split_ifs at hx
    exact hok.hash x e hx
  · rw [h.parents, h.children, hok.symm]
  · obtain ⟨hp, -, hpS⟩ := (h.parents c p).mp hp
    exact (h.contains p).mpr ⟨hok.parent_mem c p hp, hpS⟩

structure OnlyTotals (pool pool' : CTxMemPool) : Prop where
  core : ∀ h, pool'.core h = pool.core h
  rest : pool' = { pool with mapTx := pool'.mapTx }

theorem OnlyTotals.trans (h : OnlyTotals pool pool') (h' : OnlyTotals pool' pool'') :
    OnlyTotals pool pool'' := by
  refine ⟨fun x => (h'.core x).trans (h.core x), ?_⟩
  rw [h'.rest, h.rest]

theorem onlyTotals_modify (pool : CTxMemPool) (it : UInt256)
    {f : CTxMemPoolEntry → CTxMemPoolEntry} (hf : ∀ e, (f e).core = e.core) :
    OnlyTotals pool (pool.modify it f) := by
  refine ⟨fun h => ?_, rfl⟩
  simp only [core, modify, Map.lookup_modify]
  split_ifs with hh
  · subst hh
    cases pool.mapTx.lookup h with
    | none => rfl
    | some e => exact congrArg some (hf e)
  · rfl

theorem onlyTotals_foldl {β : Type} {step : CTxMemPool → β → CTxMemPool}
    (hstep : ∀ pool b, OnlyTotals pool (step pool b)) (l : List β) (pool : CTxMemPool) :
    OnlyTotals pool (l.foldl step pool) := by
  induction l generalizing pool with
  | nil => exact ⟨fun _ => rfl, rfl⟩
  | cons b l ih => exact (hstep pool b).trans (ih (step pool b))

theorem onlyTotals_subtractFromDescendants (pool : CTxMemPool) (r : UInt256) :
    OnlyTotals pool (pool.subtractFromDescendants r) := by
  unfold subtractFromDescendants
  cases pool.mapTx.lookup r with
  | none => exact ⟨fun _ => rfl, rfl⟩
  | some e =>
    refine onlyTotals_foldl (fun pool dit => onlyTotals_modify pool dit ?_) _ pool
    exact fun _ => rfl

structure Relinks (pool pool' : CTxMemPool) : Prop where
  core : ∀ h, pool'.core h = pool.core h
  rest : pool' = { pool with mapTx := pool'.mapTx, mapLinks := pool'.mapLinks }
  keys : ∀ h, (pool'.mapLinks.lookup h).isSome = (pool.mapLinks.lookup h).isSome

theorem Relinks.refl (pool : CTxMemPool) : Relinks pool pool := ⟨fun _ => rfl, rfl, fun _ => rfl⟩

theorem Relinks.trans (h : Relinks pool pool') (h' : Relinks pool' pool'') :
    Relinks pool pool'' := by
  refine ⟨fun x => (h'.core x).trans (h.core x), ?_, fun x => (h'.keys x).trans (h.keys x)⟩
  rw [h'.rest, h.rest]

section

variable (h : OnlyTotals pool pool')

include h

theorem OnlyTotals.mapLinks : pool'.mapLinks = pool.mapLinks := by
  rw [h.rest]

theorem OnlyTotals.relinks : Relinks pool pool' :=
  ⟨h.core, by rw [h.mapLinks]; exact h.rest, fun x => by rw [h.mapLinks]⟩

theorem OnlyTotals.getMemPoolParents (x : UInt256) :
    pool'.getMemPoolParents x = pool.getMemPoolParents x := by
  rw [CTxMemPool.getMemPoolParents, CTxMemPool.getMemPoolParents, h.mapLinks]

theorem OnlyTotals.getMemPoolChildren (x : UInt256) :
    pool'.getMemPoolChildren x = pool.getMemPoolChildren x := by
  rw [CTxMemPool.getMemPoolChildren, CTxMemPool.getMemPoolChildren, h.mapLinks]

theorem OnlyTotals.linksOk (hok : LinksOk pool) : LinksOk pool' := by
  have hcontains : ∀ x, pool'.contains x = pool.contains x := fun x => contains_congr (h.core x)
  refine ⟨fun x e hx => ?_, fun x => ?_, fun c p => ?_, fun c p hp => ?_, fun x => ?_, fun x => ?_⟩
  · rw [h.core] at hx
    exact hok.hash x e hx
  · rw [h.mapLinks, hcontains]
    exact hok.keys x
  · rw [h.getMemPoolParents, h.getMemPoolChildren]
    exact hok.symm c p
  · rw [h.getMemPoolParents] at hp
    rw [hcontains]
    exact hok.parent_mem c p hp
  · rw [h.getMemPoolParents]
    exact hok.parents_nodup x
  · rw [h.getMemPoolChildren]
    exact hok.children_nodup x

end

theorem SameButLinks.core {h : UInt256} (hs : SameButLinks pool pool') :
    pool'.core h = pool.core h := by
  rw [CTxMemPool.core, CTxMemPool.core, hs]

theorem updateAncestorsOf_eq (pool : CTxMemPool) (add : Bool) (it : UInt256) (A : List UInt256) :
    OnlyTotals
      ((pool.getMemPoolParents it).foldl (fun pool piter => pool.updateChild piter it add) pool)
      (pool.updateAncestorsOf add it A) := by
  unfold updateAncestorsOf
  simp only
  split
  · exact ⟨fun _ => rfl, rfl⟩
  · refine onlyTotals_foldl (fun pool a => onlyTotals_modify pool a ?_) A _
    exact fun _ => rfl

/-- `UpdateAncestorsOf` and links: the parents of `it` gain or lose a child. -/
theorem updateAncestorsOf_links (pool : CTxMemPool) (add : Bool) {it : UInt256} (A : List UInt256)
    (hn : (pool.getMemPoolParents it).Nodup) :
    Relinks pool (pool.updateAncestorsOf add it A) ∧
    (∀ h, (pool.updateAncestorsOf add it A).getMemPoolParents h = pool.getMemPoolParents h) ∧
    ∀ h, (pool.updateAncestorsOf add it A).getMemPoolChildren h =
      if h ∈ pool.getMemPoolParents it ∧ (pool.mapLinks.lookup h).isSome = true then
        if add then (pool.getMemPoolChildren h).insert it else (pool.getMemPoolChildren h).erase it
      else pool.getMemPoolChildren h := by
  obtain ⟨hsame, hkeys, hparents, hchildren⟩ := foldl_updateChild pool it add hn
  have htotals := updateAncestorsOf_eq pool add it A
  refine ⟨?_, fun h => ?_, fun h => ?_⟩
  · refine Relinks.trans ⟨fun x => hsame.core, ?_, hkeys⟩ htotals.relinks
    rw [hsame]
  · rw [htotals.getMemPoolParents, hparents]
  · rw [htotals.getMemPoolChildren, hchildren]

/-- One direction of the links loses an entry: `r` goes from the links of those that the other
direction has for it. -/
structure Unlinks (links back : CTxMemPool → UInt256 → List UInt256) (r : UInt256)
    (pool pool' : CTxMemPool) : Prop where
  relinks : Relinks pool pool'
  back_eq : ∀ h, back pool' h = back pool h
  links_eq : ∀ h, links pool' h = if h ∈ back pool r then (links pool h).erase r else links pool h

theorem foldl_unlinks {links back : CTxMemPool → UInt256 → List UInt256}
    {step : CTxMemPool → UInt256 → CTxMemPool}
    (hstep : ∀ pool r, (back pool r).Nodup → Unlinks links back r pool (step pool r))
    {pool : CTxMemPool} (hb : ∀ h, (back pool h).Nodup) (hl : ∀ h, (links pool h).Nodup) :
    let pool' := S.foldl step pool
    Relinks pool pool' ∧ (∀ h, back pool' h = back pool h) ∧ (∀ h, (links pool' h).Nodup) ∧
      ∀ h x, x ∈ links pool' h ↔ x ∈ links pool h ∧ ¬ (x ∈ S ∧ h ∈ back pool x) := by
  induction S generalizing pool with
  | nil => exact ⟨.refl pool, fun _ => rfl, hl, fun h x => by simp⟩
  | cons r S ih =>
    have hone := hstep pool r (hb r)
    have hnodup : ∀ h, (links (step pool r) h).Nodup := by
      intro h
      rw [hone.links_eq]
      split_ifs
      · exact (hl h).erase r
      · exact hl h
    obtain ⟨hrel, hback, hnodup', hlinks⟩ := ih (fun h => by rw [hone.back_eq]; exact hb h) hnodup
    refine ⟨hone.relinks.trans hrel, fun h => (hback h).trans (hone.back_eq h), hnodup',
      fun h x => ?_⟩
    rw [foldl_cons, hlinks, hone.links_eq, hone.back_eq]
    split_ifs with hmem
    · rw [(hl h).mem_erase_iff]
      grind
    · grind

/-- The second loop of `UpdateForRemoveFromMempool`: a removed entry is no child any more. -/
theorem unlinks_updateAncestorsOf (pool : CTxMemPool) {r : UInt256}
    (hn : (pool.getMemPoolParents r).Nodup) :
    Unlinks getMemPoolChildren getMemPoolParents r pool
      (pool.updateAncestorsOf false r (pool.linkedAncestors r)) := by
  obtain ⟨hrel, hparents, hchildren⟩ :=
    updateAncestorsOf_links pool false (pool.linkedAncestors r) hn
  refine ⟨hrel, hparents, fun h => ?_⟩
  rw [hchildren]
  cases hlinks : pool.mapLinks.lookup h with
  | none => simp [getMemPoolChildren, hlinks]
  | some links => simp

/-- The third loop: what is left of its children loses a parent. -/
theorem unlinks_updateChildrenForRemoval (pool : CTxMemPool) {r : UInt256}
    (hn : (pool.getMemPoolChildren r).Nodup) :
    Unlinks getMemPoolParents getMemPoolChildren r pool (pool.updateChildrenForRemoval r) := by
  obtain ⟨hsame, hkeys, hchildren, hparents⟩ := foldl_eraseParent pool r hn
  refine ⟨⟨fun x => hsame.core, ?_, hkeys⟩, hchildren, hparents⟩
  unfold updateChildrenForRemoval
  rw [hsame]

theorem updateForRemoveFromMempool_links (hok : LinksOk pool) (S : List UInt256) (upd : Bool) :
    let pool' := pool.updateForRemoveFromMempool S upd
    Relinks pool pool' ∧ (∀ h, (pool'.getMemPoolParents h).Nodup) ∧
      (∀ h, (pool'.getMemPoolChildren h).Nodup) ∧
      (∀ c p, c ∈ pool'.getMemPoolChildren p ↔ c ∈ pool.getMemPoolChildren p ∧ c ∉ S) ∧
      ∀ c p, c ∉ S → (p ∈ pool'.getMemPoolParents c ↔ p ∈ pool.getMemPoolParents c ∧ p ∉ S) := by
  unfold updateForRemoveFromMempool
  simp only
  generalize hpool1 : (if upd then S.foldl subtractFromDescendants pool else pool) = pool1
  have htotals : OnlyTotals pool pool1 := by
    rw [← hpool1]
    split_ifs
    · exact onlyTotals_foldl onlyTotals_subtractFromDescendants S pool
    · exact ⟨fun _ => rfl, rfl⟩
  have hp1 : ∀ h, (pool1.getMemPoolParents h).Nodup := fun h => by
    rw [htotals.getMemPoolParents]
    exact hok.parents_nodup h
  obtain ⟨hrel2, hparents2, hnodup2, hchildren2⟩ := foldl_unlinks
    (fun pool _ hn => unlinks_updateAncestorsOf pool hn) hp1
    (fun h => by rw [htotals.getMemPoolChildren]; exact hok.children_nodup h)
  obtain ⟨hrel3, hchildren3, hnodup3, hparents3⟩ := foldl_unlinks (S := S)
    (fun pool _ hn => unlinks_updateChildrenForRemoval pool hn) hnodup2
    (fun h => by rw [hparents2]; exact hp1 h)
  generalize S.foldl _ pool1 = pool2 at *
  have hchildren : ∀ c p, c ∈ pool2.getMemPoolChildren p ↔
      c ∈ pool.getMemPoolChildren p ∧ c ∉ S := by
    intro c p
    rw [hchildren2, htotals.getMemPoolChildren, htotals.getMemPoolParents, hok.symm]
    tauto
  refine ⟨(htotals.relinks.trans hrel2).trans hrel3, hnodup3, fun h => ?_, fun c p => ?_,
    fun c p hc => ?_⟩
  · rw [hchildren3]
    exact hnodup2 h
  · rw [hchildren3]
    exact hchildren c p
  · rw [hparents3, hparents2, hchildren, htotals.getMemPoolParents, ← hok.symm]
    tauto

theorem lookup_removed_cons {κ β : Type} [DecidableEq κ] {r : UInt256} {e : CTxMemPoolEntry}
    (he : pool.mapTx.lookup r = some e)
    (hcores : ∀ h ∈ S, (pool.removeUnchecked r).core h = pool.core h)
    (keys : CTransaction → List κ) (m : Map κ β) (k : κ) :
    (if ∃ h ∈ S, ∃ e, (pool.removeUnchecked r).core h = some e ∧ k ∈ keys e.tx then none
      else ((keys e.tx).foldl (fun m k => m.erase k) m).lookup k) =
      if ∃ h ∈ r :: S, ∃ e, pool.core h = some e ∧ k ∈ keys e.tx then none else m.lookup k := by
  have hrest : (∃ h ∈ S, ∃ e, (pool.removeUnchecked r).core h = some e ∧ k ∈ keys e.tx) ↔
      ∃ h ∈ S, ∃ e, pool.core h = some e ∧ k ∈ keys e.tx :=
    exists_congr fun h => and_congr_right fun hh => by rw [hcores h hh]
  have hcore : pool.core r = some e.core := by rw [core, he, Option.map_some]
  simp only [hrest, Map.lookup_foldl_erase, mem_cons, exists_eq_or_imp, hcore]
  by_cases hk : k ∈ keys e.tx <;> simp [hk]

theorem foldl_removeUnchecked (pool : CTxMemPool) (hS : ∀ r ∈ S, pool.contains r = true)
    (hn : S.Nodup) :
    let pool' := S.foldl removeUnchecked pool
    (∀ h, pool'.mapTx.lookup h = if h ∈ S then none else pool.mapTx.lookup h) ∧
    (∀ h, pool'.mapLinks.lookup h = if h ∈ S then none else pool.mapLinks.lookup h) ∧
    (∀ o, pool'.mapNextTx.lookup o =
      if ∃ r ∈ S, ∃ e, pool.core r = some e ∧ o ∈ e.tx.vin.map (·.prevout) then none
      else pool.mapNextTx.lookup o) ∧
    (∀ nf, pool'.mapSaplingNullifiers.lookup nf =
      if ∃ r ∈ S, ∃ e, pool.core r = some e ∧ nf ∈ e.tx.shieldedNullifiers then none
      else pool.mapSaplingNullifiers.lookup nf) ∧
    pool'.mapDeltas = pool.mapDeltas := by
  induction S generalizing pool with
  | nil => simp
  | cons r S ih =>
    obtain ⟨hr, hn⟩ := nodup_cons.mp hn
    obtain ⟨e, he⟩ := Option.isSome_iff_exists.mp (hS r mem_cons_self)
    have hlookup : ∀ h, (pool.removeUnchecked r).mapTx.lookup h =
        if h = r then none else pool.mapTx.lookup h := fun h => by
      rw [removeUnchecked, he]
      exact Map.lookup_erase' pool.mapTx r h
    have hcores : ∀ h ∈ S, (pool.removeUnchecked r).core h = pool.core h := fun h hh => by
      rw [core, core, hlookup, if_neg]
      rintro rfl
      exact hr hh
    obtain ⟨htx, hlinks, hnext, hnull, hdeltas⟩ := ih (pool.removeUnchecked r) (fun h hh => by
      rw [contains_congr (hcores h hh)]
      exact hS h (mem_cons_of_mem r hh)) hn
    refine ⟨fun h => ?_, fun h => ?_, fun o => ?_, fun nf => ?_, ?_⟩
    · refine (htx h).trans ?_
      rw [hlookup]
      by_cases hh : h = r <;> simp [hh]
    · refine (hlinks h).trans ?_
      rw [removeUnchecked, he]
      simp only [Map.lookup_erase']
      by_cases hh : h = r <;> simp [hh]
    · refine (hnext o).trans ?_
      rw [← lookup_removed_cons he hcores (fun tx => tx.vin.map (·.prevout)) pool.mapNextTx,
        removeUnchecked, he, foldl_map]
    · refine (hnull nf).trans ?_
      rw [← lookup_removed_cons he hcores (·.shieldedNullifiers) pool.mapSaplingNullifiers,
        removeUnchecked, he]
    · refine hdeltas.trans ?_
      rw [removeUnchecked, he]

/-- **`RemoveStaged` takes out the entries of its stage**, whatever they are. -/
theorem removeStaged_removes (hok : LinksOk pool) (hS : ∀ r ∈ S, pool.contains r = true)
    (hn : S.Nodup) (upd : Bool) :
    Removes pool (pool.removeStaged S upd) S := by
  obtain ⟨hrel, hpn, hcn, hchildren, hparents⟩ := updateForRemoveFromMempool_links hok S upd
  unfold removeStaged
  generalize pool.updateForRemoveFromMempool S upd = pool1 at *
  obtain ⟨htx, hlinks, hnext, hnull, hdeltas⟩ := foldl_removeUnchecked pool1 (fun r hr => by
    rw [contains_congr (hrel.core r)]
    exact hS r hr) hn
  generalize S.foldl removeUnchecked pool1 = pool2 at *
  have hparentsOf : ∀ h, pool2.getMemPoolParents h =
      if h ∈ S then [] else pool1.getMemPoolParents h := by
    intro h
    unfold getMemPoolParents
    rw [hlinks]
    split_ifs <;> rfl
  have hchildrenOf : ∀ h, pool2.getMemPoolChildren h =
      if h ∈ S then [] else pool1.getMemPoolChildren h := by
    intro h
    unfold getMemPoolChildren
    rw [hlinks]
    split_ifs <;> rfl
  have hcore : ∀ h, pool2.core h = if h ∈ S then none else pool.core h := by
    intro h
    rw [← hrel.core h]
    unfold core
    rw [htx]
    split_ifs <;> rfl
  refine ⟨hcore, fun h => ?_, fun c p => ?_, fun c p => ?_, fun h => ?_, fun h => ?_, fun o => ?_,
    fun nf => ?_, ?_⟩
  · rw [contains_eq_isSome_core, hcore, hlinks]
    split_ifs
    · rfl
    · rw [hrel.keys, hok.keys, contains_eq_isSome_core]
  · rw [hparentsOf]
    by_cases hc : c ∈ S
    · simp [hc]
    · simp only [hc, if_false, hparents c p hc, not_false_eq_true, true_and]
  · rw [hchildrenOf]
    by_cases hp : p ∈ S
    · simp [hp]
    · simp only [hp, if_false, hchildren, not_false_eq_true, and_true]
  · rw [hparentsOf]
    split_ifs
    · exact nodup_nil
    · exact hpn h
  · rw [hchildrenOf]
    split_ifs
    · exact nodup_nil
    · exact hcn h
  · refine (hnext o).trans ?_
    simp only [hrel.core]
    rw [hrel.rest]
  · refine (hnull nf).trans ?_
    simp only [hrel.core]
    rw [hrel.rest]
  · refine hdeltas.trans ?_
    rw [hrel.rest]

end CTxMemPool

end Passion
