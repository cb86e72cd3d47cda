import Mathlib.Algebra.BigOperators.Group.Finset.Piecewise
import Mathlib.Algebra.Group.Prod
import Mathlib.Tactic.Abel
import Passion.Mempool.Index

/-!
# The totals of the pool

The totals of each entry are to be sums over the entry and what is above it, and over the entry and
what is below it (`TotalsOver`). The functions of the pool keep them by adding and subtracting along
walks:

* a stage that is removed is subtracted from the descendant totals of everything above it
  (`TotalsOver.removeStaged`);
* an entry without parents that is removed alone is subtracted from the ancestor totals of
  everything below it (`TotalsOver.removeOne`);
* a new entry is added to the descendant totals of its ancestors, and their sum to its own ancestor
  totals (`TotalsOver.addUnchecked`).
-/

namespace Passion

open Lib (Map)
open List
open Lib.Dag Relation

namespace CTxMemPool

open CTxMemPoolEntry

variable {pool pool' : CTxMemPool} {S : List UInt256}

/-- The totals are sums over what is above and below along `E`. -/
structure TotalsOver (pool : CTxMemPool) (E : UInt256 → UInt256 → Prop) : Prop where
  ancestors : ∀ h, pool.contains h = true →
    pool.total ancestorTotals h = pool.total ownAncestorTotals h +
      ∑ a ∈ above pool.ids E h, pool.total ownAncestorTotals a
  descendants : ∀ h, pool.contains h = true →
    pool.total descendantTotals h = pool.total ownDescendantTotals h +
      ∑ d ∈ below pool.ids E h, pool.total ownDescendantTotals d

theorem ids_congr (h : ∀ x, pool'.core x = pool.core x) : pool'.ids = pool.ids := by
  ext x
  rw [mem_ids, mem_ids, contains_congr (h x)]

variable {M : Type} {A : List UInt256}

theorem total_congr [Zero M] {f : CTxMemPoolEntry → M} (hf : ∀ e, f e.core = f e) {x : UInt256}
    (h : pool'.core x = pool.core x) : pool'.total f x = pool.total f x := by
  rw [total_eq_core hf, total_eq_core hf, h]

/-! ## What the loops add -/

theorem mapTx_foldl {f : CTxMemPool → UInt256 → CTxMemPool}
    (hf : ∀ pool h, (f pool h).mapTx = pool.mapTx) (l : List UInt256) (pool : CTxMemPool) :
    (l.foldl f pool).mapTx = pool.mapTx := by
  induction l generalizing pool with
  | nil => rfl
  | cons h l ih => exact (ih (f pool h)).trans (hf pool h)

theorem updateAncestorsOf_adjusts (pool : CTxMemPool) (add : Bool) (it : UInt256) (hA : A.Nodup) :
    Adjusts pool (pool.updateAncestorsOf add it A) 0 (fun h => if h ∈ A then
      (if add then pool.total ownDescendantTotals it else -pool.total ownDescendantTotals it)
      else 0) := by
  have hmap := mapTx_foldl (f := fun pool piter => pool.updateChild piter it add) (fun _ _ => rfl)
    (pool.getMemPoolParents it) pool
  have hlinks := adjusts_of_mapTx hmap
  unfold updateAncestorsOf total
  simp only [hmap]
  cases pool.mapTx.lookup it with
  | none =>
    simp only [Option.elim_none, neg_zero, ite_self]
    exact hlinks
  | some e =>
    have hadd := adjusts_foldl_descendants hA
      (if add then e.ownDescendantTotals else -e.ownDescendantTotals)
      ((pool.getMemPoolParents it).foldl (fun pool piter => pool.updateChild piter it add) pool)
    have hfun : (fun a : CTxMemPoolEntry => a.updateDescendantState
        ((if add then 1 else -1) * e.nTxSize)
        ((if add then 1 else -1) * e.getModifiedFee) (if add then 1 else -1)) =
        addDescendantTotals (if add then e.ownDescendantTotals else -e.ownDescendantTotals) := by
      funext a
      cases add <;> simp [addDescendantTotals, ownDescendantTotals]
    simp only [hfun]
    have h := hlinks.trans hadd
    rw [zero_add, zero_add] at h
    exact h

theorem ParentsOk.congr (hok : ParentsOk pool) (hcore : ∀ h, pool'.core h = pool.core h)
    (hparents : ∀ h, pool'.getMemPoolParents h = pool.getMemPoolParents h) : ParentsOk pool' := by
  refine ⟨fun h e he => ?_, fun c p hp => ?_, fun h => ?_⟩
  · rw [hcore] at he
    exact hok.hash h e he
  · rw [hparents] at hp
    rw [contains_congr (hcore p)]
    exact hok.parent_mem c p hp
  · rw [hparents]
    exact hok.parents_nodup h

/-- The second loop of `UpdateForRemoveFromMempool` subtracts what is removed from the descendant
totals of what is above it. -/
theorem foldl_updateAncestorsOf_adjusts (hok : ParentsOk pool)
    (hS : ∀ r ∈ S, pool.contains r = true) (hn : S.Nodup) :
    Adjusts pool
      (S.foldl (fun pool r => pool.updateAncestorsOf false r (pool.linkedAncestors r)) pool) 0
      (fun h => -∑ r ∈ S.toFinset ∩ below pool.ids (Linked pool) h,
        pool.total ownDescendantTotals r) := by
  induction S generalizing pool with
  | nil =>
    exact adjusts_of_mapTx rfl
  | cons r S ih =>
    obtain ⟨hr, hn⟩ := nodup_cons.mp hn
    have hrin := hS r mem_cons_self
    obtain ⟨hmem, hnodup⟩ := mem_linkedAncestors hok hrin
    have hone := updateAncestorsOf_adjusts pool false r hnodup
    obtain ⟨-, hparents, -⟩ := updateAncestorsOf_links pool false (pool.linkedAncestors r)
      (hok.parents_nodup r)
    have hrest := ih (hok.congr hone.core hparents)
      (fun s hs => by rw [hone.contains]; exact hS s (mem_cons_of_mem r hs)) hn
    have hlinked :
        Linked (pool.updateAncestorsOf false r (pool.linkedAncestors r)) = Linked pool := by
      funext c p
      rw [Linked, Linked, hparents]
    have hown : ∀ s, (pool.updateAncestorsOf false r (pool.linkedAncestors r)).total
        ownDescendantTotals s = pool.total ownDescendantTotals s :=
      fun s => total_congr (fun _ => rfl) (hone.core s)
    simp only [hlinked, ids_congr hone.core, hown] at hrest
    have h := hone.trans hrest
    refine ⟨h.core, h.ancestors, fun x hx => ?_⟩
    rw [foldl_cons, h.descendants x hx, Pi.add_apply]
    have hiff : x ∈ pool.linkedAncestors r ↔ r ∈ below pool.ids (Linked pool) x := by
      rw [hmem, mem_below, mem_ids]
      exact (and_iff_right hrin).symm
    rw [toFinset_cons]
    by_cases hx : x ∈ pool.linkedAncestors r
    · rw [if_pos hx, if_neg Bool.false_ne_true, Finset.insert_inter_of_mem (hiff.mp hx),
        Finset.sum_insert (by simp [hr]), neg_add]
    · rw [if_neg hx, Finset.insert_inter_of_notMem (fun h => hx (hiff.mpr h)), zero_add]

/-- The first loop at one entry subtracts it from the ancestor totals of what is below it. -/
theorem subtractFromDescendants_adjusts (hok : LinksOk pool) (r : UInt256) :
    Adjusts pool (pool.subtractFromDescendants r) (fun h =>
      if h ∈ (pool.calculateDescendants r []).erase r then -pool.total ownAncestorTotals r else 0)
      0 := by
  unfold subtractFromDescendants total
  cases hr : pool.mapTx.lookup r with
  | none =>
    simp only [Option.elim_none, neg_zero, ite_self]
    exact adjusts_of_mapTx rfl
  | some e =>
    have hin : pool.contains r = true := by
      rw [contains, hr]
      rfl
    obtain ⟨-, hnodup⟩ := mem_calculateDescendants hok hin nodup_nil
      (fun _ hp => absurd hp not_mem_nil)
    exact adjusts_foldl_ancestors (hnodup.erase r) (-e.ownAncestorTotals) pool

theorem updateForRemoveFromMempool_adjusts (hok : ParentsOk pool)
    (hS : ∀ r ∈ S, pool.contains r = true) (hn : S.Nodup) :
    Adjusts pool (pool.updateForRemoveFromMempool S false) 0
      (fun h => -∑ r ∈ S.toFinset ∩ below pool.ids (Linked pool) h,
        pool.total ownDescendantTotals r) := by
  have hchildren : ∀ pool r, (updateChildrenForRemoval pool r).mapTx = pool.mapTx := fun pool r =>
    mapTx_foldl (f := fun pool updateIt => pool.updateParent updateIt r false)
      (fun _ _ => rfl) _ pool
  have h := (foldl_updateAncestorsOf_adjusts hok hS hn).trans
    (adjusts_of_mapTx (mapTx_foldl hchildren S _))
  rw [add_zero, add_zero] at h
  exact h

theorem updateForRemoveFromMempool_one (hok : LinksOk pool) {r : UInt256}
    (hr : pool.contains r = true) (hroot : ∀ p, ¬ Linked pool r p) :
    Adjusts pool (pool.updateForRemoveFromMempool [r] true) (fun h =>
      if h ∈ (pool.calculateDescendants r []).erase r then -pool.total ownAncestorTotals r else 0)
      0 := by
  have htotals := onlyTotals_subtractFromDescendants pool r
  have hsub := subtractFromDescendants_adjusts hok r
  have hlinked : Linked (pool.subtractFromDescendants r) = Linked pool := by
    funext c p
    rw [Linked, Linked, htotals.getMemPoolParents]
  have hrest := updateForRemoveFromMempool_adjusts
    (hok.parentsOk.congr htotals.core htotals.getMemPoolParents)
    (by simpa [hsub.contains] using hr) (nodup_singleton r)
  -- nothing is above `r`
  have hnone : ∀ h, ([r]).toFinset ∩
      below (pool.subtractFromDescendants r).ids
        (Linked (pool.subtractFromDescendants r)) h = ∅ := by
    intro h
    rw [hlinked, Finset.eq_empty_iff_forall_notMem]
    intro x hx
    rw [Finset.mem_inter, mem_toFinset, mem_singleton, mem_below] at hx
    obtain ⟨rfl, -, hx⟩ := hx
    obtain ⟨p, hp, -⟩ := TransGen.head'_iff.mp hx
    exact hroot p hp
  simp only [hnone] at hrest
  have h := hsub.trans hrest
  rw [add_zero] at h
  exact h

/-! ## Removing -/

theorem Removes.ids (h : Removes pool pool' S) : pool'.ids = pool.ids \ S.toFinset := by
  ext x
  rw [mem_ids, h.contains, Finset.mem_sdiff, mem_ids, mem_toFinset]

theorem Removes.restricts (h : Removes pool pool' S) :
    Restricts (Linked pool) (Linked pool') S.toFinset := by
  intro c p
  rw [mem_toFinset, mem_toFinset]
  exact h.parents c p

theorem total_removeStaged [Zero M] (f : CTxMemPoolEntry → M) (hok : LinksOk pool)
    (hS : ∀ r ∈ S, pool.contains r = true) (hn : S.Nodup) (upd : Bool) {h : UInt256} (hh : h ∉ S) :
    (pool.removeStaged S upd).total f h = (pool.updateForRemoveFromMempool S upd).total f h := by
  obtain ⟨hrel, -⟩ := updateForRemoveFromMempool_links hok S upd
  obtain ⟨htx, -⟩ := foldl_removeUnchecked (pool.updateForRemoveFromMempool S upd)
    (fun r hr => (contains_congr (hrel.core r)).trans (hS r hr)) hn
  unfold removeStaged total
  rw [htx, if_neg hh]

theorem sum_restrict [AddCommGroup M] {V S : Finset UInt256} {f f' : UInt256 → M}
    (hf : ∀ x ∉ S, f' x = f x) (o : M) :
    o + ∑ x ∈ V, f x - ∑ x ∈ S ∩ V, f x = o + ∑ x ∈ V \ S, f' x := by
  rw [← Finset.sum_inter_add_sum_sdiff V S f, Finset.inter_comm V S,
    Finset.sum_congr rfl fun x hx => hf x (Finset.mem_sdiff.mp hx).2]
  abel

theorem TotalsOver.restrict (ht : TotalsOver pool (Linked pool)) (hok : LinksOk pool)
    (hS : ∀ r ∈ S, pool.contains r = true) (hn : S.Nodup) {upd : Bool}
    (hclosed : Closed (Linked pool) S.toFinset) {δa : UInt256 → AncestorTotals}
    {δd : UInt256 → DescendantTotals}
    (hadj : Adjusts pool (pool.updateForRemoveFromMempool S upd) δa δd)
    (hδa : ∀ x ∉ S, pool.contains x = true → δa x =
      -∑ a ∈ S.toFinset ∩ above pool.ids (Linked pool) x, pool.total ownAncestorTotals a)
    (hδd : ∀ x ∉ S, pool.contains x = true → δd x =
      -∑ d ∈ S.toFinset ∩ below pool.ids (Linked pool) x, pool.total ownDescendantTotals d) :
    TotalsOver (pool.removeStaged S upd) (Linked (pool.removeStaged S upd)) := by
  have hrem := removeStaged_removes hok hS hn upd
  have hown : ∀ {M : Type} [Zero M] {f : CTxMemPoolEntry → M}, (∀ e, f e.core = f e) →
      ∀ x ∉ S.toFinset, (pool.removeStaged S upd).total f x = pool.total f x := by
    intro M _ f hf x hx
    refine total_congr hf ?_
    rw [hrem.core, if_neg (fun h => hx (mem_toFinset.mpr h))]
  refine ⟨fun x hx => ?_, fun x hx => ?_⟩
  · obtain ⟨hx, hxS⟩ := (hrem.contains x).mp hx
    have hxS' := fun h => hxS (mem_toFinset.mp h)
    rw [total_removeStaged _ hok hS hn upd hxS, hadj.ancestors x hx, hδa x hxS hx,
      ht.ancestors x hx, hrem.ids, above_restrict hrem.restricts hclosed hxS',
      hown (fun _ => rfl) x hxS']
    exact sum_restrict (hown fun _ => rfl) _
  · obtain ⟨hx, hxS⟩ := (hrem.contains x).mp hx
    have hxS' := fun h => hxS (mem_toFinset.mp h)
    rw [total_removeStaged _ hok hS hn upd hxS, hadj.descendants x hx, hδd x hxS hx,
      ht.descendants x hx, hrem.ids, below_restrict hrem.restricts hclosed hxS',
      hown (fun _ => rfl) x hxS']
    exact sum_restrict (hown fun _ => rfl) _

/-- **Removing entries with their descendants.** -/
theorem TotalsOver.removeStaged (ht : TotalsOver pool (Linked pool)) (hok : LinksOk pool)
    (hS : Stage pool S) :
    TotalsOver (pool.removeStaged S false) (Linked (pool.removeStaged S false)) := by
  have hlower : ∀ c p, Linked pool c p → p ∈ S.toFinset → c ∈ S.toFinset := by
    intro c p hcp hp
    rw [mem_toFinset] at hp ⊢
    exact hS.closed c p hcp hp
  refine ht.restrict hok hS.mem hS.nodup (.inl hlower)
    (updateForRemoveFromMempool_adjusts hok.parentsOk hS.mem hS.nodup) (fun x hx _ => ?_)
    fun _ _ _ => rfl
  -- nothing above an entry that stays is removed
  rw [inter_above_of_lower (removeStaged_removes hok hS.mem hS.nodup false).restricts hlower
    (fun h => hx (mem_toFinset.mp h))]
  rfl

/-- **Removing one entry without parents.** -/
theorem TotalsOver.removeOne (ht : TotalsOver pool (Linked pool)) (hok : LinksOk pool) {r : UInt256}
    (hr : pool.contains r = true) (hroot : ∀ p, ¬ Linked pool r p) :
    TotalsOver (pool.removeStaged [r] true) (Linked (pool.removeStaged [r] true)) := by
  have hmem : ∀ s ∈ [r], pool.contains s = true := by simpa using hr
  have hupper : ∀ c p, Linked pool c p → c ∈ [r].toFinset → p ∈ [r].toFinset := by
    intro c p hcp hc
    rw [mem_toFinset, mem_singleton] at hc
    exact absurd (hc ▸ hcp) (hroot p)
  refine ht.restrict hok hmem (nodup_singleton r) (.inr hupper)
    (updateForRemoveFromMempool_one hok hr hroot) (fun x hxr hx => ?_) fun x hxr _ => ?_
  · obtain ⟨hdesc, hnodup⟩ :=
      mem_calculateDescendants hok hr nodup_nil (fun _ hp => absurd hp not_mem_nil)
    have hne : x ≠ r := fun h => hxr (mem_singleton.mpr h)
    have hiff : x ∈ (pool.calculateDescendants r []).erase r ↔
        r ∈ above pool.ids (Linked pool) x := by
      rw [hnodup.mem_erase_iff, hdesc, reflTransGen_iff_eq_or_transGen]
      simp [hne, hne.symm, hr]
    rw [toFinset_cons, toFinset_nil, insert_empty_eq]
    by_cases hx : x ∈ (pool.calculateDescendants r []).erase r
    · rw [if_pos hx, Finset.singleton_inter_of_mem (hiff.mp hx), Finset.sum_singleton]
    · rw [if_neg hx, Finset.singleton_inter_of_notMem (fun h => hx (hiff.mpr h)), Finset.sum_empty,
        neg_zero]
  · rw [inter_below_of_upper (removeStaged_removes hok hmem (nodup_singleton r) true).restricts
      hupper (fun h => hxr (mem_toFinset.mp h))]
    rfl

/-! ## Adding -/

theorem sum_ownAncestorTotals (hA : ∀ a ∈ A, pool.contains a = true) :
    (A.map (pool.total ownAncestorTotals)).sum =
      ((A.length : Int), ((A.filterMap pool.mapTx.lookup).map fun e => (e.nTxSize : Int)).sum,
        ((A.filterMap pool.mapTx.lookup).map (·.getModifiedFee)).sum,
        ((A.filterMap pool.mapTx.lookup).map fun e => (e.sigOpCount : Int)).sum) := by
  induction A with
  | nil => rfl
  | cons a A ih =>
    obtain ⟨e, he⟩ := Option.isSome_iff_exists.mp (hA a mem_cons_self)
    rw [map_cons, sum_cons, ih fun b hb => hA b (mem_cons_of_mem a hb),
      total_of_lookup he, filterMap_cons, he]
    simp [ownAncestorTotals, add_comm]

theorem sum_ownDescendantTotals {D : List UInt256} (hD : ∀ d ∈ D, pool.contains d = true) :
    (D.map (pool.total ownDescendantTotals)).sum =
      ((D.length : Int), ((D.filterMap pool.mapTx.lookup).map fun e => (e.nTxSize : Int)).sum,
        ((D.filterMap pool.mapTx.lookup).map (·.getModifiedFee)).sum) := by
  induction D with
  | nil => rfl
  | cons d D ih =>
    obtain ⟨e, he⟩ := Option.isSome_iff_exists.mp (hD d mem_cons_self)
    rw [map_cons, sum_cons, ih fun b hb => hD b (mem_cons_of_mem d hb),
      total_of_lookup he, filterMap_cons, he]
    simp [ownDescendantTotals, add_comm]

theorem updateEntryForAncestors_adjusts (pool : CTxMemPool) (it : UInt256) (hn : A.Nodup)
    (hA : ∀ a ∈ A, pool.contains a = true) :
    Adjusts pool (pool.updateEntryForAncestors it A) (fun h =>
      if h = it then ∑ a ∈ A.toFinset, pool.total ownAncestorTotals a else 0) 0 := by
  have h := adjusts_foldl_ancestors (nodup_singleton it)
    (∑ a ∈ A.toFinset, pool.total ownAncestorTotals a) pool
  simp only [mem_singleton] at h
  refine cast ?_ h
  rw [sum_toFinset _ hn, sum_ownAncestorTotals hA]
  rfl

/-- An entry that has only itself in its totals. -/
structure Alone (e : CTxMemPoolEntry) : Prop where
  ancestors : e.ancestorTotals = e.ownAncestorTotals
  descendants : e.descendantTotals = e.ownDescendantTotals

theorem alone_new (tx : CTransaction) (nFee : CAmount) (nTime : Int) (spends : Bool)
    (sigOps : Nat) :
    Alone (.new tx nFee nTime spends sigOps) := by
  constructor <;>
    simp [ancestorTotals, descendantTotals, ownAncestorTotals, ownDescendantTotals, getModifiedFee,
      new]

theorem Alone.withFeeDelta {e : CTxMemPoolEntry} (h : Alone e) (pool : CTxMemPool) :
    Alone (pool.withFeeDelta e) := by
  have hupdate : ∀ delta, Alone (e.updateFeeDelta delta) := by
    intro delta
    have ha := h.ancestors
    have hd := h.descendants
    simp only [ancestorTotals, ownAncestorTotals, descendantTotals, ownDescendantTotals,
      getModifiedFee, Prod.mk.injEq] at ha hd
    constructor
    · simp only [ancestorTotals, ownAncestorTotals, updateFeeDelta, getModifiedFee, Prod.mk.injEq]
      exact ⟨ha.1, ha.2.1, by rw [ha.2.2.1]; abel, ha.2.2.2⟩
    · simp only [descendantTotals, ownDescendantTotals, updateFeeDelta, getModifiedFee,
        Prod.mk.injEq]
      exact ⟨hd.1, hd.2.1, by rw [hd.2.2]; abel⟩
  unfold CTxMemPool.withFeeDelta
  split
  · exact h
  · split_ifs
    · exact h
    · exact hupdate _

section
variable {entry : CTxMemPoolEntry}

theorem mapTx_parented : (pool.parented entry).mapTx = (pool.entered entry).mapTx :=
  mapTx_foldl (fun pool q => by split_ifs <;> rfl) _ _

variable {A : List UInt256}

theorem addUnchecked_totals (hnew : pool.contains entry.tx.hash = false)
    (hzc : entry.tx.hasZerocoinSpendInputs = false) (halone : Alone entry) (hn : A.Nodup)
    (hA : ∀ a ∈ A, pool.contains a = true) :
    (∀ h, (pool.addUnchecked entry A).contains h = true →
      (pool.addUnchecked entry A).total ancestorTotals h =
      if h = entry.tx.hash then (pool.withFeeDelta entry).ownAncestorTotals +
        ∑ a ∈ A.toFinset, pool.total ownAncestorTotals a
      else pool.total ancestorTotals h) ∧
    ∀ h, (pool.addUnchecked entry A).contains h = true →
      (pool.addUnchecked entry A).total descendantTotals h =
      if h = entry.tx.hash then (pool.withFeeDelta entry).ownDescendantTotals
      else pool.total descendantTotals h +
        if h ∈ A then (pool.withFeeDelta entry).ownDescendantTotals else 0 := by
  have htotal : ∀ {M : Type} [Zero M] (f : CTxMemPoolEntry → M) h,
      (pool.parented entry).total f h =
        if h = entry.tx.hash then f (pool.withFeeDelta entry) else pool.total f h := by
    intro M _ f h
    unfold total
    rw [mapTx_parented, lookup_mapTx_entered hnew]
    split_ifs <;> rfl
  have hnotin : entry.tx.hash ∉ A := fun h => ne_of_contains (hA _ h) hnew rfl
  have hone := updateAncestorsOf_adjusts (pool.parented entry) true entry.tx.hash hn
  have hcontains : ∀ a ∈ A, (pool.parented entry).contains a = true := by
    intro a ha
    have hne := ne_of_contains (hA a ha) hnew
    rw [contains, mapTx_parented, lookup_mapTx_entered hnew, if_neg hne]
    exact hA a ha
  have htwo := updateEntryForAncestors_adjusts
    ((pool.parented entry).updateAncestorsOf true entry.tx.hash A) entry.tx.hash hn
    (fun a ha => by rw [hone.contains]; exact hcontains a ha)
  have h := hone.trans htwo
  rw [zero_add, add_zero] at h
  have hsum : ∑ a ∈ A.toFinset, ((pool.parented entry).updateAncestorsOf true entry.tx.hash A).total
      ownAncestorTotals a = ∑ a ∈ A.toFinset, pool.total ownAncestorTotals a := by
    refine Finset.sum_congr rfl fun a ha => ?_
    rw [total_congr (fun _ => rfl) (hone.core a), htotal, if_neg]
    rintro rfl
    exact hnotin (mem_toFinset.mp ha)
  rw [hsum] at h
  rw [addUnchecked_eq hzc]
  have hdelta := halone.withFeeDelta pool
  refine ⟨fun x hx => ?_, fun x hx => ?_⟩
  · refine (h.ancestors x (by rw [← h.contains]; exact hx)).trans ?_
    rw [htotal]
    split_ifs
    · rw [hdelta.ancestors]
    · exact add_zero _
  · refine (h.descendants x (by rw [← h.contains]; exact hx)).trans ?_
    rw [htotal, htotal, if_pos rfl, if_pos rfl]
    by_cases hxe : x = entry.tx.hash
    · subst hxe
      rw [if_pos rfl, if_pos rfl, if_neg hnotin, add_zero, hdelta.descendants]
    · rw [if_neg hxe, if_neg hxe]

def NoSelfSpend (tx : CTransaction) : Prop := ∀ txin ∈ tx.vin, txin.prevout.hash ≠ tx.hash

instance (tx : CTransaction) : Decidable (NoSelfSpend tx) :=
  inferInstanceAs (Decidable (∀ txin ∈ tx.vin, txin.prevout.hash ≠ tx.hash))

section

variable (h : Adds pool pool' entry)

include h

theorem Adds.ids : pool'.ids = insert entry.tx.hash pool.ids := by
  ext x
  rw [mem_ids, h.contains, Finset.mem_insert, mem_ids]

theorem Adds.total_own {M : Type} [Zero M] {f : CTxMemPoolEntry → M}
    (hf : ∀ e, f e.core = f e) (x : UInt256) : pool'.total f x =
      if x = entry.tx.hash then f (pool.withFeeDelta entry) else pool.total f x := by
  rw [total_eq_core hf, h.core]
  split_ifs
  · exact hf _
  · rw [total_eq_core hf]

theorem Adds.sum_own {M : Type} [AddCommMonoid M] {f : CTxMemPoolEntry → M}
    (hf : ∀ e, f e.core = f e) {V : Finset UInt256} (hV : entry.tx.hash ∉ V) :
    ∑ x ∈ V, pool'.total f x = ∑ x ∈ V, pool.total f x := by
  refine Finset.sum_congr rfl fun x hx => ?_
  rw [h.total_own hf, if_neg]
  rintro rfl
  exact hV hx

theorem Adds.ids_sdiff (hnew : entry.tx.hash ∉ pool.ids) :
    pool'.ids \ {entry.tx.hash} = pool.ids := by
  rw [h.ids, ← Finset.erase_eq, Finset.erase_insert hnew]

variable (hok : LinksOk pool) (hnew : pool.contains entry.tx.hash = false)

include hok hnew

theorem Adds.restricts : Restricts (Linked pool') (Linked pool) {entry.tx.hash} := by
  have hne : ∀ {x}, pool.contains x = true → x ∉ ({entry.tx.hash} : Finset UInt256) :=
    fun hx hmem => ne_of_contains hx hnew (mem_singleton.mp hmem)
  intro c p
  constructor
  · intro hcp
    exact ⟨(h.parents c p).mpr (.inl hcp), hne (hok.mem_of_parent hcp),
      hne (hok.parent_mem c p hcp)⟩
  · rintro ⟨hcp, hc, -⟩
    rcases (h.parents c p).mp hcp with hold | ⟨rfl, -⟩
    · exact hold
    · exact absurd (mem_singleton_self _) hc

theorem Adds.lower (c p : UInt256) (hcp : Linked pool' c p)
    (hp : p ∈ ({entry.tx.hash} : Finset UInt256)) : c ∈ ({entry.tx.hash} : Finset UInt256) := by
  rcases (h.parents c p).mp hcp with hold | ⟨rfl, -⟩
  · exact absurd (mem_singleton.mp hp) (ne_of_contains (hok.parent_mem c p hold) hnew)
  · exact mem_singleton_self _

/-- The ancestors that were calculated are what is above the new entry. -/
theorem Adds.transGen_iff (hself : NoSelfSpend entry.tx) (a : UInt256) :
    TransGen (Linked pool') entry.tx.hash a ↔ ∃ p, pool.contains p = true ∧
      (∃ txin ∈ entry.tx.vin, txin.prevout.hash = p) ∧ ReflTransGen (Linked pool) p a := by
  have hparent : ∀ p, Linked pool' entry.tx.hash p ↔ pool.contains p = true ∧
      ∃ txin ∈ entry.tx.vin, txin.prevout.hash = p := by
    intro p
    refine (h.parents entry.tx.hash p).trans ?_
    rw [h.contains]
    constructor
    · rintro (hold | ⟨-, rfl | hp, hspend⟩)
      · exact absurd rfl (ne_of_contains (hok.mem_of_parent hold) hnew)
      · obtain ⟨txin, hin, heq⟩ := hspend
        exact absurd heq (hself txin hin)
      · exact ⟨hp, hspend⟩
    · rintro ⟨hp, hspend⟩
      exact .inr ⟨rfl, .inr hp, hspend⟩
  rw [TransGen.head'_iff]
  refine exists_congr fun p => ?_
  rw [hparent, and_assoc]
  refine and_congr_right fun hp => and_congr_right fun _ => ?_
  have hpnew : p ∉ ({entry.tx.hash}) := fun hmem =>
    ne_of_contains hp hnew (mem_singleton.mp hmem)
  rw [reflTransGen_iff_eq_or_transGen, reflTransGen_iff_eq_or_transGen]
  refine or_congr_right ⟨fun hpa => ?_, (h.restricts hok hnew).mono⟩
  exact ((h.restricts hok hnew).transGen_of_lower (h.lower hok hnew) hpnew hpa).2

variable (ht : TotalsOver pool (Linked pool)) (hA : ∀ a ∈ A, pool.contains a = true)
  (hreach : ∀ a, TransGen (Linked pool') entry.tx.hash a ↔ a ∈ A)

include ht hA hreach

theorem Adds.ancestors_over (htotal : ∀ x, pool'.contains x = true → pool'.total ancestorTotals x =
      if x = entry.tx.hash then (pool.withFeeDelta entry).ownAncestorTotals +
        ∑ a ∈ A.toFinset, pool.total ownAncestorTotals a
      else pool.total ancestorTotals x) {x : UInt256} (hx : pool'.contains x = true) :
    pool'.total ancestorTotals x = pool'.total ownAncestorTotals x +
      ∑ a ∈ above pool'.ids (Linked pool') x, pool'.total ownAncestorTotals a := by
  have hnotids : entry.tx.hash ∉ pool.ids := fun hmem =>
    ne_of_contains (mem_ids.mp hmem) hnew rfl
  rw [htotal x hx, h.total_own fun _ => rfl]
  by_cases hxe : x = entry.tx.hash
  · have habove : above pool'.ids (Linked pool') x = A.toFinset := by
      ext a
      rw [mem_above, hxe, hreach, mem_toFinset, mem_ids]
      exact and_iff_right_of_imp fun ha => (h.contains a).mpr (.inr (hA a ha))
    rw [if_pos hxe, if_pos hxe, habove, h.sum_own fun _ => rfl]
    exact fun hmem => hnotids (mem_ids.mpr (hA _ (mem_toFinset.mp hmem)))
  · have hx' := ((h.contains x).mp hx).resolve_left hxe
    rw [if_neg hxe, if_neg hxe, ← above_restrict_of_lower (h.restricts hok hnew) (h.lower hok hnew)
      (fun hmem => hxe (mem_singleton.mp hmem)), h.ids_sdiff hnotids, h.sum_own fun _ => rfl]
    · exact ht.ancestors x hx'
    · exact fun hmem => hnotids (mem_above.mp hmem).1

theorem Adds.descendants_over
    (htotal : ∀ x, pool'.contains x = true → pool'.total descendantTotals x =
      if x = entry.tx.hash then (pool.withFeeDelta entry).ownDescendantTotals
      else pool.total descendantTotals x +
        if x ∈ A then (pool.withFeeDelta entry).ownDescendantTotals else 0) {x : UInt256}
    (hx : pool'.contains x = true) :
    pool'.total descendantTotals x = pool'.total ownDescendantTotals x +
      ∑ d ∈ below pool'.ids (Linked pool') x, pool'.total ownDescendantTotals d := by
  have hnotin : entry.tx.hash ∉ A := fun hmem => ne_of_contains (hA _ hmem) hnew rfl
  have hnotids : entry.tx.hash ∉ pool.ids := fun hmem =>
    ne_of_contains (mem_ids.mp hmem) hnew rfl
  have hlower := h.lower hok hnew
  rw [htotal x hx, h.total_own fun _ => rfl]
  by_cases hxe : x = entry.tx.hash
  · have hbelow : below pool'.ids (Linked pool') x = ∅ := by
      rw [Finset.eq_empty_iff_forall_notMem]
      intro d hd
      obtain ⟨q, -, hqx⟩ := TransGen.tail'_iff.mp (mem_below.mp hd).2
      have hq := hlower q x hqx (mem_singleton.mpr hxe)
      rw [hxe, mem_singleton.mp hq] at hqx
      exact hnotin ((hreach _).mp (.single hqx))
    rw [if_pos hxe, if_pos hxe, hbelow, Finset.sum_empty, add_zero]
  · have hx' := ((h.contains x).mp hx).resolve_left hxe
    -- below an entry that was there before, at most the new one is added
    have hbelow : below pool.ids (Linked pool) x =
        (below pool'.ids (Linked pool') x).erase entry.tx.hash := by
      have hrestrict := below_restrict (V := pool'.ids) (h.restricts hok hnew) (.inl hlower)
        (fun hmem => hxe (mem_singleton.mp hmem))
      rwa [h.ids_sdiff hnotids, ← Finset.erase_eq] at hrestrict
    have hiff : entry.tx.hash ∈ below pool'.ids (Linked pool') x ↔ x ∈ A := by
      rw [mem_below, hreach, mem_ids]
      exact and_iff_right ((h.contains _).mpr (.inl rfl))
    rw [if_neg hxe, if_neg hxe, ht.descendants x hx', hbelow, add_assoc]
    by_cases hxA : x ∈ A
    · rw [if_pos hxA, ← Finset.add_sum_erase _ _ (hiff.mpr hxA), h.total_own (fun _ => rfl),
        if_pos rfl, h.sum_own (fun _ => rfl) (Finset.notMem_erase _ _),
        add_comm (pool.withFeeDelta entry).ownDescendantTotals]
    · have hnot := fun hmem => hxA (hiff.mp hmem)
      rw [if_neg hxA, add_zero, Finset.erase_eq_of_notMem hnot, h.sum_own (fun _ => rfl) hnot]

end

/-- **Adding an entry**: the totals stay the sums along the links. -/
theorem TotalsOver.addUnchecked (ht : TotalsOver pool (Linked pool)) (hok : LinksOk pool)
    (hnew : pool.contains entry.tx.hash = false) (hzc : entry.tx.hasZerocoinSpendInputs = false)
    (hself : NoSelfSpend entry.tx) (halone : Alone entry) {limits : Option AncestorLimits}
    (hA : pool.calculateMemPoolAncestors entry limits true = .ok A) :
    TotalsOver (pool.addUnchecked entry A) (Linked (pool.addUnchecked entry A)) := by
  have hadds := addUnchecked_adds hok hnew hzc A
  obtain ⟨hmem, hn⟩ := calculateMemPoolAncestors_ok hok hA
  have hAin : ∀ a ∈ A, pool.contains a = true := by
    intro a ha
    obtain ⟨p, hp, -, hpa⟩ := (hmem a).mp ha
    rcases reflTransGen_iff_eq_or_transGen.mp hpa with rfl | hpa
    · exact hp
    · obtain ⟨q, -, hqa⟩ := TransGen.tail'_iff.mp hpa
      exact hok.parent_mem q a hqa
  obtain ⟨hanc, hdesc⟩ := addUnchecked_totals hnew hzc halone hn hAin
  have hreach : ∀ a, TransGen (Linked (pool.addUnchecked entry A)) entry.tx.hash a ↔ a ∈ A :=
    fun a => (hadds.transGen_iff hok hnew hself a).trans (hmem a).symm
  exact ⟨fun x hx => hadds.ancestors_over hok hnew ht hAin hreach hanc hx,
    fun x hx => hadds.descendants_over hok hnew ht hAin hreach hdesc hx⟩

end

end CTxMemPool

end Passion
