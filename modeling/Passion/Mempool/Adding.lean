import Passion.Mempool.Links

/-!
# Adding a transaction

`addUnchecked` links the new entry to the entries whose outputs it spends (`addUnchecked_adds`). It
does not look for entries that spend the outputs of the new one.
-/

namespace Passion

open Lib (Map)

namespace CTxMemPool

open CTxMemPoolEntry

variable {pool pool' : CTxMemPool}

/-- The transaction of `entry` is in the pool, linked to its parents, with its inputs and
nullifiers. -/
structure Adds (pool pool' : CTxMemPool) (entry : CTxMemPoolEntry) : Prop where
  core : ∀ h, pool'.core h =
    if h = entry.tx.hash then some (pool.withFeeDelta entry).core else pool.core h
  keys : ∀ h, (pool'.mapLinks.lookup h).isSome = pool'.contains h
  parents : ∀ c p, p ∈ pool'.getMemPoolParents c ↔ p ∈ pool.getMemPoolParents c ∨
    c = entry.tx.hash ∧ pool'.contains p = true ∧ ∃ txin ∈ entry.tx.vin, txin.prevout.hash = p
  children : ∀ c p, c ∈ pool'.getMemPoolChildren p ↔ c ∈ pool.getMemPoolChildren p ∨
    c = entry.tx.hash ∧ p ∈ pool'.getMemPoolParents c
  parents_nodup : ∀ h, (pool'.getMemPoolParents h).Nodup
  children_nodup : ∀ h, (pool'.getMemPoolChildren h).Nodup
  next : ∀ o, pool'.mapNextTx.lookup o = (pool.mapNextTx.lookup o).or
    (if o ∈ entry.tx.vin.map (·.prevout) then some entry.tx else none)
  nullifiers : ∀ nf, pool'.mapSaplingNullifiers.lookup nf =
    if nf ∈ entry.tx.shieldedNullifiers then some entry.tx else pool.mapSaplingNullifiers.lookup nf
  deltas : pool'.mapDeltas = pool.mapDeltas

theorem withFeeDelta_tx (pool : CTxMemPool) (entry : CTxMemPoolEntry) :
    (pool.withFeeDelta entry).tx = entry.tx := by
  unfold withFeeDelta
  split
  · rfl
  · split_ifs <;> rfl

variable {entry : CTxMemPoolEntry}

theorem Adds.contains (h : Adds pool pool' entry) (x : UInt256) :
    pool'.contains x = true ↔ x = entry.tx.hash ∨ pool.contains x = true := by
  rw [contains_eq_isSome_core, contains_eq_isSome_core, h.core]
  split_ifs with hx <;> simp [hx]

theorem LinksOk.adds (hok : LinksOk pool) (h : Adds pool pool' entry) : LinksOk pool' := by
  refine ⟨fun x e hx => ?_, h.keys, fun c p => ?_, fun c p hp => ?_, h.parents_nodup,
    h.children_nodup⟩
  · rw [h.core] at hx
    split_ifs at hx with heq
    · cases hx
      rw [core_tx, withFeeDelta_tx, heq]
    · exact hok.hash x e hx
  · rw [h.children, ← hok.symm]
    constructor
    · intro hp
      rcases (h.parents c p).mp hp with hold | ⟨hc, -⟩
      · exact .inl hold
      · exact .inr ⟨hc, hp⟩
    · rintro (hold | ⟨-, hp⟩)
      · exact (h.parents c p).mpr (.inl hold)
      · exact hp
  · rcases (h.parents c p).mp hp with hold | ⟨-, hp, -⟩
    · exact (h.contains p).mpr (.inr (hok.parent_mem c p hold))
    · exact hp

/-! ## The steps of `addUnchecked` -/

theorem foldl_addParents (newit : UInt256) (ps : List UInt256) (pool : CTxMemPool)
    (hlinks : (pool.mapLinks.lookup newit).isSome = true) :
    let pool' := ps.foldl (fun pool phash =>
      if pool.contains phash then pool.updateParent newit phash true else pool) pool
    SameButLinks pool pool' ∧
    (∀ h, (pool'.mapLinks.lookup h).isSome = (pool.mapLinks.lookup h).isSome) ∧
    (∀ h, pool'.getMemPoolChildren h = pool.getMemPoolChildren h) ∧
    (∀ h, (pool.getMemPoolParents h).Nodup → (pool'.getMemPoolParents h).Nodup) ∧
    ∀ c p, p ∈ pool'.getMemPoolParents c ↔ p ∈ pool.getMemPoolParents c ∨
      c = newit ∧ pool.contains p = true ∧ p ∈ ps := by
  induction ps generalizing pool with
  | nil => exact ⟨rfl, fun _ => rfl, fun _ => rfl, fun _ => id, fun c p => by simp⟩
  | cons q ps ih =>
    rw [List.foldl_cons]
    by_cases hq : pool.contains q = true
    · rw [if_pos hq]
      have hkeys1 := isSome_mapLinks_updateParent pool newit q
      obtain ⟨hsame, hkeys, hchildren, hnodup, hparents⟩ :=
        ih (pool.updateParent newit q true) (by rw [hkeys1]; exact hlinks)
      have hread := fun h => lookup_updateParent pool newit q h true
      refine ⟨hsame, fun h => (hkeys h).trans (hkeys1 h true),
        fun h => (hchildren h).trans (hread h).1, fun h hn => hnodup h ?_, fun c p => ?_⟩
      · rw [(hread h).2]
        simp only
        split_ifs
        · exact hn.insert
        · exact hn
      · refine (hparents c p).trans ?_
        rw [(hread c).2]
        simp only [hlinks]
        by_cases hc : c = newit
        · subst hc
          simp only [if_true, List.mem_insert_iff, List.mem_cons, true_and]
          constructor
          · rintro ((rfl | hp) | ⟨hp, hps⟩)
            · exact .inr ⟨hq, .inl rfl⟩
            · exact .inl hp
            · exact .inr ⟨hp, .inr hps⟩
          · rintro (hp | ⟨hp, rfl | hps⟩)
            · exact .inl (.inr hp)
            · exact .inl (.inl rfl)
            · exact .inr ⟨hp, hps⟩
        · simp [hc]
    · rw [if_neg hq]
      obtain ⟨hsame, hkeys, hchildren, hnodup, hparents⟩ := ih pool hlinks
      refine ⟨hsame, hkeys, hchildren, hnodup, fun c p => (hparents c p).trans ?_⟩
      simp only [List.mem_cons]
      constructor
      · rintro (hp | ⟨hc, hp, hps⟩)
        · exact .inl hp
        · exact .inr ⟨hc, hp, .inr hps⟩
      · rintro (hp | ⟨hc, hp, rfl | hps⟩)
        · exact .inl hp
        · exact absurd hp hq
        · exact .inr ⟨hc, hp, hps⟩

/-- The pool once `addUnchecked` has made the entry, without links, and recorded its inputs. -/
def entered (pool : CTxMemPool) (entry : CTxMemPoolEntry) : CTxMemPool :=
  insertInputs { pool with
    mapTx := pool.mapTx.insertNew entry.tx.hash (pool.withFeeDelta entry)
    mapLinks := pool.mapLinks.insertNew entry.tx.hash ⟨[], []⟩ } entry.tx

def parented (pool : CTxMemPool) (entry : CTxMemPoolEntry) : CTxMemPool :=
  (entry.tx.vin.map (·.prevout.hash)).foldl (fun pool phash =>
    if pool.contains phash then pool.updateParent entry.tx.hash phash true else pool)
    (pool.entered entry)

theorem addUnchecked_eq (hzc : entry.tx.hasZerocoinSpendInputs = false) (A : List UInt256) :
    pool.addUnchecked entry A =
      (((pool.parented entry).updateAncestorsOf true entry.tx.hash A).updateEntryForAncestors
        entry.tx.hash A).insertNullifiers entry.tx := by
  simp only [addUnchecked, hzc]
  rfl

section
variable {entry : CTxMemPoolEntry}

theorem lookup_mapTx_entered (hnew : pool.contains entry.tx.hash = false) (h : UInt256) :
    (pool.entered entry).mapTx.lookup h =
      if h = entry.tx.hash then some (pool.withFeeDelta entry) else pool.mapTx.lookup h := by
  change (pool.mapTx.insertNew entry.tx.hash (pool.withFeeDelta entry)).lookup h = _
  rw [Map.lookup_insertNew, Option.isNone_iff_eq_none.mp (Option.isSome_eq_false_iff.mp hnew)]
  rfl

theorem core_entered (hnew : pool.contains entry.tx.hash = false) (h : UInt256) :
    (pool.entered entry).core h =
      if h = entry.tx.hash then some (pool.withFeeDelta entry).core else pool.core h := by
  rw [core, lookup_mapTx_entered hnew]
  split_ifs <;> rfl

section

variable (hok : LinksOk pool) (hnew : pool.contains entry.tx.hash = false)

include hok hnew

theorem LinksOk.lookup_entered (h : UInt256) : (pool.entered entry).mapLinks.lookup h =
      if h = entry.tx.hash then some ⟨[], []⟩ else pool.mapLinks.lookup h := by
  rw [← hok.keys] at hnew
  change (pool.mapLinks.insertNew entry.tx.hash ⟨[], []⟩).lookup h = _
  rw [Map.lookup_insertNew, Option.isNone_iff_eq_none.mp (Option.isSome_eq_false_iff.mp hnew)]
  rfl

theorem LinksOk.links_entered (h : UInt256) :
    (pool.entered entry).getMemPoolParents h = pool.getMemPoolParents h ∧
      (pool.entered entry).getMemPoolChildren h = pool.getMemPoolChildren h := by
  unfold getMemPoolParents getMemPoolChildren
  rw [hok.lookup_entered hnew]
  split_ifs with hh
  · rw [← hok.keys, ← hh] at hnew
    rw [Option.isNone_iff_eq_none.mp (Option.isSome_eq_false_iff.mp hnew)]
    exact ⟨rfl, rfl⟩
  · exact ⟨rfl, rfl⟩

/-- The links of the pool once the parents are set. -/
structure Parented (pool : CTxMemPool) (entry : CTxMemPoolEntry) : Prop where
  same : SameButLinks (pool.entered entry) (pool.parented entry)
  core : ∀ h, (pool.parented entry).core h =
    if h = entry.tx.hash then some (pool.withFeeDelta entry).core else pool.core h
  keys : ∀ h, ((pool.parented entry).mapLinks.lookup h).isSome = (pool.parented entry).contains h
  children : ∀ h, (pool.parented entry).getMemPoolChildren h = pool.getMemPoolChildren h
  parents_nodup : ∀ h, ((pool.parented entry).getMemPoolParents h).Nodup
  parents : ∀ c p, p ∈ (pool.parented entry).getMemPoolParents c ↔
    p ∈ pool.getMemPoolParents c ∨ c = entry.tx.hash ∧ (pool.parented entry).contains p = true ∧
      ∃ txin ∈ entry.tx.vin, txin.prevout.hash = p

theorem LinksOk.parented : Parented pool entry := by
  have hlinks := hok.links_entered hnew
  obtain ⟨hsame, hkeys, hchildren, hnodup, hparents⟩ := foldl_addParents entry.tx.hash
    (entry.tx.vin.map (·.prevout.hash)) (pool.entered entry)
    (by rw [hok.lookup_entered hnew, if_pos rfl]; rfl)
  have hcontains : ∀ h, (pool.parented entry).contains h = (pool.entered entry).contains h :=
    fun h => contains_congr hsame.core
  refine ⟨hsame, fun h => hsame.core.trans (core_entered hnew h), fun h => ?_,
    fun h => (hchildren h).trans (hlinks h).2, fun h => hnodup h ?_, fun c p => ?_⟩
  · rw [hcontains, contains_eq_isSome_core, core_entered hnew]
    refine (hkeys h).trans ?_
    rw [hok.lookup_entered hnew]
    split_ifs
    · rfl
    · rw [hok.keys, contains_eq_isSome_core]
  · rw [(hlinks h).1]
    exact hok.parents_nodup h
  · rw [hcontains, ← (hlinks c).1, ← List.mem_map]
    exact hparents c p

/-- **`addUnchecked` adds the transaction**, whatever ancestors it is told. -/
theorem addUnchecked_adds (hzc : entry.tx.hasZerocoinSpendInputs = false) (A : List UInt256) :
    Adds pool (pool.addUnchecked entry A) entry := by
  have hset := hok.parented hnew
  obtain ⟨hrel, hparents, hchildren⟩ :=
    updateAncestorsOf_links (pool.parented entry) true A (hset.parents_nodup entry.tx.hash)
  simp only [if_true] at hchildren
  have htotals : OnlyTotals ((pool.parented entry).updateAncestorsOf true entry.tx.hash A)
      (((pool.parented entry).updateAncestorsOf true entry.tx.hash A).updateEntryForAncestors
        entry.tx.hash A) := onlyTotals_modify _ _ fun _ => rfl
  rw [addUnchecked_eq hzc]
  generalize hpool1 : (pool.parented entry).updateAncestorsOf true entry.tx.hash A = pool1 at *
  generalize hpool2 : pool1.updateEntryForAncestors entry.tx.hash A = pool2 at *
  -- the nullifiers come last and touch neither entries nor links
  have hcore : ∀ h, (pool2.insertNullifiers entry.tx).core h = (pool.parented entry).core h :=
    fun h => (htotals.core h).trans (hrel.core h)
  have hcontains : ∀ h,
      (pool2.insertNullifiers entry.tx).contains h = (pool.parented entry).contains h :=
    fun h => contains_congr (hcore h)
  have hparents' : ∀ h, (pool2.insertNullifiers entry.tx).getMemPoolParents h =
      (pool.parented entry).getMemPoolParents h :=
    fun h => (htotals.getMemPoolParents h).trans (hparents h)
  have hchildren' : ∀ h, (pool2.insertNullifiers entry.tx).getMemPoolChildren h =
      pool1.getMemPoolChildren h := htotals.getMemPoolChildren
  have hrest : pool2 = { pool2 with
      mapNextTx := (pool.entered entry).mapNextTx
      mapSaplingNullifiers := pool.mapSaplingNullifiers
      mapDeltas := pool.mapDeltas } := by
    rw [htotals.rest, hrel.rest, hset.same]
    rfl
  refine ⟨fun h => (hcore h).trans (hset.core h), fun h => ?_, fun c p => ?_, fun c p => ?_,
    fun h => ?_, fun h => ?_, fun o => ?_, fun nf => ?_, ?_⟩
  · rw [hcontains, ← hset.keys, ← hrel.keys, ← htotals.mapLinks]
    rfl
  · rw [hparents', hset.parents, hcontains]
  · rw [hchildren', hchildren, hset.children, hparents']
    by_cases hp : p ∈ (pool.parented entry).getMemPoolParents entry.tx.hash
    · have hpmem : (pool.parented entry).contains p = true := by
        rcases (hset.parents entry.tx.hash p).mp hp with hold | ⟨-, hp, -⟩
        · exact absurd rfl (ne_of_contains (hok.mem_of_parent hold) hnew)
        · exact hp
      rw [if_pos ⟨hp, by rw [hset.keys]; exact hpmem⟩, List.mem_insert_iff]
      constructor
      · rintro (rfl | hc)
        · exact .inr ⟨rfl, hp⟩
        · exact .inl hc
      · rintro (hc | ⟨hc, -⟩)
        · exact .inr hc
        · exact .inl hc
    · rw [if_neg fun h => hp h.1]
      refine ⟨.inl, fun h => h.elim id fun hc => absurd ?_ hp⟩
      rw [← hc.1]
      exact hc.2
  · rw [hparents']
    exact hset.parents_nodup h
  · rw [hchildren', hchildren, hset.children]
    split_ifs
    · exact (hok.children_nodup h).insert
    · exact hok.children_nodup h
  · have hnext :=
      Map.lookup_foldl_insertNew entry.tx (entry.tx.vin.map (·.prevout)) pool.mapNextTx o
    rw [List.foldl_map] at hnext
    rw [hrest]
    exact hnext
  · rw [hrest]
    exact Map.lookup_foldl_insert entry.tx entry.tx.shieldedNullifiers pool.mapSaplingNullifiers nf
  · rw [hrest]
    rfl

end

end

end CTxMemPool

end Passion
