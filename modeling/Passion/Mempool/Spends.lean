import Passion.Mempool.Totals

/-!
# Links and spends

`Consistent pool R` is what holds between calls, where `R` are the ids that were added again since
the last `UpdateTransactionsFromBlock`. Transactions that were disconnected come back into a pool
that may hold their descendants. Their links to those are missing until the update, so the links are
the spends except those of an id in `R` by one that is not (`Consistent.linked`), and the totals are
sums along the links that there are.
-/

namespace Passion

open Lib (Map)
open List
open Lib.Dag Relation

namespace CTxMemPool

open CTxMemPoolEntry

variable {pool pool' : CTxMemPool} {R S : List UInt256} {entry : CTxMemPoolEntry}

/-- The transaction `c` spends an output of `p`, and both are in the pool. -/
def Spends (pool : CTxMemPool) (c p : UInt256) : Prop :=
  pool.contains p = true ∧
    ∃ e, pool.mapTx.lookup c = some e ∧ ∃ txin ∈ e.tx.vin, txin.prevout.hash = p

variable {c p : UInt256}

theorem spends_iff : Spends pool c p ↔ pool.contains p = true ∧
    ∃ e, pool.core c = some e ∧ ∃ txin ∈ e.tx.vin, txin.prevout.hash = p := by
  unfold Spends core
  cases pool.mapTx.lookup c <;> simp

theorem Spends.child_mem (h : Spends pool c p) : pool.contains c = true := by
  obtain ⟨-, e, he, -⟩ := h
  rw [contains, he]
  rfl

theorem spends_congr (h : ∀ x, pool'.core x = pool.core x) : Spends pool' = Spends pool := by
  funext c p
  rw [spends_iff, spends_iff, contains_eq_isSome_core, contains_eq_isSome_core, h, h]

theorem Removes.spends (h : Removes pool pool' S) :
    Spends pool' c p ↔ Spends pool c p ∧ c ∉ S ∧ p ∉ S := by
  rw [spends_iff, spends_iff, h.contains, h.core]
  by_cases hc : c ∈ S
  · simp [hc]
  · simp only [hc, not_false_eq_true]
    tauto

theorem Adds.spends (h : Adds pool pool' entry) (hnew : pool.contains entry.tx.hash = false) :
    Spends pool' c p ↔ Spends pool c p ∨
      (c = entry.tx.hash ∧ pool'.contains p = true ∧ ∃ txin ∈ entry.tx.vin, txin.prevout.hash = p) ∨
      (p = entry.tx.hash ∧ ∃ e, pool.core c = some e ∧
        ∃ txin ∈ e.tx.vin, txin.prevout.hash = p) := by
  rw [spends_iff, spends_iff, h.core]
  by_cases hc : c = entry.tx.hash
  · have hnone : pool.core c = none := by
      rw [← Option.isNone_iff_eq_none, ← Option.isSome_eq_false_iff, ← contains_eq_isSome_core, hc]
      exact hnew
    rw [if_pos hc, hnone]
    simp only [Option.some.injEq, exists_eq_left', core_tx, withFeeDelta_tx, hc, true_and,
      reduceCtorEq, false_and, exists_false, and_false, false_or, or_false]
  · rw [if_neg hc, h.contains]
    simp only [hc, false_and, false_or]
    rw [or_and_right, or_comm]

/-- Links, indexes and totals while the ids in `R` wait for the update. -/
structure Consistent (pool : CTxMemPool) (R : List UInt256) : Prop where
  sound : Sound pool
  linked : ∀ c p, Linked pool c p ↔ Spends pool c p ∧ ¬ (p ∈ R ∧ c ∉ R)
  parents_readded : ∀ r ∈ R, ∀ p, Spends pool r p → p ∈ R
  order : R.Pairwise fun a b => ¬ Spends pool a b
  nodup : R.Nodup
  totals : TotalsOver pool (Linked pool)

theorem consistent_empty : Consistent empty [] where
  sound := sound_empty
  linked _ _ := ⟨nofun, fun h => (nomatch h.1.1)⟩
  parents_readded _ h := nomatch h
  order := .nil
  nodup := .nil
  totals := ⟨nofun, nofun⟩

/-! ## Removing -/

theorem Consistent.removes (h : Consistent pool R) (hS : Removes pool pool' S)
    (ht : TotalsOver pool' (Linked pool')) : Consistent pool' R where
  sound := h.sound.removes hS
  linked c p := by
    rw [Linked, hS.parents, hS.spends]
    have := h.linked c p
    rw [Linked] at this
    tauto
  parents_readded r hr p hp := h.parents_readded r hr p (hS.spends.mp hp).1
  order := h.order.imp fun hnot hp => hnot (hS.spends.mp hp).1
  nodup := h.nodup
  totals := ht

theorem Consistent.clearPrioritisation (h : Consistent pool R) (hash : UInt256) :
    Consistent (pool.clearPrioritisation hash) R :=
  ⟨h.sound.clearPrioritisation hash, h.linked, h.parents_readded, h.order, h.nodup,
    ⟨h.totals.ancestors, h.totals.descendants⟩⟩

theorem Consistent.trims (h : Consistent pool R) (ht : Trims pool pool') : Consistent pool' R := by
  induction ht with
  | refl => exact h
  | @stage pool _ S hS _ ih =>
    refine ih (h.removes (removeStaged_removes h.sound.links hS.mem hS.nodup false) ?_)
    exact h.totals.removeStaged h.sound.links hS
  | forget hash _ ih => exact ih (h.clearPrioritisation hash)

/-- An entry that spends nothing in the pool may leave without its descendants. -/
theorem Consistent.removeOne (h : Consistent pool R) {r : UInt256} (hr : pool.contains r = true)
    (hroot : ∀ p, ¬ Spends pool r p) : Consistent (pool.removeStaged [r] true) R := by
  refine h.removes (removeStaged_removes h.sound.links (by simpa using hr) (nodup_singleton r)
    true) ?_
  exact h.totals.removeOne h.sound.links hr fun p hp => hroot p ((h.linked r p).mp hp).1

/-- The order of a block: what an entry of the block spends in the pool stands before it. -/
def BlockOrder (pool : CTxMemPool) (vtx : List CTransaction) : Prop :=
  ∀ before tx after, vtx = before ++ tx :: after →
    ∀ p, Spends pool tx.hash p → p ∈ before.map (·.hash)

/-- Fewer entries: those of `pool'` are as in `pool`. -/
def Fewer (pool pool' : CTxMemPool) : Prop :=
  ∀ h e, pool'.core h = some e → pool.core h = some e

theorem Fewer.spends (h : Fewer pool pool') (hcp : Spends pool' c p) : Spends pool c p := by
  obtain ⟨hp, e, he, hspend⟩ := spends_iff.mp hcp
  rw [contains_eq_isSome_core] at hp
  obtain ⟨e', he'⟩ := Option.isSome_iff_exists.mp hp
  refine spends_iff.mpr ⟨?_, e, h c e he, hspend⟩
  rw [contains_eq_isSome_core, h p e' he']
  rfl

theorem Removes.fewer (h : Removes pool pool' S) : Fewer pool pool' := by
  intro x e hx
  rw [h.core] at hx
  split_ifs at hx
  exact hx

theorem Trims.fewer (h : Trims pool pool') (hsound : Sound pool) : Fewer pool pool' := by
  induction h with
  | refl => exact fun _ _ => id
  | stage S hS _ ih =>
    have hrem := removeStaged_removes hsound.links hS.mem hS.nodup false
    exact fun x e hx => hrem.fewer x e (ih (hsound.removes hrem) x e hx)
  | forget hash _ ih => exact ih (hsound.clearPrioritisation hash)

theorem Consistent.removeForBlockTx (h : Consistent pool R) {tx : CTransaction}
    (hroot : ∀ p, ¬ Spends pool tx.hash p) :
    Consistent (pool.removeForBlockTx tx) R ∧ Fewer pool (pool.removeForBlockTx tx) ∧
      (pool.removeForBlockTx tx).contains tx.hash = false := by
  unfold CTxMemPool.removeForBlockTx
  generalize hpool : (if pool.contains tx.hash then pool.removeStaged [tx.hash] true else pool) =
    pool1
  have hone : Consistent pool1 R ∧ Fewer pool pool1 ∧ pool1.core tx.hash = none := by
    rw [← hpool]
    split_ifs with hin
    · have hrem := removeStaged_removes h.sound.links (by simpa using hin)
        (nodup_singleton tx.hash) true
      refine ⟨h.removeOne hin hroot, hrem.fewer, ?_⟩
      rw [hrem.core, if_pos (mem_singleton_self _)]
    · refine ⟨h, fun _ _ => id, ?_⟩
      rw [← Option.isNone_iff_eq_none, ← Option.isSome_eq_false_iff, ← contains_eq_isSome_core]
      exact Bool.eq_false_iff.mpr hin
  obtain ⟨hcons, hfewer, hgone⟩ := hone
  have htrims := trims_removeConflicts tx hcons.sound
  have hfewer' := htrims.fewer hcons.sound
  refine ⟨(hcons.trims htrims).clearPrioritisation tx.hash,
    fun x e hx => hfewer x e (hfewer' x e hx), ?_⟩
  rw [contains_eq_isSome_core]
  cases hx : (pool1.removeConflicts tx).core tx.hash with
  | none => exact congrArg Option.isSome hx
  | some e =>
    rw [hfewer' _ e hx] at hgone
    cases hgone

/-- **`removeForBlock`** for a block whose transactions stand in order. -/
theorem Consistent.removeForBlock (h : Consistent pool R) {vtx : List CTransaction}
    (horder : BlockOrder pool vtx) : Consistent (pool.removeForBlock vtx) R := by
  -- what the transactions before `tx` were is gone when it is its turn
  have hgen : ∀ (vtx before) pool', Consistent pool' R →
      Fewer pool pool' → (∀ tx ∈ before, pool'.contains tx.hash = false) →
      BlockOrder pool (before ++ vtx) → Consistent (pool'.removeForBlock vtx) R := by
    intro vtx
    induction vtx with
    | nil => exact fun _ _ hcons _ _ _ => hcons
    | cons tx vtx ih =>
      intro before pool' hcons hfewer hgone horder
      have hroot : ∀ p, ¬ Spends pool' tx.hash p := by
        intro p hp
        have hmem := horder before tx vtx rfl p (hfewer.spends hp)
        obtain ⟨t, ht, rfl⟩ := mem_map.mp hmem
        have hin := hp.1
        rw [hgone t ht] at hin
        cases hin
      obtain ⟨hcons', hfewer', hgone'⟩ := hcons.removeForBlockTx hroot
      refine ih (before ++ [tx]) _ hcons' (fun x e hx => hfewer x e (hfewer' x e hx)) ?_ ?_
      · intro t ht
        rcases mem_append.mp ht with ht | ht
        · rw [contains_eq_isSome_core]
          cases hx : (pool'.removeForBlockTx tx).core t.hash with
          | none => rfl
          | some e =>
            have hold := hgone t ht
            rw [contains_eq_isSome_core, hfewer' _ e hx] at hold
            cases hold
        · rw [mem_singleton.mp ht]
          exact hgone'
      · rw [append_assoc]
        exact horder
  exact hgen vtx [] pool h (fun _ _ => id) nofun horder

/-! ## Adding -/

theorem Consistent.linked_adds (h : Consistent pool R) (hadds : Adds pool pool' entry)
    (c p : UInt256) :
    Linked pool' c p ↔ (Spends pool c p ∧ ¬ (p ∈ R ∧ c ∉ R)) ∨
      (c = entry.tx.hash ∧ pool'.contains p = true ∧
        ∃ txin ∈ entry.tx.vin, txin.prevout.hash = p) := by
  rw [← h.linked]
  exact hadds.parents c p

def SpentBy (pool : CTxMemPool) (hash c : UInt256) : Prop :=
  ∃ e, pool.mapTx.lookup c = some e ∧ ∃ txin ∈ e.tx.vin, txin.prevout.hash = hash

theorem spentBy_iff {hash : UInt256} : SpentBy pool hash c ↔
    ∃ e, pool.core c = some e ∧ ∃ txin ∈ e.tx.vin, txin.prevout.hash = hash := by
  unfold SpentBy core
  cases pool.mapTx.lookup c <;> simp

section
variable {limits : Option AncestorLimits} {A : List UInt256}

/-- **Accepting a transaction** outside a reorganisation, if nothing in the pool spends from it. -/
theorem Consistent.accept (h : Consistent pool [])
    (hchecks : pool.passesConflictChecks entry.tx = true) (hself : NoSelfSpend entry.tx)
    (halone : Alone entry) (hA : pool.calculateMemPoolAncestors entry limits true = .ok A)
    (hspent : ∀ c, ¬ SpentBy pool entry.tx.hash c) : Consistent (pool.addUnchecked entry A) [] := by
  obtain ⟨hzc, hnew⟩ := hasZerocoinSpendInputs_of_checks hchecks
  have hadds := addUnchecked_adds h.sound.links hnew hzc A
  refine ⟨h.sound.addUnchecked hchecks A, fun c p => ?_, nofun, .nil, .nil,
    h.totals.addUnchecked h.sound.links hnew hzc hself halone hA⟩
  rw [h.linked_adds hadds, hadds.spends hnew]
  simp only [not_mem_nil, not_false_eq_true, and_true]
  refine or_congr_right ⟨.inl, fun hor => hor.elim id ?_⟩
  rintro ⟨rfl, hspend⟩
  exact absurd (spentBy_iff.mpr hspend) (hspent c)

/-- **Adding a disconnected transaction again**, parents first: what it spends in the pool was added
again before it, and what was added again does not spend from it. -/
theorem Consistent.readd (h : Consistent pool R)
    (hchecks : pool.passesConflictChecks entry.tx = true) (hself : NoSelfSpend entry.tx)
    (halone : Alone entry) (hA : pool.calculateMemPoolAncestors entry limits true = .ok A)
    (hR : entry.tx.hash ∉ R)
    (hparents : ∀ txin ∈ entry.tx.vin, pool.contains txin.prevout.hash = true →
      txin.prevout.hash ∈ R)
    (hspent : ∀ c ∈ R, ¬ SpentBy pool entry.tx.hash c) :
    Consistent (pool.addUnchecked entry A) (R ++ [entry.tx.hash]) := by
  obtain ⟨hzc, hnew⟩ := hasZerocoinSpendInputs_of_checks hchecks
  have hadds := addUnchecked_adds h.sound.links hnew hzc A
  -- what the new entry spends
  have hnewspends : ∀ {p}, (pool.addUnchecked entry A).contains p = true →
      (∃ txin ∈ entry.tx.vin, txin.prevout.hash = p) → p ∈ R := by
    rintro p hp ⟨txin, hin, rfl⟩
    rcases (hadds.contains _).mp hp with heq | hp
    · exact absurd heq (hself txin hin)
    · exact hparents txin hin hp
  -- an id that waits spends what it did before
  have hold : ∀ r ∈ R, ∀ p, Spends (pool.addUnchecked entry A) r p → Spends pool r p := by
    intro r hr p hrp
    rcases (hadds.spends hnew).mp hrp with hrp | ⟨rfl, -⟩ | ⟨rfl, hspend⟩
    · exact hrp
    · exact absurd hr hR
    · exact absurd (spentBy_iff.mpr hspend) (hspent r hr)
  refine ⟨h.sound.addUnchecked hchecks A, fun c p => ?_, fun r hr p hrp => ?_, ?_, ?_,
    h.totals.addUnchecked h.sound.links hnew hzc hself halone hA⟩
  · rw [h.linked_adds hadds, hadds.spends hnew]
    have hnotnew : ∀ {c p}, Spends pool c p → p ≠ entry.tx.hash ∧ c ≠ entry.tx.hash := fun hcp =>
      ⟨ne_of_contains hcp.1 hnew, ne_of_contains hcp.child_mem hnew⟩
    simp only [mem_append, mem_singleton]
    constructor
    · rintro (⟨hcp, hlink⟩ | ⟨rfl, hp, hspend⟩)
      · obtain ⟨hp, hc⟩ := hnotnew hcp
        refine ⟨.inl hcp, ?_⟩
        simp only [hp, hc, or_false]
        exact hlink
      · exact ⟨.inr (.inl ⟨rfl, hp, hspend⟩), fun hboth => hboth.2 (.inr rfl)⟩
    · rintro ⟨hcp | hnewest | ⟨rfl, hspend⟩, hlink⟩
      · obtain ⟨hp, hc⟩ := hnotnew hcp
        simp only [hp, hc, or_false] at hlink
        exact .inl ⟨hcp, hlink⟩
      · exact .inr hnewest
      · obtain ⟨e, he, htxin⟩ := hspend
        have hc : c ≠ entry.tx.hash :=
          ne_of_contains (by rw [contains_eq_isSome_core, he]; rfl) hnew
        refine absurd ⟨.inr rfl, ?_⟩ hlink
        rintro (hcR | hc')
        · exact hspent c hcR (spentBy_iff.mpr ⟨e, he, htxin⟩)
        · exact hc hc'
  · rw [mem_append, mem_singleton] at hr ⊢
    rcases hr with hr | rfl
    · exact .inl (h.parents_readded r hr p (hold r hr p hrp))
    · rcases (hadds.spends hnew).mp hrp with hrp | ⟨-, hp, hspend⟩ | ⟨rfl, -⟩
      · exact absurd rfl (ne_of_contains hrp.child_mem hnew)
      · exact .inl (hnewspends hp hspend)
      · exact .inr rfl
  · refine pairwise_append.mpr ⟨h.order.imp_of_mem ?_, pairwise_singleton _ _, ?_⟩
    · intro a b ha _ hnot hab
      exact hnot (hold a ha b hab)
    · intro a ha b hb hab
      rw [mem_singleton.mp hb] at hab
      have := (hold a ha _ hab).1
      rw [hnew] at this
      cases this
  · exact nodup_append.mpr ⟨h.nodup, nodup_singleton _, by
      rintro a ha b hb rfl
      exact hR (mem_singleton.mp hb ▸ ha)⟩

end

end CTxMemPool

end Passion
