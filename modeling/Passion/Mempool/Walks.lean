import Passion.Lib.Prog
import Passion.Mempool.Links

/-!
# Walks through the pool

`CalculateDescendants` and `CalculateMemPoolAncestors` find exactly what the links lead to. The
limits of the second one can make it fail, but do not change what it finds.
-/

namespace Passion

open Lib (Map bind_eq_ok foldlM_ok_induction)
open List
open Lib.Dag Relation

namespace CTxMemPool

/-- `p` is a parent of `c` by its links. -/
def Linked (pool : CTxMemPool) (c p : UInt256) : Prop := p ∈ pool.getMemPoolParents c

def ids (pool : CTxMemPool) : Finset UInt256 := pool.mapTx.keys.toFinset

variable {pool : CTxMemPool}

@[simp] theorem mem_ids {h : UInt256} : h ∈ pool.ids ↔ pool.contains h = true := by
  rw [ids, mem_toFinset]
  exact Map.mem_keys

theorem card_ids (pool : CTxMemPool) : pool.ids.card = pool.mapTx.keys.length :=
  toFinset_card_of_nodup pool.mapTx.keys_nodup

theorem LinksOk.edge_children (hok : LinksOk pool) :
    Edge pool.getMemPoolChildren = Function.swap (Linked pool) := by
  funext p c
  exact propext (hok.symm c p).symm

theorem cacheOk_none (next : UInt256 → List UInt256) (keep : UInt256 → Prop) :
    CacheOk next (fun _ => none) keep :=
  nofun

/-! ## Descendants -/

/-- **`CalculateDescendants`** adds the entry and what leads to it; what it starts from contains the
children of its elements. -/
theorem mem_calculateDescendants (hok : LinksOk pool) {it : UInt256} {D : List UInt256}
    (hit : pool.contains it = true) (hDn : D.Nodup) (hD : ∀ p ∈ D, ∀ c, Linked pool c p → c ∈ D) :
    (∀ y, y ∈ pool.calculateDescendants it D ↔ y ∈ D ∨ ReflTransGen (Linked pool) y it) ∧
      (pool.calculateDescendants it D).Nodup := by
  have hreach : ∀ {x y}, ReflTransGen (Edge pool.getMemPoolChildren) x y ↔
      ReflTransGen (Linked pool) y x := by
    intro x y
    rw [hok.edge_children, reflTransGen_swap]
  have hclosed : ∀ x ∈ D, ∀ y, ReflTransGen (Linked pool) y x → y ∈ D := by
    intro x hx y hyx
    induction hyx using ReflTransGen.head_induction_on with
    | refl => exact hx
    | head hyz _ ih => exact hD _ ih _ hyz
  obtain ⟨hsound, hcomplete, hnodup⟩ := mem_walk
    (S := if it ∈ D then [] else [it]) (cacheOk_none pool.getMemPoolChildren fun _ => True)
    (fun v _ y hy => mem_ids.mpr (hok.child_mem hy))
    (fun y hy => by
      split_ifs at hy
      · cases hy
      · rw [mem_singleton.mp hy]
        exact mem_ids.mpr hit)
    (by split_ifs <;> simp) hDn
    (fun x hx y hxy _ => hclosed x hx y (hreach.mp hxy)) (card_ids pool).le
  refine ⟨fun y => ⟨fun hy => ?_, fun hy => ?_⟩, hnodup⟩
  · refine (hsound y hy).imp_right fun ⟨x, hx, hxy⟩ => ?_
    split_ifs at hx
    · cases hx
    · rw [← mem_singleton.mp hx]
      exact hreach.mp hxy
  · apply hcomplete y trivial
    by_cases hmem : it ∈ D
    · exact .inl (hy.elim id (hclosed it hmem y))
    · refine hy.imp_right fun hy => ⟨it, ?_, hreach.mpr hy⟩
      rw [if_neg hmem]
      exact mem_singleton_self it

theorem mem_foldl_calculateDescendants (hok : LinksOk pool) {l D : List UInt256}
    (hl : ∀ it ∈ l, pool.contains it = true) (hDn : D.Nodup)
    (hD : ∀ p ∈ D, ∀ c, Linked pool c p → c ∈ D) :
    (∀ y, y ∈ l.foldl (fun D it => pool.calculateDescendants it D) D ↔
      y ∈ D ∨ ∃ it ∈ l, ReflTransGen (Linked pool) y it) ∧
      (l.foldl (fun D it => pool.calculateDescendants it D) D).Nodup := by
  induction l generalizing D with
  | nil => simpa using hDn
  | cons it l ih =>
    obtain ⟨hmem, hnodup⟩ := mem_calculateDescendants hok (hl it mem_cons_self) hDn hD
    obtain ⟨hmem', hnodup'⟩ := ih (fun i hi => hl i (mem_cons_of_mem it hi)) hnodup
      (fun p hp c hcp => by
        rw [hmem] at hp ⊢
        exact hp.imp (fun hp => hD p hp c hcp) fun hp => .head hcp hp)
    refine ⟨fun y => ?_, hnodup'⟩
    rw [foldl_cons, hmem', hmem]
    simp only [mem_cons, exists_eq_or_imp, or_assoc]

theorem mem_calculateAllDescendants (hok : LinksOk pool) {l : List UInt256}
    (hl : ∀ it ∈ l, pool.contains it = true) :
    (∀ y, y ∈ pool.calculateAllDescendants l ↔ ∃ it ∈ l, ReflTransGen (Linked pool) y it) ∧
      (pool.calculateAllDescendants l).Nodup := by
  obtain ⟨hmem, hnodup⟩ := mem_foldl_calculateDescendants hok hl nodup_nil
    nofun
  refine ⟨fun y => (hmem y).trans ?_, hnodup⟩
  simp

/-! ## Ancestors -/

variable {limits : Option AncestorLimits}

theorem foldlM_stage_ok {done ys stage stage' : List UInt256} (h : ys.foldlM (fun stage phash => do
      let stage := if phash ∈ done then stage else stage.insert phash
      checkLimit limits (·.limitAncestorCount) (stage.length + done.length + 1) .tooManyAncestors
      .ok stage) stage = .ok stage') :
    ys.foldl (visit fun _ => none) (stage, done) = (stage', done) := by
  induction ys generalizing stage with
  | nil =>
    cases h
    rfl
  | cons y ys ih =>
    obtain ⟨stage1, h1, h⟩ := bind_eq_ok.1 h
    obtain ⟨_, -, h1⟩ := bind_eq_ok.1 h1
    cases h1
    rw [foldl_cons, ← ih h, visit]
    split_ifs <;> rfl

theorem foldlM_stage_none (done ys stage : List UInt256) :
    ∃ stage', ys.foldlM (fun stage phash => do
      let stage := if phash ∈ done then stage else stage.insert phash
      checkLimit none (·.limitAncestorCount) (stage.length + done.length + 1) .tooManyAncestors
      Except.ok stage) stage = .ok stage' := by
  induction ys generalizing stage with
  | nil => exact ⟨stage, rfl⟩
  | cons y ys ih => exact ih _

theorem ancestorLoop_ok {entry : CTxMemPoolEntry} {fuel : Nat} {stage done result : List UInt256}
    {size : Int} (h : pool.ancestorLoop limits entry fuel stage done size = .ok result) :
    result = walk pool.getMemPoolParents (fun _ => none) fuel stage done := by
  induction fuel generalizing stage done size with
  | zero => exact (Except.ok.inj h).symm
  | succ fuel ih =>
    cases stage with
    | nil => exact (Except.ok.inj h).symm
    | cons x stage =>
      obtain ⟨_, -, h⟩ := bind_eq_ok.1 h
      obtain ⟨stage', hstage, h⟩ := bind_eq_ok.1 h
      rw [walk, foldlM_stage_ok hstage]
      exact ih h

theorem ancestorLoop_none (pool : CTxMemPool) (entry : CTxMemPoolEntry) (fuel : Nat)
    (stage done : List UInt256) (size : Int) :
    ∃ result, pool.ancestorLoop none entry fuel stage done size = .ok result := by
  induction fuel generalizing stage done size with
  | zero => exact ⟨done, rfl⟩
  | succ fuel ih =>
    cases stage with
    | nil => exact ⟨done, rfl⟩
    | cons x stage =>
      obtain ⟨stage', hstage⟩ :=
        foldlM_stage_none (done.insert x) (pool.getMemPoolParents x) stage
      obtain ⟨result, hresult⟩ := ih stage' (done.insert x)
        (size + ((pool.mapTx.lookup x).map (·.nTxSize)).getD 0)
      refine ⟨result, ?_⟩
      refine bind_eq_ok.2 ⟨(), ?_, bind_eq_ok.2 ⟨stage', hstage, hresult⟩⟩
      unfold checkAncestor
      cases pool.mapTx.lookup x <;> rfl

theorem searchForParents_ok {tx : CTransaction} {parents : List UInt256}
    (h : pool.searchForParents limits tx = .ok parents) :
    parents.Nodup ∧ ∀ p, p ∈ parents ↔
      pool.contains p = true ∧ ∃ txin ∈ tx.vin, txin.prevout.hash = p := by
  refine foldlM_ok_induction (P := fun vin parents => parents.Nodup ∧ ∀ p, p ∈ parents ↔
    pool.contains p = true ∧ ∃ txin ∈ vin, txin.prevout.hash = p) ⟨nodup_nil, by simp⟩ ?_ h
  rintro seen txin acc acc' ⟨hn, hmem⟩ hstep
  simp only [mem_append, mem_singleton, or_and_right, exists_or, exists_eq_left, and_or_left]
  by_cases hin : pool.contains txin.prevout.hash = true
  · rw [if_pos hin] at hstep
    obtain ⟨_, -, hstep⟩ := bind_eq_ok.1 hstep
    cases hstep
    refine ⟨hn.insert, fun p => ?_⟩
    rw [mem_insert_iff, hmem, or_comm]
    exact or_congr_right ⟨fun hp => ⟨hp ▸ hin, hp.symm⟩, fun hp => hp.2.symm⟩
  · rw [if_neg hin] at hstep
    cases hstep
    refine ⟨hn, fun p => (hmem p).trans ?_⟩
    exact (or_iff_left fun ⟨hp, heq⟩ => hin (heq ▸ hp)).symm

theorem mem_walk_parents (hok : ParentsOk pool) {S : List UInt256} (hSn : S.Nodup)
    (hS : ∀ p ∈ S, pool.contains p = true) :
    (∀ a, a ∈ walk pool.getMemPoolParents (fun _ => none) pool.mapTx.keys.length S [] ↔
      ∃ p ∈ S, ReflTransGen (Linked pool) p a) ∧
      (walk pool.getMemPoolParents (fun _ => none) pool.mapTx.keys.length S []).Nodup := by
  obtain ⟨hsound, hcomplete, hnodup⟩ := mem_walk
    (cacheOk_none pool.getMemPoolParents fun _ => True)
    (fun v _ y hy => mem_ids.mpr (hok.parent_mem v y hy)) (fun p hp => mem_ids.mpr (hS p hp)) hSn
    nodup_nil nofun (card_ids pool).le
  exact ⟨fun a => ⟨fun ha => (hsound a ha).resolve_left not_mem_nil,
    fun ha => hcomplete a trivial (.inr ha)⟩, hnodup⟩

/-- **The ancestors of an entry of the pool** are what its links lead to. -/
theorem mem_linkedAncestors (hok : ParentsOk pool) {it : UInt256} (hit : pool.contains it = true) :
    (∀ a, a ∈ pool.linkedAncestors it ↔ TransGen (Linked pool) it a) ∧
      (pool.linkedAncestors it).Nodup := by
  obtain ⟨e, he⟩ := Option.isSome_iff_exists.mp hit
  have hhash : e.tx.hash = it := hok.hash it e.core (by rw [core, he]; rfl)
  obtain ⟨result, hresult⟩ := ancestorLoop_none pool e pool.mapTx.keys.length
    (pool.getMemPoolParents it) [] e.nTxSize
  have hcalc : pool.calculateMemPoolAncestors e none false = .ok result := by
    unfold calculateMemPoolAncestors
    rw [hhash]
    exact hresult
  have heq : pool.linkedAncestors it = result := by
    simp only [linkedAncestors, he, hcalc]
  obtain ⟨hmem, hnodup⟩ := mem_walk_parents hok (hok.parents_nodup it)
    (fun p hp => hok.parent_mem it p hp)
  rw [heq, ancestorLoop_ok hresult]
  refine ⟨fun a => ?_, hnodup⟩
  rw [hmem, TransGen.head'_iff]
  rfl

/-- **The ancestors of a transaction that is about to be added**, with or without limits. -/
theorem calculateMemPoolAncestors_ok (hok : LinksOk pool) {entry : CTxMemPoolEntry}
    {setAncestors : List UInt256}
    (h : pool.calculateMemPoolAncestors entry limits true = .ok setAncestors) :
    (∀ a, a ∈ setAncestors ↔ ∃ p, pool.contains p = true ∧
      (∃ txin ∈ entry.tx.vin, txin.prevout.hash = p) ∧ ReflTransGen (Linked pool) p a) ∧
      setAncestors.Nodup := by
  obtain ⟨parents, hparents, h⟩ := bind_eq_ok.1 h
  obtain ⟨hn, hmem⟩ := searchForParents_ok hparents
  obtain ⟨hwalk, hnodup⟩ := mem_walk_parents hok.parentsOk hn (fun p hp => ((hmem p).mp hp).1)
  rw [ancestorLoop_ok h]
  refine ⟨fun a => ?_, hnodup⟩
  rw [hwalk]
  simp only [hmem, and_assoc]

end CTxMemPool

end Passion
