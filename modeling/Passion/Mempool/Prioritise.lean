import Mathlib.Algebra.BigOperators.Pi
import Mathlib.Tactic.Linarith
import Passion.Mempool.Runs

/-!
# Priorities

`PrioritiseTransaction` changes the fee delta of an entry, with its own totals, and adds the change
to the descendant fees of its ancestors. The ancestor fees of its descendants stay as they are. So
the fee totals are right afterwards if and only if nothing in the pool spends from the entry, or
nothing changes (`feesExact_prioritise_iff`).
-/

namespace Passion

open Lib (Map)
open Lib.Dag Relation

namespace CTxMemPool

open CTxMemPoolEntry

variable {pool : CTxMemPool}

/-- The modified fees of each entry are the sums over what it spends, and what spends from it, in
the pool. -/
structure FeesExact (pool : CTxMemPool) : Prop where
  ancestors : ∀ h e, pool.mapTx.lookup h = some e → e.nModFeesWithAncestors =
    e.getModifiedFee + ∑ a ∈ above pool.ids (Spends pool) h, pool.total getModifiedFee a
  descendants : ∀ h e, pool.mapTx.lookup h = some e → e.nModFeesWithDescendants =
    e.getModifiedFee + ∑ d ∈ below pool.ids (Spends pool) h, pool.total getModifiedFee d

/-- The links go both ways between entries of the pool, and are what those spend. -/
structure LinksExact (pool : CTxMemPool) : Prop where
  links : LinksOk pool
  spends : ∀ c p, p ∈ pool.getMemPoolParents c ↔ Spends pool c p

theorem Consistent.linksExact (h : Consistent pool []) : LinksExact pool :=
  ⟨h.sound.links, h.exact.parents⟩

theorem Exact.feesExact (h : Exact pool) : FeesExact pool := by
  have hfst : ∀ {V : Finset UInt256}, (∑ a ∈ V, pool.total ownAncestorTotals a).2.2.1 =
      ∑ a ∈ V, pool.total getModifiedFee a := by
    intro V
    rw [Prod.snd_sum, Prod.snd_sum, Prod.fst_sum]
    refine Finset.sum_congr rfl fun a _ => ?_
    unfold total
    cases pool.mapTx.lookup a <;> rfl
  have hsnd : ∀ {V : Finset UInt256}, (∑ d ∈ V, pool.total ownDescendantTotals d).2.2 =
      ∑ d ∈ V, pool.total getModifiedFee d := by
    intro V
    rw [Prod.snd_sum, Prod.snd_sum]
    refine Finset.sum_congr rfl fun d _ => ?_
    unfold total
    cases pool.mapTx.lookup d <;> rfl
  refine ⟨fun x e he => ?_, fun x e he => ?_⟩
  · have hx := h.totals.ancestors x (by rw [contains, he]; rfl)
    rw [total_of_lookup he, total_of_lookup he] at hx
    rw [← hfst]
    exact congrArg (·.2.2.1) hx
  · have hx := h.totals.descendants x (by rw [contains, he]; rfl)
    rw [total_of_lookup he, total_of_lookup he] at hx
    rw [← hsnd]
    exact congrArg (·.2.2) hx

/-! ## What changes -/

/-- The entry `e` of `h` after transaction `hash` was prioritised: `delta` is its new fee delta, and
`above` says whether it spends from `h`. -/
def prioritisedEntry (hash : UInt256) (delta nFeeDelta : CAmount) (h : UInt256) (above : Bool)
    (e : CTxMemPoolEntry) : CTxMemPoolEntry :=
  let e := if h = hash then e.updateFeeDelta delta else e
  if above then e.updateDescendantState 0 nFeeDelta 0 else e

variable {hash : UInt256} {nFeeDelta : CAmount}

theorem lookup_prioritiseTransaction (hok : LinksOk pool) (hin : pool.contains hash = true)
    (nFeeDelta : CAmount) :
    ∃ A : List UInt256, (∀ a, a ∈ A ↔ TransGen (Linked pool) hash a) ∧
      ∀ h, (pool.prioritiseTransaction hash nFeeDelta).mapTx.lookup h = (pool.mapTx.lookup h).map
        (prioritisedEntry hash ((pool.mapDeltas.lookup hash).getD 0 + nFeeDelta) nFeeDelta h
          (decide (h ∈ A))) := by
  let delta := (pool.mapDeltas.lookup hash).getD 0 + nFeeDelta
  let pool1 : CTxMemPool := modify { pool with mapDeltas := pool.mapDeltas.insert hash delta }
    hash fun e => e.updateFeeDelta delta
  have hlookup1 : ∀ h, pool1.mapTx.lookup h = if h = hash
      then (pool.mapTx.lookup hash).map (·.updateFeeDelta delta) else pool.mapTx.lookup h :=
    fun h => Map.lookup_modify pool.mapTx hash h _
  have hcontains : ∀ h, pool1.contains h = pool.contains h := fun h =>
    Map.isSome_lookup_modify pool.mapTx hash h _
  have hparents : ParentsOk pool1 := by
    refine ⟨fun h e he => ?_, fun c p hp => ?_, hok.parents_nodup⟩
    · rw [core, hlookup1] at he
      split_ifs at he with hh
      · obtain ⟨e1, he1, rfl⟩ := Option.map_eq_some_iff.mp he
        obtain ⟨e0, he0, rfl⟩ := Option.map_eq_some_iff.mp he1
        exact (hok.hash hash e0.core (by rw [core, he0]; rfl)).trans hh.symm
      · exact hok.hash h e he
    · rw [hcontains]
      exact hok.parent_mem c p hp
  have hin1 : pool1.contains hash = true := (hcontains hash).trans hin
  obtain ⟨hmem, hnodup⟩ := mem_linkedAncestors hparents hin1
  refine ⟨pool1.linkedAncestors hash, hmem, fun h => ?_⟩
  have hfold := lookup_foldl_modify hnodup (fun a => a.updateDescendantState 0 nFeeDelta 0) pool1
  have hdef : pool.prioritiseTransaction hash nFeeDelta = (pool1.linkedAncestors hash).foldl
      (fun pool ancestorIt => pool.modify ancestorIt fun a => a.updateDescendantState 0 nFeeDelta 0)
      pool1 := by
    exact if_pos hin
  rw [hdef, hfold, hlookup1]
  unfold prioritisedEntry
  by_cases hh : h = hash
  · subst hh
    by_cases hA : h ∈ pool1.linkedAncestors h <;> cases pool.mapTx.lookup h <;> simp [hA, delta]
  · by_cases hA : h ∈ pool1.linkedAncestors hash <;> cases pool.mapTx.lookup h <;> simp [hA, hh]

theorem prioritisedEntry_fees {h : UInt256} {delta : CAmount} {above : Bool}
    {u e : CTxMemPoolEntry} (hu : h = hash → e = u) :
    (prioritisedEntry hash delta nFeeDelta h above e).getModifiedFee =
        e.getModifiedFee + (if h = hash then delta - u.feeDelta else 0) ∧
      (prioritisedEntry hash delta nFeeDelta h above e).nModFeesWithAncestors =
        e.nModFeesWithAncestors + (if h = hash then delta - u.feeDelta else 0) ∧
      (prioritisedEntry hash delta nFeeDelta h above e).nModFeesWithDescendants =
        e.nModFeesWithDescendants + (if h = hash then delta - u.feeDelta else 0) +
          (if above then nFeeDelta else 0) := by
  unfold prioritisedEntry
  by_cases hh : h = hash
  · obtain rfl := hu hh
    cases above <;>
      simp [hh, updateFeeDelta, updateDescendantState, getModifiedFee]
  · cases above <;> simp [hh, updateDescendantState, getModifiedFee]

theorem feesExact_iff : FeesExact pool ↔ ∀ x, pool.contains x = true →
    pool.total nModFeesWithAncestors x = pool.total getModifiedFee x +
      ∑ a ∈ above pool.ids (Spends pool) x, pool.total getModifiedFee a ∧
    pool.total nModFeesWithDescendants x = pool.total getModifiedFee x +
      ∑ d ∈ below pool.ids (Spends pool) x, pool.total getModifiedFee d := by
  constructor
  · intro h x hx
    obtain ⟨e, he⟩ := Option.isSome_iff_exists.mp hx
    rw [total_of_lookup he, total_of_lookup he, total_of_lookup he]
    exact ⟨h.ancestors x e he, h.descendants x e he⟩
  · intro h
    have hread : ∀ x e, pool.mapTx.lookup x = some e → _ := fun x e he =>
      h x (by rw [contains, he]; rfl)
    refine ⟨fun x e he => ?_, fun x e he => ?_⟩
    · have hx := (hread x e he).1
      rwa [total_of_lookup he, total_of_lookup he] at hx
    · have hx := (hread x e he).2
      rwa [total_of_lookup he, total_of_lookup he] at hx

open Classical in
/-- The fees of the entries of `pool'` are those of `pool` with the change at `hash`. -/
structure Prioritised (pool pool' : CTxMemPool) (hash : UInt256) (change nFeeDelta : CAmount) :
    Prop where
  contains : ∀ x, pool'.contains x = pool.contains x
  spends : Spends pool' = Spends pool
  fee : ∀ x, pool'.total getModifiedFee x =
    pool.total getModifiedFee x + if x = hash then change else 0
  ancestors : ∀ x, pool'.total nModFeesWithAncestors x =
    pool.total nModFeesWithAncestors x + if x = hash then change else 0
  descendants : ∀ x, pool'.total nModFeesWithDescendants x =
    pool.total nModFeesWithDescendants x + (if x = hash then change else 0) +
      if TransGen (Spends pool) hash x then nFeeDelta else 0

theorem prioritiseTransaction_prioritised (hlinks : LinksExact pool) {u : CTxMemPoolEntry}
    (hu : pool.mapTx.lookup hash = some u) (nFeeDelta : CAmount) :
    Prioritised pool (pool.prioritiseTransaction hash nFeeDelta) hash
      ((pool.mapDeltas.lookup hash).getD 0 + nFeeDelta - u.feeDelta) nFeeDelta := by
  have hin : pool.contains hash = true := by
    rw [contains, hu]
    rfl
  obtain ⟨A, hA, hlookup⟩ := lookup_prioritiseTransaction hlinks.links hin nFeeDelta
  have hlinked : Linked pool = Spends pool := by
    funext c p
    exact propext (hlinks.spends c p)
  rw [hlinked] at hA
  generalize pool.prioritiseTransaction hash nFeeDelta = pool' at hlookup ⊢
  generalize (pool.mapDeltas.lookup hash).getD 0 + nFeeDelta = delta at hlookup ⊢
  have hcontains : ∀ x, pool'.contains x = pool.contains x := fun x => by
    rw [contains, contains, hlookup, Option.isSome_map]
  have htx : ∀ h above e, (prioritisedEntry hash delta nFeeDelta h above e).tx = e.tx := by
    intro h above e
    unfold prioritisedEntry
    split_ifs <;> rfl
  have heu : ∀ {x e}, pool.mapTx.lookup x = some e → x = hash → e = u := by
    rintro x e he rfl
    exact Option.some.inj (he.symm.trans hu)
  -- an id without an entry is neither prioritised nor spent from
  have hnone : ∀ {x}, pool.mapTx.lookup x = none → x ≠ hash ∧ x ∉ A := by
    intro x hx
    refine ⟨?_, fun hxA => ?_⟩
    · rintro rfl
      rw [hx] at hu
      cases hu
    · obtain ⟨q, -, hqx⟩ := TransGen.tail'_iff.mp ((hA x).mp hxA)
      have := hqx.1
      rw [contains, hx] at this
      cases this
  refine ⟨hcontains, ?_, fun x => ?_, fun x => ?_, fun x => ?_⟩
  · funext c p
    unfold Spends
    rw [hcontains, hlookup]
    cases pool.mapTx.lookup c <;> simp [htx]
  · unfold total
    rw [hlookup]
    cases hx : pool.mapTx.lookup x with
    | none => simp [(hnone hx).1]
    | some e => exact (prioritisedEntry_fees (heu hx)).1
  · unfold total
    rw [hlookup]
    cases hx : pool.mapTx.lookup x with
    | none => simp [(hnone hx).1]
    | some e => exact (prioritisedEntry_fees (heu hx)).2.1
  · unfold total
    rw [hlookup]
    cases hx : pool.mapTx.lookup x with
    | none => simp [(hnone hx).1, ← hA, (hnone hx).2]
    | some e =>
      refine (prioritisedEntry_fees (heu hx)).2.2.trans (congrArg _ ?_)
      by_cases hxA : x ∈ A
      · rw [if_pos (decide_eq_true hxA), if_pos ((hA x).mp hxA)]
      · rw [if_neg (by simpa using hxA), if_neg fun hup => hxA ((hA x).mpr hup)]

/-- The sums are right if nothing was missed below the entry, and nothing else added above it. -/
theorem Prioritised.feesExact_iff {pool' : CTxMemPool} {change : CAmount}
    (h : Prioritised pool pool' hash change nFeeDelta) (hfees : FeesExact pool)
    (hin : pool.contains hash = true) :
    FeesExact pool' ↔ (∀ x, TransGen (Spends pool) x hash → change = 0) ∧
      ∀ x, TransGen (Spends pool) hash x → nFeeDelta = change := by
  have hids : pool'.ids = pool.ids := by
    ext x
    rw [mem_ids, mem_ids, h.contains]
  have hmem : hash ∈ pool.ids := mem_ids.mpr hin
  rw [CTxMemPool.feesExact_iff] at hfees ⊢
  have hone : ∀ x, pool.contains x = true → (
      (pool'.total nModFeesWithAncestors x = pool'.total getModifiedFee x +
        ∑ a ∈ above pool'.ids (Spends pool') x, pool'.total getModifiedFee a ∧
      pool'.total nModFeesWithDescendants x = pool'.total getModifiedFee x +
        ∑ d ∈ below pool'.ids (Spends pool') x, pool'.total getModifiedFee d) ↔
      (TransGen (Spends pool) x hash → change = 0) ∧
        (TransGen (Spends pool) hash x → nFeeDelta = change)) := by
    intro x hx
    obtain ⟨hanc, hdesc⟩ := hfees x hx
    simp only [h.ancestors, h.descendants, h.fee, Finset.sum_add_distrib, Finset.sum_ite_eq']
    rw [hids, h.spends, hanc, hdesc]
    refine and_congr ?_ ?_
    · by_cases hup : TransGen (Spends pool) x hash
      · rw [if_pos (mem_above.mpr ⟨hmem, hup⟩)]
        constructor
        · intro heq _
          linarith
        · intro heq
          linarith [heq hup]
      · rw [if_neg fun hmem => hup (mem_above.mp hmem).2]
        refine iff_of_true ?_ (fun h => absurd h hup)
        abel
    · by_cases hdown : TransGen (Spends pool) hash x
      · rw [if_pos hdown, if_pos (mem_below.mpr ⟨hmem, hdown⟩)]
        constructor
        · intro heq _
          linarith
        · intro heq
          linarith [heq hdown]
      · rw [if_neg hdown, if_neg fun hmem => hdown (mem_below.mp hmem).2]
        refine iff_of_true ?_ (fun h => absurd h hdown)
        abel
  constructor
  · intro hall
    refine ⟨fun x hx => ?_, fun x hx => ?_⟩
    · obtain ⟨q, hxq, -⟩ := TransGen.head'_iff.mp hx
      have hxin := hxq.child_mem
      exact ((hone x hxin).mp (hall x (by rw [h.contains]; exact hxin))).1 hx
    · obtain ⟨q, -, hqx⟩ := TransGen.tail'_iff.mp hx
      exact ((hone x hqx.1).mp (hall x (by rw [h.contains]; exact hqx.1))).2 hx
  · rintro ⟨hbelow, habove⟩ x hx
    rw [h.contains] at hx
    exact (hone x hx).mpr ⟨hbelow x, habove x⟩

/-- **The fees after `PrioritiseTransaction`.** They are right if and only if the transaction is not
in the pool, or its fee delta was the recorded one unless it has no parents, and stays as it is
unless it has no children. -/
theorem feesExact_prioritise_iff (hlinks : LinksExact pool) (hfees : FeesExact pool)
    (hash : UInt256) (nFeeDelta : CAmount) :
    FeesExact (pool.prioritiseTransaction hash nFeeDelta) ↔
      ∀ u, pool.mapTx.lookup hash = some u →
        (u.feeDelta = (pool.mapDeltas.lookup hash).getD 0 ∨ ∀ p, ¬ Spends pool hash p) ∧
        (u.feeDelta = (pool.mapDeltas.lookup hash).getD 0 + nFeeDelta ∨
          ∀ c, ¬ Spends pool c hash) := by
  cases hu : pool.mapTx.lookup hash with
  | none =>
    refine iff_of_true ?_ (fun _ h => nomatch h)
    have hsame : pool.prioritiseTransaction hash nFeeDelta =
        { pool with mapDeltas := (pool.prioritiseTransaction hash nFeeDelta).mapDeltas } := by
      simp [prioritiseTransaction, contains, hu]
    rw [hsame]
    exact ⟨hfees.ancestors, hfees.descendants⟩
  | some u =>
    have hin : pool.contains hash = true := by
      rw [contains, hu]
      rfl
    rw [(prioritiseTransaction_prioritised hlinks hu nFeeDelta).feesExact_iff hfees hin]
    simp only [Option.some.injEq, forall_eq']
    rw [and_comm]
    refine and_congr ⟨fun h => ?_, fun h x hx => ?_⟩ ⟨fun h => ?_, fun h x hx => ?_⟩
    · by_cases hp : ∃ p, Spends pool hash p
      · obtain ⟨p, hp⟩ := hp
        have := h p (.single hp)
        exact .inl (by linarith)
      · exact .inr (not_exists.mp hp)
    · obtain ⟨p, hp, -⟩ := TransGen.head'_iff.mp hx
      have := h.resolve_right (fun hnone => hnone p hp)
      linarith
    · by_cases hc : ∃ c, Spends pool c hash
      · obtain ⟨c, hc⟩ := hc
        have := h c (.single hc)
        exact .inl (by linarith)
      · exact .inr (not_exists.mp hc)
    · obtain ⟨c, -, hc⟩ := TransGen.tail'_iff.mp hx
      have := h.resolve_right (fun hnone => hnone c hc)
      linarith

theorem not_spentBy_of_entries
    (h : ∀ kv ∈ pool.mapTx.entries, ∀ txin ∈ kv.2.tx.vin, txin.prevout.hash ≠ hash) (c : UInt256) :
    ¬ SpentBy pool hash c := by
  rintro ⟨e, he, txin, hin, heq⟩
  exact h ⟨c, e⟩ (AList.mem_lookup_iff.mp he) txin hin heq

def parentAndChild : List PoolEvent :=
  [.accept (spendingSubmission 1 9), .accept (spendingSubmission 2 1)]

theorem consistent_parentAndChild : Consistent (runEvents ⟨empty, []⟩ parentAndChild).pool [] := by
  have hone := @Consistent.apply ⟨empty, []⟩ (.accept (spendingSubmission 1 9))
    consistent_empty ⟨by decide, rfl⟩ fun _ => not_spentBy_of_entries (by decide)
  exact @Consistent.apply _ (.accept (spendingSubmission 2 1)) hone ⟨by decide, rfl⟩
    fun _ => not_spentBy_of_entries (by decide)

/-- Once transaction 1 is prioritised the ancestor fees of transaction 2 are too low. -/
theorem prioritise_misses_descendants : LinksExact (runEvents ⟨empty, []⟩ parentAndChild).pool ∧
      FeesExact (runEvents ⟨empty, []⟩ parentAndChild).pool ∧
      ¬ FeesExact ((runEvents ⟨empty, []⟩ parentAndChild).pool.prioritiseTransaction 1 10) := by
  have hcons := consistent_parentAndChild
  have hlinks := hcons.linksExact
  have hfees := hcons.exact.feesExact
  refine ⟨hlinks, hfees, fun h => ?_⟩
  have hspends : Spends (runEvents ⟨empty, []⟩ parentAndChild).pool 2 1 :=
    ⟨by decide, _, rfl, by decide⟩
  have hlookup : (runEvents ⟨empty, []⟩ parentAndChild).pool.mapTx.lookup 1 = some _ := rfl
  have hprio := prioritiseTransaction_prioritised hlinks hlookup 10
  have hzero := ((hprio.feesExact_iff hfees (by decide)).mp h).1 2 (.single hspends)
  exact absurd hzero (by decide)

/-- To prioritise transaction 2 is all right. -/
theorem prioritise_child_exact :
    FeesExact ((runEvents ⟨empty, []⟩ parentAndChild).pool.prioritiseTransaction 2 10) := by
  have hcons := consistent_parentAndChild
  refine (feesExact_prioritise_iff hcons.linksExact hcons.exact.feesExact 2 10).mpr fun u hu => ?_
  cases hu
  refine ⟨.inl (by decide), .inr fun c hc => ?_⟩
  exact not_spentBy_of_entries (by decide) c hc.2

end CTxMemPool

end Passion
