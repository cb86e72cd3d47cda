import Passion.Mempool.Spends

/-!
# Updating after a reorganisation

`UpdateTransactionsFromBlock` goes through the ids that were added again, children first. At each it
sets the missing links, collects the descendants that are not among the ids, and adds them to the
totals. The descendants that were collected at an id are cached, and taken over by later walks.

The invariant of the loop (`Updating`) has the ids that were handled, a final part `Q` of the list:
the links into `Q` are there, the cached sets are complete, and the totals have what they gain from
`Q`. At the end nothing is missing (`Consistent.updateTransactionsFromBlock`).
-/

namespace Passion

open Lib (Map)
open List
open Lib.Dag Relation

namespace CTxMemPool

open CTxMemPoolEntry

variable {pool pool' : CTxMemPool} {R Q : List UInt256} {r : UInt256}

/-! ## Setting the missing links -/

theorem foldl_addChildren (r : UInt256) (l : List UInt256) (pool : CTxMemPool)
    (hr : (pool.mapLinks.lookup r).isSome = true)
    (hl : ∀ c ∈ l, (pool.mapLinks.lookup c).isSome = true) :
    let pool' := l.foldl (fun pool child =>
      (pool.updateChild r child true).updateParent child r true) pool
    SameButLinks pool pool' ∧
    (∀ h, (pool'.mapLinks.lookup h).isSome = (pool.mapLinks.lookup h).isSome) ∧
    (∀ h, (pool.getMemPoolParents h).Nodup → (pool'.getMemPoolParents h).Nodup) ∧
    (∀ h, (pool.getMemPoolChildren h).Nodup → (pool'.getMemPoolChildren h).Nodup) ∧
    (∀ c p, p ∈ pool'.getMemPoolParents c ↔ p ∈ pool.getMemPoolParents c ∨ p = r ∧ c ∈ l) ∧
    ∀ c p, c ∈ pool'.getMemPoolChildren p ↔ c ∈ pool.getMemPoolChildren p ∨ p = r ∧ c ∈ l := by
  induction l generalizing pool with
  | nil =>
    exact ⟨rfl, fun _ => rfl, fun _ => id, fun _ => id, fun c p => by simp, fun c p => by simp⟩
  | cons x l ih =>
    have hkeys1 : ∀ h,
        (((pool.updateChild r x true).updateParent x r true).mapLinks.lookup h).isSome =
        (pool.mapLinks.lookup h).isSome := by
      intro h
      rw [isSome_mapLinks_updateParent]
      exact Map.isSome_lookup_modify ..
    have hx : ((pool.updateChild r x true).mapLinks.lookup x).isSome = true := by
      rw [updateChild, Map.isSome_lookup_modify]
      exact hl x mem_cons_self
    have hparents1 : ∀ h, ((pool.updateChild r x true).updateParent x r true).getMemPoolParents h =
        if h = x then (pool.getMemPoolParents h).insert r else pool.getMemPoolParents h := by
      intro h
      rw [(lookup_updateParent _ x r h true).2, (lookup_updateChild pool r x h true).1]
      simp only [hx, and_true, if_true]
    have hchildren1 : ∀ h,
        ((pool.updateChild r x true).updateParent x r true).getMemPoolChildren h =
        if h = r then (pool.getMemPoolChildren h).insert x else pool.getMemPoolChildren h := by
      intro h
      rw [(lookup_updateParent _ x r h true).1, (lookup_updateChild pool r x h true).2]
      simp only [hr, and_true, if_true]
    obtain ⟨hsame, hkeys, hpn, hcn, hparents, hchildren⟩ := ih
      ((pool.updateChild r x true).updateParent x r true) (by rw [hkeys1]; exact hr)
      (fun c hc => by rw [hkeys1]; exact hl c (mem_cons_of_mem x hc))
    refine ⟨hsame, fun h => (hkeys h).trans (hkeys1 h), fun h hn => hpn h ?_, fun h hn => hcn h ?_,
      fun c p => (hparents c p).trans ?_, fun c p => (hchildren c p).trans ?_⟩
    · rw [hparents1]
      split_ifs
      · exact hn.insert
      · exact hn
    · rw [hchildren1]
      split_ifs
      · exact hn.insert
      · exact hn
    · rw [hparents1]
      split_ifs with hc
      · rw [mem_insert_iff]
        grind
      · grind
    · rw [hchildren1]
      split_ifs with hp
      · rw [mem_insert_iff]
        grind
      · grind

theorem IndexesExact.mem_nextTxChildren (h : IndexesExact pool) (hr : pool.contains r = true)
    {c : UInt256} (hok : LinksOk pool) : c ∈ pool.nextTxChildren r ↔ Spends pool c r := by
  unfold nextTxChildren
  rw [mem_dedup, mem_map]
  constructor
  · rintro ⟨⟨o, tx⟩, hmem, rfl⟩
    obtain ⟨hmem, ho⟩ := mem_filter.mp hmem
    have hlookup : pool.mapNextTx.lookup o = some tx := AList.mem_lookup_iff.mpr hmem
    obtain ⟨⟨e, he, rfl⟩, hin⟩ := (h.next o tx).mp hlookup
    obtain ⟨txin, htxin, rfl⟩ := mem_map.mp hin
    exact ⟨hr, e, he, txin, htxin, eq_of_beq ho⟩
  · intro hcr
    obtain ⟨-, e, he, txin, htxin, heq⟩ := spends_iff.mp hcr
    have hlookup := (h.next txin.prevout e.tx).mpr ⟨hok.holds he, mem_map_of_mem htxin⟩
    refine ⟨⟨txin.prevout, e.tx⟩, mem_filter.mpr ⟨AList.mem_lookup_iff.mp hlookup, ?_⟩,
      hok.hash c e he⟩
    exact beq_iff_eq.mpr heq

/-! ## The order of the ids -/

theorem Consistent.mem_of_reflTransGen (h : Consistent pool R) (hQ : Q <:+ R) {w z : UInt256}
    (hz : z ∈ Q) (hw : w ∈ R) (hwz : ReflTransGen (Spends pool) w z) : w ∈ Q := by
  obtain ⟨pre, rfl⟩ := hQ
  induction hwz using ReflTransGen.head_induction_on with
  | refl => exact hz
  | @head w v hwv _ ih =>
    have hv := ih (h.parents_readded w hw v hwv)
    rcases mem_append.mp hw with hpre | hQ
    · exact absurd hwv ((pairwise_append.mp h.order).2.2 w hpre v hv)
    · exact hQ

/-- The links once the ids in `Q` were handled. -/
def LinkedFor (pool : CTxMemPool) (R Q : List UInt256) (c p : UInt256) : Prop :=
  Spends pool c p ∧ ¬ (p ∈ R ∧ p ∉ Q ∧ c ∉ R)

theorem Consistent.transGen_linkedFor (h : Consistent pool R) (hQ : Q <:+ R) {y z : UInt256}
    (hz : z ∈ Q) : TransGen (LinkedFor pool R Q) y z ↔ TransGen (Spends pool) y z := by
  refine ⟨TransGen.mono (fun _ _ hab => hab.1) y z, fun hyz => ?_⟩
  have hlink : ∀ {y w}, Spends pool y w → ReflTransGen (Spends pool) w z →
      LinkedFor pool R Q y w := by
    intro y w hyw hwz
    exact ⟨hyw, fun hnot => hnot.2.1 (h.mem_of_reflTransGen hQ hz hnot.1 hwz)⟩
  induction hyz using TransGen.head_induction_on with
  | single hyz => exact .single (hlink hyz .refl)
  | head hyw hwz ih => exact .head (hlink hyw hwz.to_reflTransGen) ih

/-! ## Collecting the descendants -/

/-- The cached sets are complete: all that is below an id that was handled, apart from the ids. -/
def CacheExact (pool : CTxMemPool) (R Q : List UInt256) (cachedDescendants : CacheMap) : Prop :=
  ∀ z known, cachedDescendants.lookup z = some known →
    z ∈ Q ∧ ∀ y, y ∈ known ↔ y ∉ R ∧ TransGen (Spends pool) y z

/-- **The walk with the cache** finds all descendants that are not among the ids. -/
theorem Consistent.mem_countedDescendants (h : Consistent pool R) (hQ : r :: Q <:+ R)
    (hok : LinksOk pool') (hlinked : ∀ c p, Linked pool' c p ↔ LinkedFor pool R (r :: Q) c p)
    {cachedDescendants : CacheMap} (hcache : CacheExact pool R Q cachedDescendants) :
    (∀ y, y ∈ pool'.countedDescendants r cachedDescendants R ↔
      y ∉ R ∧ TransGen (Spends pool) y r) ∧
      (pool'.countedDescendants r cachedDescendants R).Nodup := by
  have hlinkedEq : Linked pool' = LinkedFor pool R (r :: Q) := by
    funext c p
    exact propext (hlinked c p)
  have hreach : ∀ {x y}, ReflTransGen (Edge pool'.getMemPoolChildren) x y ↔
      ReflTransGen (Linked pool') y x := by
    intro x y
    rw [hok.edge_children, reflTransGen_swap]
  -- below `r` and the cached ids the links are the spends
  have hpath : ∀ {y z}, z ∈ r :: Q →
      (TransGen (Linked pool') y z ↔ TransGen (Spends pool) y z) := by
    intro y z hz
    rw [hlinkedEq]
    exact h.transGen_linkedFor hQ hz
  have hcacheOk : CacheOk pool'.getMemPoolChildren cachedDescendants.lookup (· ∉ R) := by
    intro z known hknown
    obtain ⟨hz, hmem⟩ := hcache z known hknown
    have hz' : z ∈ r :: Q := mem_cons_of_mem r hz
    refine ⟨fun y hy => hreach.mpr ?_, fun y hzy hy => ?_⟩
    · exact ((hpath hz').mpr ((hmem y).mp hy).2).to_reflTransGen
    · rcases reflTransGen_iff_eq_or_transGen.mp (hreach.mp hzy) with heq | hyz
      · exact absurd (hQ.subset hz') (heq ▸ hy)
      · exact (hmem y).mpr ⟨hy, (hpath hz').mp hyz⟩
  obtain ⟨hsound, hcomplete, hnodup⟩ := mem_walk hcacheOk
    (fun v _ y hy => mem_ids.mpr (hok.child_mem hy))
    (fun y hy => mem_ids.mpr (hok.child_mem hy)) (hok.children_nodup r) nodup_nil
    nofun (card_ids pool').le
  have hdown : ∀ y, (∃ x ∈ pool'.getMemPoolChildren r,
      ReflTransGen (Edge pool'.getMemPoolChildren) x y) ↔ TransGen (Spends pool) y r := by
    intro y
    rw [← hpath mem_cons_self, TransGen.tail'_iff]
    refine exists_congr fun x => ?_
    rw [hreach, and_comm, ← hok.symm]
    rfl
  refine ⟨fun y => ?_, hnodup.filter _⟩
  unfold countedDescendants
  rw [mem_filter, Bool.not_eq_true', decide_eq_false_iff_not]
  constructor
  · rintro ⟨hy, hyR⟩
    exact ⟨hyR, (hdown y).mp ((hsound y hy).resolve_left not_mem_nil)⟩
  · rintro ⟨hyR, hyr⟩
    exact ⟨hcomplete y hyR (.inr ((hdown y).mpr hyr)), hyR⟩

theorem updateForDescendants_adjusts (hr : pool.contains r = true) {cachedDescendants : CacheMap}
    (hn : (pool.countedDescendants r cachedDescendants R).Nodup)
    (hin : ∀ d ∈ pool.countedDescendants r cachedDescendants R, pool.contains d = true) :
    OnlyTotals pool (pool.updateForDescendants r cachedDescendants R).1 ∧
    Adjusts pool (pool.updateForDescendants r cachedDescendants R).1
      (fun h => if h ∈ pool.countedDescendants r cachedDescendants R then
        pool.total ownAncestorTotals r else 0)
      (fun h => if h = r then
        ∑ d ∈ (pool.countedDescendants r cachedDescendants R).toFinset,
          pool.total ownDescendantTotals d else 0) ∧
    (pool.updateForDescendants r cachedDescendants R).2 =
      if (pool.countedDescendants r cachedDescendants R).isEmpty then cachedDescendants
      else cachedDescendants.insert r (pool.countedDescendants r cachedDescendants R) := by
  obtain ⟨u, hu⟩ := Option.isSome_iff_exists.mp hr
  generalize hD : pool.countedDescendants r cachedDescendants R = D at hn hin
  have heq : pool.updateForDescendants r cachedDescendants R =
      ((D.foldl
        (fun pool cit => pool.modify cit (addAncestorTotals u.ownAncestorTotals)) pool).modify r
        (addDescendantTotals (D.map (pool.total ownDescendantTotals)).sum),
        if D.isEmpty then cachedDescendants else cachedDescendants.insert r D) := by
    rw [sum_ownDescendantTotals hin, ← hD]
    simp only [updateForDescendants, hu]
    rfl
  have hone := adjusts_foldl_ancestors hn u.ownAncestorTotals pool
  have htwo := adjusts_foldl_descendants (nodup_singleton r)
    (D.map (pool.total ownDescendantTotals)).sum
    (D.foldl (fun pool cit => pool.modify cit (addAncestorTotals u.ownAncestorTotals)) pool)
  have h := hone.trans htwo
  rw [add_zero, zero_add] at h
  simp only [mem_singleton] at h
  refine ⟨?_, ?_, ?_⟩
  · rw [heq]
    refine (onlyTotals_foldl (fun pool cit => onlyTotals_modify pool cit ?_) D pool).trans
      (onlyTotals_modify _ r ?_)
    · exact fun _ => rfl
    · exact fun _ => rfl
  · rw [heq, sum_toFinset _ hn, total_of_lookup hu]
    exact h
  · rw [heq]

/-! ## The loop -/

/-- What an entry has gained in its ancestor totals from the ids in `Q`. -/
noncomputable def ancestorsGained (pool : CTxMemPool) (R Q : List UInt256) (h : UInt256) :
    AncestorTotals :=
  if h ∈ R.toFinset then 0 else
    ∑ a ∈ Q.toFinset ∩ above pool.ids (Spends pool) h, pool.total ownAncestorTotals a

/-- What an id in `Q` has gained in its descendant totals. -/
noncomputable def descendantsGained (pool : CTxMemPool) (R Q : List UInt256) (h : UInt256) :
    DescendantTotals :=
  if h ∈ Q.toFinset then
    ∑ d ∈ below pool.ids (Spends pool) h \ R.toFinset, pool.total ownDescendantTotals d else 0

/-- The invariant of `UpdateTransactionsFromBlock`: `Q` was handled. -/
structure Updating (pool : CTxMemPool) (R Q : List UInt256) (s : CTxMemPool × CacheMap) : Prop where
  relinks : Relinks pool s.1
  links : LinksOk s.1
  linked : ∀ c p, Linked s.1 c p ↔ LinkedFor pool R Q c p
  cache : CacheExact pool R Q s.2
  adjusts : Adjusts pool s.1 (ancestorsGained pool R Q) (descendantsGained pool R Q)

theorem Consistent.updating_nil (h : Consistent pool R) : Updating pool R [] (pool, ∅) where
  relinks := .refl pool
  links := h.sound.links
  linked c p := by
    rw [h.linked]
    simp [LinkedFor]
  cache _ _ hz := nomatch hz
  adjusts := by
    have hanc : ancestorsGained pool R [] = 0 := by
      funext x
      simp [ancestorsGained]
    have hdesc : descendantsGained pool R [] = 0 := by
      funext x
      simp [descendantsGained]
    rw [hanc, hdesc]
    exact adjusts_of_mapTx rfl

theorem Relinks.contains (h : Relinks pool pool') (x : UInt256) :
    pool'.contains x = pool.contains x :=
  contains_congr (h.core x)

theorem Relinks.indexesExact (h : Relinks pool pool') (hexact : IndexesExact pool) :
    IndexesExact pool' := by
  have hholds : ∀ tx, pool'.Holds tx ↔ pool.Holds tx := by
    intro tx
    rw [holds_iff, holds_iff, h.core]
  rw [indexesExact_iff] at hexact ⊢
  obtain ⟨hnext, hnull⟩ := hexact
  refine ⟨fun o tx => ?_, fun nf tx => ?_⟩
  · rw [hholds, h.rest]
    exact hnext o tx
  · rw [hholds, h.rest]
    exact hnull nf tx

variable {s : CTxMemPool × CacheMap}

theorem Updating.skip (h : Updating pool R Q s) (hr : pool.contains r = false) :
    Updating pool R (r :: Q) s := by
  refine ⟨h.relinks, h.links, fun c p => ?_, fun z known hz => ?_, h.adjusts.core, fun x hx => ?_,
    fun x hx => ?_⟩
  · rw [h.linked]
    refine and_congr_right fun hcp => ?_
    have hne : p ≠ r := ne_of_contains hcp.1 hr
    simp [hne]
  · obtain ⟨hzQ, hknown⟩ := h.cache z known hz
    exact ⟨mem_cons_of_mem r hzQ, hknown⟩
  · rw [h.adjusts.ancestors x hx]
    have hnot : r ∉ above pool.ids (Spends pool) x := by
      rw [mem_above, mem_ids, hr]
      exact fun h => Bool.false_ne_true h.1
    simp only [ancestorsGained, toFinset_cons, Finset.insert_inter_of_notMem hnot]
  · rw [h.adjusts.descendants x hx]
    have hne : x ≠ r := ne_of_contains hx hr
    simp only [descendantsGained, mem_toFinset, mem_cons, hne, false_or]

theorem Updating.link (h : Updating pool R Q s) (hcons : Consistent pool R)
    (hr : pool.contains r = true) (hrR : r ∈ R) :
    let pool1 := ((s.1.nextTxChildren r).filter fun child => !decide (child ∈ R)).foldl
      (fun pool child => (pool.updateChild r child true).updateParent child r true) s.1
    SameButLinks s.1 pool1 ∧ Relinks pool pool1 ∧ LinksOk pool1 ∧
      ∀ c p, Linked pool1 c p ↔ LinkedFor pool R (r :: Q) c p := by
  have hnext : s.1.nextTxChildren r = pool.nextTxChildren r := by
    unfold nextTxChildren
    rw [h.relinks.rest]
  have hmem : ∀ c, c ∈ (s.1.nextTxChildren r).filter (fun child => !decide (child ∈ R)) ↔
      Spends pool c r ∧ c ∉ R := by
    intro c
    rw [mem_filter, hnext, hcons.sound.indexes.mem_nextTxChildren hr hcons.sound.links,
      Bool.not_eq_true', decide_eq_false_iff_not]
  have hkeys : ∀ x, pool.contains x = true → (s.1.mapLinks.lookup x).isSome = true := by
    intro x hx
    rw [h.links.keys, h.relinks.contains]
    exact hx
  obtain ⟨hsame, hsome, hpn, hcn, hparents, hchildren⟩ := foldl_addChildren r
    ((s.1.nextTxChildren r).filter fun child => !decide (child ∈ R)) s.1 (hkeys r hr)
    (fun c hc => hkeys c ((hmem c).mp hc).1.child_mem)
  generalize hpool1 : foldl _ s.1 _ = pool1 at hsame hsome hpn hcn hparents hchildren ⊢
  have hrel : Relinks pool pool1 := by
    refine h.relinks.trans ⟨fun x => hsame.core, ?_, hsome⟩
    rw [hsame]
  have hcontains : ∀ x, pool1.contains x = s.1.contains x := fun x => by
    rw [hrel.contains, h.relinks.contains]
  refine ⟨hsame, hrel, ⟨fun x e hx => ?_, fun x => ?_, fun c p => ?_, fun c p hp => ?_, fun x => ?_,
    fun x => ?_⟩, fun c p => ?_⟩
  · rw [hrel.core] at hx
    exact hcons.sound.links.hash x e hx
  · rw [hsome, h.links.keys, hcontains]
  · rw [hparents, hchildren, h.links.symm]
  · rw [hcontains]
    rcases (hparents c p).mp hp with hp | ⟨rfl, -⟩
    · exact h.links.parent_mem c p hp
    · rw [h.relinks.contains]
      exact hr
  · exact hpn x (h.links.parents_nodup x)
  · exact hcn x (h.links.children_nodup x)
  · have hold := h.linked c p
    rw [Linked] at hold ⊢
    rw [hparents, hold, LinkedFor, LinkedFor]
    by_cases hp : p = r
    · subst hp
      grind
    · grind

/-- **One id is handled.** -/
theorem Updating.step (h : Updating pool R Q s) (hcons : Consistent pool R) (hQ : r :: Q <:+ R) :
    Updating pool R (r :: Q) (updateTransactionFromBlock R s r) := by
  have hrR : r ∈ R := hQ.subset mem_cons_self
  have hrQ : r ∉ Q := (nodup_cons.mp (hcons.nodup.sublist hQ.sublist)).1
  unfold updateTransactionFromBlock
  rw [h.relinks.contains]
  split_ifs with hr
  swap
  · exact h.skip (Bool.eq_false_iff.mpr hr)
  obtain ⟨hsame, hrel, hok, hlinked⟩ := h.link hcons hr hrR
  generalize hpool1 : foldl _ s.1 _ = pool1 at hsame hrel hok hlinked ⊢
  obtain ⟨hmem, hnodup⟩ := hcons.mem_countedDescendants hQ hok hlinked h.cache
  have hin : ∀ d ∈ pool1.countedDescendants r s.2 R, pool1.contains d = true := by
    intro d hd
    obtain ⟨q, hdq, -⟩ := TransGen.head'_iff.mp ((hmem d).mp hd).2
    rw [hrel.contains]
    exact hdq.child_mem
  obtain ⟨honly, hadj, hcache⟩ := updateForDescendants_adjusts
    (by rw [hrel.contains]; exact hr) hnodup hin
  have hsum := (h.adjusts.trans (adjusts_of_mapTx (by rw [hsame]))).trans hadj
  rw [add_zero, add_zero] at hsum
  refine ⟨hrel.trans honly.relinks, honly.linksOk hok, fun c p => ?_, fun z known hz => ?_,
    hsum.core, fun x hx => ?_, fun x hx => ?_⟩
  · rw [Linked, honly.getMemPoolParents]
    exact hlinked c p
  · rw [hcache] at hz
    split_ifs at hz with hempty
    · obtain ⟨hzQ, hknown⟩ := h.cache z known hz
      exact ⟨mem_cons_of_mem r hzQ, hknown⟩
    · rw [Map.lookup_insert'] at hz
      split_ifs at hz with hzr
      · cases hz
        rw [hzr]
        exact ⟨mem_cons_self, hmem⟩
      · obtain ⟨hzQ, hknown⟩ := h.cache z known hz
        exact ⟨mem_cons_of_mem r hzQ, hknown⟩
  · rw [hsum.ancestors x hx, Pi.add_apply]
    congr 1
    unfold ancestorsGained
    simp only [mem_toFinset]
    by_cases hxR : x ∈ R
    · rw [if_pos hxR, if_pos hxR, if_neg fun hc => ((hmem x).mp hc).1 hxR, add_zero]
    · have hiff : x ∈ pool1.countedDescendants r s.2 R ↔ r ∈ above pool.ids (Spends pool) x := by
        rw [hmem, mem_above, mem_ids]
        exact ⟨fun hc => ⟨hr, hc.2⟩, fun hc => ⟨hxR, hc.2⟩⟩
      rw [if_neg hxR, if_neg hxR, toFinset_cons]
      by_cases hc : x ∈ pool1.countedDescendants r s.2 R
      · rw [if_pos hc, Finset.insert_inter_of_mem (hiff.mp hc), Finset.sum_insert (by simp [hrQ]),
          total_congr (fun _ => rfl) (hrel.core r), add_comm]
      · rw [if_neg hc, Finset.insert_inter_of_notMem fun hn => hc (hiff.mpr hn), add_zero]
  · rw [hsum.descendants x hx, Pi.add_apply]
    congr 1
    unfold descendantsGained
    simp only [mem_toFinset]
    by_cases hxr : x = r
    · subst hxr
      have hset : (pool1.countedDescendants x s.2 R).toFinset =
          below pool.ids (Spends pool) x \ R.toFinset := by
        ext d
        rw [mem_toFinset, hmem, Finset.mem_sdiff, mem_below, mem_ids, mem_toFinset]
        refine ⟨fun hd => ⟨⟨?_, hd.2⟩, hd.1⟩, fun hd => ⟨hd.2, hd.1.2⟩⟩
        obtain ⟨q, hdq, -⟩ := TransGen.head'_iff.mp hd.2
        exact hdq.child_mem
      rw [if_neg hrQ, if_pos rfl, if_pos mem_cons_self, hset, zero_add]
      exact Finset.sum_congr rfl fun d _ => total_congr (fun _ => rfl) (hrel.core d)
    · simp only [hxr, if_false, add_zero, mem_cons, false_or]

theorem Consistent.updating (h : Consistent pool R) (hQ : Q <:+ R) :
    Updating pool R Q (Q.reverse.foldl (updateTransactionFromBlock R) (pool, ∅)) := by
  induction Q with
  | nil => exact h.updating_nil
  | cons r Q ih =>
    rw [reverse_cons, foldl_append]
    exact (ih ((suffix_cons r Q).trans hQ)).step h hQ

theorem Consistent.detaches (h : Consistent pool R) :
    Detaches (Spends pool) (Linked pool) R.toFinset := by
  intro c p
  rw [mem_toFinset, mem_toFinset]
  exact h.linked c p

/-- Sums along the links and what was gained are sums along the spends. -/
theorem Consistent.totals_gained (h : Consistent pool R) {x : UInt256}
    (hx : pool.contains x = true) :
    pool.total ancestorTotals x + ancestorsGained pool R R x =
      pool.total ownAncestorTotals x +
        ∑ a ∈ above pool.ids (Spends pool) x, pool.total ownAncestorTotals a ∧
    pool.total descendantTotals x + descendantsGained pool R R x =
      pool.total ownDescendantTotals x +
        ∑ d ∈ below pool.ids (Spends pool) x, pool.total ownDescendantTotals d := by
  have hR : ∀ c p, Spends pool c p → c ∈ R.toFinset → p ∈ R.toFinset := by
    intro c p hcp hc
    rw [mem_toFinset] at hc ⊢
    exact h.parents_readded c hc p hcp
  rw [h.totals.ancestors x hx, h.totals.descendants x hx]
  unfold ancestorsGained descendantsGained
  simp only [mem_toFinset]
  by_cases hxR : x ∈ R
  · have hxR' := mem_toFinset.mpr hxR
    rw [if_pos hxR, if_pos hxR, add_zero, above_detach_of_mem h.detaches hR hxR',
      below_detach_of_mem h.detaches hR hxR', add_assoc, Finset.sum_inter_add_sum_sdiff]
    exact ⟨rfl, rfl⟩
  · have hxR' : x ∉ R.toFinset := fun hm => hxR (mem_toFinset.mp hm)
    rw [if_neg hxR, if_neg hxR, add_zero, above_detach_of_notMem h.detaches hR hxR',
      below_detach_of_notMem h.detaches hR hxR', add_assoc, Finset.inter_comm,
      add_comm (∑ a ∈ _ \ _, _), Finset.sum_inter_add_sum_sdiff]
    exact ⟨rfl, rfl⟩

/-- **`UpdateTransactionsFromBlock`**: nothing is missing any more. -/
theorem Consistent.updateTransactionsFromBlock (h : Consistent pool R) :
    Consistent (pool.updateTransactionsFromBlock R) [] := by
  have hupd := h.updating (suffix_refl R)
  have hcore : ∀ x, (pool.updateTransactionsFromBlock R).core x = pool.core x := hupd.relinks.core
  have hspends := spends_congr hcore
  have hlinked : ∀ c p, Linked (pool.updateTransactionsFromBlock R) c p ↔
      Spends (pool.updateTransactionsFromBlock R) c p := by
    intro c p
    rw [hspends]
    refine (hupd.linked c p).trans ⟨fun hcp => hcp.1, fun hcp => ⟨hcp, fun hnot => ?_⟩⟩
    exact hnot.2.1 hnot.1
  have hlinkedEq : Linked (pool.updateTransactionsFromBlock R) = Spends pool := by
    funext c p
    rw [← hspends]
    exact propext (hlinked c p)
  have hback : ∀ x, (pool.updateTransactionsFromBlock R).contains x = true →
      pool.contains x = true := fun x hx => hupd.relinks.contains x ▸ hx
  refine ⟨⟨hupd.links, ?_⟩, fun c p => ?_, nofun, .nil, .nil, fun x hx => ?_,
    fun x hx => ?_⟩
  · exact hupd.relinks.indexesExact h.sound.indexes
  · rw [hlinked]
    simp
  · refine (hupd.adjusts.ancestors x (hback x hx)).trans ?_
    rw [(h.totals_gained (hback x hx)).1, hlinkedEq, ids_congr hcore]
    simp only [total_congr (f := ownAncestorTotals) (fun _ => rfl) (hcore _)]
  · refine (hupd.adjusts.descendants x (hback x hx)).trans ?_
    rw [(h.totals_gained (hback x hx)).2, hlinkedEq, ids_congr hcore]
    simp only [total_congr (f := ownDescendantTotals) (fun _ => rfl) (hcore _)]

end CTxMemPool

end Passion
