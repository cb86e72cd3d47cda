import Passion.Chain.Skip

/-!
# Linking received blocks

Two local equations give the chain totals of an entry from those of its parent (`derivedChainTx`,
`derivedSapling`): they are empty until the data of the block has been received and the parent is
linked. `ReceivedBlockTransactions` keeps them by its queue. The invariant `Linking` has three
parts:

* *settled*: every entry outside the queue satisfies its equations,
* *queued*: an entry in the queue has data and a linked parent, and is itself not linked, and
* *unlinked*: `mapBlocksUnlinked` has exactly the blocks with data whose parent is not linked.

One turn of the queue settles the entry at its front. The equations of that entry's children
change with it; those that have data were waiting for it, so they have moved to the queue.
-/

namespace Passion.Chain

open Lib Lib.Map List Option

/-! ## The equations -/

def derivedChainTx (m : BlockMap) (e : CBlockIndex) : Nat :=
  if e.nStatus.haveData && parentLinked m e then (e.prev m).elim 0 (·.nChainTx) + e.nTx else 0

def derivedSapling (m : BlockMap) (e : CBlockIndex) : Option CAmount :=
  if e.nStatus.haveData && parentLinked m e then chainSaplingValue (e.prev m) e else none

section

variable {m : BlockMap} {e : CBlockIndex} (hdata : e.nStatus.haveData = true)
  (hlinked : parentLinked m e = true)

include hdata hlinked

theorem derivedChainTx_of_linked : derivedChainTx m e = (e.prev m).elim 0 (·.nChainTx) + e.nTx := by
  simp [derivedChainTx, hdata, hlinked]

theorem derivedSapling_of_linked : derivedSapling m e = chainSaplingValue (e.prev m) e := by
  simp [derivedSapling, hdata, hlinked]

end

/-- The totals of an entry are those its parent gives. -/
def Settled (m : BlockMap) (e : CBlockIndex) : Prop :=
  e.nChainTx = derivedChainTx m e ∧ e.nChainSaplingValue = derivedSapling m e

structure Linking (m : BlockMap) (unlinked : List (UInt256 × UInt256)) (queue : List UInt256) :
    Prop where
  settled : ∀ h e, m.lookup h = some e → h ∉ queue → Settled m e
  queued : ∀ h ∈ queue, ∃ e, m.lookup h = some e ∧ e.nStatus.haveData = true ∧
    parentLinked m e = true ∧ e.nChainTx = 0
  queue_nodup : queue.Nodup
  mem_unlinked : ∀ p c, (p, c) ∈ unlinked ↔ ∃ e pe, m.lookup c = some e ∧
    e.nStatus.haveData = true ∧ e.pprev = some p ∧ m.lookup p = some pe ∧ pe.nChainTx = 0
  unlinked_nodup : unlinked.Nodup
  counted : ∀ h e, m.lookup h = some e → e.nStatus.haveData = true → 0 < e.nTx

/-! ## Changing one entry -/

section

variable {m : BlockMap} {q : UInt256} {e e' x : CBlockIndex}

theorem prev_insert (hx : x.pprev ≠ some q) : x.prev (m.insert q e') = x.prev m := by
  cases hp : x.pprev with
  | none => simp [CBlockIndex.prev, hp]
  | some p =>
    have hne : p ≠ q := fun h => hx (by rw [hp, h])
    simp [CBlockIndex.prev, hp, hne]

theorem prev_insert_self (hx : x.pprev = some q) : x.prev (m.insert q e') = some e' := by
  simp [CBlockIndex.prev, hx]

theorem parentLinked_insert (hx : x.pprev ≠ some q) :
    parentLinked (m.insert q e') x = parentLinked m x := by
  simp only [parentLinked, prev_insert hx]

theorem settled_insert (hx : x.pprev ≠ some q) : Settled (m.insert q e') x ↔ Settled m x := by
  simp only [Settled, derivedChainTx, derivedSapling, parentLinked_insert hx, prev_insert hx]

theorem Tree.pprev_ne_self (ht : Tree m) (he : m.lookup q = some e) : e.pprev ≠ some q := by
  intro hp
  obtain ⟨pe, hpe, hheight⟩ := ht.parent q e q he hp
  rw [he] at hpe
  cases hpe
  omega

theorem Settled.eq_zero (h : Settled m x)
    (hx : x.nStatus.haveData = false ∨ parentLinked m x = false) : x.nChainTx = 0 := by
  rw [h.1, derivedChainTx]
  rcases hx with hx | hx <;> simp [hx]

theorem settled_of_unlinked (hx : x.nStatus.haveData = false ∨ parentLinked m x = false)
    (htx : x.nChainTx = 0) (hsapling : x.nChainSaplingValue = none) : Settled m x := by
  rcases hx with hx | hx <;> simp [Settled, derivedChainTx, derivedSapling, hx, htx, hsapling]

end

/-! ## One turn of the queue -/

section

variable {m : BlockMap} {unlinked : List (UInt256 × UInt256)} {q : UInt256} {queue : List UInt256}

theorem Linking.mem_waiting (hl : Linking m unlinked (q :: queue)) {c : UInt256} :
    c ∈ (unlinked.filter (·.1 = q)).map (·.2) ↔
      ∃ e, m.lookup c = some e ∧ e.nStatus.haveData = true ∧ e.pprev = some q := by
  obtain ⟨qe, hqe, -, -, hzero⟩ := hl.queued q mem_cons_self
  constructor
  · intro hc
    obtain ⟨⟨p, c'⟩, hmem, rfl⟩ := mem_map.mp hc
    obtain ⟨hpc, hp⟩ := mem_filter.mp hmem
    have hp : p = q := by simpa using hp
    obtain ⟨e, pe, he, hdata, hep, -, -⟩ := (hl.mem_unlinked p c').mp hpc
    exact ⟨e, he, hdata, hp ▸ hep⟩
  · rintro ⟨e, he, hdata, hep⟩
    refine mem_map.mpr ⟨(q, c), mem_filter.mpr ⟨?_, by simp⟩, rfl⟩
    exact (hl.mem_unlinked q c).mpr ⟨e, qe, he, hdata, hep, hqe, hzero⟩

/-- A block that waits for the front of the queue is not in the queue: its parent is not linked. -/
theorem Linking.waiting_not_mem (hl : Linking m unlinked (q :: queue)) {c : UInt256}
    {e : CBlockIndex} (he : m.lookup c = some e) (hp : e.pprev = some q) : c ∉ q :: queue := by
  intro hc
  obtain ⟨qe, hqe, -, -, hzero⟩ := hl.queued q mem_cons_self
  obtain ⟨e', he', -, hlinked, -⟩ := hl.queued c hc
  rw [he] at he'
  cases he'
  simp [parentLinked, CBlockIndex.prev, hp, hqe, hzero] at hlinked

theorem Linking.turn (hl : Linking m unlinked (q :: queue)) (ht : Tree m) {e : CBlockIndex}
    (he : m.lookup q = some e) (nSequenceId : Nat) :
    Linking (m.insert q (linkEntry m nSequenceId e)) (unlinked.filter (·.1 ≠ q))
      (queue ++ (unlinked.filter (·.1 = q)).map (·.2)) := by
  obtain ⟨e0, he0, hdata, hlinked, hzero⟩ := hl.queued q mem_cons_self
  rw [he] at he0
  cases he0
  have hself : e.pprev ≠ some q := ht.pprev_ne_self he
  have hpos : (linkEntry m nSequenceId e).nChainTx ≠ 0 := by
    have := hl.counted q e he hdata
    simp only [linkEntry]
    omega
  obtain ⟨hq, hqueue⟩ := nodup_cons.mp hl.queue_nodup
  have hold : ∀ h x, h ≠ q → m.lookup h = some x →
      (m.insert q (linkEntry m nSequenceId e)).lookup h = some x := by
    intro h x hne hx
    rw [lookup_insert', if_neg hne, hx]
  constructor
  · intro h x hx hnot
    rw [mem_append, hl.mem_waiting] at hnot
    rcases lookup_insert_cases hx with ⟨rfl, rfl⟩ | ⟨hne, hx⟩
    · -- The entry at the front has the totals the queue has just given it.
      have hsame : (linkEntry m nSequenceId e).pprev ≠ some h := hself
      rw [settled_insert hsame]
      have hlinked' : parentLinked m (linkEntry m nSequenceId e) = true := hlinked
      have hdata' : (linkEntry m nSequenceId e).nStatus.haveData = true := hdata
      constructor
      · rw [derivedChainTx_of_linked hdata' hlinked']
        rfl
      · rw [derivedSapling_of_linked hdata' hlinked']
        rfl
    · have hbefore : Settled m x := hl.settled h x hx fun hmem => by
        rcases mem_cons.mp hmem with hmem | hmem
        · exact hne hmem
        · exact hnot (.inl hmem)
      by_cases hp : x.pprev = some q
      · -- A child outside the queue has no data.
        have hnodata : x.nStatus.haveData = false := by
          by_contra hd
          exact hnot (.inr ⟨x, hx, by simpa using hd, hp⟩)
        refine settled_of_unlinked (.inl hnodata) (hbefore.eq_zero (.inl hnodata)) ?_
        rw [hbefore.2]
        simp [derivedSapling, hnodata]
      · rw [settled_insert hp]
        exact hbefore
  · intro h hmem
    rcases mem_append.mp hmem with hmem | hmem
    · obtain ⟨x, hx, hxd, hxl, hx0⟩ := hl.queued h (mem_cons_of_mem q hmem)
      have hne : h ≠ q := fun heq => hq (heq ▸ hmem)
      have hp : x.pprev ≠ some q := fun hp =>
        hl.waiting_not_mem hx hp (mem_cons_of_mem q hmem)
      exact ⟨x, hold h x hne hx, hxd, by rw [parentLinked_insert hp]; exact hxl, hx0⟩
    · obtain ⟨x, hx, hxd, hp⟩ := (hl.mem_waiting).mp hmem
      have hnot := hl.waiting_not_mem hx hp
      have hne : h ≠ q := fun heq => hnot (heq ▸ mem_cons_self)
      obtain ⟨qe, hqe, -, -, hq0⟩ := hl.queued q mem_cons_self
      have hunlinked : parentLinked m x = false := by
        simp [parentLinked, CBlockIndex.prev, hp, hqe, hq0]
      refine ⟨x, hold h x hne hx, hxd, ?_, (hl.settled h x hx hnot).eq_zero (.inr hunlinked)⟩
      simp [parentLinked, prev_insert_self hp, hpos]
  · refine nodup_append'.mpr ⟨hqueue, ?_, ?_⟩
    · refine Nodup.map_on ?_ (hl.unlinked_nodup.filter _)
      rintro ⟨p, c⟩ hpc ⟨p', c'⟩ hpc' rfl
      have h1 : p = q := by simpa using (mem_filter.mp hpc).2
      have h2 : p' = q := by simpa using (mem_filter.mp hpc').2
      rw [h1, h2]
    · intro h hmem hwait
      obtain ⟨x, hx, -, hp⟩ := (hl.mem_waiting).mp hwait
      exact hl.waiting_not_mem hx hp (mem_cons_of_mem q hmem)
  · intro p c
    rw [mem_filter, hl.mem_unlinked]
    constructor
    · rintro ⟨⟨x, pe, hx, hxd, hp, hpe, hp0⟩, hpq⟩
      have hpq : p ≠ q := by simpa using hpq
      by_cases hcq : c = q
      · -- The front of the queue has a linked parent.
        subst hcq
        rw [he] at hx
        cases hx
        simp [parentLinked, CBlockIndex.prev, hp, hpe, hp0] at hlinked
      · exact ⟨x, pe, hold c x hcq hx, hxd, hp, hold p pe hpq hpe, hp0⟩
    · rintro ⟨x, pe, hx, hxd, hp, hpe, hp0⟩
      have hpq : p ≠ q := by
        rintro rfl
        rw [lookup_insert', if_pos rfl] at hpe
        cases hpe
        exact hpos hp0
      rw [lookup_insert', if_neg hpq] at hpe
      refine ⟨?_, by simpa using hpq⟩
      rcases lookup_insert_cases hx with ⟨rfl, rfl⟩ | ⟨hcq, hx⟩
      · exact ⟨e, pe, he, hxd, hp, hpe, hp0⟩
      · exact ⟨x, pe, hx, hxd, hp, hpe, hp0⟩
  · exact hl.unlinked_nodup.filter _
  · intro h x hx hxd
    rcases lookup_insert_cases hx with ⟨rfl, rfl⟩ | ⟨-, hx⟩
    · exact hl.counted h e he hdata
    · exact hl.counted h x hx hxd

end

/-! ## Linked blocks -/

/-- The data of a block and of all its ancestors has been received. -/
def Received (m : BlockMap) (h : UInt256) : Prop :=
  ∀ a e, Above (pprevOf m) a h → m.lookup a = some e → e.nStatus.haveData = true

section

variable {m : BlockMap}

/-- Induction from parents to children. -/
theorem Tree.induct (ht : Tree m) {P : UInt256 → CBlockIndex → Prop}
    (hstep : ∀ h e, m.lookup h = some e →
      (∀ p pe, e.pprev = some p → m.lookup p = some pe → P p pe) → P h e) :
    ∀ h e, m.lookup h = some e → P h e := by
  suffices ∀ n h e, m.lookup h = some e → e.nHeight = n → P h e from
    fun h e he => this e.nHeight h e he rfl
  intro n
  induction n using Nat.strong_induction_on with
  | _ n ih =>
    intro h e he hn
    refine hstep h e he fun p pe hp hpe => ?_
    obtain ⟨pe', hpe', hheight⟩ := ht.parent h e p he hp
    rw [hpe] at hpe'
    cases hpe'
    exact ih pe.nHeight (by omega) p pe hpe rfl

variable {unlinked : List (UInt256 × UInt256)} (hl : Linking m unlinked [])

include hl

theorem Linking.linked_iff {h : UInt256} {e : CBlockIndex} (he : m.lookup h = some e) :
    e.nChainTx ≠ 0 ↔ e.nStatus.haveData = true ∧ parentLinked m e = true := by
  rw [(hl.settled h e he not_mem_nil).1]
  constructor
  · intro hne
    by_contra hnot
    apply hne
    rw [derivedChainTx, if_neg (by simpa using hnot)]
  · rintro ⟨hdata, hlinked⟩
    have := hl.counted h e he hdata
    rw [derivedChainTx_of_linked hdata hlinked]
    omega

/-- An entry is linked exactly if its data and that of its ancestors is there. -/
theorem Linking.received_iff (ht : Tree m) :
    ∀ h e, m.lookup h = some e → (Received m h ↔ e.nChainTx ≠ 0) := by
  refine ht.induct fun h e he ih => ?_
  rw [hl.linked_iff he]
  constructor
  · intro hreceived
    refine ⟨hreceived h e (above_refl h) he, ?_⟩
    cases hprev : e.prev m with
    | none => simp [parentLinked, hprev]
    | some pe =>
      obtain ⟨p, hp, hpe⟩ := bind_eq_some_iff.mp hprev
      have hparent : Received m p := fun a ae ha hae =>
        hreceived a ae (ha.trans (above_parent ((pprevOf_eq he).trans hp))) hae
      simpa [parentLinked, hprev] using (ih p pe hp hpe).mp hparent
  · rintro ⟨hdata, hlinked⟩ a ae ha hae
    rcases above_iff.mp ha with rfl | ⟨p, hp, ha⟩
    · rw [he] at hae
      cases hae
      exact hdata
    · rw [pprevOf_eq he] at hp
      obtain ⟨pe, hpe, -⟩ := ht.parent h e p he hp
      have hpe0 : pe.nChainTx ≠ 0 := by
        simpa [parentLinked, CBlockIndex.prev, hp, hpe] using hlinked
      exact (ih p pe hp hpe).mpr hpe0 a ae ha hae

end

/-! ## The whole queue -/

theorem linkStep_eq (env : ChainEnv) {st : ChainState} {q : UInt256} {e : CBlockIndex}
    (he : st.entry q = some e) :
    (linkStep env st q).mapBlockIndex =
        st.mapBlockIndex.insert q (linkEntry st.mapBlockIndex st.nBlockSequenceId e) ∧
      (linkStep env st q).mapBlocksUnlinked = st.mapBlocksUnlinked.filter (·.1 ≠ q) := by
  simp [linkStep, he]

theorem length_waiting (st : ChainState) (q : UInt256) :
    (waiting st q).length + (st.mapBlocksUnlinked.filter (·.1 ≠ q)).length =
      st.mapBlocksUnlinked.length := by
  rw [waiting]
  simpa using (length_eq_length_filter_add (l := st.mapBlocksUnlinked) (·.1 = q)).symm

/-- What every turn keeps holds when the queue is empty, and the fuel is enough to empty it. -/
theorem linkQueue_induct {env : ChainEnv} {P : ChainState → List UInt256 → Prop}
    (hentry : ∀ st q queue, P st (q :: queue) → ∃ e, st.entry q = some e)
    (hturn : ∀ st q queue, P st (q :: queue) → P (linkStep env st q) (queue ++ waiting st q)) :
    ∀ (fuel : Nat) (queue : List UInt256) (st : ChainState), P st queue →
      queue.length + st.mapBlocksUnlinked.length ≤ fuel → P (linkQueue env fuel queue st) [] := by
  intro fuel
  induction fuel with
  | zero =>
    intro queue st hP hfuel
    cases queue with
    | nil => exact hP
    | cons q queue =>
      rw [length_cons] at hfuel
      omega
  | succ fuel ih =>
    intro queue st hP hfuel
    cases queue with
    | nil => exact hP
    | cons q queue =>
      obtain ⟨e, he⟩ := hentry st q queue hP
      refine ih _ _ (hturn st q queue hP) ?_
      have hlength := length_waiting st q
      rw [(linkStep_eq env he).2, length_append]
      rw [length_cons] at hfuel
      omega

/-! ## What linking leaves alone -/

def CBlockIndex.fixed (e : CBlockIndex) : CBlockIndex :=
  { e with
    nFile := 0
    nDataPos := 0
    nUndoPos := 0
    nTx := 0
    nStatus := {}
    nFlags := 0
    nSaplingValue := 0
    nChainTx := 0
    nChainSaplingValue := none
    nSequenceId := 0 }

def CBlockIndex.unlinked (e : CBlockIndex) : CBlockIndex :=
  { e with nChainTx := 0, nChainSaplingValue := none, nSequenceId := 0 }

/-- The same blocks, and entries that agree in what `view` keeps. -/
def SameUpTo (view : CBlockIndex → CBlockIndex) (m m' : BlockMap) : Prop :=
  ∀ h, (m'.lookup h).map view = (m.lookup h).map view

abbrev SameTree := SameUpTo CBlockIndex.fixed

abbrev SameData := SameUpTo CBlockIndex.unlinked

namespace SameUpTo

variable {view view' : CBlockIndex → CBlockIndex} {m m' m'' : BlockMap}

theorem refl (m : BlockMap) : SameUpTo view m m := fun _ => rfl

theorem trans (h : SameUpTo view m m') (h' : SameUpTo view m' m'') : SameUpTo view m m'' :=
  fun k => (h' k).trans (h k)

theorem symm (h : SameUpTo view m m') : SameUpTo view m' m := fun k => (h k).symm

theorem insert {q : UInt256} {e e' : CBlockIndex} (he : m.lookup q = some e)
    (hview : view e' = view e) : SameUpTo view m (m.insert q e') := by
  intro h
  rw [lookup_insert']
  by_cases hq : h = q
  · rw [if_pos hq, hq, he, map_some, map_some, hview]
  · rw [if_neg hq]

theorem exists_entry (hs : SameUpTo view m m') {h : UInt256} {e' : CBlockIndex}
    (he' : m'.lookup h = some e') : ∃ e, m.lookup h = some e ∧ view e = view e' := by
  have := hs h
  rw [he'] at this
  exact map_eq_some_iff.mp this.symm

theorem prev_eq (hs : SameUpTo view m m') {e e' : CBlockIndex} (hp : e.pprev = e'.pprev) :
    (e'.prev m').map view = (e.prev m).map view := by
  rw [CBlockIndex.prev, CBlockIndex.prev, hp]
  cases e'.pprev with
  | none => rfl
  | some p => exact hs p

theorem exists_prev (hs : SameUpTo view m m') {e e' prev' : CBlockIndex} (hp : e.pprev = e'.pprev)
    (hprev' : e'.prev m' = some prev') : ∃ prev, e.prev m = some prev ∧ view prev = view prev' := by
  have := hs.prev_eq hp
  rw [hprev'] at this
  exact map_eq_some_iff.mp this.symm

theorem mono (hs : SameUpTo view m m') (hview : ∀ e, view' (view e) = view' e) :
    SameUpTo view' m m' := by
  intro h
  have := congrArg (Option.map view') (hs h)
  simpa [Function.comp_def, hview] using this

end SameUpTo

theorem SameData.sameTree {m m' : BlockMap} (hs : SameData m m') : SameTree m m' :=
  hs.mono fun _ => rfl

namespace SameTree

variable {m m' : BlockMap}

theorem pprevOf_eq (hs : SameTree m m') : pprevOf m' = pprevOf m := by
  funext h
  have hview : ∀ n : BlockMap,
      pprevOf n h = ((n.lookup h).map CBlockIndex.fixed).bind (·.pprev) := by
    intro n
    cases hn : n.lookup h <;> simp [pprevOf, hn, CBlockIndex.fixed]
  rw [hview, hview, hs h]

theorem tree (hs : SameTree m m') (ht : Tree m) : Tree m' := by
  constructor
  · intro h e' he'
    obtain ⟨e, he, hfixed⟩ := hs.exists_entry he'
    rw [← ht.hash_eq h e he]
    exact (congrArg (·.hash) hfixed).symm
  · intro h e' p he' hp
    obtain ⟨e, he, hfixed⟩ := hs.exists_entry he'
    obtain ⟨pe, hpe, hheight⟩ := ht.parent h e p he ((congrArg (·.pprev) hfixed).trans hp)
    obtain ⟨pe', hpe', hfixed'⟩ := hs.symm.exists_entry hpe
    have h1 : e.nHeight = e'.nHeight := congrArg (·.nHeight) hfixed
    have h2 : pe'.nHeight = pe.nHeight := congrArg (·.nHeight) hfixed'
    exact ⟨pe', hpe', by omega⟩
  · intro h e' he' hp
    obtain ⟨e, he, hfixed⟩ := hs.exists_entry he'
    obtain ⟨hheight, hskip⟩ := ht.root h e he ((congrArg (·.pprev) hfixed).trans hp)
    exact ⟨(congrArg (·.nHeight) hfixed).symm.trans hheight,
      (congrArg (·.pskip) hfixed).symm.trans hskip⟩
  · intro h e' p he' hp
    obtain ⟨e, he, hfixed⟩ := hs.exists_entry he'
    have hskip := ht.skip h e p he ((congrArg (·.pprev) hfixed).trans hp)
    have h1 : e.nHeight = e'.nHeight := congrArg (·.nHeight) hfixed
    have h2 : e.pskip = e'.pskip := congrArg (·.pskip) hfixed
    rw [hs.pprevOf_eq, ← h1, ← h2, hskip]

end SameTree

end Passion.Chain
