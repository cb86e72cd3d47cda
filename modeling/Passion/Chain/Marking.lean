import Passion.Chain.Consistency

/-!
# Marking blocks as failed

`InvalidBlockFound`, `InvalidateBlock`, `FindMostWorkChain` and `PruneBlockIndexCandidates` keep
the index consistent, and so does the activation of the chain that `FindMostWorkChain` finds.

Marks are the only part of an entry that the first three change (`SameButMarks`), so the shape of
the index stays. What remains to be seen of each is where the new marks stand: below an invalid
block, and outside the active chain.
-/

namespace Passion.Chain

open Lib Lib.Map ChainState List Option

/-! ## Entries up to their status -/

def CBlockIndex.body (e : CBlockIndex) : CBlockIndex :=
  { e with nStatus := { haveData := e.nStatus.haveData } }

abbrev SameBody := SameUpTo CBlockIndex.body

abbrev SameButMarks := SameUpTo CBlockIndex.clearFailed

variable {m : BlockMap}

theorem SameButMarks.sameBody {m' : BlockMap} (hs : SameButMarks m m') : SameBody m m' :=
  hs.mono fun _ => rfl

theorem body_eq_of_clear {e e' : CBlockIndex} (h : e.clearFailed = e'.clearFailed) :
    e.body = e'.body :=
  show e.clearFailed.body = e'.clearFailed.body by rw [h]

open CBlockIndex

section

variable {m m' : BlockMap}

theorem SameBody.sameTree (hs : SameBody m m') : SameTree m m' := hs.mono fun _ => rfl

theorem SameButMarks.pprevOf_eq (hs : SameButMarks m m') : pprevOf m' = pprevOf m :=
  hs.sameBody.sameTree.pprevOf_eq

variable {e e' : CBlockIndex}

theorem settled_iff_of_body : Settled m e ↔
      e.body.nChainTx =
          (if e.body.nStatus.haveData &&
              ((e.prev m).map body).all (·.nChainTx ≠ 0) then
            ((e.prev m).map body).elim 0 (·.nChainTx) + e.body.nTx
          else 0) ∧
        e.body.nChainSaplingValue =
          (if e.body.nStatus.haveData &&
              ((e.prev m).map body).all (·.nChainTx ≠ 0) then
            chainSaplingValue ((e.prev m).map body) e.body
          else none) := by
  cases hp : e.prev m <;>
    simp [Settled, derivedChainTx, derivedSapling, parentLinked, hp, body,
      chainSaplingValue]

theorem SameBody.settled (hs : SameBody m m') (hbody : e.body = e'.body) (h : Settled m e) :
    Settled m' e' := by
  have hp : e.pprev = e'.pprev := congrArg (·.pprev) hbody
  rw [settled_iff_of_body] at h ⊢
  rw [hs.prev_eq hp, ← hbody]
  exact h

theorem SameBody.waits (hs : SameBody m m') {p c : UInt256}
    (h : ∃ e pe, m.lookup c = some e ∧ e.nStatus.haveData = true ∧ e.pprev = some p ∧
      m.lookup p = some pe ∧ pe.nChainTx = 0) :
    ∃ e pe, m'.lookup c = some e ∧ e.nStatus.haveData = true ∧ e.pprev = some p ∧
      m'.lookup p = some pe ∧ pe.nChainTx = 0 := by
  obtain ⟨e, pe, he, hdata, hp, hpe, hzero⟩ := h
  obtain ⟨e', he', hbody⟩ := hs.symm.exists_entry he
  obtain ⟨pe', hpe', hpbody⟩ := hs.symm.exists_entry hpe
  refine ⟨e', pe', he', ?_, ?_, hpe', ?_⟩
  · exact (congrArg (·.nStatus.haveData) hbody).trans hdata
  · exact (congrArg (·.pprev) hbody).trans hp
  · exact (congrArg (·.nChainTx) hpbody).trans hzero

theorem SameBody.linking (hs : SameBody m m') {unlinked : List (UInt256 × UInt256)}
    (hl : Linking m unlinked []) : Linking m' unlinked [] := by
  constructor
  · intro h e' he' hnot
    obtain ⟨e, he, hbody⟩ := hs.exists_entry he'
    exact hs.settled hbody (hl.settled h e he hnot)
  · intro h hmem
    cases hmem
  · exact nodup_nil
  · intro p c
    rw [hl.mem_unlinked]
    exact ⟨hs.waits, waits hs.symm⟩
  · exact hl.unlinked_nodup
  · intro h e' he' hdata
    obtain ⟨e, he, hbody⟩ := hs.exists_entry he'
    have htx : e.nTx = e'.nTx := congrArg (·.nTx) hbody
    rw [← htx]
    exact hl.counted h e he ((congrArg (·.nStatus.haveData) hbody).trans hdata)

theorem notWorse_of_body (env : ChainEnv) (st : ChainState) (e : CBlockIndex) : notWorse env st e =
      (st.tipEntry.map body).all fun tip => !workLess env e.body tip := by
  rw [Option.all_map]
  rfl

theorem tipEntry_body {st st' : ChainState} (htip : st'.tip = st.tip)
    (hs : SameBody st.mapBlockIndex st'.mapBlockIndex) :
    st'.tipEntry.map body = st.tipEntry.map body := by
  rw [tipEntry, tipEntry, htip]
  cases st.tip with
  | none => rfl
  | some tip => exact hs tip

theorem notWorse_congr (env : ChainEnv) {st st' : ChainState} (htip : st'.tip = st.tip)
    (hs : SameBody st.mapBlockIndex st'.mapBlockIndex) (hbody : e.body = e'.body) :
    notWorse env st' e' = notWorse env st e := by
  rw [notWorse_of_body, notWorse_of_body, tipEntry_body htip hs, hbody]

end

/-! ## Shape without marks -/

section

variable {env : IndexEnv} {m m' : BlockMap}

theorem SameButMarks.sound (hs : SameButMarks m m') {e e' : CBlockIndex}
    (hclear : e.clearFailed = e'.clearFailed) (h : Sound m e) : Sound m' e' := by
  have hstatus : e'.clearFailed.nStatus = e.clearFailed.nStatus :=
    congrArg (·.nStatus) hclear.symm
  refine h.congr (congrArg (·.haveData) hstatus) (congrArg (·.nTx) hclear.symm)
    (congrArg (·.valid) hstatus) (congrArg (·.nChainWork) hclear.symm) ?_ ?_
  · intro hzero
    have hseq : e.nSequenceId = e'.nSequenceId := congrArg (·.nSequenceId) hclear
    rw [← hseq]
    exact h.sequence ((congrArg (·.nChainTx) hclear).trans hzero)
  · intro prev' hprev'
    have hp : e.pprev = e'.pprev := congrArg (·.pprev) hclear
    obtain ⟨prev, hprev, hview⟩ := hs.exists_prev hp hprev'
    exact ⟨prev, hprev, congrArg (·.nChainWork) hview.symm, congrArg (·.pprev) hview.symm,
      (congrArg (·.nStatus.valid) hview).le⟩

theorem SameButMarks.shaped (hs : SameButMarks m m') {unlinked : List (UInt256 × UInt256)}
    (h : Shaped env m unlinked) : Shaped env m' unlinked where
  tree := hs.sameBody.sameTree.tree h.tree
  linking := hs.sameBody.linking h.linking
  sound := by
    intro k e' he'
    obtain ⟨e, he, hclear⟩ := hs.exists_entry he'
    exact hs.sound hclear (h.sound k e he)
  root := by
    intro k e' he' hp
    obtain ⟨e, he, hclear⟩ := hs.exists_entry he'
    exact h.root k e he ((congrArg (·.pprev) hclear).trans hp)

theorem SameButMarks.standing {env : ChainEnv} {st st' : ChainState}
    (hs : SameButMarks st.mapBlockIndex st'.mapBlockIndex) (htip : st'.tip = st.tip) {h : UInt256}
    {e' : CBlockIndex} (he' : st'.entry h = some e') (hlinked : e'.nChainTx ≠ 0)
    (hworse : notWorse env st' e' = true) :
    ∃ e, st.entry h = some e ∧ e.nChainTx ≠ 0 ∧ notWorse env st e = true := by
  obtain ⟨e, he, hclear⟩ := hs.exists_entry he'
  have htx : e.nChainTx = e'.nChainTx := congrArg (·.nChainTx) hclear
  refine ⟨e, he, htx ▸ hlinked, ?_⟩
  rw [← notWorse_congr env htip hs.sameBody (body_eq_of_clear hclear)]
  exact hworse

end

theorem Invalid.mono {m' : BlockMap} (hp : pprevOf m' = pprevOf m)
    (hgrow : ∀ a e, m.lookup a = some e → e.nStatus.failedValid = true →
      ∃ e', m'.lookup a = some e' ∧ e'.nStatus.failedValid = true) {h : UInt256}
    (hi : Invalid m h) : Invalid m' h := by
  obtain ⟨a, e, ha, he, hfailed⟩ := hi
  obtain ⟨e', he', hfailed'⟩ := hgrow a e he hfailed
  exact ⟨a, e', hp ▸ ha, he', hfailed'⟩

theorem Invalid.below {a h : UInt256} (hi : Invalid m a) (ha : Above (pprevOf m) a h) :
    Invalid m h := by
  obtain ⟨b, e, hb, he, hfailed⟩ := hi
  exact ⟨b, e, hb.trans ha, he, hfailed⟩

/-! ## Places on the active chain -/

section

variable {m : BlockMap}

theorem Tree.height_branch (ht : Tree m) {l : List UInt256} {h : UInt256} {e : CBlockIndex}
    (hb : Branch (pprevOf m) (h :: l)) (he : m.lookup h = some e) : e.nHeight = l.length := by
  induction l generalizing h e with
  | nil =>
    have hp : e.pprev = none := (pprevOf_eq he).symm.trans hb.1
    exact (ht.root h e he hp).1
  | cons p l ih =>
    have hp : e.pprev = some p := (pprevOf_eq he).symm.trans hb.1
    obtain ⟨pe, hpe, hheight⟩ := ht.parent h e p he hp
    rw [hheight, ih hb.2 hpe, length_cons]

theorem Tree.getElem_branch (ht : Tree m) {l : List UInt256} {h : UInt256} {e : CBlockIndex}
    (hb : Branch (pprevOf m) l) (he : m.lookup h = some e) (hmem : h ∈ l) :
    l.reverse[e.nHeight]? = some h := by
  obtain ⟨s, t, rfl⟩ := append_of_mem hmem
  rw [ht.height_branch hb.of_append he]
  simp

end

/-! ## Changing several entries -/

section

theorem entry_modify (st : ChainState) (hash h : UInt256) (f : CBlockIndex → CBlockIndex) :
    (st.modify hash f).entry h = if h = hash then (st.entry hash).map f else st.entry h :=
  lookup_modify st.mapBlockIndex hash h f

theorem SameUpTo.modify {view f : CBlockIndex → CBlockIndex} (hf : ∀ e, view (f e) = view e)
    (st : ChainState) (hash : UInt256) :
    SameUpTo view st.mapBlockIndex (st.modify hash f).mapBlockIndex := by
  intro h
  change ((st.modify hash f).entry h).map view = (st.entry h).map view
  rw [entry_modify]
  split_ifs with hh
  · rw [hh, Option.map_map, show view ∘ f = view from funext hf]
  · rfl

theorem SameUpTo.foldl_modify {view f : CBlockIndex → CBlockIndex}
    (hf : ∀ e, view (f e) = view e) (l : List UInt256) (st : ChainState) :
    SameUpTo view st.mapBlockIndex (l.foldl (·.modify · f) st).mapBlockIndex := by
  induction l generalizing st with
  | nil => exact refl _
  | cons k l ih => exact (modify hf st k).trans (ih (st.modify k f))

variable {f : CBlockIndex → CBlockIndex} {l : List UInt256}

theorem foldl_modify_eq (l : List UInt256) (st : ChainState) : l.foldl (·.modify · f) st =
      { st with mapBlockIndex := l.foldl (modify · · f) st.mapBlockIndex } :=
  foldl_hom (fun m => { st with mapBlockIndex := m }) fun _ _ => rfl

theorem entry_foldl_modify (hl : l.Nodup) (st : ChainState) (h : UInt256) :
    (l.foldl (·.modify · f) st).entry h =
      if h ∈ l then (st.entry h).map f else st.entry h := by
  rw [foldl_modify_eq]
  exact lookup_foldl_modify f hl st.mapBlockIndex h

/-- The blocks of a list have got their marks and are no candidates. -/
structure Dropped (l : List UInt256) (st st' : ChainState) : Prop where
  mem : ∀ h ∈ l, st'.entry h = (st.entry h).map .failChild
  not_mem : ∀ h, h ∉ l → st'.entry h = st.entry h
  candidates : ∀ h, h ∈ st'.setBlockIndexCandidates ↔ h ∈ st.setBlockIndexCandidates ∧ h ∉ l
  sublist : st'.setBlockIndexCandidates.Sublist st.setBlockIndexCandidates
  chainActive : st'.chainActive = st.chainActive
  unlinked : st'.mapBlocksUnlinked = st.mapBlocksUnlinked

theorem dropped_foldl (l : List UInt256) (st : ChainState) :
    Dropped l st (l.foldl ChainState.dropChild st) := by
  induction l generalizing st with
  | nil => exact ⟨by simp, fun _ _ => rfl, by simp, .refl _, rfl, rfl⟩
  | cons k l ih =>
    have hd := ih (st.dropChild k)
    have hentry : ∀ h, (st.dropChild k).entry h =
        if h = k then (st.entry k).map .failChild else st.entry h := fun h =>
      entry_modify st k h .failChild
    rw [foldl_cons]
    refine ⟨fun h hmem => ?_, fun h hnot => ?_, fun h => ?_,
      hd.sublist.trans filter_sublist, hd.chainActive, hd.unlinked⟩
    · by_cases hl : h ∈ l
      · rw [hd.mem h hl, hentry]
        split_ifs with hk
        · rw [hk, Option.map_map]
          rfl
        · rfl
      · obtain rfl : h = k := (mem_cons.mp hmem).resolve_right hl
        rw [hd.not_mem h hl, hentry, if_pos rfl]
    · rw [mem_cons, not_or] at hnot
      rw [hd.not_mem h hnot.2, hentry, if_neg hnot.1]
    · rw [hd.candidates]
      simp only [dropChild, eraseCandidate, ChainState.modify,
        mem_filter, decide_eq_true_eq, mem_cons, not_or, and_assoc]

theorem Dropped.sameButMarks {st st' : ChainState} (hd : Dropped l st st') :
    SameButMarks st.mapBlockIndex st'.mapBlockIndex := by
  intro h
  change (st'.entry h).map _ = (st.entry h).map _
  by_cases hl : h ∈ l
  · rw [hd.mem h hl, Option.map_map]
    rfl
  · rw [hd.not_mem h hl]

end

/-! ## More marks, fewer candidates -/

/-- What a step that only marks blocks has to say for itself. -/
theorem Consistent.fail {env : IndexEnv} {st st' : ChainState} (hc : Consistent env st)
    (hs : SameButMarks st.mapBlockIndex st'.mapBlockIndex)
    (hunlinked : st'.mapBlocksUnlinked = st.mapBlocksUnlinked)
    (hchain : st'.chainActive = st.chainActive)
    {P : UInt256 → Prop}
    (hentry : ∀ h e, st.entry h = some e → ∃ e', st'.entry h = some e' ∧
      (e.nStatus.failedValid = true → e'.nStatus.failedValid = true) ∧
      (e'.nStatus.failed = true ↔ e.nStatus.failed = true ∨ P h))
    (hnew : ∀ h e', st'.entry h = some e' → P h → Invalid st'.mapBlockIndex h)
    (hactive : ∀ h ∈ st.chainActive, st'.entry h = st.entry h)
    (hsub : ∀ h ∈ st'.setBlockIndexCandidates, h ∈ st.setBlockIndexCandidates)
    (hdropped : ∀ h ∈ st.setBlockIndexCandidates, h ∉ st'.setBlockIndexCandidates → P h) :
    Consistent env st' := by
  have htip : st'.tip = st.tip := by rw [tip, hchain, tip]
  have hpprev := hs.pprevOf_eq
  have hfailed : ∀ h e e', st.entry h = some e → st'.entry h = some e' →
      (e'.nStatus.failed = true ↔ e.nStatus.failed = true ∨ P h) := by
    intro h e e' he he'
    obtain ⟨x, hx, -, hiff⟩ := hentry h e he
    rwa [some.inj (hx.symm.trans he')] at hiff
  constructor
  case shaped =>
    rw [hunlinked]
    exact hs.shaped hc.shaped
  case inactive =>
    intro hempty h e' he'
    obtain ⟨e, he, -⟩ := hs.exists_entry he'
    exact hc.inactive (hchain ▸ hempty) h e he
  case branch =>
    rw [hpprev, hchain]
    exact hc.branch
  case active =>
    intro h hmem
    rw [hchain] at hmem
    rw [hactive h hmem]
    exact hc.active h hmem
  case marked =>
    intro h e' he' hmark
    obtain ⟨e, he, -⟩ := hs.exists_entry he'
    rcases (hfailed h e e' he he').mp hmark with hmark | hP
    · refine (hc.marked h e he hmark).mono hpprev fun a x hx hvalid => ?_
      obtain ⟨x', hx', hkeeps, -⟩ := hentry a x hx
      exact ⟨x', hx', hkeeps hvalid⟩
    · exact hnew h e' he' hP
  case candidate =>
    intro h hmem
    obtain ⟨e, he, hlinked, hworse⟩ := hc.candidate h (hsub h hmem)
    exact SameButMarks.standing hs.symm htip.symm he hlinked hworse
  case complete =>
    intro h e' he' hlinked hunmarked hworse
    obtain ⟨e, he, hlinked, hworse⟩ := hs.standing htip he' hlinked hworse
    rw [← Bool.not_eq_true, hfailed h e e' he he', not_or, Bool.not_eq_true] at hunmarked
    have hmem := hc.complete h e he hlinked hunmarked.1 hworse
    by_contra hnot
    exact hunmarked.2 (hdropped h hmem hnot)

section

variable {env : IndexEnv} {st : ChainState}

theorem Consistent.noteInvalid (hc : Consistent env st) (hash : UInt256) :
    Consistent env (st.noteInvalid hash) :=
  { hc with }

theorem Consistent.failValid (hc : Consistent env st) {hash : UInt256}
    (hnot : hash ∉ st.chainActive) :
    Consistent env ((st.modify hash .failValid).eraseCandidate hash) := by
  set st' := (st.modify hash .failValid).eraseCandidate hash
  have hentry : ∀ h, st'.entry h =
      if h = hash then (st.entry hash).map .failValid else st.entry h := fun h =>
    entry_modify st hash h .failValid
  have hs : SameButMarks st.mapBlockIndex st'.mapBlockIndex :=
    SameUpTo.modify (f := .failValid) (fun _ => rfl) st hash
  refine hc.fail (P := (· = hash)) hs rfl rfl ?_ ?_ ?_ ?_ ?_
  · intro h e he
    by_cases hh : h = hash
    · refine ⟨e.failValid, by rw [hentry, if_pos hh, ← hh, he]; rfl, fun _ => rfl, ?_⟩
      simp [CBlockIndex.failValid, BlockStatus.failed, hh]
    · exact ⟨e, by rw [hentry, if_neg hh, he], id, by simp [hh]⟩
  · rintro h e' he' rfl
    have hmarked := he'
    rw [hentry, if_pos rfl] at hmarked
    obtain ⟨e, -, rfl⟩ := map_eq_some_iff.mp hmarked
    exact ⟨h, _, above_refl h, he', rfl⟩
  · intro h hmem
    have hne : h ≠ hash := fun heq => hnot (heq ▸ hmem)
    rw [hentry, if_neg hne]
  · intro h hmem
    exact (mem_filter.mp hmem).1
  · intro h hmem hout
    by_contra hne
    exact hout (mem_filter.mpr ⟨hmem, by simpa using hne⟩)

theorem Consistent.invalidBlockFound (hc : Consistent env st) {hash : UInt256}
    (hnot : hash ∉ st.chainActive) (corruptionPossible : Bool) :
    Consistent env (st.invalidBlockFound hash corruptionPossible) := by
  rw [ChainState.invalidBlockFound]
  split_ifs with hcorruption
  · exact hc
  · exact (hc.failValid hnot).noteInvalid hash

theorem Consistent.unfailed_above (hc : Consistent env st) {h a : UInt256} {x : CBlockIndex}
    (hmem : h ∈ st.chainActive) (ha : Above (pprevOf st.mapBlockIndex) a h)
    (hx : st.entry a = some x) : x.nStatus.failed = false := by
  obtain ⟨y, hy, -, hfailed, -⟩ := hc.active a (hc.branch.mem_of_above hmem ha)
  rw [hx] at hy
  cases hy
  exact hfailed

end

/-! ## `FindMostWorkChain` -/

section

variable {env : IndexEnv} {st st' st'' : ChainState} {fuel : Nat} {e t : CBlockIndex}
  {h test : UInt256} {flag : Bool} {l l' : List UInt256}

theorem mem_of_activeContains (h : st.activeContains e = true) : e.hash ∈ st.chainActive := by
  rw [activeContains, beq_iff_eq] at h
  exact mem_reverse.mp (mem_of_getElem? h)

/-- The block is on a branch with a block outside the active chain that has failed or has no
data. -/
def Unusable (st : ChainState) (h : UInt256) : Prop :=
  ∃ a x, Above (pprevOf st.mapBlockIndex) a h ∧ st.entry a = some x ∧
    st.activeContains x = false ∧ (x.nStatus.failed = true ∨ x.nStatus.haveData = false)

/-- The blocks that the search passes on its way to the active chain have `nChainTx`, or height
0. -/
def Asserted (st : ChainState) (h : UInt256) : Prop :=
  ∀ a x, Above (pprevOf st.mapBlockIndex) a h → st.entry a = some x →
    st.activeContains x = false → x.nChainTx ≠ 0 ∨ x.nHeight = 0

/-- A tree of blocks, with candidates from it and one of its branches as the active chain. A
candidate has `BLOCK_VALID_TRANSACTIONS` for itself and all ancestors, by the comment on the set; it
may have failed, and its data may be gone. -/
structure Searchable (st : ChainState) : Prop where
  tree : Tree st.mapBlockIndex
  branch : Branch (pprevOf st.mapBlockIndex) st.chainActive
  known : ∀ h ∈ st.setBlockIndexCandidates, ∃ e, st.entry h = some e
  asserted : ∀ h ∈ st.setBlockIndexCandidates, Asserted st h

theorem Consistent.searchable (hc : Consistent env st) : Searchable st where
  tree := hc.shaped.tree
  branch := hc.branch
  known := by
    intro h hmem
    obtain ⟨e, he, -⟩ := hc.candidate h hmem
    exact ⟨e, he⟩
  asserted := by
    intro h hmem a x ha hx _
    obtain ⟨e, he, hlinked, -⟩ := hc.candidate h hmem
    exact .inl (hc.shaped.linked_above he hlinked ha hx)

theorem Searchable.activeContains_above (hs : Searchable st) {x : CBlockIndex} {a : UInt256}
    (he : st.entry h = some e) (hactive : st.activeContains e = true)
    (ha : Above (pprevOf st.mapBlockIndex) a h) (hx : st.entry a = some x) :
    st.activeContains x = true := by
  have hmem := mem_of_activeContains hactive
  rw [hs.tree.hash_eq h e he] at hmem
  have hplace := hs.tree.getElem_branch hs.branch hx (hs.branch.mem_of_above hmem ha)
  rw [activeContains, hashAt, hplace, hs.tree.hash_eq a x hx]
  exact beq_self_eq_true _

theorem Unusable.self_or_parent (hunusable : Unusable st h) (he : st.entry h = some e) :
    (st.activeContains e = false ∧ (e.nStatus.failed = true ∨ e.nStatus.haveData = false)) ∨
      ∃ p, e.pprev = some p ∧ Unusable st p := by
  obtain ⟨a, x, ha, hx, hrest⟩ := hunusable
  rcases above_iff.mp ha with rfl | ⟨p, hp, ha⟩
  · cases he.symm.trans hx
    exact .inl hrest
  · exact .inr ⟨p, (pprevOf_eq he).symm.trans hp, a, x, ha, hx, hrest⟩

/-- The walk from a candidate ends, and finds the first block that cannot be used if there is
one. -/
theorem Searchable.firstUnusable_cases (hs : Searchable st) (he : st.entry h = some e)
    (hasserted : Asserted st h) (hfuel : e.nHeight < fuel) :
    (st.firstUnusable fuel e = .ok none ∧ ¬Unusable st h) ∨
      ∃ t, st.firstUnusable fuel e = .ok (some t) ∧
        (∃ i < fuel, ancestor (pprevOf st.mapBlockIndex) i h = some t.hash) ∧
        st.entry t.hash = some t ∧ st.activeContains t = false ∧
        (t.nStatus.failed = true ∨ t.nStatus.haveData = false) := by
  induction fuel generalizing h e with
  | zero => omega
  | succ fuel ih =>
    rw [firstUnusable]
    by_cases hactive : st.activeContains e = true
    · refine .inl ⟨if_pos hactive, ?_⟩
      rintro ⟨a, x, ha, hx, hout, -⟩
      rw [hs.activeContains_above he hactive ha hx] at hout
      cases hout
    have hout := eq_false_of_ne_true hactive
    have hassert : ¬(e.nChainTx = 0 ∧ e.nHeight ≠ 0) := by
      rcases hasserted h e (above_refl h) he hout with hlinked | hheight
      · exact fun hzero => hlinked hzero.1
      · exact fun hzero => hzero.2 hheight
    rw [if_neg hactive, if_neg hassert]
    by_cases hbad : e.nStatus.failed = true ∨ e.nStatus.haveData = false
    · have hhash := hs.tree.hash_eq h e he
      exact .inr ⟨e, if_pos (by simpa using hbad), ⟨0, Nat.succ_pos fuel, congrArg some hhash.symm⟩,
        hhash.symm ▸ he, hout, hbad⟩
    rw [if_neg (by simpa using hbad)]
    have hparent_unusable : Unusable st h → ∃ p, e.pprev = some p ∧ Unusable st p :=
      fun hunusable => (hunusable.self_or_parent he).resolve_left fun hself => hbad hself.2
    cases hp : e.pprev with
    | none =>
      refine .inl ⟨by rw [CBlockIndex.prev, hp]; rfl, fun hunusable => ?_⟩
      obtain ⟨p, hp', -⟩ := hparent_unusable hunusable
      cases hp.symm.trans hp'
    | some p =>
      have hparent : pprevOf st.mapBlockIndex h = some p := (pprevOf_eq he).trans hp
      obtain ⟨pe, hpe, hheight⟩ := hs.tree.parent h e p he hp
      rw [show e.prev st.mapBlockIndex = some pe by simp [CBlockIndex.prev, hp, hpe]]
      rcases ih (show st.entry p = some pe from hpe)
          (fun a x ha => hasserted a x (ha.trans (above_parent hparent))) (by omega) with
        ⟨hnone, husable⟩ | ⟨t, hsome, ⟨i, hi, ha⟩, hrest⟩
      · refine .inl ⟨hnone, fun hunusable => ?_⟩
        obtain ⟨p', hp', hunusable⟩ := hparent_unusable hunusable
        cases hp.symm.trans hp'
        exact husable hunusable
      · exact .inr ⟨t, hsome,
          ⟨i + 1, Nat.succ_lt_succ hi, by rw [ancestor_succ hparent, ha]⟩, hrest⟩

/-- When the walk finds nothing, no block on the line of the candidate has failed. -/
theorem Consistent.unfailed_of_usable (hc : Consistent env st) {a : UInt256} {x : CBlockIndex}
    (husable : ¬Unusable st h) (ha : Above (pprevOf st.mapBlockIndex) a h)
    (hx : st.entry a = some x) : x.nStatus.failed = false := by
  cases hactive : st.activeContains x with
  | true =>
    have hmem := mem_of_activeContains hactive
    rw [hc.shaped.tree.hash_eq a x hx] at hmem
    exact hc.unfailed_above hmem (above_refl a) hx
  | false =>
    by_contra hfailed
    exact husable ⟨a, x, ha, hx, hactive, .inl (eq_true_of_ne_false hfailed)⟩

/-- The blocks of a list have left the candidates, and in a failed chain all but `pindexTest` have
got a mark. -/
structure Trimmed (test : UInt256) (fFailedChain : Bool) (l : List UInt256) (st st' : ChainState) :
    Prop where
  entry : ∀ h, st'.entry h =
    if fFailedChain = true ∧ h ∈ l ∧ h ≠ test then (st.entry h).map .failChild else st.entry h
  candidates : ∀ h, h ∈ st'.setBlockIndexCandidates ↔ h ∈ st.setBlockIndexCandidates ∧ h ∉ l
  sublist : st'.setBlockIndexCandidates.Sublist st.setBlockIndexCandidates
  chainActive : st'.chainActive = st.chainActive
  unlinked : fFailedChain = true → st'.mapBlocksUnlinked = st.mapBlocksUnlinked

theorem Trimmed.sameButMarks (ht : Trimmed test flag l st st') :
    SameButMarks st.mapBlockIndex st'.mapBlockIndex := by
  intro h
  change (st'.entry h).map _ = (st.entry h).map _
  rw [ht.entry]
  split_ifs
  · rw [Option.map_map]
    rfl
  · rfl

theorem Trimmed.pprevOf_eq (ht : Trimmed test flag l st st') :
    pprevOf st'.mapBlockIndex = pprevOf st.mapBlockIndex :=
  ht.sameButMarks.pprevOf_eq

theorem Trimmed.trans (ht : Trimmed test flag l st st') (ht' : Trimmed test flag l' st' st'') :
    Trimmed test flag (l ++ l') st st'' where
  entry := by
    intro h
    have hmark : ∀ x : Option CBlockIndex, (x.map .failChild).map .failChild =
        x.map failChild := by
      intro x
      rw [Option.map_map]
      rfl
    rw [ht'.entry, ht.entry]
    simp only [mem_append]
    split_ifs <;> grind
  candidates := by
    intro h
    rw [ht'.candidates, ht.candidates, mem_append, not_or, and_assoc]
  sublist := ht'.sublist.trans ht.sublist
  chainActive := ht'.chainActive.trans ht.chainActive
  unlinked := fun hflag => (ht'.unlinked hflag).trans (ht.unlinked hflag)

theorem trimmed_noteInvalid (flag : Bool) (st : ChainState) (h : UInt256) :
    Trimmed test flag [] st (if flag then st.noteInvalid h else st) := by
  cases flag <;>
    exact ⟨fun _ => by simp [noteInvalid, entry],
      fun _ => by simp [noteInvalid], .refl _, rfl, fun _ => rfl⟩

theorem mem_eraseCandidate (st : ChainState) (h k : UInt256) :
    k ∈ (st.eraseCandidate h).setBlockIndexCandidates ↔
      k ∈ st.setBlockIndexCandidates ∧ k ∉ [h] := by
  simp [eraseCandidate]

theorem trimmed_eraseCandidate (st : ChainState) (test : UInt256) :
    Trimmed test flag [test] st (st.eraseCandidate test) where
  entry := fun _ => (if_neg fun hmark => hmark.2.2 (mem_singleton.mp hmark.2.1)).symm
  candidates := mem_eraseCandidate st test
  sublist := filter_sublist
  chainActive := rfl
  unlinked := fun _ => rfl

theorem trimmed_drop (flag : Bool) (st : ChainState) (hne : h ≠ test) :
    Trimmed test flag [h] st (if flag then st.dropChild h else st.dropUnlinked h) := by
  cases flag with
  | true =>
    refine ⟨?_, mem_eraseCandidate _ h, filter_sublist, rfl, fun _ => rfl⟩
    intro k
    refine (entry_modify st h k .failChild).trans ?_
    by_cases hk : k = h
    · simp [hk, hne]
    · simp [hk]
  | false =>
    refine ⟨?_, mem_eraseCandidate st h, filter_sublist, rfl, ?_⟩
    · intro k
      exact (if_neg fun hmark => Bool.false_ne_true hmark.1).symm
    · intro hflag
      cases hflag

theorem Trimmed.length_lt (ht : Trimmed test flag l st st') (hmem : h ∈ st.setBlockIndexCandidates)
    (hl : h ∈ l) : st'.setBlockIndexCandidates.length < st.setBlockIndexCandidates.length := by
  refine lt_of_le_of_ne ht.sublist.length_le fun heq => ?_
  rw [← ht.sublist.eq_of_length heq] at hmem
  exact ((ht.candidates h).mp hmem).2 hl

theorem trimmed_dropChain (flag : Bool) (st : ChainState) {new : UInt256} {i : Nat}
    (ha : ancestor (pprevOf st.mapBlockIndex) i new = some test) (hi : i < fuel) :
    ∃ l, new ∈ l ∧ (∀ h ∈ l, Above (pprevOf st.mapBlockIndex) test h) ∧
      Trimmed test flag l st (dropChain test flag fuel new st) := by
  induction fuel generalizing i new st with
  | zero => omega
  | succ fuel ih =>
    rw [dropChain]
    by_cases hnew : new = test
    · rw [if_pos hnew, hnew]
      refine ⟨[test], mem_singleton_self test, ?_, trimmed_eraseCandidate st test⟩
      intro h hmem
      rw [mem_singleton.mp hmem]
      exact above_refl test
    · rw [if_neg hnew]
      have hstep := trimmed_drop flag st hnew
      -- The candidate is not the block itself, so it has a parent on the way to it.
      cases i with
      | zero => exact absurd (some.inj ha) hnew
      | succ i =>
        obtain ⟨p, hp, ha'⟩ := bind_eq_some_iff.mp ha
        obtain ⟨l, -, hbelow, hrest⟩ :=
          ih _ (by rw [hstep.pprevOf_eq]; exact ha') (Nat.lt_of_succ_lt_succ hi)
        rw [hp]
        refine ⟨[new] ++ l, mem_cons_self, ?_, hstep.trans hrest⟩
        intro h hmem
        rcases mem_append.mp hmem with hmem | hmem
        · rw [mem_singleton.mp hmem]
          exact ⟨i + 1, ha⟩
        · rw [← hstep.pprevOf_eq]
          exact hbelow h hmem

theorem Consistent.trimmed (hc : Consistent env st) (ht : Trimmed test true l st st')
    (htest : st.entry test = some t) (hfailed : t.nStatus.failed = true)
    (hbelow : ∀ h ∈ l, Above (pprevOf st.mapBlockIndex) test h) : Consistent env st' := by
  -- The entries after the step, with their marks.
  have hentry : ∀ h e, st.entry h = some e → ∃ e', st'.entry h = some e' ∧
      (e.nStatus.failedValid = true → e'.nStatus.failedValid = true) ∧
      (e'.nStatus.failed = true ↔ e.nStatus.failed = true ∨ h ∈ l) := by
    intro h e he
    rw [ht.entry]
    split_ifs with hmark
    · refine ⟨e.failChild, by rw [he]; rfl, id, ?_⟩
      simp [failChild, BlockStatus.failed, hmark.2.1]
    · refine ⟨e, he, id, ⟨.inl, fun h => h.elim id fun hl => ?_⟩⟩
      obtain rfl := not_not.mp fun hne => hmark ⟨rfl, hl, hne⟩
      rwa [← some.inj (htest.symm.trans he)]
  refine hc.fail ht.sameButMarks (ht.unlinked rfl) ht.chainActive hentry ?_ ?_ ?_ ?_
  · intro h e' _ hl
    refine ((hc.marked test t htest hfailed).below (hbelow h hl)).mono ht.pprevOf_eq ?_
    intro a x hx hvalid
    obtain ⟨x', hx', hkeeps, -⟩ := hentry a x hx
    exact ⟨x', hx', hkeeps hvalid⟩
  · -- An active block is not below a failed one.
    intro h hmem
    rw [ht.entry, if_neg]
    rintro ⟨-, hl, -⟩
    rw [hc.unfailed_above hmem (hbelow h hl) htest] at hfailed
    cases hfailed
  · intro h hmem
    exact ((ht.candidates h).mp hmem).1
  · intro h hmem hout
    by_contra hl
    exact hout ((ht.candidates h).mpr ⟨hmem, hl⟩)

theorem mem_of_bestCandidate {env : ChainEnv} (ht : Tree st.mapBlockIndex) {new : CBlockIndex}
    (hbest : st.bestCandidate env = some new) :
    new.hash ∈ st.setBlockIndexCandidates ∧ st.entry new.hash = some new := by
  obtain ⟨h, hmem, he⟩ := mem_filterMap.mp (mem_of_greatest hbest)
  rw [ht.hash_eq h new he]
  exact ⟨hmem, he⟩

/-- What `FindMostWorkChain` returns: a candidate on whose line no block has failed. -/
def Usable (st : ChainState) (hash : UInt256) : Prop :=
  hash ∈ st.setBlockIndexCandidates ∧ ∀ a x, Above (pprevOf st.mapBlockIndex) a hash →
    st.entry a = some x → x.nStatus.failed = false

theorem candidates_eq_nil {env : ChainEnv}
    (hknown : ∀ h ∈ st.setBlockIndexCandidates, ∃ e, st.entry h = some e)
    (hbest : st.bestCandidate env = none) : st.setBlockIndexCandidates = [] := by
  cases hcand : st.setBlockIndexCandidates with
  | nil => rfl
  | cons h l =>
    obtain ⟨e, he⟩ := hknown h (by rw [hcand]; exact mem_cons_self)
    rw [bestCandidate, hcand, filterMap_cons_some he] at hbest
    have hsome := greatest_cons_isSome (workLess env) e (l.filterMap st.entry)
    rw [hbest] at hsome
    cases hsome

/-- The loop of `FindMostWorkChain`: it ends with a block that can be used, or without
candidates. -/
theorem Consistent.findMostWork (hc : Consistent env st)
    (hfuel : st.setBlockIndexCandidates.length < fuel) :
    ∃ result st', findMostWork env.toChainEnv fuel st = .ok (result, st') ∧ Consistent env st' ∧
      result.elim (st'.setBlockIndexCandidates = []) (Usable st') := by
  induction fuel generalizing st with
  | zero => omega
  | succ fuel ih =>
    rw [findMostWork]
    cases hbest : st.bestCandidate env.toChainEnv with
    | none => exact ⟨none, st, rfl, hc, candidates_eq_nil hc.searchable.known hbest⟩
    | some new =>
      obtain ⟨hmem, hnew⟩ := mem_of_bestCandidate hc.shaped.tree hbest
      obtain ⟨e, he, hlinked, -⟩ := hc.candidate new.hash hmem
      cases hnew.symm.trans he
      rcases hc.searchable.firstUnusable_cases hnew (hc.searchable.asserted _ hmem)
          (Nat.lt_succ_self _) with
        ⟨hfind, husable⟩ | ⟨test, hfind, ⟨i, hi, ha⟩, ht, -, hunusable⟩
      · simp only [hfind]
        exact ⟨some new.hash, st, rfl, hc, hmem,
          fun a x ha hx => hc.unfailed_of_usable husable ha hx⟩
      · -- A candidate is linked, so its line has all its data.
        have hdata : test.nStatus.haveData = true :=
          (hc.shaped.linked_iff hnew).mp hlinked test.hash test ⟨i, ha⟩ ht
        have hfailed : test.nStatus.failed = true := by
          rcases hunusable with h | h
          · exact h
          · rw [hdata] at h
            cases h
        simp only [hfind, hfailed]
        obtain ⟨l, hl, hbelow, htrimmed⟩ :=
          trimmed_dropChain true (st.noteInvalid new.hash) ha hi
        have hlt := htrimmed.length_lt hmem hl
        exact ih ((hc.noteInvalid new.hash).trimmed htrimmed ht hfailed hbelow)
          (hlt.trans_le (Nat.le_of_lt_succ hfuel))

theorem Consistent.pruneBlockIndexCandidates (hc : Consistent env st) :
    Consistent env (st.pruneBlockIndexCandidates env.toChainEnv) := by
  refine { hc with candidate := ?_, complete := ?_ }
  · intro h hmem
    exact hc.candidate h (mem_filter.mp hmem).1
  · intro h e he hlinked hfailed hworse
    refine mem_filter.mpr ⟨hc.complete h e he hlinked hfailed hworse, ?_⟩
    rw [show st.entry h = some e from he]
    exact hworse

end

end Passion.Chain
