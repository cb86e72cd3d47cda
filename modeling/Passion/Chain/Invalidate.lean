import Passion.Chain.Activation

/-!
# Invalidating a block by hand

`InvalidateBlock` marks a block as invalid, and disconnects the active chain down to its parent if
the block is active. The disconnected blocks get `BLOCK_FAILED_CHILD`. Then every block that is not
worse than the new tip becomes a candidate again.

The index stays consistent where all the disconnections succeed (`Consistent.invalidateBlock`). If
one fails, `InvalidateBlock` returns at once, and the blocks that became eligible with the lower tip
are not added.
-/

namespace Passion.Chain

open Lib Lib.Map ChainState List Option

/-! ## The disconnected blocks -/

theorem foldl_dropChild_setActive (l chain : List UInt256) (st : ChainState) :
    l.foldl dropChild { st with chainActive := chain } =
      { l.foldl dropChild st with chainActive := chain } :=
  foldl_hom (fun st : ChainState => { st with chainActive := chain }) fun _ _ => rfl

/-- The loop of `InvalidateBlock` over the blocks `l` at the end of the active chain, the last of
which is the block itself. -/
theorem disconnectFrom_eq {disconnects : UInt256 → Bool} {pindex : CBlockIndex}
    {l rest : List UInt256}
    (hin : ∀ k l', (k :: l') <:+ l →
      ((k :: l') ++ rest).reverse[pindex.nHeight]? = some pindex.hash)
    (hout : rest.reverse[pindex.nHeight]? ≠ some pindex.hash)
    (hd : ∀ k ∈ l, disconnects k = true) {fuel : Nat} (hfuel : l.length ≤ fuel) {st : ChainState}
    (hchain : st.chainActive = l ++ rest) :
    disconnectFrom disconnects pindex fuel st =
      (true, { l.foldl dropChild st with chainActive := rest }) := by
  induction l generalizing fuel st with
  | nil =>
    have hst : { st with chainActive := rest } = st := by
      rw [← show st.chainActive = rest from hchain]
    have hnot : st.activeContains pindex = false := by
      rw [activeContains, hashAt, show st.chainActive = rest from hchain]
      simpa using hout
    rw [foldl_nil, hst]
    cases fuel with
    | zero => rfl
    | succ fuel => rw [disconnectFrom, hnot]; rfl
  | cons k l ih =>
    obtain ⟨fuel, rfl⟩ := Nat.exists_eq_succ_of_ne_zero
      (Nat.ne_zero_of_lt (lt_of_lt_of_le (Nat.succ_pos l.length) hfuel))
    have hcontains : st.activeContains pindex = true := by
      rw [activeContains, hashAt, hchain, hin k l (suffix_refl _)]
      exact beq_self_eq_true _
    have htip : st.tip = some k := by
      rw [tip, hchain]
      rfl
    have hchain' : ((st.dropChild k).disconnectTip).chainActive = l ++ rest := by
      change st.chainActive.tail = l ++ rest
      rw [hchain]
      rfl
    have hrest := ih (fun k' l' hsuffix => hin k' l' (hsuffix.trans (suffix_cons k l)))
      (fun k' hk' => hd k' (mem_cons_of_mem k hk')) (Nat.le_of_succ_le_succ hfuel) hchain'
    rw [disconnectFrom, if_pos hcontains, htip]
    simp only [hd k mem_cons_self, if_true]
    rw [hrest, disconnectTip, foldl_dropChild_setActive, foldl_cons]

/-! ## The new candidates -/

theorem mem_foldl_insertCandidate {P : UInt256 → Bool} {l candidates : List UInt256} {h : UInt256} :
    h ∈ l.foldl (fun c k => if P k then insertCandidate k c else c) candidates ↔
      h ∈ candidates ∨ (h ∈ l ∧ P h = true) := by
  induction l generalizing candidates with
  | nil => simp
  | cons k l ih =>
    rw [foldl_cons, ih, mem_cons]
    by_cases hP : P k = true
    · rw [if_pos hP, insertCandidate, mem_insert_iff]
      constructor
      · rintro ((rfl | h) | h)
        · exact .inr ⟨.inl rfl, hP⟩
        · exact .inl h
        · exact .inr ⟨.inr h.1, h.2⟩
      · rintro (h | ⟨rfl | h, hPh⟩)
        · exact .inl (.inr h)
        · exact .inl (.inl rfl)
        · exact .inr ⟨h, hPh⟩
    · rw [if_neg hP]
      constructor
      · rintro (h | h)
        · exact .inl h
        · exact .inr ⟨.inr h.1, h.2⟩
      · rintro (h | ⟨rfl | h, hPh⟩)
        · exact .inl h
        · exact absurd hPh hP
        · exact .inr ⟨h, hPh⟩

section

variable {env : IndexEnv} {st : ChainState}

theorem mem_addEligible {h : UInt256} :
    h ∈ (st.addEligible env.toChainEnv).setBlockIndexCandidates ↔
      h ∈ st.setBlockIndexCandidates ∨
        ∃ e, st.entry h = some e ∧ st.eligible env.toChainEnv e = true := by
  rw [addEligible, mem_foldl_insertCandidate]
  constructor
  · rintro (h | ⟨-, hany⟩)
    · exact .inl h
    · exact .inr ((any_eq_true _ _).mp hany)
  · rintro (h | ⟨e, he, heligible⟩)
    · exact .inl h
    · refine .inr ⟨mem_keys.mpr (isSome_iff_exists.mpr ⟨e, he⟩), ?_⟩
      rw [he]
      exact heligible

theorem Shaped.eligible_iff (hs : Shaped env st.mapBlockIndex st.mapBlocksUnlinked) {h : UInt256}
    {e : CBlockIndex} (he : st.entry h = some e) :
    st.eligible env.toChainEnv e = true ↔
      e.nChainTx ≠ 0 ∧ e.nStatus.failed = false ∧ notWorse env.toChainEnv st e = true := by
  simp only [eligible, BlockStatus.isValid, Bool.and_eq_true, Bool.not_eq_true',
    decide_eq_true_eq]
  constructor
  · rintro ⟨⟨⟨hfailed, -⟩, hlinked⟩, hworse⟩
    exact ⟨hlinked, hfailed, hworse⟩
  · rintro ⟨hlinked, hfailed, hworse⟩
    have hdata := ((hs.linking.linked_iff he).mp hlinked).1
    have hsound := hs.sound h e he
    exact ⟨⟨⟨hfailed, hsound.transactions.mpr (hsound.data.mp hdata)⟩, hlinked⟩, hworse⟩

/-- With the eligible blocks added, the candidates are complete. -/
theorem Consistent.of_addEligible (hs : Shaped env st.mapBlockIndex st.mapBlocksUnlinked)
    (hinactive : st.chainActive = [] → ∀ h e, st.entry h = some e → h = env.hashGenesisBlock)
    (hbranch : Branch (pprevOf st.mapBlockIndex) st.chainActive)
    (hactive : ∀ h ∈ st.chainActive, ∃ e, st.entry h = some e ∧ e.nChainTx ≠ 0 ∧
      e.nStatus.failed = false ∧ (e.pprev = none ∨ BLOCK_VALID_SCRIPTS ≤ e.nStatus.valid))
    (hmarked : ∀ h e, st.entry h = some e → e.nStatus.failed = true →
      Invalid st.mapBlockIndex h)
    (hcandidate : ∀ h ∈ st.setBlockIndexCandidates, ∃ e, st.entry h = some e ∧
      e.nChainTx ≠ 0 ∧ notWorse env.toChainEnv st e = true) :
    Consistent env (st.addEligible env.toChainEnv) := by
  refine ⟨hs, hinactive, hbranch, hactive, hmarked, ?_, ?_⟩
  · intro h hmem
    rcases mem_addEligible.mp hmem with hold | ⟨e, he, heligible⟩
    · exact hcandidate h hold
    · obtain ⟨hlinked, -, hworse⟩ := (hs.eligible_iff he).mp heligible
      exact ⟨e, he, hlinked, hworse⟩
  · intro h e he hlinked hfailed hworse
    exact mem_addEligible.mpr (.inr ⟨e, he, (hs.eligible_iff he).mpr ⟨hlinked, hfailed, hworse⟩⟩)

end

/-! ## `InvalidateBlock` -/

section

variable {env : IndexEnv} {st : ChainState}

theorem Shaped.work_above {m : BlockMap} {unlinked : List (UInt256 × UInt256)}
    (hs : Shaped env m unlinked) {h a : UInt256} {e x : CBlockIndex} (he : m.lookup h = some e)
    (ha : Above (pprevOf m) a h) (hx : m.lookup a = some x) (hne : a ≠ h) :
    x.nChainWork < e.nChainWork := by
  obtain ⟨i, hi⟩ := ha
  induction i generalizing h e with
  | zero => exact absurd (some.inj hi).symm hne
  | succ i ih =>
    obtain ⟨p, hp, hi⟩ := bind_eq_some_iff.mp hi
    rw [pprevOf_eq he] at hp
    obtain ⟨pe, hpe, -⟩ := hs.tree.parent h e p he hp
    have hparent : pe.nChainWork < e.nChainWork :=
      (hs.sound h e he).work pe (by rw [CBlockIndex.prev, hp]; exact hpe)
    by_cases hap : a = p
    · subst hap
      rw [hpe] at hx
      cases hx
      exact hparent
    · exact BitVec.lt_trans (ih hpe hap hi) hparent

section

variable {hash : UInt256} {pindex : CBlockIndex} {l rest : List UInt256} {st' : ChainState}
  (hc : Consistent env st) (he : st.entry hash = some pindex)
  (hchain : st.chainActive = l ++ hash :: rest)
  (hst' : st' = { (l ++ [hash]).foldl dropChild
    ((st.modify hash .failValid).eraseCandidate hash) with chainActive := rest })

include hst'

variable {h : UInt256}

theorem disconnected_entry :
    (h ∈ l ++ [hash] → ∀ e, st.entry h = some e → ∃ e', st'.entry h = some e' ∧
      e'.nStatus.failed = true ∧
      (e.nStatus.failedValid = true ∨ h = hash → e'.nStatus.failedValid = true)) ∧
    (h ∉ l ++ [hash] → st'.entry h = st.entry h) := by
  have hd := dropped_foldl (l ++ [hash]) ((st.modify hash .failValid).eraseCandidate hash)
  have hfirst : ∀ k, ((st.modify hash .failValid).eraseCandidate hash).entry k =
      if k = hash then (st.entry hash).map .failValid else st.entry k := fun k =>
    entry_modify st hash k .failValid
  rw [hst']
  constructor
  · intro hmem e he
    have hentry := hd.mem h hmem
    rw [hfirst] at hentry
    by_cases hh : h = hash
    · subst hh
      rw [if_pos rfl, he] at hentry
      refine ⟨e.failValid.failChild, hentry, ?_, fun _ => rfl⟩
      simp [CBlockIndex.failChild, BlockStatus.failed]
    · rw [if_neg hh, he] at hentry
      refine ⟨e.failChild, hentry, by simp [CBlockIndex.failChild, BlockStatus.failed], ?_⟩
      rintro (hvalid | heq)
      · exact hvalid
      · exact absurd heq hh
  · intro hnot
    have hne : h ≠ hash := by
      rintro rfl
      simp at hnot
    exact (hd.not_mem h hnot).trans ((hfirst h).trans (if_neg hne))

theorem disconnected_sameButMarks : SameButMarks st.mapBlockIndex st'.mapBlockIndex := by
  have hfirst : SameButMarks st.mapBlockIndex
      ((st.modify hash .failValid).eraseCandidate hash).mapBlockIndex :=
    SameUpTo.modify (f := .failValid) (fun _ => rfl) st hash
  rw [hst']
  exact hfirst.trans (dropped_foldl (l ++ [hash]) _).sameButMarks

theorem disconnected_candidate (hmem : h ∈ st'.setBlockIndexCandidates) :
    h ∈ st.setBlockIndexCandidates ∧ h ∉ l ++ [hash] := by
  rw [hst'] at hmem
  obtain ⟨hin, hnot⟩ := ((dropped_foldl (l ++ [hash]) _).candidates h).mp hmem
  exact ⟨(mem_filter.mp hin).1, hnot⟩

include hc hchain

theorem Consistent.disconnected_rest (hmem : h ∈ rest) : st'.entry h = st.entry h := by
  refine (disconnected_entry hst').2 fun hl => ?_
  have hnodup := hc.branch.nodup hc.shaped.tree.graded
  rw [hchain, append_cons, nodup_append'] at hnodup
  exact hnodup.2.2 hl hmem

include he

/-- The blocks from the tip back to the invalid one are invalid with it. -/
theorem Consistent.disconnected_marked {e' : CBlockIndex} (he' : st'.entry h = some e')
    (hfailed : e'.nStatus.failed = true) :
    Invalid st'.mapBlockIndex h := by
  have hs := disconnected_sameButMarks hst'
  have hpprev := hs.pprevOf_eq
  have hbranch := hc.branch
  rw [hchain] at hbranch
  by_cases hl : h ∈ l ++ [hash]
  · obtain ⟨x, hx, -, hvalid⟩ := (disconnected_entry hst').1 (by simp) pindex he
    refine ⟨hash, x, ?_, hx, hvalid (.inr rfl)⟩
    rw [hpprev]
    exact hbranch.above_of_append hl
  · rw [(disconnected_entry hst').2 hl] at he'
    refine (hc.marked h e' he' hfailed).mono hpprev fun a x hx hvalid => ?_
    by_cases ha : a ∈ l ++ [hash]
    · obtain ⟨x', hx', -, hkeep⟩ := (disconnected_entry hst').1 ha x hx
      exact ⟨x', hx', hkeep (.inl hvalid)⟩
    · exact ⟨x, ((disconnected_entry hst').2 ha).trans hx, hvalid⟩

theorem Consistent.disconnected (hparent : pindex.pprev ≠ none) :
    Consistent env (st'.addEligible env.toChainEnv) := by
  have hs := disconnected_sameButMarks hst'
  have hpprev := hs.pprevOf_eq
  have hrest : st'.chainActive = rest := by rw [hst']
  have hbranch := hc.branch
  rw [hchain] at hbranch
  -- The parent of the block is the new tip.
  obtain ⟨tip', rest', hcons⟩ : ∃ tip' rest', rest = tip' :: rest' := by
    cases rest with
    | nil => exact absurd ((pprevOf_eq he).symm.trans hbranch.of_append.1) hparent
    | cons tip' rest' => exact ⟨tip', rest', rfl⟩
  have hmem' : tip' ∈ rest := hcons ▸ mem_cons_self
  refine .of_addEligible ?_ ?_ ?_ ?_ ?_ ?_
  · have hunlinked : st'.mapBlocksUnlinked = st.mapBlocksUnlinked := by
      rw [hst']
      exact (dropped_foldl (l ++ [hash]) _).unlinked
    rw [hunlinked]
    exact hs.shaped hc.shaped
  · intro hempty
    rw [hrest, hcons] at hempty
    cases hempty
  · rw [hpprev, hrest]
    exact hbranch.of_append.2
  · intro h hmem
    rw [hrest] at hmem
    rw [hc.disconnected_rest hchain hst' hmem]
    exact hc.active h (by rw [hchain]; simp [hmem])
  · intro h e' he' hfailed
    exact hc.disconnected_marked he hchain hst' he' hfailed
  · intro h hmem
    obtain ⟨hin, hnot⟩ := disconnected_candidate hst' hmem
    obtain ⟨x, hx, hlinked, hworse⟩ := hc.candidate h hin
    refine ⟨x, ((disconnected_entry hst').2 hnot).trans hx, hlinked, ?_⟩
    obtain ⟨te', hte', -⟩ := hc.active tip' (by rw [hchain]; simp [hmem'])
    have htipEntry' : st'.tipEntry = some te' := by
      rw [tipEntry, tip, hrest, hcons, head?_cons, bind_some,
        hc.disconnected_rest hchain hst' hmem', hte']
    -- The old tip, which has more work.
    obtain ⟨tip, chain, htip, hin'⟩ :
        ∃ tip chain, st.chainActive = tip :: chain ∧ tip' ∈ chain := by
      rw [hchain]
      cases l with
      | nil => exact ⟨hash, rest, rfl, hmem'⟩
      | cons k l => exact ⟨k, l ++ hash :: rest, rfl, by simp [hmem']⟩
    obtain ⟨te, hte, -⟩ := hc.active tip (by rw [htip]; exact mem_cons_self)
    have htipEntry : st.tipEntry = some te := by
      rw [tipEntry, ChainState.tip, htip, head?_cons, bind_some, hte]
    have hlower : te'.nChainWork < te.nChainWork := by
      have hbranch' := hc.branch
      rw [htip] at hbranch'
      have hnodup := hbranch'.nodup hc.shaped.tree.graded
      refine hc.shaped.work_above hte (hbranch'.above_head (mem_cons_of_mem tip hin')) hte' ?_
      rintro rfl
      exact (nodup_cons.mp hnodup).1 hin'
    -- a tip with less work makes no block worse
    rw [notWorse, htipEntry, all_some, Bool.not_eq_true', ← Bool.not_eq_true,
      workLess_iff] at hworse
    rw [notWorse, htipEntry', all_some, Bool.not_eq_true', ← Bool.not_eq_true, workLess_iff]
    rw [BitVec.lt_def] at hlower
    omega

end

theorem Consistent.invalidateBlock (hc : Consistent env st) {hash : UInt256}
    {disconnects : UInt256 → Bool} (hparent : ∃ p, pprevOf st.mapBlockIndex hash = some p)
    (hd : ∀ walk ∈ st.chainActive, Above (pprevOf st.mapBlockIndex) hash walk →
      disconnects walk = true) :
    Consistent env (st.invalidateBlock env.toChainEnv disconnects hash).2 := by
  obtain ⟨p, hp⟩ := hparent
  obtain ⟨pindex, he, hpprev⟩ := exists_entry_of_pprevOf hp
  have hhash := hc.shaped.tree.hash_eq hash pindex he
  set st1 := (st.modify hash .failValid).eraseCandidate hash with hst1
  have hchain1 : st1.chainActive = st.chainActive := rfl
  rw [ChainState.invalidateBlock, show st.entry hash = some pindex from he]
  simp only
  by_cases hmem : hash ∈ st.chainActive
  · obtain ⟨l, rest, hchain⟩ := append_of_mem hmem
    have hbranch := hc.branch
    rw [hchain, append_cons] at hbranch
    have hnodup := hbranch.nodup hc.shaped.tree.graded
    have hloop : disconnectFrom disconnects pindex st1.chainActive.length st1 =
        (true, { (l ++ [hash]).foldl dropChild st1 with chainActive := rest }) := by
      refine disconnectFrom_eq ?_ ?_ ?_ ?_ (by rw [hchain1, hchain, append_cons])
      · rintro k l' ⟨s, hsuffix⟩
        have hlast : (k :: l').getLast? = some hash := by
          have := congrArg getLast? hsuffix
          simpa using this
        rw [← hsuffix, append_assoc] at hbranch
        rw [hhash]
        exact hc.shaped.tree.getElem_branch hbranch.of_append he
          (mem_append_left rest (mem_of_getLast? hlast))
      · intro hplace
        rw [hhash] at hplace
        have hin := mem_reverse.mp (mem_of_getElem? hplace)
        exact (nodup_append'.mp hnodup).2.2 (by simp) hin
      · intro k hk
        refine hd k (by rw [hchain, append_cons]; exact mem_append_left rest hk) ?_
        rw [← append_cons] at hbranch
        exact hbranch.above_of_append hk
      · rw [hchain1, hchain]
        simp
    rw [hloop]
    exact (hc.disconnected he hchain rfl (by rw [hpprev]; simp)).noteInvalid hash
  · have hloop : disconnectFrom disconnects pindex st1.chainActive.length st1 =
        (true, { ([]).foldl dropChild st1 with
          chainActive := st1.chainActive }) := by
      refine disconnectFrom_eq (by simp) ?_ (by simp) (by simp) rfl
      intro hplace
      rw [hhash] at hplace
      exact hmem (mem_reverse.mp (mem_of_getElem? hplace))
    rw [hloop]
    have hc1 : Consistent env st1 := hc.failValid hmem
    exact (of_addEligible hc1.shaped hc1.inactive hc1.branch hc1.active hc1.marked
      hc1.candidate).noteInvalid hash

end

end Passion.Chain
