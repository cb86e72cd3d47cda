import Passion.Chain.Invalidate

/-!
# Reconsidering a block

`ReconsiderBlock` takes the failed marks off a block, its descendants and its ancestors. The
descendants that were marked become candidates again. Two things are left undone:

* the ancestors that lose their marks do not become candidates, and
* what descends from them on other branches keeps its marks.

`ReconsiderSafe` is the case in which neither matters, and the only one in which the index passes
the check afterwards (`Consistent.reconsider_checked_iff`).
-/

namespace Passion.Chain

open Lib Lib.Map ChainState List Option

/-! ## Clearing marks -/

theorem clearFailed_of_unfailed {e : CBlockIndex} (h : e.nStatus.failed = false) :
    e.clearFailed = e := by
  have hstatus : { e.nStatus with failedValid := false, failedChild := false } = e.nStatus := by
    generalize e.nStatus = s at h
    obtain ⟨valid, haveData, haveUndo, failedValid, failedChild⟩ := s
    simp_all [BlockStatus.failed]
  rw [CBlockIndex.clearFailed, hstatus]

theorem clearFailed_failed (e : CBlockIndex) : e.clearFailed.nStatus.failed = false := rfl

variable {hash : UInt256}

theorem Tree.getAncestor_eq_iff {m : BlockMap} (ht : Tree m) {h : UInt256}
    {pindex e : CBlockIndex} (hp : m.lookup hash = some pindex) (he : m.lookup h = some e) :
    e.getAncestor m pindex.nHeight = some hash ↔ Above (pprevOf m) hash h := by
  constructor
  · intro hancestor
    by_cases hlt : e.nHeight < pindex.nHeight
    · rw [CBlockIndex.getAncestor, if_pos hlt] at hancestor
      cases hancestor
    · rw [ht.getAncestor_eq he (by omega)] at hancestor
      exact ⟨_, hancestor⟩
  · rintro ⟨i, hi⟩
    have hheight := ht.graded.height_eq hi
    rw [heightOf_eq he, heightOf_eq hp] at hheight
    rw [ht.getAncestor_eq he (by omega), show e.nHeight - pindex.nHeight = i by omega, hi]

/-! ## The loop over the index -/

/-- A block that `ReconsiderBlock` returns to the candidates. -/
def Returns (env : ChainEnv) (st : ChainState) (h : UInt256) : Prop :=
  ∃ e, st.entry h = some e ∧ e.nStatus.failed = true ∧
    BLOCK_VALID_TRANSACTIONS ≤ e.nStatus.valid ∧ e.nChainTx ≠ 0 ∧
    st.tipEntry.any (workLess env · e) = true

/-- What has been done when the entries `done` have been visited. -/
structure Visited (env : ChainEnv) (hash : UInt256) (st : ChainState) (done : List UInt256)
    (st' : ChainState) : Prop where
  sameButMarks : SameButMarks st.mapBlockIndex st'.mapBlockIndex
  cleared : ∀ h ∈ done, Above (pprevOf st.mapBlockIndex) hash h →
    st'.entry h = (st.entry h).map .clearFailed
  kept : ∀ h, ¬(h ∈ done ∧ Above (pprevOf st.mapBlockIndex) hash h) →
    st'.entry h = st.entry h
  candidates : ∀ h, h ∈ st'.setBlockIndexCandidates ↔ h ∈ st.setBlockIndexCandidates ∨
    (h ∈ done ∧ Above (pprevOf st.mapBlockIndex) hash h ∧ Returns env st h)
  chainActive : st'.chainActive = st.chainActive
  unlinked : st'.mapBlocksUnlinked = st.mapBlocksUnlinked

theorem visited_nil (env : ChainEnv) (hash : UInt256) (st : ChainState) :
    Visited env hash st [] st :=
  ⟨SameUpTo.refl _, by simp, by simp, by simp, rfl, rfl⟩

section

variable {env : ChainEnv} {hash h : UInt256} {st st' : ChainState} {pindex : CBlockIndex}
  {done : List UInt256}

theorem isValid_eq_true_iff {s : BlockStatus} {n : Nat} :
    s.isValid n = true ↔ s.failed = false ∧ n ≤ s.valid := by
  simp [BlockStatus.isValid]

/-- One entry more: it is as it should be, the others are as they were, and it has become a
candidate where it should. -/
theorem Visited.next (hv : Visited env hash st done st') {st'' : ChainState}
    (hs : SameButMarks st'.mapBlockIndex st''.mapBlockIndex)
    (hcleared : Above (pprevOf st.mapBlockIndex) hash h →
      st''.entry h = (st.entry h).map .clearFailed)
    (hkept : ¬Above (pprevOf st.mapBlockIndex) hash h → st''.entry h = st.entry h)
    (hothers : ∀ k, k ≠ h → st''.entry k = st'.entry k)
    (hcandidates : ∀ k, k ∈ st''.setBlockIndexCandidates ↔ k ∈ st'.setBlockIndexCandidates ∨
      (k = h ∧ Above (pprevOf st.mapBlockIndex) hash h ∧ Returns env st h))
    (hchain : st''.chainActive = st'.chainActive)
    (hunlinked : st''.mapBlocksUnlinked = st'.mapBlocksUnlinked) :
    Visited env hash st (h :: done) st'' := by
  refine ⟨hv.sameButMarks.trans hs, ?_, ?_, ?_, hchain.trans hv.chainActive,
    hunlinked.trans hv.unlinked⟩
  · intro k hk habove
    by_cases hkh : k = h
    · subst hkh
      exact hcleared habove
    · rw [hothers k hkh]
      exact hv.cleared k ((mem_cons.mp hk).resolve_left hkh) habove
  · intro k hk
    by_cases hkh : k = h
    · subst hkh
      exact hkept fun habove => hk ⟨mem_cons_self, habove⟩
    · rw [hothers k hkh]
      exact hv.kept k fun hdone => hk ⟨mem_cons_of_mem h hdone.1, hdone.2⟩
  · intro k
    rw [hcandidates, hv.candidates, mem_cons]
    by_cases hkh : k = h
    · subst hkh
      tauto
    · simp only [hkh, false_and, or_false, false_or]

theorem Visited.skip (hv : Visited env hash st done st')
    (hskip : ∀ e, st.entry h = some e → Above (pprevOf st.mapBlockIndex) hash h →
      e.nStatus.failed = false) (hnot : h ∉ done) :
    Visited env hash st (h :: done) st' := by
  have hentry : st'.entry h = st.entry h := hv.kept h fun hdone => hnot hdone.1
  refine hv.next (SameUpTo.refl _) (fun habove => ?_) (fun _ => hentry) (fun _ _ => rfl)
    (fun k => (or_iff_left ?_).symm) rfl rfl
  · rw [hentry]
    cases he : st.entry h with
    | none => rfl
    | some e => rw [map_some, clearFailed_of_unfailed (hskip e he habove)]
  · rintro ⟨-, habove, e, he, hfailed, -⟩
    rw [hskip e he habove] at hfailed
    cases hfailed

variable {e : CBlockIndex}

theorem tipLess_congr (env : ChainEnv) {st st' : ChainState} (htip : st'.tip = st.tip)
    (hs : SameBody st.mapBlockIndex st'.mapBlockIndex) {e' : CBlockIndex}
    (hbody : e.body = e'.body) :
    st'.tipEntry.any (workLess env · e') = st.tipEntry.any (workLess env · e) := by
  have hany : ∀ (st : ChainState) e, st.tipEntry.any (workLess env · e) =
      (st.tipEntry.map CBlockIndex.body).any (workLess env · e.body) := by
    intro st e
    rw [Option.any_map]
    rfl
  rw [hany, hany, tipEntry_body htip hs, hbody]

theorem returns_iff (env : ChainEnv) (st' : ChainState) (he : st.entry h = some e)
    (hinvalid : e.nStatus.isValid BLOCK_VALID_TRANSACTIONS = false) (htip : st'.tip = st.tip)
    (hs : SameBody st.mapBlockIndex st'.mapBlockIndex) :
    (e.clearFailed.nStatus.isValid BLOCK_VALID_TRANSACTIONS &&
      decide (e.clearFailed.nChainTx ≠ 0) &&
      st'.tipEntry.any (workLess env · e.clearFailed)) = true ↔ Returns env st h := by
  have hbody : e.body = e.clearFailed.body := rfl
  rw [Bool.and_eq_true, Bool.and_eq_true, isValid_eq_true_iff, decide_eq_true_eq,
    tipLess_congr env htip hs hbody]
  constructor
  · rintro ⟨⟨⟨-, hvalid⟩, hlinked⟩, htip⟩
    refine ⟨e, he, ?_, hvalid, hlinked, htip⟩
    by_contra hfailed
    have hgood : e.nStatus.isValid BLOCK_VALID_TRANSACTIONS = true :=
      isValid_eq_true_iff.mpr ⟨eq_false_of_ne_true hfailed, hvalid⟩
    rw [hgood] at hinvalid
    cases hinvalid
  · rintro ⟨e', he', -, hvalid, hlinked, htip⟩
    rw [he] at he'
    cases he'
    exact ⟨⟨⟨clearFailed_failed e, hvalid⟩, hlinked⟩, htip⟩

theorem Visited.step (ht : Tree st.mapBlockIndex) (hp : st.entry hash = some pindex)
    (hv : Visited env hash st done st') (hnot : h ∉ done) :
    Visited env hash st (h :: done) (reconsiderEntry env hash pindex.nHeight st' h) := by
  have hsame := hv.sameButMarks.sameBody
  have ht' : Tree st'.mapBlockIndex := hsame.sameTree.tree ht
  have hpprev := hsame.sameTree.pprevOf_eq
  have hentry : st'.entry h = st.entry h := hv.kept h fun hdone => hnot hdone.1
  rw [reconsiderEntry]
  cases he : st.entry h with
  | none =>
    rw [hentry, he]
    exact hv.skip (fun e he' => by rw [he] at he'; cases he') hnot
  | some e =>
    rw [hentry, he]
    simp only
    -- The test asks whether the block is above the entry, in the index as it is now.
    have htest : (!e.nStatus.isValid BLOCK_VALID_TRANSACTIONS &&
        e.getAncestor st'.mapBlockIndex pindex.nHeight == some hash) = true ↔
        e.nStatus.isValid BLOCK_VALID_TRANSACTIONS = false ∧
          Above (pprevOf st.mapBlockIndex) hash h := by
      obtain ⟨pindex', hp', hclear⟩ := hv.sameButMarks.symm.exists_entry hp
      have hheight : pindex.nHeight = pindex'.nHeight :=
        (congrArg (·.nHeight) hclear).symm
      rw [Bool.and_eq_true, Bool.not_eq_true', beq_iff_eq, hheight,
        ht'.getAncestor_eq_iff hp' (hentry.trans he), hpprev]
    by_cases hif : (!e.nStatus.isValid BLOCK_VALID_TRANSACTIONS &&
        e.getAncestor st'.mapBlockIndex pindex.nHeight == some hash) = true
    · obtain ⟨hinvalid, habove⟩ := htest.mp hif
      rw [if_pos hif]
      have hcleared : SameBody st.mapBlockIndex (st'.mapBlockIndex.insert h e.clearFailed) :=
        hsame.trans (SameUpTo.insert (hentry.trans he) rfl)
      have hreturns := returns_iff env
        { st' with mapBlockIndex := st'.mapBlockIndex.insert h e.clearFailed } he hinvalid
        (congrArg head? hv.chainActive) hcleared
      refine hv.next (SameUpTo.insert (hentry.trans he) rfl) (fun _ => ?_) (absurd habove)
        (fun k hk => ?_) (fun k => ?_) rfl rfl
      · rw [he]
        exact AList.lookup_insert _
      · exact AList.lookup_insert_ne hk
      by_cases hr : Returns env st h
      · rw [if_pos (hreturns.mpr hr), insertCandidate, mem_insert_iff]
        tauto
      · rw [if_neg fun h => hr (hreturns.mp h)]
        tauto
    · rw [if_neg hif]
      refine hv.skip ?_ hnot
      intro e' he' habove
      rw [he] at he'
      cases he'
      by_contra hfailed
      refine hif (htest.mpr ⟨?_, habove⟩)
      rw [← Bool.not_eq_true, isValid_eq_true_iff, not_and]
      exact fun h => absurd h hfailed

theorem visited_foldl (ht : Tree st.mapBlockIndex) (hp : st.entry hash = some pindex)
    {l : List UInt256} (hl : l.Nodup) (hdisjoint : ∀ k ∈ l, k ∉ done)
    (hv : Visited env hash st done st') :
    Visited env hash st (l.reverse ++ done)
      (l.foldl (reconsiderEntry env hash pindex.nHeight) st') := by
  induction l generalizing done st' with
  | nil => exact hv
  | cons k l ih =>
    obtain ⟨hk, hl⟩ := nodup_cons.mp hl
    rw [reverse_cons, append_assoc]
    refine ih hl ?_ (hv.step ht hp (hdisjoint k mem_cons_self))
    intro k' hk' hmem
    rcases mem_cons.mp hmem with rfl | hmem
    · exact hk hk'
    · exact hdisjoint k' (mem_cons_of_mem k hk') hmem

end

/-! ## `ReconsiderBlock` -/

def Related (st : ChainState) (hash h : UInt256) : Prop :=
  Above (pprevOf st.mapBlockIndex) hash h ∨ Above (pprevOf st.mapBlockIndex) h hash

structure Reconsidered (env : ChainEnv) (hash : UInt256) (st st' : ChainState) : Prop where
  sameButMarks : SameButMarks st.mapBlockIndex st'.mapBlockIndex
  cleared : ∀ h e, Related st hash h → st.entry h = some e → st'.entry h = some e.clearFailed
  kept : ∀ h, ¬Related st hash h → st'.entry h = st.entry h
  candidates : ∀ h, h ∈ st'.setBlockIndexCandidates ↔ h ∈ st.setBlockIndexCandidates ∨
    (Above (pprevOf st.mapBlockIndex) hash h ∧ Returns env st h)
  chainActive : st'.chainActive = st.chainActive
  unlinked : st'.mapBlocksUnlinked = st.mapBlocksUnlinked

theorem reconsidered_reconsiderBlock (env : ChainEnv) {st : ChainState}
    (ht : Tree st.mapBlockIndex) {pindex : CBlockIndex} (hp : st.entry hash = some pindex) :
    Reconsidered env hash st (st.reconsiderBlock env hash) := by
  have hv : Visited env hash st (st.mapBlockIndex.keys.reverse ++ [])
      (st.mapBlockIndex.keys.foldl (reconsiderEntry env hash pindex.nHeight) st) :=
    visited_foldl ht hp st.mapBlockIndex.nodupKeys (by simp) (visited_nil env hash st)
  rw [reconsiderBlock, hp]
  simp only
  set st1 := st.mapBlockIndex.keys.foldl (reconsiderEntry env hash pindex.nHeight) st
  have hvisited : ∀ h e, st.entry h = some e → h ∈ st.mapBlockIndex.keys.reverse ++ [] := by
    intro h e he
    simpa using mem_keys.mpr (isSome_iff_exists.mpr ⟨e, he⟩)
  have hpprev := hv.sameButMarks.pprevOf_eq
  rw [hpprev]
  have hmem : ∀ h, h ∈ path (pprevOf st.mapBlockIndex) (pindex.nHeight + 1) hash ↔
      Above (pprevOf st.mapBlockIndex) h hash := fun h => ht.mem_path_iff hp
  have hfold := entry_foldl_modify (f := .clearFailed)
    (ht.graded.nodup_path (pindex.nHeight + 1) hash) st1
  have hrest := foldl_modify_eq (f := .clearFailed)
  constructor
  case sameButMarks =>
    exact hv.sameButMarks.trans (SameUpTo.foldl_modify (f := .clearFailed) (fun _ => rfl) _ st1)
  case cleared =>
    intro h e hrelated he
    -- After the first loop the entry is as it was, or cleared.
    have hfirst : st1.entry h = some e ∨ st1.entry h = some e.clearFailed := by
      by_cases habove : Above (pprevOf st.mapBlockIndex) hash h
      · exact .inr (by rw [hv.cleared h (hvisited h e he) habove, he]; rfl)
      · exact .inl ((hv.kept h fun hboth => habove hboth.2).trans he)
    by_cases habove : Above (pprevOf st.mapBlockIndex) h hash
    · rw [hfold, if_pos ((hmem h).mpr habove)]
      rcases hfirst with hfirst | hfirst <;> rw [hfirst] <;> rfl
    · rw [hfold, if_neg fun hin => habove ((hmem h).mp hin),
        hv.cleared h (hvisited h e he) (hrelated.resolve_right habove), he]
      rfl
  case kept =>
    intro h hunrelated
    rw [Related, not_or] at hunrelated
    rw [hfold, if_neg fun hin => hunrelated.2 ((hmem h).mp hin)]
    exact hv.kept h fun hboth => hunrelated.1 hboth.2
  case candidates =>
    intro h
    rw [hrest]
    refine (hv.candidates h).trans (or_congr_right ⟨fun hret => hret.2, fun hret => ?_⟩)
    obtain ⟨e, he, -⟩ := hret.2
    exact ⟨hvisited h e he, hret⟩
  case chainActive =>
    rw [hrest]
    exact hv.chainActive
  case unlinked =>
    rw [hrest]
    exact hv.unlinked

/-- When a reconsidered block leaves the index consistent: what stays marked is below an invalid
block that stays, and the ancestors that lose their marks are candidates where they should be. -/
structure ReconsiderSafe (env : ChainEnv) (st : ChainState) (hash : UInt256) : Prop where
  marked : ∀ h e, st.entry h = some e → e.nStatus.failed = true → ¬Related st hash h →
    ∃ a x, Above (pprevOf st.mapBlockIndex) a h ∧ st.entry a = some x ∧
      x.nStatus.failedValid = true ∧ ¬Above (pprevOf st.mapBlockIndex) a hash
  ancestors : ∀ a e, st.entry a = some e → Above (pprevOf st.mapBlockIndex) a hash → a ≠ hash →
    e.nStatus.failed = true → e.nChainTx ≠ 0 → notWorse env st e = true →
    a ∈ st.setBlockIndexCandidates

/-- So it is where the only marks are those of the block and its descendants. -/
theorem ReconsiderSafe.of_below {env : ChainEnv} {st : ChainState} (ht : Tree st.mapBlockIndex)
    (hbelow : ∀ h e, st.entry h = some e → e.nStatus.failed = true →
      Above (pprevOf st.mapBlockIndex) hash h) : ReconsiderSafe env st hash where
  marked h e he hfailed hunrelated := absurd (.inl (hbelow h e he hfailed)) hunrelated
  ancestors a e he habove hneq hfailed _ _ :=
    absurd (ht.graded.antisymm habove (hbelow a e he hfailed)) hneq

section

variable {env : IndexEnv} {st st' : ChainState} {hash : UInt256}

variable {h : UInt256} {e : CBlockIndex}

theorem Consistent.returns (hc : Consistent env st) (hne : st.chainActive ≠ [])
    (he : st.entry h = some e) (hfailed : e.nStatus.failed = true) (hlinked : e.nChainTx ≠ 0)
    (hworse : notWorse env.toChainEnv st e = true) :
    Returns env.toChainEnv st h := by
  have hsound := hc.shaped.sound h e he
  have hdata := ((hc.shaped.linking.linked_iff he).mp hlinked).1
  refine ⟨e, he, hfailed, hsound.transactions.mpr (hsound.data.mp hdata), hlinked, ?_⟩
  obtain ⟨tip, chain, hchain⟩ := exists_cons_of_ne_nil hne
  obtain ⟨te, hte, -, hunfailed, -⟩ := hc.active tip (by rw [hchain]; exact mem_cons_self)
  have htip : st.tipEntry = some te := by
    rw [tipEntry, ChainState.tip, hchain, head?_cons, bind_some, hte]
  rw [notWorse, htip, all_some, Bool.not_eq_true'] at hworse
  rw [htip]
  refine workLess_of_ne (fun hhash => ?_) hworse
  -- The tip has not failed, so the block is another one.
  have ht := hc.shaped.tree
  rw [ht.hash_eq h e he, ht.hash_eq tip te hte] at hhash
  subst hhash
  rw [he] at hte
  cases hte
  rw [hunfailed] at hfailed
  cases hfailed

theorem Returns.notWorse (he : st.entry h = some e) (hr : Returns env.toChainEnv st h) :
    e.nChainTx ≠ 0 ∧ notWorse env.toChainEnv st e = true := by
  obtain ⟨e', he', -, -, hlinked, htip⟩ := hr
  rw [he] at he'
  cases he'
  obtain ⟨te, hte, hless⟩ := (any_eq_true _ _).mp htip
  rw [Chain.notWorse, hte, all_some, Bool.not_eq_true', ← Bool.not_eq_true]
  rw [workLess_iff] at hless ⊢
  omega

theorem Reconsidered.kept_of_failed (hr : Reconsidered env.toChainEnv hash st st')
    {e' : CBlockIndex} (he' : st'.entry h = some e') (hfailed : e'.nStatus.failed = true) :
    ¬Related st hash h ∧ st.entry h = some e' := by
  have hunrelated : ¬Related st hash h := by
    intro hrelated
    obtain ⟨e, he, -⟩ := hr.sameButMarks.exists_entry he'
    rw [hr.cleared h e hrelated he] at he'
    cases he'
    cases hfailed
  exact ⟨hunrelated, (hr.kept h hunrelated).symm.trans he'⟩

theorem Reconsidered.entry_of_unfailed (hr : Reconsidered env.toChainEnv hash st st')
    (he : st.entry h = some e) (hfailed : e.nStatus.failed = false) : st'.entry h = some e := by
  by_cases hrelated : Related st hash h
  · rw [hr.cleared h e hrelated he, clearFailed_of_unfailed hfailed]
  · rw [hr.kept h hrelated, he]

section

variable (hc : Consistent env st) (hne : st.chainActive ≠ [])

include hc hne

theorem Consistent.reconsider (hr : Reconsidered env.toChainEnv hash st st')
    (hsafe : ReconsiderSafe env.toChainEnv st hash) : Consistent env st' := by
  have hs := hr.sameButMarks
  have hpprev := hs.pprevOf_eq
  have htip : st'.tip = st.tip := congrArg head? hr.chainActive
  constructor
  case shaped =>
    rw [hr.unlinked]
    exact hs.shaped hc.shaped
  case inactive => exact fun hempty => absurd (hr.chainActive.symm.trans hempty) hne
  case branch =>
    rw [hpprev, hr.chainActive]
    exact hc.branch
  case active =>
    intro h hmem
    rw [hr.chainActive] at hmem
    obtain ⟨e, he, hlinked, hfailed, hscripts⟩ := hc.active h hmem
    exact ⟨e, hr.entry_of_unfailed he hfailed, hlinked, hfailed, hscripts⟩
  case marked =>
    intro h e' he' hfailed
    obtain ⟨hunrelated, he⟩ := hr.kept_of_failed he' hfailed
    obtain ⟨a, x, ha, hx, hvalid, hnot⟩ := hsafe.marked h e' he hfailed hunrelated
    -- The invalid block is not touched either.
    have hkept : ¬Related st hash a := by
      rintro (habove | habove)
      · exact hunrelated (.inl (habove.trans ha))
      · exact hnot habove
    exact ⟨a, x, hpprev ▸ ha, (hr.kept a hkept).trans hx, hvalid⟩
  case candidate =>
    intro h hmem
    obtain ⟨e, he, hlinked, hgood⟩ : ∃ e, st.entry h = some e ∧ e.nChainTx ≠ 0 ∧
        notWorse env.toChainEnv st e = true := by
      rcases (hr.candidates h).mp hmem with hold | ⟨-, hreturns⟩
      · exact hc.candidate h hold
      · obtain ⟨e, he, -⟩ := id hreturns
        exact ⟨e, he, hreturns.notWorse he⟩
    exact SameButMarks.standing hs.symm htip.symm he hlinked hgood
  case complete =>
    intro h e' he' hlinked hfailed hgood
    obtain ⟨e, he, hlinked', hgood⟩ := hs.standing htip he' hlinked hgood
    rw [hr.candidates]
    by_cases hold : e.nStatus.failed = true
    · -- A mark was taken off: below the block, or above it.
      have hrelated : Related st hash h := by
        by_contra hunrelated
        rw [hr.kept h hunrelated, show st.entry h = some e from he] at he'
        cases he'
        rw [hold] at hfailed
        cases hfailed
      by_cases habove : Above (pprevOf st.mapBlockIndex) hash h
      · exact .inr ⟨habove, hc.returns hne he hold hlinked' hgood⟩
      · refine .inl (hsafe.ancestors h e he (hrelated.resolve_left habove) ?_ hold hlinked' hgood)
        rintro rfl
        exact habove (above_refl h)
    · exact .inl (hc.complete h e he hlinked' (by simpa using hold) hgood)

/-- If the check passes after the marks are gone, nothing was left undone. -/
theorem Consistent.safe_of_checked
    (hr : Reconsidered env.toChainEnv hash st st') (hchecked : BlockIndexChecked env st') :
    ReconsiderSafe env.toChainEnv st hash := by
  have hs := hr.sameButMarks
  have hshaped : Shaped env st'.mapBlockIndex st'.mapBlocksUnlinked := by
    rw [hr.unlinked]
    exact hs.shaped hc.shaped
  have hpprev := hs.pprevOf_eq
  have hentry : ∀ h e', st'.entry h = some e' → EntryChecked env st' e' := fun h e' he' =>
    hchecked.entries (by rw [hr.chainActive]; exact hne) h
      (mem_keys.mpr (isSome_iff_exists.mpr ⟨e', he'⟩)) e' he'
  constructor
  · intro h e he hfailed hunrelated
    have he' : st'.entry h = some e := (hr.kept h hunrelated).trans he
    -- The mark that stays has its reason.
    have hinvalid : Invalid st'.mapBlockIndex h := by
      rw [← firstInvalid_iff hshaped.tree he']
      by_contra hvalid
      have := (hentry h e he').failed (by simpa using hvalid)
      rw [hfailed] at this
      cases this
    obtain ⟨a, x, ha, hx, hvalid⟩ := hinvalid
    have hxfailed : x.nStatus.failed = true := by rw [BlockStatus.failed, hvalid, Bool.true_or]
    obtain ⟨hkept, hold⟩ := hr.kept_of_failed hx hxfailed
    exact ⟨a, x, hpprev ▸ ha, hold, hvalid, fun habove => hkept (.inr habove)⟩
  · intro a e he habove hneq hfailed hlinked hworse
    have he' : st'.entry a = some e.clearFailed := hr.cleared a e (.inr habove) he
    -- No block above the ancestor is invalid any more.
    have hvalid : st'.firstInvalid e.clearFailed = false := by
      rw [← Bool.not_eq_true, firstInvalid_iff hshaped.tree he']
      rintro ⟨b, x, hb, hx, hmark⟩
      have hxfailed : x.nStatus.failed = true := by rw [BlockStatus.failed, hmark, Bool.true_or]
      rw [hpprev] at hb
      exact (hr.kept_of_failed hx hxfailed).1 (.inr (hb.trans habove))
    have hlinked' : st'.firstMissing e.clearFailed = false := by
      rw [← Bool.not_eq_true, hshaped.firstMissing_iff he']
      exact hlinked
    have hworse' : notWorse env.toChainEnv st' e.clearFailed = true := by
      rw [notWorse_congr _ (congrArg head? hr.chainActive) hs.sameBody
        (show e.body = e.clearFailed.body from rfl)]
      exact hworse
    have hcandidate := (hentry a _ he').candidate (by rw [hworse', hlinked']; rfl) hvalid
    rw [isCandidate, elem_iff, hshaped.tree.hash_eq a _ he', hr.candidates]
      at hcandidate
    rcases hcandidate with hold | ⟨hbelow, -⟩
    · exact hold
    · exact absurd (hc.shaped.tree.graded.antisymm habove hbelow) hneq

theorem Consistent.reconsider_checked_iff
    {pindex : CBlockIndex} (hp : st.entry hash = some pindex) :
    BlockIndexChecked env (st.reconsiderBlock env.toChainEnv hash) ↔
      ReconsiderSafe env.toChainEnv st hash := by
  have hr := reconsidered_reconsiderBlock env.toChainEnv hc.shaped.tree hp
  exact ⟨hc.safe_of_checked hne hr, fun hsafe => (hc.reconsider hne hr hsafe).checked⟩

end

end

end Passion.Chain
