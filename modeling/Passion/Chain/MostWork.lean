import Passion.Chain.CheckIndex

/-!
# The candidate with the most work

What `FindMostWorkChain` returns and what it removes, for every tree of blocks, every set of
candidates in it and every active chain. Nothing else of the invariant of `CheckBlockIndex` is
assumed: candidates may be on failed blocks, or on blocks whose data is missing. They have their
transactions, as the loop asserts.

A turn of the loop tests the greatest candidate. If a block between it and the active chain cannot
be used, all blocks from the candidate down to that one leave the set, and get a mark if it has
failed. A mark changes nothing about which blocks can be used (`Trimmed.unusable_iff`), so what is
true of one turn is true of the whole loop.

In the states of a run the candidates are all the blocks that matter, so `ActivateBestChain` leaves
the best of them as the tip (`tipBest_of_reaches`).
-/

namespace Passion.Chain

open Lib ChainState

section

variable {env : ChainEnv} {st st' st'' : ChainState} {l : List UInt256} {h test : UInt256}
  {flag : Bool}

/-! ## One turn -/

theorem Trimmed.activeContains_eq (ht : Trimmed test flag l st st') {x x' : CBlockIndex}
    (hclear : x.clearFailed = x'.clearFailed) : st'.activeContains x' = st.activeContains x := by
  have hheight : x.nHeight = x'.nHeight := congrArg (·.nHeight) hclear
  have hhash : x.hash = x'.hash := congrArg (·.hash) hclear
  rw [activeContains, activeContains, hashAt, hashAt,
    ht.chainActive, hheight, hhash]

/-- Marks below a failed block do not change which blocks can be used. -/
theorem Trimmed.unusable_iff (ht : Trimmed test flag l st st') {t : CBlockIndex}
    (hbelow : ∀ h ∈ l, Above (pprevOf st.mapBlockIndex) test h) (htest : st.entry test = some t)
    (hout : st.activeContains t = false) (hflag : flag = t.nStatus.failed) :
    Unusable st' h ↔ Unusable st h := by
  constructor
  · rintro ⟨a, x', ha, hx', hout', hbad⟩
    rw [ht.pprevOf_eq] at ha
    rw [ht.entry] at hx'
    split_ifs at hx' with hmark
    · exact ⟨test, t, (hbelow a hmark.2.1).trans ha, htest, hout, .inl (hflag ▸ hmark.1)⟩
    · rw [ht.activeContains_eq rfl] at hout'
      exact ⟨a, x', ha, hx', hout', hbad⟩
  · rintro ⟨a, x, ha, hx, hout', hbad⟩
    rw [← ht.pprevOf_eq] at ha
    have hentry := ht.entry a
    split_ifs at hentry with hmark
    · refine ⟨a, x.failChild, ha, by rw [hentry, hx]; rfl, ?_, .inl ?_⟩
      · rw [ht.activeContains_eq (show x.clearFailed = x.failChild.clearFailed from rfl), hout']
      · simp [CBlockIndex.failChild, BlockStatus.failed]
    · refine ⟨a, x, ha, hentry.trans hx, ?_, hbad⟩
      rw [ht.activeContains_eq rfl, hout']

theorem Trimmed.searchable (ht : Trimmed test flag l st st') (hs : Searchable st) :
    Searchable st' where
  tree := ht.sameButMarks.sameBody.sameTree.tree hs.tree
  branch := by
    rw [ht.pprevOf_eq, ht.chainActive]
    exact hs.branch
  known := by
    intro h hmem
    obtain ⟨e, he⟩ := hs.known h ((ht.candidates h).mp hmem).1
    obtain ⟨e', he', -⟩ := ht.sameButMarks.symm.exists_entry he
    exact ⟨e', he'⟩
  asserted := by
    intro h hmem a x' ha hx' hout
    obtain ⟨x, hx, hclear⟩ := ht.sameButMarks.exists_entry hx'
    rw [ht.pprevOf_eq] at ha
    rw [ht.activeContains_eq hclear] at hout
    rw [show x'.nChainTx = x.nChainTx from congrArg (·.nChainTx) hclear.symm,
      show x'.nHeight = x.nHeight from congrArg (·.nHeight) hclear.symm]
    exact hs.asserted h ((ht.candidates h).mp hmem).1 a x ha hx hout

/-! ## The loop -/

/-- What a search may leave, and what it may return. -/
structure Found (env : ChainEnv) (st : ChainState) (result : Option UInt256) (st' : ChainState) :
    Prop where
  remaining : ∀ h ∈ st'.setBlockIndexCandidates, h ∈ st.setBlockIndexCandidates
  removed : ∀ h ∈ st.setBlockIndexCandidates, h ∉ st'.setBlockIndexCandidates → Unusable st h
  /-- The result is a candidate that can be used, and none that remains sorts behind it. -/
  greatest : ∀ hash, result = some hash →
    hash ∈ st'.setBlockIndexCandidates ∧ ¬Unusable st hash ∧
      ∀ h ∈ st'.setBlockIndexCandidates, ∀ best e, st'.entry hash = some best →
        st'.entry h = some e → workLess env best e = false
  /-- Without a result no candidate is left, so by `removed` none could be used. -/
  none : result = none → st'.setBlockIndexCandidates = []

theorem workLess_bestCandidate {best e : CBlockIndex} (hbest : st.bestCandidate env = some best)
    (hmem : h ∈ st.setBlockIndexCandidates) (he : st.entry h = some e) :
    workLess env best e = false := by
  refine not_less_of_greatest ?_ ?_ hbest (List.mem_filterMap.mpr ⟨h, hmem, he⟩)
  · intro a b hab
    rw [← Bool.not_eq_true, workLess_iff]
    rw [workLess_iff] at hab
    omega
  · intro a b c hab hcb
    exact workLess_of_not_less hab hcb

theorem Found.trimmed {result : Option UInt256} (ht : Trimmed test flag l st st')
    (hiff : ∀ h, Unusable st' h ↔ Unusable st h) (hl : ∀ h ∈ l, Unusable st h)
    (hf : Found env st' result st'') : Found env st result st'' where
  remaining := by
    intro h hmem
    exact ((ht.candidates h).mp (hf.remaining h hmem)).1
  removed := by
    intro h hmem hout
    by_cases hhl : h ∈ l
    · exact hl h hhl
    · exact (hiff h).mp (hf.removed h ((ht.candidates h).mpr ⟨hmem, hhl⟩) hout)
  greatest := by
    intro hash hresult
    obtain ⟨hmem, husable, hgreatest⟩ := hf.greatest hash hresult
    exact ⟨hmem, fun hun => husable ((hiff hash).mpr hun), hgreatest⟩
  none := hf.none

/-- Every turn that does not return removes the candidate it tested, so the rounds are enough. -/
theorem found_findMostWork {fuel : Nat} (hs : Searchable st)
    (hfuel : st.setBlockIndexCandidates.length < fuel) :
    ∃ result st', findMostWork env fuel st = .ok (result, st') ∧ Found env st result st' := by
  induction fuel generalizing st with
  | zero => omega
  | succ fuel ih =>
    rw [findMostWork]
    cases hbest : st.bestCandidate env with
    | none =>
      refine ⟨none, st, rfl, fun _ hmem => hmem, fun _ hmem hout => absurd hmem hout, ?_, ?_⟩
      · intro hash hresult
        cases hresult
      · intro _
        exact candidates_eq_nil hs.known hbest
    | some new =>
      obtain ⟨hmem, hnew⟩ := mem_of_bestCandidate hs.tree hbest
      rcases hs.firstUnusable_cases hnew (hs.asserted _ hmem) (Nat.lt_succ_self _) with
        ⟨hfind, husable⟩ | ⟨test, hfind, ⟨i, hi, ha⟩, htest, hout, hbad⟩
      · simp only [hfind]
        refine ⟨some new.hash, st, rfl, fun _ hmem => hmem, fun _ hmem hout => absurd hmem hout,
          ?_, ?_⟩
        · rintro hash ⟨⟩
          refine ⟨hmem, husable, ?_⟩
          intro h hh best e hbest' he
          cases hnew.symm.trans hbest'
          exact workLess_bestCandidate hbest hh he
        · intro hresult
          cases hresult
      · simp only [hfind]
        have hnote : Trimmed test.hash _ [] st _ :=
          trimmed_noteInvalid test.nStatus.failed st new.hash
        rw [← hnote.pprevOf_eq] at ha
        obtain ⟨l, hl, hbelow, htrimmed⟩ := trimmed_dropChain _ _ ha hi
        rw [hnote.pprevOf_eq] at hbelow
        have hturn := hnote.trans htrimmed
        have hlt := hturn.length_lt hmem hl
        obtain ⟨result, st', hrest, hfound⟩ := ih (hturn.searchable hs) (by omega)
        refine ⟨result, st', hrest,
          Found.trimmed hturn (fun h => hturn.unusable_iff hbelow htest hout rfl) ?_ hfound⟩
        intro h hh
        exact ⟨test.hash, test, hbelow h hh, htest, hout, hbad⟩

/-- `FindMostWorkChain` ends without a failed assertion. It returns the greatest remaining
candidate, on a branch where every block outside the active chain has data and has not failed, or
nothing if there is no candidate on such a branch. It removes no candidate that is on such a
branch. -/
theorem found_findMostWorkChain (hs : Searchable st) :
    ∃ result st', st.findMostWorkChain env = .ok (result, st') ∧ Found env st result st' :=
  found_findMostWork hs (Nat.lt_succ_self _)

end

open CheckSample in
/-- Block 4 is a candidate on block 2, which has failed. The search drops it, and stays at the
genesis block. -/
theorem found_invalidated : invalidated.setBlockIndexCandidates.elem 4 = true ∧
    ((invalidated.findMostWorkChain env.toChainEnv).toOption.bind (·.1)) = some 1 ∧
    ∃ result st', invalidated.findMostWorkChain env.toChainEnv = .ok (result, st') ∧
      Found env.toChainEnv invalidated result st' :=
  ⟨by decide +kernel, by decide +kernel,
    found_findMostWorkChain reaches_invalidated.consistent.searchable⟩

/-! ## After `ActivateBestChain` -/

/-- No linked block without an invalid block on its line sorts behind the tip. -/
def TipBest (env : IndexEnv) (st : ChainState) : Prop :=
  ∀ h e, st.entry h = some e → e.nChainTx ≠ 0 → ¬Invalid st.mapBlockIndex h →
    ∃ tip, st.tipEntry = some tip ∧ workLess env.toChainEnv tip e = false

section

variable {env : IndexEnv} {st : ChainState} {h : UInt256} {e : CBlockIndex}

theorem Consistent.workLess_tip (hc : Consistent env st)
    (hmem : h ∈ (st.activateBestChain env).setBlockIndexCandidates)
    (he : (st.activateBestChain env).entry h = some e) :
    ∃ tip, (st.activateBestChain env).tipEntry = some tip ∧
      workLess env.toChainEnv tip e = false := by
  have hfuel := Nat.lt_succ_self st.setBlockIndexCandidates.length
  obtain ⟨result, st', hfind, hc', -⟩ := hc.findMostWork hfuel
  obtain ⟨_, _, hfind', hfound⟩ :
      ∃ result st', ChainState.findMostWork env.toChainEnv _ st = .ok (result, st') ∧
        Found env.toChainEnv st result st' := found_findMostWork hc.searchable hfuel
  cases hfind.symm.trans hfind'
  simp only [ChainState.activateBestChain, ChainState.findMostWorkChain, hfind] at hmem he ⊢
  cases result with
  | none =>
    rw [hfound.none rfl] at hmem
    cases hmem
  | some hash =>
    obtain ⟨hin, -, hgreatest⟩ := hfound.greatest hash rfl
    obtain ⟨best, hbest⟩ := hc'.searchable.known hash hin
    simp only at hmem he ⊢
    split_ifs at * with htip
    · exact ⟨best, by rw [tipEntry, htip]; exact hbest, hgreatest h hmem best e hbest he⟩
    · -- connecting changes the status of entries only, which the comparison does not read
      obtain ⟨e', he', hbody⟩ := (connect_sameBody rfl).exists_entry he
      obtain ⟨best', hbest', hbody'⟩ := (connect_sameBody rfl).symm.exists_entry hbest
      obtain ⟨hmem, -⟩ := List.mem_filter.mp hmem
      rw [foldl_modify_eq] at hmem
      have hless := hgreatest h hmem best e' hbest he'
      refine ⟨best', hbest', ?_⟩
      change workLess env.toChainEnv best'.body e.body = false
      rw [← hbody, hbody']
      exact hless

/-- **The tip is the best block that can be used.** After `ActivateBestChain`, in any state that
calls which meet their conditions lead to, no block that has the data of its whole line and no
invalid block on it sorts behind the tip. -/
theorem tipBest_of_reaches
    (hst : Reaches env (fun st op => op.allowed env st = true ∧ op.Meets env st) st) :
    TipBest env (st.activateBestChain env) := by
  intro h e he hlinked hvalid
  have hc := hst.consistent.activateBestChain
  have hfailed : e.nStatus.failed = false :=
    eq_false_of_ne_true fun hfailed => hvalid (hc.marked h e he hfailed)
  cases hworse : notWorse env.toChainEnv (st.activateBestChain env) e with
  | true => exact hst.consistent.workLess_tip (hc.complete h e he hlinked hfailed hworse) he
  | false =>
    rw [notWorse] at hworse
    cases htip : (st.activateBestChain env).tipEntry with
    | none => simp [htip] at hworse
    | some tip =>
      rw [htip, Option.all_some, Bool.not_eq_false', workLess_iff] at hworse
      refine ⟨tip, rfl, ?_⟩
      rw [← Bool.not_eq_true, workLess_iff]
      omega

end

open CheckSample in
/-- Back at the genesis block, as block 2 was invalidated. -/
theorem tipBest_invalidated : (invalidated.activateBestChain env).chainActive = [1] ∧
    TipBest env (invalidated.activateBestChain env) :=
  ⟨by decide +kernel, tipBest_of_reaches reaches_invalidated⟩

end Passion.Chain
