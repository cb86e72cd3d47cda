import Passion.Chain.Marking

/-!
# Activating the best chain

`ActivateBestChain` makes the branch of the block that `FindMostWorkChain` returns the active chain.
Where all its blocks connect, the index stays consistent: none of them has failed, so each of them
gets valid scripts, and what is not worse than the new tip was not worse than the old one.
-/

namespace Passion.Chain

open Lib Lib.Map ChainState Option

section

variable {env : IndexEnv} {st : ChainState}

theorem connectBlock_body (e : CBlockIndex) : (connectBlock env e).body = e.body := by
  simp only [connectBlock, BlockStatus.raiseValidity]
  split_ifs <;> rfl

theorem connectBlock_marks (e : CBlockIndex) :
    (connectBlock env e).nStatus.failedValid = e.nStatus.failedValid ∧
      (connectBlock env e).nStatus.failed = e.nStatus.failed := by
  simp only [connectBlock, BlockStatus.raiseValidity]
  split_ifs <;> exact ⟨rfl, rfl⟩

theorem connectBlock_valid {e : CBlockIndex} (hfailed : e.nStatus.failed = false)
    (hle : e.nStatus.valid ≤ BLOCK_VALID_SCRIPTS) (hne : e.hash ≠ env.hashGenesisBlock) :
    (connectBlock env e).nStatus.valid = BLOCK_VALID_SCRIPTS := by
  have hmark : { e.nStatus with haveUndo := true }.failed = false := hfailed
  rw [connectBlock, if_neg hne]
  simp only [BlockStatus.raiseValidity, hmark, Bool.false_eq_true, if_false]
  split_ifs with hlt
  · rfl
  · exact le_antisymm hle (Nat.le_of_not_lt hlt)

theorem le_connectBlock_valid (e : CBlockIndex) :
    e.nStatus.valid ≤ (connectBlock env e).nStatus.valid := by
  simp only [connectBlock, BlockStatus.raiseValidity]
  split_ifs with _ _ hlt
  · exact le_rfl
  · exact le_rfl
  · exact hlt.le
  · exact le_rfl

section

variable {hash : UInt256} {e : CBlockIndex} {branch : List UInt256} {st' : ChainState}
  (hc : Consistent env st)
  (hbranch : branch = path (pprevOf st.mapBlockIndex) (e.nHeight + 1) hash)
  (hst' : st' =
    (st.vpindexToConnect branch).foldl (·.modify · (connectBlock env)) st)

include hst'

theorem connect_sameBody : SameBody st.mapBlockIndex st'.mapBlockIndex := by
  rw [hst']
  exact SameUpTo.foldl_modify connectBlock_body _ st

include hc hbranch

variable {h : UInt256}

theorem Consistent.connect_cases {x : CBlockIndex} (hx : st.entry h = some x) :
    (h ∈ st.vpindexToConnect branch ∧ st'.entry h = some (connectBlock env x)) ∨
      (h ∉ st.vpindexToConnect branch ∧ st'.entry h = some x) := by
  have hnodup : (st.vpindexToConnect branch).Nodup := by
    rw [hbranch]
    exact (hc.shaped.tree.graded.nodup_path _ hash).filter _
  rw [hst', entry_foldl_modify hnodup, hx]
  by_cases hl : h ∈ st.vpindexToConnect branch
  · exact .inl ⟨hl, if_pos hl⟩
  · exact .inr ⟨hl, if_neg hl⟩

theorem Consistent.connect_prev {x x' prev' : CBlockIndex} (hbody : x.body = x'.body)
    (hprev' : x'.prev st'.mapBlockIndex = some prev') :
    ∃ p prev, x.pprev = some p ∧ st'.entry p = some prev' ∧ x.prev st.mapBlockIndex = some prev ∧
      prev'.nChainWork = prev.nChainWork ∧ prev'.pprev = prev.pprev ∧
      prev.nStatus.valid ≤ prev'.nStatus.valid := by
  have hpprev : x'.pprev = x.pprev := (congrArg (·.pprev) hbody).symm
  obtain ⟨p, hp, hlookup'⟩ := bind_eq_some_iff.mp hprev'
  obtain ⟨prev, hlookup, hview⟩ := (connect_sameBody hst').exists_entry hlookup'
  refine ⟨p, prev, hpprev ▸ hp, hlookup', ?_, congrArg (·.nChainWork) hview.symm,
    congrArg (·.pprev) hview.symm, ?_⟩
  · rw [CBlockIndex.prev, ← hpprev, hp]
    exact hlookup
  · rcases hc.connect_cases hbranch hst' hlookup with ⟨-, hcon⟩ | ⟨-, hcon⟩
    · rw [show st'.entry p = some prev' from hlookup'] at hcon
      cases hcon
      exact le_connectBlock_valid prev
    · rw [show st'.entry p = some prev' from hlookup'] at hcon
      cases hcon
      exact le_rfl

variable (he : st.entry hash = some e) (hlinked : e.nChainTx ≠ 0)
  (hunfailed : ∀ a x, Above (pprevOf st.mapBlockIndex) a hash → st.entry a = some x →
    x.nStatus.failed = false)

include he hlinked hunfailed

theorem Consistent.connect_active (hmem : h ∈ branch) :
    ∃ x, st'.entry h = some x ∧ x.nChainTx ≠ 0 ∧ x.nStatus.failed = false ∧
      (x.pprev = none ∨ BLOCK_VALID_SCRIPTS ≤ x.nStatus.valid) := by
  have hs := hc.shaped
  have habove : Above (pprevOf st.mapBlockIndex) h hash := by
    rw [hbranch, hs.tree.mem_path_iff he] at hmem
    exact hmem
  obtain ⟨x, hx⟩ := hs.tree.exists_above he habove
  have hfailed := hunfailed h x habove hx
  have hxlinked := hs.linked_above he hlinked habove hx
  rcases hc.connect_cases hbranch hst' hx with ⟨-, hx'⟩ | ⟨hnot, hx'⟩
  · refine ⟨_, hx', ?_, (connectBlock_marks x).2.trans hfailed, ?_⟩
    · rw [show (connectBlock env x).nChainTx = x.nChainTx from
        congrArg (·.nChainTx) (connectBlock_body x)]
      exact hxlinked
    · rw [show (connectBlock env x).pprev = x.pprev from
        congrArg (·.pprev) (connectBlock_body x)]
      by_cases hgenesis : x.hash = env.hashGenesisBlock
      · rw [hs.tree.hash_eq h x hx] at hgenesis
        subst hgenesis
        exact .inl (hs.genesis_root hx)
      · exact .inr (connectBlock_valid hfailed (hs.sound h x hx).scripts hgenesis).ge
  · -- What is not connected was active before.
    have hactive : st.activeContains x = true := by
      by_contra hinactive
      exact hnot (List.mem_filter.mpr ⟨hmem, by simp [show st.entry h = some x from hx, hinactive]⟩)
    have hold := mem_of_activeContains hactive
    rw [hs.tree.hash_eq h x hx] at hold
    obtain ⟨y, hy, -, -, hscripts⟩ := hc.active h hold
    rw [show st.entry h = some x from hx] at hy
    cases hy
    exact ⟨x, hx', hxlinked, hfailed, hscripts⟩

theorem Consistent.connect_sound {x' : CBlockIndex} (hx' : st'.entry h = some x') :
    Sound st'.mapBlockIndex x' := by
  have hs := hc.shaped
  obtain ⟨x, hx, hbody⟩ := (connect_sameBody hst').exists_entry hx'
  have hsound := hs.sound h x hx
  have hdata : x'.nStatus.haveData = x.nStatus.haveData :=
    congrArg (·.nStatus.haveData) hbody.symm
  have htx : x'.nTx = x.nTx := congrArg (·.nTx) hbody.symm
  have hsequence : x'.nChainTx = 0 → x'.nSequenceId = 0 := by
    intro hzero
    have hseq : x.nSequenceId = x'.nSequenceId := congrArg (·.nSequenceId) hbody
    rw [← hseq]
    exact hsound.sequence ((congrArg (·.nChainTx) hbody).trans hzero)
  rcases hc.connect_cases hbranch hst' hx with ⟨hl, hcon⟩ | ⟨hnot, hcon⟩
  · -- A connected block: all of its line is on the branch.
    have hmem : h ∈ branch := (List.mem_filter.mp hl).1
    have habove : Above (pprevOf st.mapBlockIndex) h hash := by
      rw [hbranch, hs.tree.mem_path_iff he] at hmem
      exact hmem
    have hfailed := hunfailed h x habove hx
    have hxdata : x.nStatus.haveData = true :=
      ((hs.linking.linked_iff hx).mp (hs.linked_above he hlinked habove hx)).1
    rw [hx'] at hcon
    have hxeq : x' = connectBlock env x := some.inj hcon
    have hle : x'.nStatus.valid ≤ BLOCK_VALID_SCRIPTS := by
      by_cases hgenesis : x.hash = env.hashGenesisBlock
      · rw [hxeq, connectBlock, if_pos hgenesis]
        exact hsound.scripts
      · rw [hxeq]
        exact (connectBlock_valid hfailed hsound.scripts hgenesis).le
    have hge : x.nStatus.valid ≤ x'.nStatus.valid := hxeq ▸ le_connectBlock_valid x
    have hpos := hsound.data.mp hxdata
    refine ⟨by rw [hdata, htx]; exact hsound.data, ⟨fun _ => htx ▸ hpos, fun _ => ?_⟩, hsequence,
      hsound.tree.trans hge, hle, ?_, ?_⟩
    · exact (hsound.transactions.mpr hpos).trans hge
    · intro prev' hprev'
      obtain ⟨-, prev, -, -, hlookup, hwork, -⟩ := hc.connect_prev hbranch hst' hbody hprev'
      rw [hwork, show x'.nChainWork = x.nChainWork from congrArg (·.nChainWork) hbody.symm]
      exact hsound.work prev hlookup
    · intro prev' hprev'
      obtain ⟨p, -, hp, hlookup', -⟩ := hc.connect_prev hbranch hst' hbody hprev'
      have hpmem : p ∈ branch := by
        rw [hbranch, hs.tree.mem_path_iff he]
        exact (above_parent ((pprevOf_eq hx).trans hp)).trans habove
      obtain ⟨z, hz, -, -, hzscripts⟩ :=
        hc.connect_active hbranch hst' he hlinked hunfailed hpmem
      rw [hlookup'] at hz
      cases hz
      rcases hzscripts with hroot | hscripts
      · exact .inl hroot
      · exact .inr (.inr (hle.trans hscripts))
  · rw [hx'] at hcon
    cases hcon
    refine hsound.congr rfl rfl rfl rfl hsequence fun prev' hprev' => ?_
    obtain ⟨-, prev, -, -, hlookup, hrest⟩ := hc.connect_prev hbranch hst' hbody hprev'
    exact ⟨prev, hlookup, hrest⟩

end

theorem Consistent.activate (hc : Consistent env st) {hash : UInt256} (husable : Usable st hash)
    {branch : List UInt256}
    (hbranch : branch = path (pprevOf st.mapBlockIndex) (heightOf st.mapBlockIndex hash + 1) hash)
    {st' : ChainState}
    (hst' : st' = (st.vpindexToConnect branch).foldl (·.modify · (connectBlock env)) st) :
    Consistent env
      ({ st' with chainActive := branch }.pruneBlockIndexCandidates env.toChainEnv) := by
  obtain ⟨hmem, hunfailed⟩ := husable
  obtain ⟨e, he, hlinked, hworse⟩ := hc.candidate hash hmem
  rw [heightOf_eq he] at hbranch
  have hs := hc.shaped
  have hsame := connect_sameBody hst'
  have hpprev := hsame.sameTree.pprevOf_eq
  have hrest : st'.mapBlocksUnlinked = st.mapBlocksUnlinked ∧
      st'.setBlockIndexCandidates = st.setBlockIndexCandidates := by
    rw [hst', foldl_modify_eq]
    exact ⟨rfl, rfl⟩
  have hentry : ∀ h x', st'.entry h = some x' → ∃ x, st.entry h = some x ∧ x.body = x'.body ∧
      x.nStatus.failedValid = x'.nStatus.failedValid ∧ x.nStatus.failed = x'.nStatus.failed := by
    intro h x' hx'
    obtain ⟨x, hx, hbody⟩ := hsame.exists_entry hx'
    refine ⟨x, hx, hbody, ?_⟩
    rcases hc.connect_cases hbranch hst' hx with ⟨-, hcon⟩ | ⟨-, hcon⟩
    · rw [hx'] at hcon
      cases hcon
      exact ⟨(connectBlock_marks x).1.symm, (connectBlock_marks x).2.symm⟩
    · rw [hx'] at hcon
      cases hcon
      exact ⟨rfl, rfl⟩
  set st'' : ChainState := { st' with chainActive := branch }
  have htip : st''.tip = some hash := by
    change branch.head? = some hash
    rw [hbranch]
    rfl
  have htipEntry : st''.tipEntry.map CBlockIndex.body = some e.body := by
    rw [tipEntry, htip]
    exact (hsame hash).trans (congrArg (Option.map CBlockIndex.body) he)
  -- What is not worse than the new tip was not worse than the old one.
  have hnotWorse : ∀ x x' : CBlockIndex, x.body = x'.body →
      notWorse env.toChainEnv st'' x' = true → notWorse env.toChainEnv st x = true := by
    intro x x' hbody hnew
    rw [notWorse_of_body, htipEntry, ← hbody, all_some, Bool.not_eq_true'] at hnew
    rw [notWorse, all_eq_true] at hworse ⊢
    intro tip htip
    have htipWorse := hworse tip htip
    rw [Bool.not_eq_true'] at htipWorse ⊢
    by_contra hless
    have hxe : workLess env.toChainEnv x e = true :=
      workLess_of_not_less (by simpa using hless) htipWorse
    rw [show workLess env.toChainEnv x e = false from hnew] at hxe
    cases hxe
  constructor
  case shaped =>
    refine ⟨hsame.sameTree.tree hs.tree, ?_, ?_, ?_⟩
    · change Linking st'.mapBlockIndex st'.mapBlocksUnlinked []
      rw [hrest.1]
      exact hsame.linking hs.linking
    · intro h x' hx'
      exact hc.connect_sound hbranch hst' he hlinked hunfailed hx'
    · intro h x' hx' hp
      obtain ⟨x, hx, hbody, -⟩ := hentry h x' hx'
      exact hs.root h x hx ((congrArg (·.pprev) hbody).trans hp)
  case inactive =>
    intro hempty
    rw [tip, show st''.chainActive = [] from hempty] at htip
    cases htip
  case branch =>
    change Branch (pprevOf st'.mapBlockIndex) branch
    rw [hpprev, hbranch]
    exact hs.tree.branch_path he
  case active =>
    intro h hmem
    exact hc.connect_active hbranch hst' he hlinked hunfailed hmem
  case marked =>
    intro h x' hx' hfailed
    obtain ⟨x, hx, -, -, hsameFailed⟩ := hentry h x' hx'
    refine (hc.marked h x hx (hsameFailed.trans hfailed)).mono hpprev fun a y hy hvalid => ?_
    obtain ⟨y', hy', -⟩ := hsame.symm.exists_entry hy
    obtain ⟨z, hz, -, hsameValid, -⟩ := hentry a y' hy'
    rw [show st.entry a = some y from hy] at hz
    cases hz
    exact ⟨y', hy', hsameValid.symm.trans hvalid⟩
  case candidate =>
    intro h hmem
    obtain ⟨hin, hgood⟩ := List.mem_filter.mp hmem
    rw [show st''.setBlockIndexCandidates = st.setBlockIndexCandidates from hrest.2] at hin
    obtain ⟨x, hx, hxlinked, -⟩ := hc.candidate h hin
    obtain ⟨x', hx', hbody⟩ := hsame.symm.exists_entry hx
    rw [show st''.entry h = some x' from hx'] at hgood
    refine ⟨x', hx', ?_, hgood⟩
    rw [show x'.nChainTx = x.nChainTx from congrArg (·.nChainTx) hbody]
    exact hxlinked
  case complete =>
    intro h x' hx' hxlinked hfailed hgood
    obtain ⟨x, hx, hbody, -, hsameFailed⟩ := hentry h x' hx'
    refine List.mem_filter.mpr ⟨?_, ?_⟩
    · rw [show st''.setBlockIndexCandidates = st.setBlockIndexCandidates from hrest.2]
      refine hc.complete h x hx ?_ (hsameFailed.trans hfailed) (hnotWorse x x' hbody hgood)
      rw [show x.nChainTx = x'.nChainTx from congrArg (·.nChainTx) hbody]
      exact hxlinked
    · rw [show st''.entry h = some x' from hx']
      exact hgood

theorem Consistent.activateBestChain (hc : Consistent env st) :
    Consistent env (st.activateBestChain env) := by
  obtain ⟨result, st', hfind, hc', hresult⟩ := hc.findMostWork (Nat.lt_succ_self _)
  rw [ChainState.activateBestChain, ChainState.findMostWorkChain, hfind]
  cases result with
  | none => exact hc'
  | some hash =>
    simp only
    split_ifs with htip
    · exact hc'
    · exact hc'.activate hresult rfl rfl

end

end Passion.Chain
