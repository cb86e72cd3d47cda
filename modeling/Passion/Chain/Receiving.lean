import Passion.Chain.Reconsider

/-!
# New blocks in a consistent index

`AddToBlockIndex` and `ReceivedBlockTransactions` in an index that may have failed blocks. A new
header is neither linked nor a candidate. The data of a block links it and what waits for it; the
queue makes candidates of those that are not worse than the tip, and leaves every linked entry
alone, so the tip and the candidates that were there compare as before.
-/

namespace Passion.Chain

open Lib Lib.Map ChainState

/-- The tip is active: where the active blocks keep their entries, all blocks compare with it as
before. -/
theorem notWorse_of_active (env : ChainEnv) {st st' : ChainState}
    (hchain : st'.chainActive = st.chainActive)
    (hactive : ∀ h ∈ st.chainActive, st'.entry h = st.entry h) (e : CBlockIndex) :
    notWorse env st' e = notWorse env st e := by
  have htip : st'.tipEntry = st.tipEntry := by
    rw [tipEntry, tipEntry, tip, tip, hchain]
    cases hcons : st.chainActive with
    | nil => rfl
    | cons tip chain => exact hactive tip (by rw [hcons]; exact List.mem_cons_self)
  rw [notWorse, htip, notWorse]

/-! ## A new header -/

section

variable {env : IndexEnv} {st : ChainState} {block : CBlock}

theorem sound_newEntry {m : BlockMap} {e : CBlockIndex}
    (hnew : IsNew env.toChainEnv m block e) (htx : e.nTx = 0) (hsequence : e.nSequenceId = 0)
    (hwork : ∀ prev, m.lookup block.hashPrevBlock = some prev →
      prev.nChainWork < prev.nChainWork + getBlockProof block.nBits) : Sound m e := by
  have hstatus := hnew.status
  constructor
  case data => rw [hstatus, htx]; simp
  case transactions => rw [hstatus, htx]; simp [BLOCK_VALID_TREE, BLOCK_VALID_TRANSACTIONS]
  case sequence => exact fun _ => hsequence
  case tree => rw [hstatus]
  case scripts => rw [hstatus]; simp [BLOCK_VALID_TREE, BLOCK_VALID_SCRIPTS]
  case work =>
    intro prev hprev
    obtain ⟨p, hp, hlookup⟩ := Option.bind_eq_some_iff.mp hprev
    obtain ⟨rfl, -⟩ := hnew.parent p hp
    have hbits : e.nBits = block.nBits := congrArg (·.nBits) hnew.header
    rw [hnew.accumulated.1, hprev, hbits]
    exact hwork prev hlookup
  case level =>
    intro prev _
    rw [hstatus]
    exact .inr (.inl (by decide))

theorem Consistent.insert_new (hc : Consistent env st) {e : CBlockIndex}
    (hnew : IsNew env.toChainEnv st.mapBlockIndex block e) (hsound : Sound st.mapBlockIndex e)
    (hq : st.entry e.hash = none) (hroot : e.pprev = none → e.hash = env.hashGenesisBlock)
    (hinactive : st.chainActive = [] → e.hash = env.hashGenesisBlock) {st' : ChainState}
    (hmap : st'.mapBlockIndex = st.mapBlockIndex.insert e.hash e)
    (hunlinked : st'.mapBlocksUnlinked = st.mapBlocksUnlinked)
    (hchain : st'.chainActive = st.chainActive)
    (hcandidates : st'.setBlockIndexCandidates = st.setBlockIndexCandidates) :
    Consistent env st' := by
  have hs := hc.shaped
  have ht := hs.tree
  have hold : ∀ h x, st.entry h = some x → st'.entry h = some x := by
    intro h x hx
    rw [entry, hmap]
    exact lookup_insert_old hq hx
  have hcases : ∀ h x, st'.entry h = some x →
      (h = e.hash ∧ x = e) ∨ (h ≠ e.hash ∧ st.entry h = some x) := by
    intro h x hx
    rw [entry, hmap] at hx
    exact lookup_insert_cases hx
  have hworse := notWorse_of_active env.toChainEnv hchain fun h hmem => by
    obtain ⟨x, hx, -⟩ := hc.active h hmem
    rw [hx, hold h x hx]
  -- Lines of ancestors stay.
  have hancestor : ∀ h x n, st.entry h = some x →
      ancestor (pprevOf st'.mapBlockIndex) n h = ancestor (pprevOf st.mapBlockIndex) n h := by
    intro h x n hx
    rw [hmap]
    exact ht.ancestor_insert hq hx n
  constructor
  case shaped =>
    rw [hmap, hunlinked]
    refine ⟨ht.insert hnew.joins hq, hnew.linking ht hs.linking hq, fun h x hx => ?_,
      fun h x hx hp => ?_⟩
    · have hsame : ∀ y : CBlockIndex, y.pprev ≠ some e.hash → Sound st.mapBlockIndex y →
          Sound (st.mapBlockIndex.insert e.hash e) y := by
        intro y hy hold
        refine hold.congr rfl rfl rfl rfl hold.sequence fun prev hprev => ?_
        rw [prev_insert hy] at hprev
        exact ⟨prev, hprev, rfl, rfl, le_rfl⟩
      rcases lookup_insert_cases hx with ⟨-, rfl⟩ | ⟨-, hx⟩
      · exact hsame x (hnew.pprev_ne hq) hsound
      · exact hsame x (ht.pprev_ne_of_none hq hx) (hs.sound h x hx)
    · rcases lookup_insert_cases hx with ⟨rfl, rfl⟩ | ⟨-, hx⟩
      · exact hroot hp
      · exact hs.root h x hx hp
  case inactive =>
    intro hempty h x hx
    rw [hchain] at hempty
    rcases hcases h x hx with ⟨rfl, -⟩ | ⟨-, hx⟩
    · exact hinactive hempty
    · exact hc.inactive hempty h x hx
  case branch =>
    rw [hchain]
    refine hc.branch.congr fun h hmem => ?_
    obtain ⟨x, hx, -⟩ := hc.active h hmem
    rw [pprevOf_eq hx, pprevOf_eq (hold h x hx)]
  case active =>
    intro h hmem
    rw [hchain] at hmem
    obtain ⟨x, hx, hrest⟩ := hc.active h hmem
    exact ⟨x, hold h x hx, hrest⟩
  case marked =>
    intro h x hx hfailed
    rcases hcases h x hx with ⟨-, rfl⟩ | ⟨-, hx⟩
    · rw [hnew.status] at hfailed
      cases hfailed
    · obtain ⟨a, y, ⟨n, hn⟩, hy, hvalid⟩ := hc.marked h x hx hfailed
      exact ⟨a, y, ⟨n, by rw [hancestor h x n hx, hn]⟩, hold a y hy, hvalid⟩
  case candidate =>
    intro h hmem
    rw [hcandidates] at hmem
    obtain ⟨x, hx, hlinked, hgood⟩ := hc.candidate h hmem
    exact ⟨x, hold h x hx, hlinked, (hworse x).trans hgood⟩
  case complete =>
    intro h x hx hlinked hfailed hgood
    rw [hcandidates]
    rcases hcases h x hx with ⟨-, rfl⟩ | ⟨-, hx⟩
    · exact absurd hnew.noTotals.1 hlinked
    · exact hc.complete h x hx hlinked hfailed ((hworse x).symm.trans hgood)

theorem Consistent.addToBlockIndex (hc : Consistent env st)
    (hallowed : block.getHash env.toChainEnv = env.hashGenesisBlock ∨
      (st.chainActive ≠ [] ∧ ∃ prev, st.entry block.hashPrevBlock = some prev))
    (hwork : st.entry (block.getHash env.toChainEnv) = none → ∀ prev,
      st.entry block.hashPrevBlock = some prev →
      prev.nChainWork < prev.nChainWork + getBlockProof block.nBits) :
    Consistent env (addToBlockIndex env.toChainEnv st block) := by
  cases hentry : st.entry (block.getHash env.toChainEnv) with
  | some e =>
    rw [Chain.addToBlockIndex, hentry]
    exact hc
  | none =>
    have hnew : IsNew env.toChainEnv st.mapBlockIndex block
        (newEntry env.toChainEnv st.mapBlockIndex block) := isNew_newEntry hc.shaped.tree
    obtain ⟨htx, hsequence⟩ : (newEntry env.toChainEnv st.mapBlockIndex block).nTx = 0 ∧
        (newEntry env.toChainEnv st.mapBlockIndex block).nSequenceId = 0 := by
      rw [newEntry, linkToParent]
      cases st.mapBlockIndex.lookup block.hashPrevBlock <;> exact ⟨rfl, rfl⟩
    rw [Chain.addToBlockIndex, hentry]
    refine hc.insert_new hnew (sound_newEntry hnew htx hsequence (hwork hentry))
      (hnew.hash_eq ▸ hentry) ?_ ?_ rfl rfl rfl rfl
    · intro hp
      rw [hnew.hash_eq]
      refine hallowed.resolve_right ?_
      rintro ⟨-, prev, hprev⟩
      rw [show st.entry block.hashPrevBlock = none from (hnew.root hp).1] at hprev
      cases hprev
    · intro hempty
      rw [hnew.hash_eq]
      exact hallowed.resolve_right fun hactive => hactive.1 hempty

end

/-! ## The data of a block -/

section

variable {env : IndexEnv} {st st' : ChainState} {q : UInt256} {queue : List UInt256}

/-- What holds between the turns of the queue, when `st` was the state at its start. -/
structure Queued (env : IndexEnv) (st st' : ChainState) (queue : List UInt256) : Prop where
  linking : Linking st'.mapBlockIndex st'.mapBlocksUnlinked queue
  sameData : SameData st.mapBlockIndex st'.mapBlockIndex
  chainActive : st'.chainActive = st.chainActive
  active : ∀ h ∈ st.chainActive, st'.entry h = st.entry h
  sequence : ∀ h e, st'.entry h = some e → e.nChainTx = 0 → e.nSequenceId = 0
  candidate : ∀ h ∈ st'.setBlockIndexCandidates, ∃ e, st'.entry h = some e ∧ e.nChainTx ≠ 0 ∧
    notWorse env.toChainEnv st e = true
  complete : ∀ h e, st'.entry h = some e → e.nChainTx ≠ 0 → e.nStatus.failed = false →
    notWorse env.toChainEnv st e = true → h ∈ st'.setBlockIndexCandidates

theorem mem_linkStep_candidates (env : ChainEnv) {st : ChainState} {q : UInt256} {e : CBlockIndex}
    (he : st.entry q = some e) (h : UInt256) :
    h ∈ (linkStep env st q).setBlockIndexCandidates ↔ h ∈ st.setBlockIndexCandidates ∨
      (h = q ∧ notWorse env (linkStep env st q)
        (linkEntry st.mapBlockIndex st.nBlockSequenceId e) = true) := by
  simp only [linkStep, he]
  by_cases hworse : notWorse env { st with
      mapBlockIndex :=
        st.mapBlockIndex.insert q (linkEntry st.mapBlockIndex st.nBlockSequenceId e)
      nBlockSequenceId := st.nBlockSequenceId + 1 }
      (linkEntry st.mapBlockIndex st.nBlockSequenceId e) = true
  · rw [if_pos hworse, insertCandidate, List.mem_insert_iff]
    constructor
    · rintro (rfl | hold)
      · exact .inr ⟨rfl, hworse⟩
      · exact .inl hold
    · rintro (hold | ⟨rfl, -⟩)
      · exact .inr hold
      · exact .inl rfl
  · rw [if_neg hworse]
    exact ⟨.inl, fun hmem => hmem.resolve_right fun hboth => hworse hboth.2⟩

theorem Queued.turn (hqd : Queued env st st' (q :: queue)) (ht : Tree st.mapBlockIndex)
    (hactive : ∀ h ∈ st.chainActive, ∃ e, st.entry h = some e ∧ e.nChainTx ≠ 0) :
    Queued env st (linkStep env.toChainEnv st' q) (queue ++ waiting st' q) := by
  obtain ⟨e, he, hdata, -, hzero⟩ := hqd.linking.queued q List.mem_cons_self
  have ht' : Tree st'.mapBlockIndex := hqd.sameData.sameTree.tree ht
  obtain ⟨hmap, hunlinked⟩ := linkStep_eq env.toChainEnv (show st'.entry q = some e from he)
  have hmem := mem_linkStep_candidates env.toChainEnv (show st'.entry q = some e from he)
  have hchain : (linkStep env.toChainEnv st' q).chainActive = st.chainActive := by
    rw [linkStep, show st'.entry q = some e from he]
    exact hqd.chainActive
  generalize linkStep env.toChainEnv st' q = st'' at hmap hunlinked hmem hchain ⊢
  set e1 := linkEntry st'.mapBlockIndex st'.nBlockSequenceId e
  have hlinked : e1.nChainTx ≠ 0 := by
    have := hqd.linking.counted q e he hdata
    change (e.prev st'.mapBlockIndex).elim 0 (·.nChainTx) + e.nTx ≠ 0
    omega
  have hentry : ∀ h, st''.entry h = if h = q then some e1 else st'.entry h := by
    intro h
    rw [entry, hmap, lookup_insert']
    rfl
  -- Active blocks are linked, so they are not in the queue.
  have hnot : q ∉ st.chainActive := by
    intro hin
    obtain ⟨x, hx, hxlinked⟩ := hactive q hin
    rw [← hqd.active q hin, show st'.entry q = some e from he] at hx
    cases hx
    exact hxlinked hzero
  have hactive' : ∀ h ∈ st.chainActive, st''.entry h = st.entry h := by
    intro h hin
    have hne : h ≠ q := fun heq => hnot (heq ▸ hin)
    rw [hentry, if_neg hne]
    exact hqd.active h hin
  have hworse := notWorse_of_active env.toChainEnv hchain hactive'
  refine ⟨?_, ?_, hchain, hactive', ?_, ?_, ?_⟩
  · rw [hmap, hunlinked]
    exact hqd.linking.turn ht' he _
  · rw [hmap]
    exact hqd.sameData.trans (SameUpTo.insert he rfl)
  · intro h x hx hxzero
    rw [hentry] at hx
    split_ifs at hx with hh
    · cases hx
      exact absurd hxzero hlinked
    · exact hqd.sequence h x hx hxzero
  · intro h hin
    rcases (hmem h).mp hin with hold | ⟨rfl, hgood⟩
    · obtain ⟨x, hx, hxlinked, hgood⟩ := hqd.candidate h hold
      have hne : h ≠ q := by
        rintro rfl
        rw [show st'.entry h = some e from he] at hx
        cases hx
        exact hxlinked hzero
      exact ⟨x, by rw [hentry, if_neg hne, hx], hxlinked, hgood⟩
    · exact ⟨e1, by rw [hentry, if_pos rfl], hlinked, (hworse e1).symm.trans hgood⟩
  · intro h x hx hxlinked hfailed hgood
    rw [hentry] at hx
    rw [hmem]
    split_ifs at hx with hh
    · cases hx
      exact .inr ⟨hh, (hworse e1).trans hgood⟩
    · exact .inl (hqd.complete h x hx hxlinked hfailed hgood)

/-- What does not depend on which blocks are linked. -/
structure Framed (env : IndexEnv) (st : ChainState) : Prop where
  tree : Tree st.mapBlockIndex
  sound : ∀ h e, st.entry h = some e → Sound st.mapBlockIndex e
  root : ∀ h e, st.entry h = some e → e.pprev = none → h = env.hashGenesisBlock
  inactive : st.chainActive = [] → ∀ h e, st.entry h = some e → h = env.hashGenesisBlock
  branch : Branch (pprevOf st.mapBlockIndex) st.chainActive
  active : ∀ h ∈ st.chainActive, ∃ e, st.entry h = some e ∧ e.nChainTx ≠ 0 ∧
    e.nStatus.failed = false ∧ (e.pprev = none ∨ BLOCK_VALID_SCRIPTS ≤ e.nStatus.valid)
  marked : ∀ h e, st.entry h = some e → e.nStatus.failed = true → Invalid st.mapBlockIndex h

theorem Queued.consistent (hf : Framed env st) (hqd : Queued env st st' []) :
    Consistent env st' := by
  have hsame := hqd.sameData
  have hpprev := hsame.sameTree.pprevOf_eq
  have hworse := notWorse_of_active env.toChainEnv hqd.chainActive hqd.active
  constructor
  case shaped =>
    refine ⟨hsame.sameTree.tree hf.tree, hqd.linking, fun h x hx => ?_, fun h x hx hp => ?_⟩
    · obtain ⟨y, hy, hview⟩ := hsame.exists_entry hx
      have hstatus : x.nStatus = y.nStatus := congrArg (·.nStatus) hview.symm
      refine (hf.sound h y hy).congr (congrArg (·.haveData) hstatus)
        (congrArg (·.nTx) hview.symm) (congrArg (·.valid) hstatus)
        (congrArg (·.nChainWork) hview.symm) (hqd.sequence h x hx) fun prev' hprev' => ?_
      have hp : y.pprev = x.pprev := congrArg (·.pprev) hview
      obtain ⟨prev, hprev, hsimilar⟩ := hsame.exists_prev hp hprev'
      exact ⟨prev, hprev, congrArg (·.nChainWork) hsimilar.symm,
        congrArg (·.pprev) hsimilar.symm, (congrArg (·.nStatus.valid) hsimilar).le⟩
    · obtain ⟨y, hy, hview⟩ := hsame.exists_entry hx
      exact hf.root h y hy ((congrArg (·.pprev) hview).trans hp)
  case inactive =>
    intro hempty h x hx
    obtain ⟨y, hy, -⟩ := hsame.exists_entry hx
    exact hf.inactive (hqd.chainActive.symm.trans hempty) h y hy
  case branch =>
    rw [hpprev, hqd.chainActive]
    exact hf.branch
  case active =>
    intro h hmem
    rw [hqd.chainActive] at hmem
    rw [hqd.active h hmem]
    exact hf.active h hmem
  case marked =>
    intro h x hx hfailed
    obtain ⟨y, hy, hview⟩ := hsame.exists_entry hx
    have hstatus : y.nStatus = x.nStatus := congrArg (·.nStatus) hview
    refine (hf.marked h y hy (hstatus ▸ hfailed)).mono hpprev fun a z hz hvalid => ?_
    obtain ⟨z', hz', hsimilar⟩ := hsame.symm.exists_entry hz
    have hstatus' : z'.nStatus = z.nStatus := congrArg (·.nStatus) hsimilar
    exact ⟨z', hz', hstatus' ▸ hvalid⟩
  case candidate =>
    intro h hmem
    obtain ⟨x, hx, hlinked, hgood⟩ := hqd.candidate h hmem
    exact ⟨x, hx, hlinked, (hworse x).trans hgood⟩
  case complete =>
    intro h x hx hlinked hfailed hgood
    exact hqd.complete h x hx hlinked hfailed ((hworse x).symm.trans hgood)

end

section

variable {env : IndexEnv} {st : ChainState} {q : UInt256} {e : CBlockIndex}

section

variable (block : CBlock) (pos : CDiskBlockPos)

theorem recordData_valid {m : BlockMap} (hsound : Sound m e) (hdata : e.nStatus.haveData = false)
    (hfailed : e.nStatus.failed = false) :
    e.nStatus.valid < BLOCK_VALID_TRANSACTIONS ∧
      (recordData block pos e).nStatus.valid = BLOCK_VALID_TRANSACTIONS := by
  have hlow : e.nStatus.valid < BLOCK_VALID_TRANSACTIONS := by
    rw [← not_le, hsound.transactions, ← hsound.data, hdata]
    exact Bool.false_ne_true
  have hfailed' : ({ e.nStatus with haveData := true } : BlockStatus).failed = false := hfailed
  refine ⟨hlow, ?_⟩
  simp only [recordData, BlockStatus.raiseValidity, hfailed', if_pos hlow, Bool.false_eq_true,
    if_false]

theorem sound_recordData {m : BlockMap} {block : CBlock} (hsound : Sound m e)
    (hvtx : block.vtx ≠ []) (hdata : e.nStatus.haveData = false)
    (hfailed : e.nStatus.failed = false) (hzero : e.nChainTx = 0) :
    Sound m (recordData block pos e) := by
  have hr := records_recordData hvtx pos hdata
  have hvalid := (recordData_valid block pos hsound hdata hfailed).2
  constructor
  case data => exact iff_of_true hr.data hr.counted
  case transactions => exact iff_of_true hvalid.ge hr.counted
  case sequence => exact fun _ => hsound.sequence hzero
  case tree => rw [hvalid]; decide
  case scripts => rw [hvalid]; decide
  case work => exact hsound.work
  case level => exact fun _ _ => .inr (.inl hvalid.le)

end

variable {block : CBlock} (pos : CDiskBlockPos) (hc : Consistent env st) (he : st.entry q = some e)
  (hdata : e.nStatus.haveData = false)

include hc he hdata

/-- The block was not linked, so it is not active, and the active blocks keep their entries. -/
theorem Consistent.record_active {h : UInt256} (hmem : h ∈ st.chainActive) :
    (st.modify q (recordData block pos)).entry h = st.entry h := by
  have hne : h ≠ q := by
    rintro rfl
    obtain ⟨x, hx, hlinked, -⟩ := hc.active h hmem
    rw [he] at hx
    cases hx
    exact hlinked (hc.shaped.linking.not_linked he hdata)
  rw [entry_modify, if_neg hne]

theorem Consistent.framed_record (hvtx : block.vtx ≠ []) (hfailed : e.nStatus.failed = false) :
    Framed env (st.modify q (recordData block pos)) := by
  have hs := hc.shaped
  have hzero := hc.shaped.linking.not_linked he hdata
  have hsound := hs.sound q e he
  have hmap := mapBlockIndex_modify he (recordData block pos)
  have hsame : SameTree st.mapBlockIndex (st.modify q (recordData block pos)).mapBlockIndex :=
    hmap ▸ SameUpTo.insert he rfl
  have hcases : ∀ h x, (st.modify q (recordData block pos)).entry h = some x →
      (h = q ∧ x = recordData block pos e) ∨ (h ≠ q ∧ st.entry h = some x) := by
    intro h x hx
    rw [entry, hmap] at hx
    exact lookup_insert_cases hx
  constructor
  case tree => exact hsame.tree hs.tree
  case sound =>
    -- Soundness in the old index passes to the new one: the block only rises in its level.
    have hpass : ∀ y, Sound st.mapBlockIndex y →
        Sound (st.modify q (recordData block pos)).mapBlockIndex y := by
      intro y hy
      refine hy.congr rfl rfl rfl rfl hy.sequence fun prev' hprev' => ?_
      obtain ⟨p, hp, hlookup⟩ := Option.bind_eq_some_iff.mp hprev'
      rcases hcases p prev' hlookup with ⟨rfl, rfl⟩ | ⟨-, hlookup⟩
      · obtain ⟨hlow, hvalid⟩ := recordData_valid block pos hsound hdata hfailed
        refine ⟨e, by rw [CBlockIndex.prev, hp]; exact he, rfl, rfl, ?_⟩
        rw [hvalid]
        exact hlow.le
      · exact ⟨prev', by rw [CBlockIndex.prev, hp]; exact hlookup, rfl, rfl, le_rfl⟩
    intro h x hx
    rcases hcases h x hx with ⟨-, rfl⟩ | ⟨-, hx⟩
    · exact hpass _ (sound_recordData pos hsound hvtx hdata hfailed hzero)
    · exact hpass x (hs.sound h x hx)
  case root =>
    intro h x hx hp
    rcases hcases h x hx with ⟨rfl, rfl⟩ | ⟨-, hx⟩
    · exact hs.root h e he hp
    · exact hs.root h x hx hp
  case inactive =>
    intro hempty h x hx
    rcases hcases h x hx with ⟨rfl, -⟩ | ⟨-, hx⟩
    · exact hc.inactive hempty h e he
    · exact hc.inactive hempty h x hx
  case branch =>
    rw [hsame.pprevOf_eq]
    exact hc.branch
  case active =>
    intro h hmem
    rw [hc.record_active pos he hdata hmem]
    exact hc.active h hmem
  case marked =>
    intro h x hx hmark
    rcases hcases h x hx with ⟨-, rfl⟩ | ⟨-, hx⟩
    · have hkept : (recordData block pos e).nStatus.failed = e.nStatus.failed := by
        simp only [recordData, BlockStatus.raiseValidity]
        split_ifs <;> rfl
      rw [hkept, hfailed] at hmark
      cases hmark
    · refine (hc.marked h x hx hmark).mono hsame.pprevOf_eq fun a y hy hvalid => ?_
      by_cases haq : a = q
      · subst haq
        rw [show st.mapBlockIndex.lookup a = some e from he] at hy
        cases hy
        rw [BlockStatus.failed, hvalid] at hfailed
        cases hfailed
      · exact ⟨y, (entry_modify st q a _).trans (by rw [if_neg haq]; exact hy), hvalid⟩

/-- Before the first turn the block is not linked, so the candidates are the old ones. -/
theorem Consistent.queued_record (hf : Framed env (st.modify q (recordData block pos)))
    {unlinked : List (UInt256 × UInt256)} {queue : List UInt256}
    (hl : Linking (st.modify q (recordData block pos)).mapBlockIndex unlinked queue) :
    Queued env (st.modify q (recordData block pos))
      { st.modify q (recordData block pos) with mapBlocksUnlinked := unlinked } queue := by
  have hzero := hc.shaped.linking.not_linked he hdata
  have hworse := notWorse_of_active env.toChainEnv
    (show (st.modify q (recordData block pos)).chainActive = st.chainActive from rfl)
    fun h hmem => hc.record_active pos he hdata hmem
  have hentry := fun h => entry_modify st q h (recordData block pos)
  refine ⟨hl, SameUpTo.refl _, rfl, fun _ _ => rfl, fun h x hx => (hf.sound h x hx).sequence,
    ?_, ?_⟩
  · intro h hmem
    obtain ⟨x, hx, hlinked, hgood⟩ := hc.candidate h hmem
    have hne : h ≠ q := by
      rintro rfl
      rw [he] at hx
      cases hx
      exact hlinked hzero
    exact ⟨x, (hentry h).trans (by rw [if_neg hne, hx]), hlinked, (hworse x).trans hgood⟩
  · intro h x hx hlinked hunfailed hgood
    have hx' := (hentry h).symm.trans hx
    split_ifs at hx' with hh
    · rw [he] at hx'
      cases hx'
      exact absurd rfl hlinked
    · exact hc.complete h x hx' hlinked hunfailed ((hworse x).symm.trans hgood)

theorem Consistent.receivedBlockTransactions (hvtx : block.vtx ≠ [])
    (hfailed : e.nStatus.failed = false)
    (hparent : ∀ prev, e.prev st.mapBlockIndex = some prev →
      prev.nChainTx ≠ 0 ∨ prev.nStatus.failed = false) :
    Consistent env (receivedBlockTransactions env.toChainEnv st block q pos) := by
  have hf := hc.framed_record pos he hdata hvtx hfailed
  refine Queued.consistent hf (receivedBlockTransactions_induct
    hc.shaped.tree hc.shaped.linking he (records_recordData hvtx pos hdata) ?_
    (fun _ _ hl => hc.queued_record pos he hdata hf hl) (fun _ _ hqd => hqd.linking) ?_)
  · intro p prev hlookup hp hzero
    have hprev : e.prev st.mapBlockIndex = some prev := by
      rw [CBlockIndex.prev, hp]
      exact hlookup
    rw [BlockStatus.isValid, (hparent prev hprev).resolve_left fun hne => hne hzero]
    exact decide_eq_true (hc.shaped.sound p prev hlookup).tree
  · intro st' h queue hqd
    refine hqd.turn hf.tree fun a ha => ?_
    obtain ⟨x, hx, hxlinked, -⟩ := hf.active a ha
    exact ⟨x, hx, hxlinked⟩

end

end Passion.Chain
