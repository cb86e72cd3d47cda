import Passion.Chain.Linking

/-!
# Indexes that grow while blocks arrive

The events are those of `AcceptBlock`: a header is added, then the data of its block is received.
`Event.Allowed` is what the callers have checked by then. `GetPrevIndex` has found the parent of
every block but the genesis block, `CheckBlock` has refused blocks without transactions, and
`AcceptBlock` has returned if the data is there already.

Every index that such a run reaches is `Indexed`: the tree is well formed, every entry has the hash
of its header, and the fields that accumulate along the chain satisfy their equations. The totals
over received data satisfy theirs (`Linking`).
-/

namespace Passion.Chain

open Lib Lib.Map CBlockIndex BlockStatus List

/-! ## Indexed maps -/

/-- The header `CDiskBlockIndex::GetBlockHash` puts together again. -/
def StoredIndex.header (e : StoredIndex) : CBlockHeader where
  nVersion := e.nVersion
  hashPrevBlock := e.pprev.getD 0
  hashMerkleRoot := e.hashMerkleRoot
  nTime := e.nTime
  nBits := e.nBits
  nNonce := e.nNonce
  nAccumulatorCheckpoint := if hasAccumulator e.nVersion then e.nAccumulatorCheckpoint else 0
  hashFinalSaplingRoot := if hasSaplingRoot e.nVersion then e.hashFinalSaplingRoot else 0

def Accumulated (m : BlockMap) (e : CBlockIndex) : Prop :=
  e.nChainWork = (e.prev m).elim 0 (·.nChainWork) + getBlockProof e.nBits ∧
    e.nTimeMax = (e.prev m).elim e.nTime fun prev => max prev.nTimeMax e.nTime

structure Indexed (env : ChainEnv) (m : BlockMap) : Prop extends Tree m where
  ne_zero : ∀ h e, m.lookup h = some e → h ≠ 0
  header : ∀ h e, m.lookup h = some e → env.hashHeader e.header = h
  accumulated : ∀ h e, m.lookup h = some e → Accumulated m e

section

variable {env : ChainEnv} {m m' : BlockMap}

theorem accumulated_iff_of_fixed {e : CBlockIndex} : Accumulated m e ↔
      e.fixed.nChainWork =
          ((e.prev m).map fixed).elim 0 (·.nChainWork) + getBlockProof e.fixed.nBits ∧
        e.fixed.nTimeMax = ((e.prev m).map fixed).elim e.fixed.nTime
          fun prev => max prev.nTimeMax e.fixed.nTime := by
  cases hp : e.prev m <;> simp [Accumulated, hp, fixed]

theorem SameTree.indexed (hs : SameTree m m') (hi : Indexed env m) : Indexed env m' := by
  refine { toTree := hs.tree hi.toTree, ne_zero := ?_, header := ?_, accumulated := ?_ }
  · intro h e' he'
    obtain ⟨e, he, -⟩ := hs.exists_entry he'
    exact hi.ne_zero h e he
  · intro h e' he'
    obtain ⟨e, he, hfixed⟩ := hs.exists_entry he'
    have hheader : e.header = e'.header := congrArg (fun x => x.toStoredIndex.header) hfixed
    rw [← hheader]
    exact hi.header h e he
  · intro h e' he'
    obtain ⟨e, he, hfixed⟩ := hs.exists_entry he'
    have hp : e.pprev = e'.pprev := congrArg (·.pprev) hfixed
    have hacc := accumulated_iff_of_fixed.mp (hi.accumulated h e he)
    rw [accumulated_iff_of_fixed, hs.prev_eq hp, ← hfixed]
    exact hacc

end

/-! ## Adding a header -/

section

variable {env : ChainEnv} {m : BlockMap} {block : CBlock}

/-- What `newEntry` takes from its block and its parent. -/
structure IsNew (env : ChainEnv) (m : BlockMap) (block : CBlock) (e : CBlockIndex) : Prop where
  hash_eq : e.hash = block.getHash env
  parent : ∀ p, e.pprev = some p → p = block.hashPrevBlock ∧
    ∃ pe, m.lookup p = some pe ∧ e.nHeight = pe.nHeight + 1 ∧
      e.pskip = pe.getAncestor m (getSkipHeight e.nHeight)
  root : e.pprev = none → m.lookup block.hashPrevBlock = none ∧ e.nHeight = 0 ∧ e.pskip = none
  header : e.header =
    { block.toCBlockHeader.serialized with hashPrevBlock := e.pprev.getD 0 }
  accumulated : Accumulated m e
  noData : e.nStatus.haveData = false
  noTotals : e.nChainTx = 0 ∧ e.nChainSaplingValue = none
  status : e.nStatus = { valid := BLOCK_VALID_TREE }

theorem isNew_newEntry (ht : Tree m) : IsNew env m block (newEntry env m block) := by
  have hhash := ht.hash_eq block.hashPrevBlock
  cases hprev : m.lookup block.hashPrevBlock
  all_goals
    constructor <;>
      simp [newEntry, accumulate, linkToParent, hprev, ofBlock, StoredIndex.header,
        CBlockHeader.serialized, Accumulated, CBlockIndex.prev, raiseValidity,
        failed, BLOCK_VALID_TREE, hhash]
    intro hno hyes
    rw [hno] at hyes
    cases hyes

variable {e x : CBlockIndex} {q h : UInt256}

theorem Tree.pprev_ne_of_none (ht : Tree m) (hq : m.lookup q = none) (hx : m.lookup h = some x) :
    x.pprev ≠ some q := by
  intro hp
  obtain ⟨pe, hpe, -⟩ := ht.parent h x q hx hp
  rw [hq] at hpe
  cases hpe

theorem IsNew.pprev_ne (hnew : IsNew env m block e) (hq : m.lookup q = none) :
    e.pprev ≠ some q := by
  intro hp
  obtain ⟨-, pe, hpe, -⟩ := hnew.parent q hp
  rw [hq] at hpe
  cases hpe

theorem IsNew.joins (hnew : IsNew env m block e) : Joins m e where
  parent p hp := by
    obtain ⟨-, pe, hpe, hheight, -⟩ := hnew.parent p hp
    exact ⟨pe, hpe, hheight⟩
  root hp := (hnew.root hp).2.1
  skip := by
    cases hp : e.pprev with
    | none => simp [buildSkip, CBlockIndex.prev, hp, (hnew.root hp).2.2]
    | some p =>
      obtain ⟨-, pe, hpe, -, hskip⟩ := hnew.parent p hp
      simp [buildSkip, CBlockIndex.prev, hp, hpe, hskip]

theorem IsNew.indexed (hi : Indexed env m) (hnew : IsNew env m block e)
    (hq : m.lookup e.hash = none) (hne : e.hash ≠ 0)
    (hprev : block.hashPrevBlock = 0 ∨ ∃ pe, m.lookup block.hashPrevBlock = some pe) :
    Indexed env (m.insert e.hash e) := by
  refine { toTree := hi.insert hnew.joins hq, ne_zero := ?_, header := ?_, accumulated := ?_ }
  · intro h x hx
    rcases lookup_insert_cases hx with ⟨rfl, rfl⟩ | ⟨-, hx⟩
    · exact hne
    · exact hi.ne_zero h x hx
  · intro h x hx
    rcases lookup_insert_cases hx with ⟨rfl, rfl⟩ | ⟨-, hx⟩
    · have hsame : x.pprev.getD 0 = block.hashPrevBlock := by
        cases hp : x.pprev with
        | some p => exact (hnew.parent p hp).1
        | none =>
          rcases hprev with hzero | ⟨pe, hpe⟩
          · exact hzero.symm
          · rw [(hnew.root hp).1] at hpe
            cases hpe
      rw [hnew.header, hsame, hnew.hash_eq]
      rfl
    · exact hi.header h x hx
  · intro h x hx
    rcases lookup_insert_cases hx with ⟨rfl, rfl⟩ | ⟨-, hx⟩
    · rw [Accumulated, prev_insert (hnew.pprev_ne hq)]
      exact hnew.accumulated
    · rw [Accumulated, prev_insert (hi.pprev_ne_of_none hq hx)]
      exact hi.accumulated h x hx

theorem IsNew.linking (ht : Tree m) {unlinked : List (UInt256 × UInt256)}
    (hl : Linking m unlinked []) (hnew : IsNew env m block e) (hq : m.lookup e.hash = none) :
    Linking (m.insert e.hash e) unlinked [] := by
  constructor
  · intro h x hx _
    rcases lookup_insert_cases hx with ⟨rfl, rfl⟩ | ⟨-, hx⟩
    · exact settled_of_unlinked (.inl hnew.noData) hnew.noTotals.1 hnew.noTotals.2
    · rw [settled_insert (ht.pprev_ne_of_none hq hx)]
      exact hl.settled h x hx not_mem_nil
  · intro h hmem
    cases hmem
  · exact nodup_nil
  · intro p c
    rw [hl.mem_unlinked]
    constructor
    · rintro ⟨x, pe, hx, hdata, hp, hpe, hzero⟩
      exact ⟨x, pe, lookup_insert_old hq hx, hdata, hp, lookup_insert_old hq hpe, hzero⟩
    · rintro ⟨x, pe, hx, hdata, hp, hpe, hzero⟩
      rcases lookup_insert_cases hx with ⟨rfl, rfl⟩ | ⟨-, hold⟩
      · rw [hnew.noData] at hdata
        cases hdata
      · rcases lookup_insert_cases hpe with ⟨rfl, -⟩ | ⟨-, hpe⟩
        · exact absurd hp (ht.pprev_ne_of_none hq hold)
        · exact ⟨x, pe, hold, hdata, hp, hpe, hzero⟩
  · exact hl.unlinked_nodup
  · intro h x hx hdata
    rcases lookup_insert_cases hx with ⟨rfl, rfl⟩ | ⟨-, hx⟩
    · rw [hnew.noData] at hdata
      cases hdata
    · exact hl.counted h x hx hdata

end

/-! ## Receiving the data of a block -/

section

variable {m : BlockMap} {unlinked : List (UInt256 × UInt256)} {q : UInt256} {e e' : CBlockIndex}

theorem mapBlockIndex_modify {st : ChainState} (he : st.entry q = some e)
    (f : CBlockIndex → CBlockIndex) :
    (st.modify q f).mapBlockIndex = st.mapBlockIndex.insert q (f e) := by
  simp [ChainState.modify, Map.modify, show st.mapBlockIndex.lookup q = some e from he, put]

/-- An entry that is not linked before and after a change gives its children nothing. -/
theorem settled_insert_unlinked (he : m.lookup q = some e) (h : e.nChainTx = 0)
    (h' : e'.nChainTx = 0) (x : CBlockIndex) : Settled (m.insert q e') x ↔ Settled m x := by
  by_cases hp : x.pprev = some q
  · have hbefore : parentLinked m x = false := by
      simp [parentLinked, CBlockIndex.prev, hp, he, h]
    have hafter : parentLinked (m.insert q e') x = false := by
      simp [parentLinked, prev_insert_self hp, h']
    simp [Settled, derivedChainTx, derivedSapling, hbefore, hafter]
  · exact settled_insert hp

/-- What recording the data of a block changes. -/
structure Records (e e' : CBlockIndex) : Prop where
  before : e.nStatus.haveData = false
  fixed : e'.fixed = e.fixed
  data : e'.nStatus.haveData = true
  noTotals : e'.nChainTx = 0 ∧ e'.nChainSaplingValue = none
  counted : 0 < e'.nTx

theorem records_recordData {block : CBlock} (hvtx : block.vtx ≠ []) (pos : CDiskBlockPos)
    (hdata : e.nStatus.haveData = false) : Records e (recordData block pos e) where
  before := hdata
  fixed := rfl
  data := by
    simp only [recordData, raiseValidity]
    split_ifs <;> rfl
  noTotals := ⟨rfl, rfl⟩
  counted := length_pos_iff.mpr hvtx

theorem Linking.counted_record (hl : Linking m unlinked []) (hr : Records e e') {h : UInt256}
    {x : CBlockIndex} (hx : (m.insert q e').lookup h = some x) (hdata : x.nStatus.haveData = true) :
    0 < x.nTx := by
  rcases lookup_insert_cases hx with ⟨-, rfl⟩ | ⟨-, hx⟩
  · exact hr.counted
  · exact hl.counted h x hx hdata

section

variable (hl : Linking m unlinked []) (he : m.lookup q = some e)

include hl he

theorem Linking.not_linked (hdata : e.nStatus.haveData = false) : e.nChainTx = 0 :=
  (hl.settled q e he not_mem_nil).eq_zero (.inl hdata)

variable (hr : Records e e')

include hr

theorem Linking.unlinked_record (p c : UInt256) :
    (∃ x pe, (m.insert q e').lookup c = some x ∧ x.nStatus.haveData = true ∧ x.pprev = some p ∧
        (m.insert q e').lookup p = some pe ∧ pe.nChainTx = 0) ↔
      (p, c) ∈ unlinked ∨
        (c = q ∧ e.pprev = some p ∧ ∃ pe, m.lookup p = some pe ∧ pe.nChainTx = 0) := by
  have hpprev : e'.pprev = e.pprev := congrArg (·.pprev) hr.fixed
  have hzero := hl.not_linked he hr.before
  -- A parent is linked after the change exactly if it was before.
  have hparent : (∃ pe, (m.insert q e').lookup p = some pe ∧ pe.nChainTx = 0) ↔
      ∃ pe, m.lookup p = some pe ∧ pe.nChainTx = 0 := by
    by_cases hpq : p = q
    · subst hpq
      simp [he, hzero, hr.noTotals.1]
    · simp [hpq]
  constructor
  · rintro ⟨x, pe, hx, hdata, hp, hpe, hpe0⟩
    have hpe' := hparent.mp ⟨pe, hpe, hpe0⟩
    rcases lookup_insert_cases hx with ⟨rfl, rfl⟩ | ⟨-, hx⟩
    · exact .inr ⟨rfl, hpprev ▸ hp, hpe'⟩
    · obtain ⟨pe', hpe', hpe0'⟩ := hpe'
      exact .inl ((hl.mem_unlinked p c).mpr ⟨x, pe', hx, hdata, hp, hpe', hpe0'⟩)
  · rintro (hmem | ⟨rfl, hp, hpe⟩)
    · obtain ⟨x, pe, hx, hdata, hp, hpe, hpe0⟩ := (hl.mem_unlinked p c).mp hmem
      have hne : c ≠ q := by
        rintro rfl
        rw [he] at hx
        cases hx
        rw [hr.before] at hdata
        cases hdata
      obtain ⟨pe', hpe', hpe0'⟩ := hparent.mpr ⟨pe, hpe, hpe0⟩
      exact ⟨x, pe', by rw [lookup_insert', if_neg hne, hx], hdata, hp, hpe', hpe0'⟩
    · obtain ⟨pe', hpe', hpe0'⟩ := hparent.mpr hpe
      exact ⟨e', pe', by rw [lookup_insert', if_pos rfl], hr.data, hpprev.trans hp, hpe', hpe0'⟩

theorem Linking.settled_record {h : UInt256} {x : CBlockIndex}
    (hx : (m.insert q e').lookup h = some x) (hne : h ≠ q) : Settled (m.insert q e') x := by
  rw [settled_insert_unlinked he (hl.not_linked he hr.before) hr.noTotals.1]
  rcases lookup_insert_cases hx with ⟨heq, -⟩ | ⟨-, hx⟩
  · exact absurd heq hne
  · exact hl.settled h x hx not_mem_nil

theorem Linking.record_linked (ht : Tree m) (hlinked : parentLinked m e = true) :
    Linking (m.insert q e') unlinked [q] := by
  have hpprev : e'.pprev = e.pprev := congrArg (·.pprev) hr.fixed
  have hself : e'.pprev ≠ some q := hpprev ▸ ht.pprev_ne_self he
  have hlinked' : parentLinked m e' = true := by
    rw [parentLinked, CBlockIndex.prev, hpprev]
    exact hlinked
  constructor
  · intro h x hx hnot
    exact hl.settled_record he hr hx fun heq => hnot (by simp [heq])
  · intro h hmem
    obtain rfl : h = q := by simpa using hmem
    exact ⟨e', by rw [lookup_insert', if_pos rfl], hr.data,
      by rw [parentLinked_insert hself]; exact hlinked', hr.noTotals.1⟩
  · exact nodup_singleton q
  · intro p c
    rw [hl.unlinked_record he hr]
    constructor
    · exact .inl
    · rintro (hmem | ⟨rfl, hp, pe, hpe, hpe0⟩)
      · exact hmem
      · simp [parentLinked, CBlockIndex.prev, hp, hpe, hpe0] at hlinked
  · exact hl.unlinked_nodup
  · intro h x hx hdata
    exact hl.counted_record hr hx hdata

theorem Linking.record_unlinked (ht : Tree m) {prev : CBlockIndex} (hprev : e.prev m = some prev)
    (hunlinked : prev.nChainTx = 0) :
    Linking (m.insert q e') (unlinked ++ [(prev.hash, q)]) [] := by
  obtain ⟨p, hp, hlookup⟩ := Option.bind_eq_some_iff.mp hprev
  obtain rfl : prev.hash = p := ht.hash_eq p prev hlookup
  have hpprev : e'.pprev = e.pprev := congrArg (·.pprev) hr.fixed
  have hself : e'.pprev ≠ some q := hpprev ▸ ht.pprev_ne_self he
  constructor
  · intro h x hx _
    by_cases hhq : h = q
    · rcases lookup_insert_cases hx with ⟨-, rfl⟩ | ⟨hne, -⟩
      · refine settled_of_unlinked (.inr ?_) hr.noTotals.1 hr.noTotals.2
        rw [parentLinked_insert hself]
        simp [parentLinked, CBlockIndex.prev, hpprev, hp, hlookup, hunlinked]
      · exact absurd hhq hne
    · exact hl.settled_record he hr hx hhq
  · intro h hmem
    cases hmem
  · exact nodup_nil
  · intro p c
    rw [hl.unlinked_record he hr, mem_append, mem_singleton]
    refine or_congr_right ⟨?_, ?_⟩
    · rintro ⟨⟩
      exact ⟨rfl, hp, prev, hlookup, hunlinked⟩
    · rintro ⟨rfl, hp', -⟩
      cases hp.symm.trans hp'
      rfl
  · refine nodup_append_comm.mpr (nodup_cons.mpr ⟨fun hmem => ?_, hl.unlinked_nodup⟩)
    obtain ⟨x, -, hx, hdata, -⟩ := (hl.mem_unlinked prev.hash q).mp hmem
    rw [he] at hx
    cases hx
    rw [hr.before] at hdata
    cases hdata
  · intro h x hx hdata
    exact hl.counted_record hr hx hdata

end

/-- What holds once the data is recorded, and is kept by every turn of the queue, holds when the
queue is empty. -/
theorem receivedBlockTransactions_induct {env : ChainEnv} {st : ChainState} {block : CBlock}
    {pos : CDiskBlockPos} {P : ChainState → List UInt256 → Prop} (ht : Tree st.mapBlockIndex)
    (hl : Linking st.mapBlockIndex st.mapBlocksUnlinked []) (he : st.entry q = some e)
    (hr : Records e (recordData block pos e))
    (hvalid : ∀ p prev, st.entry p = some prev → e.pprev = some p → prev.nChainTx = 0 →
      prev.nStatus.isValid BLOCK_VALID_TREE = true)
    (hstart : ∀ unlinked queue,
      Linking (st.modify q (recordData block pos)).mapBlockIndex unlinked queue →
      P { st.modify q (recordData block pos) with mapBlocksUnlinked := unlinked } queue)
    (hlinking : ∀ st' queue, P st' queue → Linking st'.mapBlockIndex st'.mapBlocksUnlinked queue)
    (hturn : ∀ st' h queue, P st' (h :: queue) →
      P (linkStep env st' h) (queue ++ waiting st' h)) :
    P (receivedBlockTransactions env st block q pos) [] := by
  have hmap := mapBlockIndex_modify he (recordData block pos)
  rw [receivedBlockTransactions, he]
  by_cases hlinked : parentLinked st.mapBlockIndex e = true
  · -- The queue links the block and all that wait for it.
    simp only [hlinked]
    refine linkQueue_induct ?_ hturn _ _ _
      (hstart _ _ (hmap ▸ hl.record_linked he hr ht hlinked)) ?_
    · intro st' h queue hP
      obtain ⟨x, hx, -⟩ := (hlinking _ _ hP).queued h mem_cons_self
      exact ⟨x, hx⟩
    · rw [length_singleton, add_comm]
  · cases hprev : e.prev st.mapBlockIndex with
    | none => simp [parentLinked, hprev] at hlinked
    | some prev =>
      obtain ⟨p, hp, hlookup⟩ := Option.bind_eq_some_iff.mp hprev
      have hzero : prev.nChainTx = 0 := by simpa [parentLinked, hprev] using hlinked
      simp only [hlinked, hprev, hvalid p prev hlookup hp hzero]
      exact hstart _ _ (hmap ▸ hl.record_unlinked he hr ht hprev hzero)

end

/-! ## Runs -/

inductive Event where
  | add (block : CBlock)
  | receive (block : CBlock) (pos : CDiskBlockPos)

/-- What the callers have checked. No header may hash to the null hash, which stands for no block
wherever hashes are stored. -/
def Event.Allowed (env : ChainEnv) (st : ChainState) : Event → Prop
  | .add block => block.getHash env ≠ 0 ∧
      (block.hashPrevBlock = 0 ∨ ∃ prev, st.entry block.hashPrevBlock = some prev)
  | .receive block _ => block.vtx ≠ [] ∧
      ∃ e, st.entry (block.getHash env) = some e ∧ e.nStatus.haveData = false

def Event.apply (env : ChainEnv) (st : ChainState) : Event → ChainState
  | .add block => addToBlockIndex env st block
  | .receive block pos => receivedBlockTransactions env st block (block.getHash env) pos

/-- The states a node reaches while blocks arrive. -/
inductive Arrives (env : ChainEnv) : ChainState → Prop where
  | init : Arrives env .init
  | step {st : ChainState} (event : Event) : Arrives env st → event.Allowed env st →
      Arrives env (event.apply env st)

/-- What holds of every such state. No block has failed, so the status of every entry is at least
that of a header. -/
structure Grown (env : ChainEnv) (st : ChainState) : Prop where
  indexed : Indexed env st.mapBlockIndex
  linking : Linking st.mapBlockIndex st.mapBlocksUnlinked []
  valid : ∀ h e, st.entry h = some e → e.nStatus.isValid BLOCK_VALID_TREE = true

theorem grown_init (env : ChainEnv) : Grown env .init := by
  have hempty : ∀ h e,
      ChainState.init.mapBlockIndex.lookup h ≠ some e := by
    intro h e he
    simp [ChainState.init] at he
  refine ⟨⟨⟨?_, ?_, ?_, ?_⟩, ?_, ?_, ?_⟩, ⟨?_, ?_, ?_, ?_, ?_, ?_⟩, ?_⟩
  all_goals first
    | exact fun h e he => absurd he (hempty h e)
    | exact fun h e p he => absurd he (hempty h e)
    | skip
  · intro h hmem
    cases hmem
  · exact nodup_nil
  · intro p c
    constructor
    · intro hmem
      cases hmem
    · rintro ⟨e, -, he, -⟩
      exact absurd he (hempty c e)
  · exact nodup_nil

section

variable {env : ChainEnv} {st : ChainState} {block : CBlock}

theorem Grown.add (hg : Grown env st) (hallowed : Event.Allowed env st (.add block)) :
    Grown env (addToBlockIndex env st block) := by
  obtain ⟨hne, hprev⟩ := hallowed
  cases hentry : st.entry (block.getHash env) with
  | some e =>
    rw [addToBlockIndex, hentry]
    exact hg
  | none =>
    have hnew : IsNew env st.mapBlockIndex block (newEntry env st.mapBlockIndex block) :=
      isNew_newEntry hg.indexed.toTree
    have hq : st.mapBlockIndex.lookup (newEntry env st.mapBlockIndex block).hash = none := by
      rw [hnew.hash_eq]
      exact hentry
    rw [addToBlockIndex, hentry]
    refine ⟨hnew.indexed hg.indexed hq (hnew.hash_eq ▸ hne) hprev,
      hnew.linking hg.indexed.toTree hg.linking hq, ?_⟩
    intro h x hx
    rcases lookup_insert_cases hx with ⟨-, rfl⟩ | ⟨-, hx⟩
    · rw [hnew.status]
      rfl
    · exact hg.valid h x hx

theorem isValid_raiseValidity {s : BlockStatus} {n : Nat} (h : s.isValid n = true) (nUpTo : Nat) :
    (s.raiseValidity nUpTo).isValid n = true := by
  simp only [isValid, Bool.and_eq_true, decide_eq_true_eq] at h ⊢
  simp only [raiseValidity]
  split_ifs with hfailed hlt
  · exact h
  · exact ⟨h.1, h.2.trans hlt.le⟩
  · exact h

theorem Grown.receive (hg : Grown env st) {pos : CDiskBlockPos}
    (hallowed : Event.Allowed env st (.receive block pos)) :
    Grown env (receivedBlockTransactions env st block (block.getHash env) pos) := by
  obtain ⟨hvtx, e, he, hdata⟩ := hallowed
  set q := block.getHash env
  have hr := records_recordData hvtx pos hdata
  have hmap := mapBlockIndex_modify he (recordData block pos)
  have hsame : SameTree st.mapBlockIndex (st.modify q (recordData block pos)).mapBlockIndex :=
    hmap ▸ SameUpTo.insert he hr.fixed
  obtain ⟨hlinking, hdata'⟩ := receivedBlockTransactions_induct
    (P := fun st' queue => Linking st'.mapBlockIndex st'.mapBlocksUnlinked queue ∧
      SameData (st.modify q (recordData block pos)).mapBlockIndex st'.mapBlockIndex)
    hg.indexed.toTree hg.linking he hr (fun p prev hp _ _ => hg.valid p prev hp)
    (fun _ _ hl => ⟨hl, SameUpTo.refl _⟩) (fun _ _ hP => hP.1) (fun st' h queue hP => by
      obtain ⟨hl, hs⟩ := hP
      obtain ⟨x, hx, -⟩ := hl.queued h mem_cons_self
      obtain ⟨hmap', hunlinked⟩ := linkStep_eq env (show st'.entry h = some x from hx)
      rw [hmap', hunlinked]
      exact ⟨hl.turn (hs.sameTree.tree (hsame.tree hg.indexed.toTree)) hx _,
        hs.trans (SameUpTo.insert hx rfl)⟩)
  refine ⟨SameTree.indexed (hsame.trans hdata'.sameTree) hg.indexed, hlinking, ?_⟩
  intro h x hx
  obtain ⟨y, hy, hview⟩ := hdata'.exists_entry hx
  have hstatus : y.nStatus = x.nStatus := congrArg (·.nStatus) hview
  rw [← hstatus]
  rw [hmap] at hy
  rcases lookup_insert_cases hy with ⟨-, rfl⟩ | ⟨-, hy⟩
  · have hflag : { e.nStatus with haveData := true }.isValid BLOCK_VALID_TREE = true :=
      hg.valid q e he
    exact isValid_raiseValidity hflag BLOCK_VALID_TRANSACTIONS
  · exact hg.valid h y hy

end

/-- **Every state reached while blocks arrive is grown.** -/
theorem Arrives.grown {env : ChainEnv} {st : ChainState} (h : Arrives env st) : Grown env st := by
  induction h with
  | init => exact grown_init env
  | step event _ hallowed ih =>
    cases event with
    | add block => exact ih.add hallowed
    | receive block pos => exact ih.receive hallowed

end Passion.Chain
