import Passion.Chain.Growth

/-!
# The block index over a restart

The node writes every entry as a `CDiskBlockIndex` and, after a restart, rebuilds the index in two
passes. `LoadBlockIndexGuts` makes an entry for every record and looks up its parent by hash.
`LoadBlockIndexDB` then walks the entries from the lowest height up and computes the fields that are
in memory only.

**Theorem (`reload_preserves_iff`).** The index comes back as it was exactly if

* every block at a height without proof of stake passes `CheckProofOfWork`, or else the load is
  given up, and
* every block of a version before 8 that is linked has moved no value in or out of the Sapling
  pool: the record of such a block has no `nSaplingValue`.

The proof compares the two computations entry by entry. The walk finds the parent of an entry done
and equal to what it was, and the equations of `Accumulated` and `Settled` then give the entry.
-/

namespace Passion.Chain

open Lib Lib.Map Option

/-! ## Records -/

/-- A record as it is read back; what has not been written has the value of a new object. -/
structure CDiskBlockIndex extends StoredIndex where
  hashPrev : UInt256

/-- `CDiskBlockIndex(pindex)`, written and read. -/
def CBlockIndex.toDisk (e : CBlockIndex) : CDiskBlockIndex where
  hash := 0
  pprev := none
  hashPrev := e.pprev.getD 0
  nHeight := e.nHeight
  nStatus := e.nStatus
  nTx := e.nTx
  nFile := if e.nStatus.haveData || e.nStatus.haveUndo then e.nFile else 0
  nDataPos := if e.nStatus.haveData then e.nDataPos else 0
  nUndoPos := if e.nStatus.haveUndo then e.nUndoPos else 0
  nFlags := e.nFlags
  nVersion := e.nVersion
  vStakeModifier := e.vStakeModifier
  hashMerkleRoot := e.hashMerkleRoot
  nTime := e.nTime
  nBits := e.nBits
  nNonce := e.nNonce
  nAccumulatorCheckpoint := if hasAccumulator e.nVersion then e.nAccumulatorCheckpoint else 0
  hashFinalSaplingRoot := if hasSaplingRoot e.nVersion then e.hashFinalSaplingRoot else 0
  nSaplingValue := if hasSaplingRoot e.nVersion then e.nSaplingValue else 0

def CDiskBlockIndex.getBlockHash (env : ChainEnv) (d : CDiskBlockIndex) : UInt256 :=
  env.hashHeader { d.toStoredIndex.header with hashPrevBlock := d.hashPrev }

def written (m : BlockMap) (order : List UInt256) : List CDiskBlockIndex :=
  order.filterMap fun h => (m.lookup h).map CBlockIndex.toDisk

/-! ## `LoadBlockIndexGuts` -/

/-- `consensus.powLimit`, the same on every network. -/
def powLimit : UInt256 := BitVec.allOnes 256 >>> 20

def checkProofOfWork (env : ChainEnv) (hash : UInt256) (nBits : Nat) : Bool :=
  if env.params.network = .regtest then true
  else
    let (bnTarget, fNegative, fOverflow) := setCompact nBits
    if fNegative || bnTarget == 0 || fOverflow || decide (powLimit < bnTarget) then false
    else !decide (bnTarget < hash)

/-- `InsertBlockIndex`: the entry of a hash, made if there is none. The null hash has no entry. -/
def insertBlockIndex (m : BlockMap) (hash : UInt256) : BlockMap × Option UInt256 :=
  if hash = 0 then (m, none) else (m.insertNew hash { hash := hash }, some hash)

def fillEntry (d : CDiskBlockIndex) (pprev : Option UInt256) (e : CBlockIndex) : CBlockIndex :=
  { e with toStoredIndex := { d.toStoredIndex with hash := e.hash, pprev := pprev } }

/-- One record. A record with the null hash has no entry to write to, and the node stops. -/
def loadRecord (env : ChainEnv) (m : BlockMap) (d : CDiskBlockIndex) : Option BlockMap :=
  let (m, pindexNew) := insertBlockIndex m (d.getBlockHash env)
  let (m, pprev) := insertBlockIndex m d.hashPrev
  match pindexNew with
  | none => none
  | some hash =>
    if !env.params.networkUpgradeActive d.nHeight .pos && !checkProofOfWork env hash d.nBits then
      none
    else some (m.modify hash (fillEntry d pprev))

def loadBlockIndexGuts (env : ChainEnv) (db : List CDiskBlockIndex) : Option BlockMap :=
  db.foldlM (loadRecord env) ∅

/-! ## `LoadBlockIndexDB` -/

/-- `vSortedByHeight`; entries of one height are in the order of their addresses. -/
def sortedByHeight (env : ChainEnv) (m : BlockMap) : List UInt256 :=
  m.keys.mergeSort fun a b => decide (heightOf m a < heightOf m b) ||
    (heightOf m a == heightOf m b && decide (env.address a ≤ env.address b))

def loadTotals (m : BlockMap) (e : CBlockIndex) : CBlockIndex :=
  if e.nStatus.haveData then
    match e.prev m with
    | some prev =>
      if prev.nChainTx ≠ 0 then
        { e with
          nChainTx := prev.nChainTx + e.nTx
          nChainSaplingValue := prev.nChainSaplingValue.map (· + e.nSaplingValue) }
      else { e with nChainTx := 0, nChainSaplingValue := none }
    | none => { e with nChainTx := e.nTx, nChainSaplingValue := some e.nSaplingValue }
  else e

def loadDerived (m : BlockMap) (e : CBlockIndex) : CBlockIndex :=
  let e := { e with
    nChainWork := (e.prev m).elim 0 (·.nChainWork) + getBlockProof e.nBits
    nTimeMax := (e.prev m).elim e.nTime fun prev => max prev.nTimeMax e.nTime }
  let e := loadTotals m e
  { e with pskip := if e.pprev.isSome then e.buildSkip m else e.pskip }

def loadEntry (env : ChainEnv) (st : ChainState) (hash : UInt256) : ChainState :=
  match st.entry hash with
  | none => st
  | some e =>
    let e := loadDerived st.mapBlockIndex e
    let st := { st with mapBlockIndex := st.mapBlockIndex.insert hash e }
    let best (pindex : Option UInt256) (better : CBlockIndex → Bool) : Option UInt256 :=
      if (pindex.bind st.entry).all better then some hash else pindex
    { st with
      mapBlocksUnlinked :=
        match e.prev st.mapBlockIndex with
        | some prev =>
          if e.nStatus.haveData && prev.nChainTx == 0 then
            st.mapBlocksUnlinked ++ [(prev.hash, hash)]
          else st.mapBlocksUnlinked
        | none => st.mapBlocksUnlinked
      setBlockIndexCandidates :=
        if e.nStatus.isValid BLOCK_VALID_TRANSACTIONS && (e.nChainTx != 0 || e.pprev.isNone) then
          insertCandidate hash st.setBlockIndexCandidates
        else st.setBlockIndexCandidates
      pindexBestInvalid :=
        if e.nStatus.failed then
          best st.pindexBestInvalid fun old => decide (old.nChainWork < e.nChainWork)
        else st.pindexBestInvalid
      pindexBestHeader :=
        if e.nStatus.isValid BLOCK_VALID_TREE then
          best st.pindexBestHeader fun old => workLess env old e
        else st.pindexBestHeader }

/-- The index after a restart. The files of the blocks are taken to be there, and no shutdown is
requested. -/
def loadBlockIndexDB (env : ChainEnv) (db : List CDiskBlockIndex) : Option ChainState :=
  (loadBlockIndexGuts env db).map fun m =>
    (sortedByHeight env m).foldl (loadEntry env) { ChainState.init with mapBlockIndex := m }

/-! ## The records give the entries back -/

/-- The entry a record gives, before the walk. -/
def CBlockIndex.raw (e : CBlockIndex) : CBlockIndex :=
  { toStoredIndex := { e.toDisk.toStoredIndex with hash := e.hash, pprev := e.pprev } }

/-- The check of `LoadBlockIndexGuts`. -/
def PowOk (env : ChainEnv) (m : BlockMap) (h : UInt256) : Prop :=
  ∀ e, m.lookup h = some e → env.params.networkUpgradeActive e.nHeight .pos = false →
    checkProofOfWork env h e.nBits = true

open CBlockIndex

section

variable {env : ChainEnv} {m : BlockMap}

theorem header_toDisk (e : CBlockIndex) :
    { e.toDisk.toStoredIndex.header with hashPrevBlock := e.toDisk.hashPrev } = e.header := by
  by_cases hacc : hasAccumulator e.nVersion = true <;>
    by_cases hroot : hasSaplingRoot e.nVersion = true <;>
    simp [toDisk, StoredIndex.header, hacc, hroot]

variable {n : BlockMap} {h : UInt256} {e : CBlockIndex} {order done : List UInt256}

/-- The records of the blocks in `done` have been read. Other blocks have at most an empty entry,
which a child of theirs has made. -/
structure Loading (m : BlockMap) (done : List UInt256) (n : BlockMap) : Prop where
  done_eq : ∀ h ∈ done, n.lookup h = (m.lookup h).map raw
  rest : ∀ h, h ∉ done → n.lookup h = none ∨ n.lookup h = some { hash := h }
  known : ∀ h x, n.lookup h = some x → ∃ e, m.lookup h = some e

theorem loading_nil (m : BlockMap) : Loading m [] ∅ where
  done_eq := fun h hmem => absurd hmem List.not_mem_nil
  rest := fun h _ => .inl (AList.lookup_empty h)
  known := fun h x hx => by simp at hx

theorem lookup_insertBlockIndex {hash : UInt256} (hne : hash ≠ 0) (k : UInt256) :
    (insertBlockIndex n hash).1.lookup k =
      if k = hash then some ((n.lookup hash).getD { hash := hash }) else n.lookup k := by
  rw [insertBlockIndex, if_neg hne]
  exact lookup_insertNew n hash k _

theorem Loading.insertBlockIndex (hl : Loading m done n) {hash : UInt256} (hne : hash ≠ 0)
    (he : m.lookup hash = some e) :
    Loading m done (insertBlockIndex n hash).1 := by
  constructor
  · intro h hmem
    have hdone := hl.done_eq h hmem
    rw [lookup_insertBlockIndex hne]
    split_ifs with hh
    · subst hh
      rw [he, map_some] at hdone ⊢
      rw [hdone, getD_some]
    · exact hdone
  · intro h hnot
    have hrest := hl.rest h hnot
    rw [lookup_insertBlockIndex hne]
    split_ifs with hh
    · subst hh
      rcases hrest with hx | hx <;> simp [hx]
    · exact hrest
  · intro h x hx
    rw [lookup_insertBlockIndex hne] at hx
    split_ifs at hx with hh
    · exact ⟨e, hh ▸ he⟩
    · exact hl.known h x hx

section

variable (hi : Indexed env m)

include hi

/-- The two lookups for a record: the parent is the one the entry had. -/
theorem Loading.insert_parent (hl : Loading m done n) (he : m.lookup h = some e) :
    (Chain.insertBlockIndex n e.toDisk.hashPrev).2 = e.pprev ∧
      Loading m done (Chain.insertBlockIndex n e.toDisk.hashPrev).1 := by
  cases hp : e.pprev with
  | none =>
    have hzero : e.toDisk.hashPrev = 0 := by simp [toDisk, hp]
    rw [hzero]
    exact ⟨rfl, hl⟩
  | some p =>
    have hprev : e.toDisk.hashPrev = p := by simp [toDisk, hp]
    obtain ⟨pe, hpe, -⟩ := hi.parent h e p he hp
    rw [hprev]
    refine ⟨?_, hl.insertBlockIndex (hi.ne_zero p pe hpe) hpe⟩
    rw [Chain.insertBlockIndex, if_neg (hi.ne_zero p pe hpe)]

theorem loadRecord_eq (n : BlockMap) (he : m.lookup h = some e) : loadRecord env n e.toDisk =
      let found := insertBlockIndex (insertBlockIndex n h).1 e.toDisk.hashPrev
      if !env.params.networkUpgradeActive (e.nHeight : Int) .pos &&
          !checkProofOfWork env h e.nBits then none
      else some (found.1.modify h (fillEntry e.toDisk found.2)) := by
  have hself : (insertBlockIndex n h).2 = some h := by
    rw [insertBlockIndex, if_neg (hi.ne_zero h e he)]
  have hhash : e.toDisk.getBlockHash env = h := by
    rw [CDiskBlockIndex.getBlockHash, header_toDisk]
    exact hi.header h e he
  simp only [loadRecord, hhash, hself]
  rfl

theorem Loading.loadRecord (hl : Loading m done n) (he : m.lookup h = some e)
    (hnot : h ∉ done) (hpow : PowOk env m h) :
    ∃ n', loadRecord env n e.toDisk = some n' ∧ Loading m (h :: done) n' := by
  have hne := hi.ne_zero h e he
  have hl1 := hl.insertBlockIndex hne he
  obtain ⟨hpprev, hl2⟩ := hl1.insert_parent hi he
  set n1 := (Chain.insertBlockIndex n h).1
  set n2 := (Chain.insertBlockIndex n1 e.toDisk.hashPrev).1
  have hcheck : (!env.params.networkUpgradeActive e.nHeight .pos &&
      !checkProofOfWork env h e.nBits) = false := by
    cases hactive : env.params.networkUpgradeActive e.nHeight .pos with
    | true => rfl
    | false => simp [hpow e he hactive]
  have hempty : n2.lookup h = some { hash := h } := by
    rcases hl2.rest h hnot with hx | hx
    · -- The entry was made by the first lookup, and the second leaves it there.
      exfalso
      have hmade : n1.lookup h ≠ none := by
        rw [lookup_insertBlockIndex hne]
        simp
      by_cases hzero : e.toDisk.hashPrev = 0
      · apply hmade
        simpa [n2, Chain.insertBlockIndex, hzero] using hx
      · rw [lookup_insertBlockIndex hzero] at hx
        split_ifs at hx
        exact hmade hx
    · exact hx
  refine ⟨n2.modify h (fillEntry e.toDisk e.pprev), ?_, ?_⟩
  · rw [loadRecord_eq hi n he, ← hpprev]
    simp only [hcheck]
    rfl
  · have hfill : fillEntry e.toDisk e.pprev { hash := h } = e.raw := by
      rw [raw, hi.hash_eq h e he]
      rfl
    constructor
    · intro k hk
      rw [lookup_modify]
      by_cases hkh : k = h
      · rw [if_pos hkh, hkh, hempty, he, map_some, map_some, hfill]
      · rw [if_neg hkh]
        exact hl2.done_eq k ((List.mem_cons.mp hk).resolve_left hkh)
    · intro k hk
      have hkh : k ≠ h := fun heq => hk (heq ▸ List.mem_cons_self)
      rw [lookup_modify, if_neg hkh]
      exact hl2.rest k fun hmem => hk (List.mem_cons_of_mem h hmem)
    · intro k x hx
      by_cases hkh : k = h
      · exact ⟨e, hkh ▸ he⟩
      · rw [lookup_modify, if_neg hkh] at hx
        exact hl2.known k x hx

theorem loadRecord_eq_none (he : m.lookup h = some e) (hpow : ¬ PowOk env m h) :
    loadRecord env n e.toDisk = none := by
  simp only [PowOk, not_forall] at hpow
  obtain ⟨e', he', hactive, hcheck⟩ := hpow
  cases he.symm.trans he'
  rw [loadRecord_eq hi n he]
  simp [hactive, hcheck]

theorem Loading.foldlM (hpow : ∀ h, PowOk env m h) (hnodup : order.Nodup)
    (hmem : ∀ h ∈ order, ∃ e, m.lookup h = some e) :
    ∀ (rest done : List UInt256) (n : BlockMap), Loading m done n → done.reverse ++ rest = order →
      ∃ n', (written m rest).foldlM (Chain.loadRecord env) n = some n' ∧
        Loading m order.reverse n' := by
  intro rest
  induction rest with
  | nil =>
    rintro done n hl rfl
    exact ⟨n, rfl, by simpa using hl⟩
  | cons h rest ih =>
    rintro done n hl rfl
    obtain ⟨e, he⟩ := hmem h (by simp)
    have hnot : h ∉ done := by
      simpa using fun hd => List.disjoint_of_nodup_append hnodup hd List.mem_cons_self
    obtain ⟨n1, hrecord, hl1⟩ := hl.loadRecord hi he hnot (hpow h)
    simp only [written, List.filterMap_cons, he, map_some, List.foldlM_cons, hrecord]
    exact ih (h :: done) n1 hl1 (by simp)

theorem foldlM_loadRecord_eq_none (he : m.lookup h = some e) (hmem : h ∈ order)
    (hpow : ¬ PowOk env m h) (n : BlockMap) :
    (written m order).foldlM (loadRecord env) n = none := by
  have hrecord : e.toDisk ∈ written m order :=
    List.mem_filterMap.mpr ⟨h, hmem, by rw [he, map_some]⟩
  generalize written m order = db at hrecord ⊢
  induction db generalizing n with
  | nil => cases hrecord
  | cons record db ih =>
    rw [List.foldlM_cons]
    rcases List.mem_cons.mp hrecord with rfl | hrecord
    · rw [loadRecord_eq_none hi he hpow]
      rfl
    · cases loadRecord env n record with
      | none => rfl
      | some n' => exact ih n' hrecord

theorem exists_loading (horder : order.Perm m.keys) (hpow : ∀ h, PowOk env m h) :
    ∃ n, loadBlockIndexGuts env (written m order) = some n ∧ Loading m order.reverse n :=
  Loading.foldlM hi hpow (horder.nodup_iff.mpr m.keys_nodup)
    (fun _ hh => isSome_iff_exists.mp (mem_keys.mp (horder.mem_iff.mp hh))) order [] ∅
    (loading_nil m) rfl

theorem loadBlockIndexGuts_isSome_iff (horder : order.Perm m.keys) :
    (∃ n, loadBlockIndexGuts env (written m order) = some n) ↔ ∀ h, PowOk env m h := by
  constructor
  · rintro ⟨n, hn⟩ h
    by_contra hpow
    obtain ⟨e, he, -⟩ := not_forall.mp hpow |>.imp fun _ => not_forall.mp
    have hmem : h ∈ order := horder.mem_iff.mpr (mem_keys.mpr (by rw [he]; rfl))
    rw [loadBlockIndexGuts, foldlM_loadRecord_eq_none hi he hmem hpow] at hn
    cases hn
  · intro hpow
    obtain ⟨n, hn, -⟩ := exists_loading hi horder hpow
    exact ⟨n, hn⟩

theorem lookup_loadBlockIndexGuts (horder : order.Perm m.keys)
    (hn : loadBlockIndexGuts env (written m order) = some n) (h : UInt256) :
    n.lookup h = (m.lookup h).map raw := by
  obtain ⟨n', hn', hl⟩ :=
    exists_loading hi horder ((loadBlockIndexGuts_isSome_iff hi horder).mp ⟨n, hn⟩)
  obtain rfl : n' = n := some.inj (hn'.symm.trans hn)
  by_cases hh : h ∈ order
  · exact hl.done_eq h (by simpa using hh)
  · have hnone : m.lookup h = none := by
      by_contra hsome
      exact hh (horder.mem_iff.mpr (mem_keys.mpr (isSome_iff_ne_none.mpr hsome)))
    cases hx : n'.lookup h with
    | none => rw [hnone, map_none]
    | some x =>
      obtain ⟨e, he⟩ := hl.known h x hx
      rw [hnone] at he
      cases he

end

end

/-! ## The walk by height -/

section

variable {env : ChainEnv} {n : BlockMap}

theorem sortedByHeight_pairwise (env : ChainEnv) (n : BlockMap) :
    (sortedByHeight env n).Pairwise fun a b => heightOf n a ≤ heightOf n b := by
  refine (List.pairwise_mergeSort ?_ ?_ n.keys).imp ?_
  · intro a b c hab hbc
    simp only [Bool.or_eq_true, decide_eq_true_eq, Bool.and_eq_true, beq_iff_eq] at hab hbc ⊢
    omega
  · intro a b
    simp only [Bool.or_eq_true, decide_eq_true_eq, Bool.and_eq_true, beq_iff_eq]
    omega
  · intro a b hab
    simp only [Bool.or_eq_true, decide_eq_true_eq, Bool.and_eq_true, beq_iff_eq] at hab
    omega

end

/-- An entry as it comes back, with the Sapling total `v`. -/
def CBlockIndex.reloaded (e : CBlockIndex) (v : Option CAmount) : CBlockIndex :=
  { e.raw with
    pskip := e.pskip
    nChainWork := e.nChainWork
    nTimeMax := e.nTimeMax
    nChainTx := e.nChainTx
    nChainSaplingValue := v }

/-- The walk has passed the blocks in `done`, which are closed under parents: their entries are
back, but for the Sapling total, which satisfies its own equation. -/
structure Walk (m : BlockMap) (done : List UInt256) (cur : BlockMap) : Prop where
  back : ∀ h ∈ done, ∃ e v, m.lookup h = some e ∧ cur.lookup h = some (e.reloaded v) ∧
    v = derivedSapling cur (e.reloaded v)
  rest : ∀ h, h ∉ done → cur.lookup h = (m.lookup h).map raw
  closed : ∀ h ∈ done, ∀ p, pprevOf m h = some p → p ∈ done

section

variable {env : ChainEnv} {m cur : BlockMap} {done : List UInt256}

theorem Walk.ancestor_mem (hw : Walk m done cur) {n : Nat} {h a : UInt256} (hmem : h ∈ done)
    (ha : ancestor (pprevOf m) n h = some a) : a ∈ done := by
  induction n generalizing h with
  | zero =>
    cases ha
    exact hmem
  | succ n ih =>
    obtain ⟨p, hp, ha⟩ := bind_eq_some_iff.mp ha
    exact ih (hw.closed h hmem p hp) ha

/-- Pointers among the blocks that are back lead where they did. -/
theorem Walk.ancestorWalk_eq (hw : Walk m done cur) (ht : Tree m) (height : Nat) :
    ∀ (fuel heightWalk : Nat) {walk : UInt256}, walk ∈ done →
      ancestorWalk cur height fuel heightWalk walk =
        ancestorWalk m height fuel heightWalk walk := by
  intro fuel
  induction fuel with
  | zero =>
    intro heightWalk walk _
    rfl
  | succ fuel ih =>
    intro heightWalk walk hmem
    obtain ⟨e, v, he, hcur, -⟩ := hw.back walk hmem
    rw [ancestorWalk, ancestorWalk, he, hcur, bind_some, bind_some]
    have hpprev : (e.reloaded v).pprev = e.pprev := rfl
    have hpskip : (e.reloaded v).pskip = e.pskip := rfl
    rw [hpprev, hpskip]
    split_ifs with hlt hfollow
    · cases hskip : e.pskip with
      | none => rfl
      | some a =>
        have ha : a ∈ done := by
          cases hp : e.pprev with
          | none =>
            rw [(ht.root walk e he hp).2] at hskip
            cases hskip
          | some p =>
            rw [ht.skip walk e p he hp] at hskip
            exact hw.ancestor_mem hmem hskip
        exact ih _ ha
    · cases hp : e.pprev with
      | none => rfl
      | some p => exact ih _ (hw.closed walk hmem p ((pprevOf_eq he).trans hp))
    · rfl

variable {e : CBlockIndex} {q : UInt256}

theorem Walk.buildSkip_eq (hw : Walk m done cur) (ht : Tree m) {p : UInt256} {pe : CBlockIndex}
    {v : Option CAmount} (he : m.lookup q = some e) (hp : e.pprev = some p)
    (hpe : m.lookup p = some pe) (hpmem : p ∈ done) :
    (pe.reloaded v).getAncestor cur (getSkipHeight e.nHeight) = e.pskip := by
  obtain ⟨pe', hpe', hheight⟩ := ht.parent q e p he hp
  rw [hpe] at hpe'
  cases hpe'
  have hlt := getSkipHeight_lt (show 0 < e.nHeight by omega)
  have hsucc : e.nHeight - getSkipHeight e.nHeight =
      (pe.nHeight - getSkipHeight e.nHeight) + 1 := by omega
  have hhash : (pe.reloaded v).hash = p := ht.hash_eq p pe hpe
  have hsame : (pe.reloaded v).getAncestor cur (getSkipHeight e.nHeight) =
      pe.getAncestor m (getSkipHeight e.nHeight) := by
    rw [getAncestor, getAncestor, hhash, ht.hash_eq p pe hpe]
    have hnHeight : (pe.reloaded v).nHeight = pe.nHeight := rfl
    rw [hnHeight, hw.ancestorWalk_eq ht _ _ _ hpmem]
  rw [hsame, ht.getAncestor_eq hpe (by omega), ht.skip q e p he hp, hsucc,
    ancestor_succ ((pprevOf_eq he).trans hp)]

theorem loadTotals_eq (htx : e.nChainTx = 0) (hv : e.nChainSaplingValue = none) : loadTotals m e =
      { e with nChainTx := derivedChainTx m e, nChainSaplingValue := derivedSapling m e } := by
  by_cases hdata : e.nStatus.haveData = true
  · cases hprev : e.prev m with
    | none =>
      simp [loadTotals, derivedChainTx, derivedSapling, parentLinked, chainSaplingValue, hdata,
        hprev]
    | some prev =>
      by_cases hzero : prev.nChainTx = 0 <;>
        simp [loadTotals, derivedChainTx, derivedSapling, parentLinked, chainSaplingValue, hdata,
          hprev, hzero]
  · simp [loadTotals, derivedChainTx, derivedSapling, hdata, ← htx, ← hv]

section

variable (hback : ∀ p, e.pprev = some p →
  ∃ pe v, m.lookup p = some pe ∧ cur.lookup p = some (pe.reloaded v))

include hback

theorem prev_cases : (e.pprev = none ∧ e.prev m = none ∧ e.raw.prev cur = none) ∨
      ∃ p pe v, e.pprev = some p ∧ m.lookup p = some pe ∧ cur.lookup p = some (pe.reloaded v) ∧
        e.prev m = some pe ∧ e.raw.prev cur = some (pe.reloaded v) := by
  have hraw : e.raw.pprev = e.pprev := rfl
  cases hp : e.pprev with
  | none => exact .inl ⟨rfl, by simp [prev, hp], by simp [prev, hraw, hp]⟩
  | some p =>
    obtain ⟨pe, v, hpe, hcur⟩ := hback p hp
    exact .inr ⟨p, pe, v, rfl, hpe, hcur, by simp [prev, hp, hpe],
      by simp [prev, hraw, hp, hcur]⟩

/-- What depends on the parent, its Sapling total apart, is as before. -/
theorem prev_congr {β : Type} (F : Option CBlockIndex → β)
    (hF : ∀ pe v, F (some (pe.reloaded v)) = F (some pe)) :
    F (e.raw.prev cur) = F (e.prev m) := by
  rcases prev_cases hback with ⟨-, hm, hcur⟩ | ⟨p, pe, v, -, -, -, hm, hcur⟩
  · rw [hm, hcur]
  · rw [hm, hcur, hF]

theorem parentLinked_raw : parentLinked cur e.raw = parentLinked m e :=
  prev_congr hback (Option.all fun prev => prev.nChainTx ≠ 0) fun _ _ => rfl

theorem derivedChainTx_raw : derivedChainTx cur e.raw = derivedChainTx m e := by
  rw [derivedChainTx, parentLinked_raw hback,
    prev_congr hback (·.elim 0 (·.nChainTx)) fun _ _ => rfl]
  rfl

end

/-- **One entry of the walk comes back.** -/
theorem Walk.loadDerived_eq (hw : Walk m done cur) (hi : Indexed env m) (he : m.lookup q = some e)
    (hsettled : Settled m e) (hparent : ∀ p, e.pprev = some p → p ∈ done) :
    loadDerived cur e.raw = e.reloaded (derivedSapling cur e.raw) := by
  have ht := hi.toTree
  have hback : ∀ p, e.pprev = some p →
      ∃ pe v, m.lookup p = some pe ∧ cur.lookup p = some (pe.reloaded v) := by
    intro p hp
    obtain ⟨pe, v, hpe, hcur, -⟩ := hw.back p (hparent p hp)
    exact ⟨pe, v, hpe, hcur⟩
  obtain ⟨hwork, htime⟩ := hi.accumulated q e he
  have htx : derivedChainTx cur e.raw = e.nChainTx :=
    (derivedChainTx_raw hback).trans hsettled.1.symm
  have hwork' : (e.raw.prev cur).elim 0 (·.nChainWork) + getBlockProof e.nBits = e.nChainWork := by
    rw [hwork, prev_congr hback (·.elim 0 (·.nChainWork)) fun _ _ => rfl]
  have htime' : ((e.raw.prev cur).elim e.nTime fun prev => max prev.nTimeMax e.nTime) =
      e.nTimeMax := by
    rw [htime, prev_congr hback (·.elim _ fun prev => max prev.nTimeMax _) fun _ _ => rfl]
  have hskip : (if e.pprev.isSome then
      (e.raw.prev cur).bind fun prev => prev.getAncestor cur (getSkipHeight e.nHeight)
      else none) = e.pskip := by
    rcases prev_cases hback with ⟨hp, -, -⟩ | ⟨p, pe, v, hp, hpe, -, -, hcur⟩
    · rw [hp, (ht.root q e he hp).2]
      rfl
    · rw [hp, hcur]
      exact hw.buildSkip_eq ht he hp hpe (hparent p hp)
  rw [loadDerived]
  simp only [loadTotals_eq (e := { e.raw with
    nChainWork := (e.raw.prev cur).elim 0 (·.nChainWork) + getBlockProof e.raw.nBits
    nTimeMax := (e.raw.prev cur).elim e.raw.nTime fun prev => max prev.nTimeMax e.raw.nTime })
    rfl rfl]
  rw [reloaded, ← hwork', ← htime', ← htx, ← hskip]
  rfl

theorem derivedSapling_insert {x y : CBlockIndex} (hx : x.pprev ≠ some q) :
    derivedSapling (cur.insert q y) x = derivedSapling cur x := by
  simp only [derivedSapling, parentLinked_insert hx, prev_insert hx]

theorem Walk.step {st : ChainState} (hw : Walk m done st.mapBlockIndex) (hi : Indexed env m)
    (hsettled : ∀ h e, m.lookup h = some e → Settled m e) (he : m.lookup q = some e)
    (hnot : q ∉ done) (hparent : ∀ p, e.pprev = some p → p ∈ done) :
    Walk m (q :: done) (loadEntry env st q).mapBlockIndex := by
  have hraw : st.entry q = some e.raw := by
    have := hw.rest q hnot
    rwa [he] at this
  have hload : (loadEntry env st q).mapBlockIndex = st.mapBlockIndex.insert q
      (loadDerived st.mapBlockIndex e.raw) := by simp [loadEntry, hraw]
  rw [hload, hw.loadDerived_eq hi he (hsettled q e he) hparent]
  set v := derivedSapling st.mapBlockIndex e.raw
  constructor
  · intro h hmem
    by_cases hh : h = q
    · subst hh
      refine ⟨e, v, he, by rw [lookup_insert', if_pos rfl], ?_⟩
      have hself : e.pprev ≠ some h := hi.pprev_ne_self he
      rw [derivedSapling_insert (show (e.reloaded v).pprev ≠ some h from hself)]
      rfl
    · have hdone := (List.mem_cons.mp hmem).resolve_left hh
      obtain ⟨x, w, hx, hcur, hsapling⟩ := hw.back h hdone
      refine ⟨x, w, hx, by rw [lookup_insert', if_neg hh, hcur], ?_⟩
      have hne : (x.reloaded w).pprev ≠ some q := fun hp =>
        hnot (hw.closed h hdone q ((pprevOf_eq hx).trans hp))
      rw [derivedSapling_insert hne]
      exact hsapling
  · intro h hmem
    have hh : h ≠ q := fun heq => hmem (heq ▸ List.mem_cons_self)
    rw [lookup_insert', if_neg hh]
    exact hw.rest h fun hdone => hmem (List.mem_cons_of_mem q hdone)
  · intro h hmem p hp
    rcases List.mem_cons.mp hmem with rfl | hdone
    · rw [pprevOf_eq he] at hp
      exact List.mem_cons_of_mem h (hparent p hp)
    · exact List.mem_cons_of_mem q (hw.closed h hdone p hp)

/-- The whole walk: parents are lower, so they come first. -/
theorem Walk.foldl (hi : Indexed env m) (hsettled : ∀ h e, m.lookup h = some e → Settled m e)
    {order : List UInt256} (hnodup : order.Nodup)
    (hsorted : order.Pairwise fun a b => heightOf m a ≤ heightOf m b)
    (hall : ∀ h, h ∈ order ↔ ∃ e, m.lookup h = some e) :
    ∀ (rest done : List UInt256) (st : ChainState), Walk m done st.mapBlockIndex →
      done.reverse ++ rest = order →
      Walk m order.reverse (rest.foldl (loadEntry env) st).mapBlockIndex := by
  intro rest
  induction rest with
  | nil =>
    rintro done st hw rfl
    simpa using hw
  | cons q rest ih =>
    rintro done st hw rfl
    obtain ⟨e, he⟩ := (hall q).mp (by simp)
    have hnot : q ∉ done := by
      simpa using fun hd => List.disjoint_of_nodup_append hnodup hd List.mem_cons_self
    have hlow := (List.pairwise_cons.mp (List.pairwise_append.mp hsorted).2.1).1
    have hparent : ∀ p, e.pprev = some p → p ∈ done := by
      intro p hp
      obtain ⟨pe, hpe, hheight⟩ := hi.parent q e p he hp
      rcases List.mem_append.mp ((hall p).mpr ⟨pe, hpe⟩) with hdone | hlater
      · exact List.mem_reverse.mp hdone
      · rcases List.mem_cons.mp hlater with rfl | hlater
        · exact absurd hp (hi.pprev_ne_self he)
        · have := hlow p hlater
          rw [heightOf_eq he, heightOf_eq hpe] at this
          omega
    exact ih (q :: done) _ (hw.step hi hsettled he hnot hparent) (by simp)

end

/-! ## What comes back -/

/-- The fields of an entry that have to survive a restart. -/
structure Observed where
  hash : UInt256
  nHeight : Nat
  nChainWork : UInt256
  nTimeMax : Nat
  nChainTx : Nat
  nChainSaplingValue : Option CAmount
  pskip : Option UInt256
  vStakeModifier : List UInt8
  deriving DecidableEq, Repr

def CBlockIndex.observed (e : CBlockIndex) : Observed where
  hash := e.hash
  nHeight := e.nHeight
  nChainWork := e.nChainWork
  nTimeMax := e.nTimeMax
  nChainTx := e.nChainTx
  nChainSaplingValue := e.nChainSaplingValue
  pskip := e.pskip
  vStakeModifier := e.vStakeModifier

/-- The same blocks, with entries that agree in those fields. -/
def Preserved (m m' : BlockMap) : Prop :=
  ∀ h, (m'.lookup h).map observed = (m.lookup h).map observed

/-- No value has moved in or out of the Sapling pool in a linked block that has no Sapling root. -/
def SaplingRecorded (m : BlockMap) : Prop :=
  ∀ h e, m.lookup h = some e → Received m h → e.nVersion < 8 → e.nSaplingValue = 0

section

variable {env : ChainEnv} {m m' : BlockMap}

variable {unlinked : List (UInt256 × UInt256)} {h : UInt256} {e : CBlockIndex}

theorem Linking.exists_sapling (hl : Linking m unlinked []) (ht : Tree m) :
    ∀ h e, m.lookup h = some e → e.nChainTx ≠ 0 →
      ∃ v, e.nChainSaplingValue = some v := by
  refine ht.induct fun h e he ih hne => ?_
  obtain ⟨hdata, hlinked⟩ := (hl.linked_iff he).mp hne
  rw [(hl.settled h e he List.not_mem_nil).2, derivedSapling_of_linked hdata hlinked]
  cases hprev : e.prev m with
  | none => exact ⟨e.nSaplingValue, rfl⟩
  | some pe =>
    obtain ⟨p, hp, hpe⟩ := bind_eq_some_iff.mp hprev
    have hpe0 : pe.nChainTx ≠ 0 := by simpa [parentLinked, hprev] using hlinked
    obtain ⟨v, hv⟩ := ih p pe hp hpe hpe0
    exact ⟨v + e.nSaplingValue, by simp [chainSaplingValue, hv]⟩

structure Walked (m m' : BlockMap) : Prop where
  back : ∀ h e, m.lookup h = some e → ∃ v, m'.lookup h = some (e.reloaded v) ∧
    v = derivedSapling m' (e.reloaded v)
  none : ∀ h, m.lookup h = none → m'.lookup h = none

theorem Walk.walked {done : List UInt256} (hw : Walk m done m')
    (hall : ∀ h e, m.lookup h = some e → h ∈ done) : Walked m m' := by
  constructor
  · intro h e he
    obtain ⟨e', v, he', hm', hv⟩ := hw.back h (hall h e he)
    rw [he] at he'
    cases he'
    exact ⟨v, hm', hv⟩
  · intro h hnone
    have hnot : h ∉ done := by
      intro hmem
      obtain ⟨e, -, he, -⟩ := hw.back h hmem
      rw [hnone] at he
      cases he
    rw [hw.rest h hnot, hnone, map_none]

/-- `LoadBlockIndexDB` walks all entries once `LoadBlockIndexGuts` has given them back. -/
theorem walked_loadBlockIndexDB (hi : Indexed env m)
    (hsettled : ∀ h e, m.lookup h = some e → Settled m e) {order : List UInt256}
    (horder : order.Perm m.keys) {st : ChainState}
    (hst : loadBlockIndexDB env (written m order) = some st) : Walked m st.mapBlockIndex := by
  obtain ⟨n, hn, rfl⟩ := map_eq_some_iff.mp hst
  have hlookup := lookup_loadBlockIndexGuts hi horder hn
  have hkeys : ∀ h, h ∈ sortedByHeight env n ↔ ∃ e, m.lookup h = some e := by
    intro h
    rw [sortedByHeight, List.mem_mergeSort, mem_keys, hlookup h, isSome_map,
      isSome_iff_exists]
  have hheight : ∀ h, heightOf n h = heightOf m h := by
    intro h
    rw [heightOf, hlookup h, map_map]
    rfl
  have hstart : Walk m [] n :=
    ⟨fun h hmem => absurd hmem List.not_mem_nil, fun h _ => hlookup h,
      fun h hmem => absurd hmem List.not_mem_nil⟩
  refine (Walk.foldl hi hsettled ?_ ?_ hkeys (sortedByHeight env n) [] _ hstart rfl).walked ?_
  · exact (List.mergeSort_perm _ _).nodup_iff.mpr n.keys_nodup
  · refine (sortedByHeight_pairwise env n).imp fun {a b} hab => ?_
    rwa [hheight, hheight] at hab
  · intro h e he
    simpa using (hkeys h).mpr ⟨e, he⟩

theorem Walked.preserved_iff (hw : Walked m m') :
    Preserved m m' ↔ ∀ h e v, m.lookup h = some e → m'.lookup h = some (e.reloaded v) →
      v = e.nChainSaplingValue := by
  constructor
  · intro hpres h e v he hm'
    have := hpres h
    rw [he, hm'] at this
    exact congrArg (·.nChainSaplingValue) (some.inj this)
  · intro hback h
    cases he : m.lookup h with
    | none => rw [hw.none h he]
    | some e =>
      obtain ⟨v, hm', -⟩ := hw.back h e he
      obtain rfl := hback h e v he hm'
      rw [hm']
      rfl

theorem nSaplingValue_reloaded (e : CBlockIndex) (v : Option CAmount) :
    (e.reloaded v).nSaplingValue = if e.nVersion < 8 then 0 else e.nSaplingValue := by
  by_cases hversion : e.nVersion < 8
  · have hno : hasSaplingRoot e.nVersion = false := by simp [hasSaplingRoot, hversion]
    simp [reloaded, raw, toDisk, hno, hversion]
  · have hyes : hasSaplingRoot e.nVersion = true := by simpa [hasSaplingRoot] using hversion
    simp [reloaded, raw, toDisk, hyes, hversion]

theorem Walked.parent_back (hw : Walked m m') (ht : Tree m) (he : m.lookup h = some e) (p : UInt256)
    (hp : e.pprev = some p) :
    ∃ pe v, m.lookup p = some pe ∧ m'.lookup p = some (pe.reloaded v) := by
  obtain ⟨pe, hpe, -⟩ := ht.parent h e p he hp
  obtain ⟨v, hv, -⟩ := hw.back p pe hpe
  exact ⟨pe, v, hpe, hv⟩

theorem Walked.sapling_eq (hw : Walked m m') {v : Option CAmount} (he : m.lookup h = some e)
    (hm' : m'.lookup h = some (e.reloaded v)) :
    v = derivedSapling m' (e.reloaded v) := by
  obtain ⟨v', hv', heq⟩ := hw.back h e he
  have hsame : e.reloaded v' = e.reloaded v := some.inj (hv'.symm.trans hm')
  obtain rfl : v' = v := congrArg (·.nChainSaplingValue) hsame
  exact heq

/-- The Sapling total of one entry comes back exactly if its value does, if that of its parent is
back. -/
theorem Walked.derivedSapling_eq_iff (hw : Walked m m') (ht : Tree m) (hl : Linking m unlinked [])
    (he : m.lookup h = some e) (v : Option CAmount)
    (hparent : ∀ p pe w, e.pprev = some p → m.lookup p = some pe →
      m'.lookup p = some (pe.reloaded w) → w = pe.nChainSaplingValue) :
    derivedSapling m' (e.reloaded v) = derivedSapling m e ↔
      (Received m h → e.nVersion < 8 → e.nSaplingValue = 0) := by
  have hlinked' : parentLinked m' (e.reloaded v) = parentLinked m e :=
    parentLinked_raw (hw.parent_back ht he)
  rw [(hl.received_iff ht h e he).trans (hl.linked_iff he)]
  by_cases hlink : e.nStatus.haveData = true ∧ parentLinked m e = true
  · obtain ⟨hdata, hlinked⟩ := hlink
    rw [derivedSapling_of_linked (show (e.reloaded v).nStatus.haveData = true from hdata)
      (hlinked'.trans hlinked), derivedSapling_of_linked hdata hlinked,
      show (e.reloaded v).prev m' = e.raw.prev m' from rfl]
    have hvalue : (if e.nVersion < 8 then 0 else e.nSaplingValue) = e.nSaplingValue ↔
        (e.nVersion < 8 → e.nSaplingValue = 0) := by
      split_ifs with hversion <;> simp [hversion, eq_comm]
    rcases prev_cases (hw.parent_back ht he) with
      ⟨-, hm, hcur⟩ | ⟨p, pe, w, hp, hpe, hpe', hm, hcur⟩
    · simp [hm, hcur, chainSaplingValue, nSaplingValue_reloaded, hdata, hlinked, hvalue]
    · have hpe0 : pe.nChainTx ≠ 0 := by simpa [parentLinked, hm] using hlinked
      obtain ⟨a, ha⟩ := hl.exists_sapling ht p pe hpe hpe0
      have hback : (pe.reloaded w).nChainSaplingValue = some a :=
        (hparent p pe w hp hpe hpe').trans ha
      simp [hm, hcur, chainSaplingValue, nSaplingValue_reloaded, ha, hback, hdata, hlinked, hvalue]
  · have hnot : ¬ (e.nStatus.haveData && parentLinked m e) = true := by simpa using hlink
    refine iff_of_true ?_ fun h => absurd h hlink
    rw [derivedSapling, hlinked']
    exact (if_neg hnot).trans (if_neg hnot).symm

/-- The Sapling totals come back exactly if no linked block loses its value. -/
theorem Walked.sapling_iff (hw : Walked m m') (ht : Tree m) (hl : Linking m unlinked []) :
    (∀ h e v, m.lookup h = some e → m'.lookup h = some (e.reloaded v) →
      v = e.nChainSaplingValue) ↔ SaplingRecorded m := by
  have hsettled := fun h e he => (hl.settled h e he List.not_mem_nil).2
  constructor
  · intro hback h e he
    obtain ⟨v, hm', hv⟩ := hw.back h e he
    refine (hw.derivedSapling_eq_iff ht hl he v fun p pe w _ => hback p pe w).mp ?_
    rw [← hv, ← hsettled h e he]
    exact hback h e v he hm'
  · intro hrecorded
    suffices ∀ h e, m.lookup h = some e → ∀ v, m'.lookup h = some (e.reloaded v) →
        v = e.nChainSaplingValue from fun h e v he hm' => this h e he v hm'
    refine ht.induct fun h e he ih v hm' => ?_
    rw [hw.sapling_eq he hm', hsettled h e he]
    exact (hw.derivedSapling_eq_iff ht hl he v fun p pe w hp hpe => ih p pe hp hpe w).mpr
      (hrecorded h e he)

end

/-! ## Restarts -/

/-- The node after a restart: entries have new addresses. -/
def ChainEnv.restarted (env : ChainEnv) (address : UInt256 → Nat)
    (haddress : Function.Injective address) : ChainEnv :=
  { env with address := address, address_injective := haddress }

section

variable {env : ChainEnv} {st : ChainState} (hg : Grown env st) {address : UInt256 → Nat}
  (haddress : Function.Injective address) {order : List UInt256}
  (horder : order.Perm st.mapBlockIndex.keys)

include hg horder

theorem Grown.loads_iff :
    (∃ st', loadBlockIndexDB (env.restarted address haddress) (written st.mapBlockIndex order) =
      some st') ↔ ∀ h, PowOk env st.mapBlockIndex h := by
  have hi : Indexed (env.restarted address haddress) st.mapBlockIndex := { hg.indexed with }
  have hguts := loadBlockIndexGuts_isSome_iff hi horder
  rw [show (∀ h, PowOk env st.mapBlockIndex h) ↔
    ∀ h, PowOk (env.restarted address haddress) st.mapBlockIndex h from Iff.rfl, ← hguts]
  constructor
  · rintro ⟨st', hst'⟩
    obtain ⟨n, hn, -⟩ := map_eq_some_iff.mp hst'
    exact ⟨n, hn⟩
  · rintro ⟨n, hn⟩
    exact ⟨_, by rw [loadBlockIndexDB, hn, map_some]⟩

theorem Grown.preserved_iff {st' : ChainState}
    (hst' : loadBlockIndexDB (env.restarted address haddress) (written st.mapBlockIndex order) =
      some st') : Preserved st.mapBlockIndex st'.mapBlockIndex ↔
      SaplingRecorded st.mapBlockIndex := by
  have hi : Indexed (env.restarted address haddress) st.mapBlockIndex := { hg.indexed with }
  have hwalked := walked_loadBlockIndexDB hi
    (fun h e he => hg.linking.settled h e he List.not_mem_nil) horder hst'
  rw [hwalked.preserved_iff, hwalked.sapling_iff hg.indexed.toTree hg.linking]

end

/-- **The block index survives a restart** exactly if the proof of work of every block before proof
of stake passes its check again, and no linked block of a version before 8 has changed the Sapling
pool. -/
theorem reload_preserves_iff {env : ChainEnv} {st : ChainState} (harrives : Arrives env st)
    {address : UInt256 → Nat} (haddress : Function.Injective address) {order : List UInt256}
    (horder : order.Perm st.mapBlockIndex.keys) :
    (∃ st', loadBlockIndexDB (env.restarted address haddress) (written st.mapBlockIndex order) =
        some st' ∧ Preserved st.mapBlockIndex st'.mapBlockIndex) ↔
      (∀ h, PowOk env st.mapBlockIndex h) ∧ SaplingRecorded st.mapBlockIndex := by
  have hg := harrives.grown
  constructor
  · rintro ⟨st', hst', hpres⟩
    exact ⟨(hg.loads_iff haddress horder).mp ⟨st', hst'⟩,
      (hg.preserved_iff haddress horder hst').mp hpres⟩
  · rintro ⟨hpow, hsapling⟩
    obtain ⟨st', hst'⟩ := (hg.loads_iff haddress horder).mpr hpow
    exact ⟨st', hst', (hg.preserved_iff haddress horder hst').mpr hsapling⟩

namespace Sample

/-- A regtest node started with `-nuparams=v5_shield:2`. -/
def env : ChainEnv where
  params := { ConsensusParams.regtest 0 with
    nActivationHeight := fun idx =>
      if idx = .v5_0 then 2 else (ConsensusParams.regtest 0).nActivationHeight idx }
  hashHeader := fun header => BitVec.ofNat 256 (header.nNonce + 1)
  newStakeModifier := fun _ _ _ => ([], 0)
  address := BitVec.toNat
  address_injective := fun _ _ => BitVec.eq_of_toNat_eq

def coinbase : CTransaction where
  nVersion := 1
  nType := 0
  vin := [⟨.null, [0x51, 0x51], 4294967295⟩]
  vout := [⟨1, []⟩]
  sapData := none
  extraPayload := none
  hash := 7

def shielding : CTransaction :=
  { coinbase with
    nVersion := 3
    vin := [⟨⟨9, 0⟩, [], 4294967295⟩]
    vout := []
    sapData := some {
      valueBalance := -5, vShieldedSpend := [], vShieldedOutput := [⟨1⟩], bindingSig := [1] }
    hash := 8 }

/-- A block of version 7 with the hash `nNonce + 1`. -/
def block (nNonce : Nat) (hashPrevBlock : UInt256) (vtx : List CTransaction) : CBlock where
  nVersion := 7
  hashPrevBlock := hashPrevBlock
  hashMerkleRoot := 0
  nTime := 0
  nBits := 0
  nNonce := nNonce
  nAccumulatorCheckpoint := 0
  hashFinalSaplingRoot := 0
  vtx := vtx

def genesis : CBlock := block 0 0 [coinbase]
def child : CBlock := block 1 1 [coinbase]
def sibling : CBlock := block 2 1 [coinbase, shielding]

def arrive (st : ChainState) (b : CBlock) : ChainState :=
  receivedBlockTransactions env (addToBlockIndex env st b) b (b.getHash env) ⟨0, 0⟩

theorem arrives_arrive {st : ChainState} {b : CBlock} (h : Arrives env st) (hvtx : b.vtx ≠ [])
    (hhash : b.getHash env ≠ 0)
    (hprev : b.hashPrevBlock = 0 ∨ (st.entry b.hashPrevBlock).isSome = true)
    (hnew : ((addToBlockIndex env st b).entry (b.getHash env)).map (·.nStatus.haveData) =
      some false) : Arrives env (arrive st b) := by
  have hadd : Arrives env (addToBlockIndex env st b) :=
    .step (.add b) h ⟨hhash, hprev.imp_right isSome_iff_exists.mp⟩
  obtain ⟨e, he, hdata⟩ := map_eq_some_iff.mp hnew
  exact .step (.receive b ⟨0, 0⟩) hadd ⟨hvtx, e, he, hdata⟩

def chain : ChainState := arrive (arrive .init genesis) child
def fork : ChainState := arrive chain sibling

theorem arrives_chain : Arrives env chain := by
  refine arrives_arrive (arrives_arrive .init ?_ ?_ ?_ ?_) ?_ ?_ ?_ ?_ <;> decide +kernel

theorem arrives_fork : Arrives env fork := by
  refine arrives_arrive arrives_chain ?_ ?_ ?_ ?_ <;> decide +kernel

theorem lookup_sibling : (fork.entry 3).map
    (fun e => (e.nVersion, e.nSaplingValue, e.nChainTx)) = some (7, 5, 3) := by
  decide +kernel

end Sample

open Sample

/-- The index of a chain of two blocks without shielded transactions comes back. -/
theorem reload_sample_chain :
    ∃ st', loadBlockIndexDB (env.restarted BitVec.toNat fun _ _ => BitVec.eq_of_toNat_eq)
        (written chain.mapBlockIndex chain.mapBlockIndex.keys) = some st' ∧
      Preserved chain.mapBlockIndex st'.mapBlockIndex := by
  refine (reload_preserves_iff arrives_chain _ (List.Perm.refl _)).mpr ⟨?_, ?_⟩
  · intro h e _ _
    rfl
  · intro h e he _ _
    have hall : ∀ kv ∈ chain.mapBlockIndex.entries, kv.2.nSaplingValue = 0 := by
      decide +kernel
    exact hall ⟨h, e⟩ (AList.mem_lookup_iff.mp he)

/-- A block of version 7 beside the tip, with a shielded transaction: its value is not on disk. -/
theorem reload_forgets_sapling_value : Arrives env fork ∧
      ¬ ∃ st', loadBlockIndexDB (env.restarted BitVec.toNat fun _ _ => BitVec.eq_of_toNat_eq)
          (written fork.mapBlockIndex fork.mapBlockIndex.keys) = some st' ∧
        Preserved fork.mapBlockIndex st'.mapBlockIndex := by
  refine ⟨arrives_fork, ?_⟩
  rintro ⟨st', hst', hpres⟩
  have hg := arrives_fork.grown
  have hrecorded := (hg.preserved_iff _ (List.Perm.refl _) hst').mp hpres
  obtain ⟨e, he, hfields⟩ := map_eq_some_iff.mp lookup_sibling
  simp only [Prod.mk.injEq] at hfields
  obtain ⟨hversion, hvalue, htx⟩ := hfields
  have hreceived : Received fork.mapBlockIndex 3 :=
    (hg.linking.received_iff hg.indexed.toTree 3 e he).mpr (by rw [htx]; decide)
  have hzero := hrecorded 3 e he hreceived (by rw [hversion]; decide)
  rw [hvalue] at hzero
  cases hzero

end Passion.Chain
