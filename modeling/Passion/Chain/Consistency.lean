import Passion.Chain.Candidates

/-!
# What keeps the index consistent

The invariant `Consistent` of the index, from which every assertion of `CheckBlockIndex` follows
(`Consistent.checked`):

* *shape*: the tree is well formed with one root, the totals satisfy their equations (`Linking`),
  and the status of an entry agrees with its data and with its parent (`Sound`),
* *active*: the active chain is a branch of linked blocks that have not failed,
* *marked*: a failed block has an ancestor, or is one, that was itself found invalid, and
* *candidates*: a candidate is linked and not worse than the tip, and every such block that
  carries no failed mark is a candidate.

The last part asks more than the assertion, which leaves out descendants of invalid blocks whether
marked or not. Without it the candidates would not come back when the marks are cleared.
-/

namespace Passion.Chain

open Lib Lib.Map ChainState List

/-! ## The order of blocks -/

section

variable (env : ChainEnv) {a b c : CBlockIndex}

theorem workLess_iff : workLess env a b = true ↔
    a.nChainWork.toNat < b.nChainWork.toNat ∨ (a.nChainWork.toNat = b.nChainWork.toNat ∧
      (b.nSequenceId < a.nSequenceId ∨ (a.nSequenceId = b.nSequenceId ∧
        env.address b.hash < env.address a.hash))) := by
  simp only [workLess, BitVec.lt_def]
  split_ifs
  all_goals simp only [decide_eq_true_eq, false_iff, true_iff]
  all_goals omega

variable {env}

theorem workLess_of_not_less (h : workLess env a b = true) (hcb : workLess env c b = false) :
    workLess env a c = true := by
  rw [← Bool.not_eq_true] at hcb
  rw [workLess_iff] at h hcb ⊢
  omega

theorem workLess_of_ne (hne : a.hash ≠ b.hash) (h : workLess env a b = false) :
    workLess env b a = true := by
  have haddress : env.address a.hash ≠ env.address b.hash := fun heq =>
    hne (env.address_injective heq)
  rw [← Bool.not_eq_true] at h
  rw [workLess_iff] at h ⊢
  omega

end

/-! ## Lines of ancestors -/

section

variable {m : BlockMap}

variable {h a : UInt256} {e : CBlockIndex}

section

variable (ht : Tree m) (he : m.lookup h = some e)

include ht he

theorem Tree.pprev_eq_none (hheight : e.nHeight = 0) : e.pprev = none := by
  cases hp : e.pprev with
  | none => rfl
  | some p =>
    obtain ⟨pe, -, hsucc⟩ := ht.parent h e p he hp
    omega

theorem Tree.ancestor_le {n : Nat} (ha : ancestor (pprevOf m) n h = some a) : n ≤ e.nHeight := by
  have := ht.graded.height_eq ha
  rw [heightOf_eq he] at this
  omega

theorem Tree.mem_path_iff : a ∈ path (pprevOf m) (e.nHeight + 1) h ↔ Above (pprevOf m) a h := by
  rw [mem_path]
  constructor
  · rintro ⟨i, -, ha⟩
    exact ⟨i, ha⟩
  · rintro ⟨i, ha⟩
    exact ⟨i, Nat.lt_succ_of_le (ht.ancestor_le he ha), ha⟩

theorem Tree.branch_path : Branch (pprevOf m) (path (pprevOf m) (e.nHeight + 1) h) := by
  refine Lib.branch_path ?_
  cases ha : ancestor (pprevOf m) (e.nHeight + 1) h with
  | none => rfl
  | some a =>
    have := ht.ancestor_le he ha
    omega

theorem Tree.exists_above (ha : Above (pprevOf m) a h) : ∃ ae, m.lookup a = some ae := by
  obtain ⟨n, hn⟩ := ha
  obtain ⟨b, be, hb, hbe, -⟩ := ht.exists_ancestor he (ht.ancestor_le he hn)
  cases hn.symm.trans hb
  exact ⟨be, hbe⟩

end

theorem above_root (he : m.lookup h = some e) (hp : e.pprev = none) (ha : Above (pprevOf m) a h) :
    a = h := by
  rcases above_iff.mp ha with rfl | ⟨p, hparent, -⟩
  · rfl
  · rw [pprevOf_eq he, hp] at hparent
    cases hparent

variable {st : ChainState}

theorem mem_line (ht : Tree st.mapBlockIndex) {x : CBlockIndex} (he : st.entry h = some e) :
    x ∈ st.line e ↔ ∃ a, Above (pprevOf st.mapBlockIndex) a h ∧ st.entry a = some x := by
  rw [line, ht.hash_eq h e he, mem_filterMap]
  simp only [ht.mem_path_iff he]

/-- The line of an entry has one block for each height, and ends at a root. -/
theorem line_spec (ht : Tree st.mapBlockIndex) (he : st.entry h = some e) :
    (st.line e).length = e.nHeight + 1 ∧ (st.line e).getLast?.map (·.pprev) = some none := by
  rw [line, ht.hash_eq h e he]
  generalize hn : e.nHeight = n
  induction n generalizing h e with
  | zero =>
    have hp : e.pprev = none := ht.pprev_eq_none he hn
    have hpprev : pprevOf st.mapBlockIndex h = none := (pprevOf_eq he).trans hp
    simp [path, hpprev, he, hp]
  | succ n ih =>
    cases hp : e.pprev with
    | none =>
      have := (ht.root h e he hp).1
      omega
    | some p =>
      obtain ⟨pe, hpe, hheight⟩ := ht.parent h e p he hp
      have hpprev : pprevOf st.mapBlockIndex h = some p := (pprevOf_eq he).trans hp
      obtain ⟨hlength, hlast⟩ := ih (show st.entry p = some pe from hpe) (by omega)
      rw [path, hpprev, filterMap_cons_some he, Option.elim_some]
      generalize filterMap st.entry (path (pprevOf st.mapBlockIndex) (n + 1) p) = l
        at hlength hlast
      refine ⟨by rw [length_cons, hlength], ?_⟩
      cases l with
      | nil => cases hlength
      | cons x l => rw [getLast?_cons_cons, hlast]

end

/-! ## The invariant -/

/-- The block or one of its ancestors was itself found invalid. -/
def Invalid (m : BlockMap) (h : UInt256) : Prop :=
  ∃ a e, Above (pprevOf m) a h ∧ m.lookup a = some e ∧ e.nStatus.failedValid = true

/-- The status of an entry agrees with its data and with its parent. -/
structure Sound (m : BlockMap) (e : CBlockIndex) : Prop where
  data : e.nStatus.haveData = true ↔ 0 < e.nTx
  transactions : BLOCK_VALID_TRANSACTIONS ≤ e.nStatus.valid ↔ 0 < e.nTx
  sequence : e.nChainTx = 0 → e.nSequenceId = 0
  tree : BLOCK_VALID_TREE ≤ e.nStatus.valid
  scripts : e.nStatus.valid ≤ BLOCK_VALID_SCRIPTS
  work : ∀ prev, e.prev m = some prev → prev.nChainWork < e.nChainWork
  level : ∀ prev, e.prev m = some prev →
    prev.pprev = none ∨ e.nStatus.valid ≤ BLOCK_VALID_TRANSACTIONS ∨
      e.nStatus.valid ≤ prev.nStatus.valid

/-- An entry stays sound when its data and its level stay, and its parents only rise in theirs. -/
theorem Sound.congr {m m' : BlockMap} {e e' : CBlockIndex} (h : Sound m e)
    (hdata : e'.nStatus.haveData = e.nStatus.haveData) (htx : e'.nTx = e.nTx)
    (hvalid : e'.nStatus.valid = e.nStatus.valid) (hwork : e'.nChainWork = e.nChainWork)
    (hsequence : e'.nChainTx = 0 → e'.nSequenceId = 0)
    (hprev : ∀ prev', e'.prev m' = some prev' → ∃ prev, e.prev m = some prev ∧
      prev'.nChainWork = prev.nChainWork ∧ prev'.pprev = prev.pprev ∧
      prev.nStatus.valid ≤ prev'.nStatus.valid) : Sound m' e' := by
  constructor
  case data => rw [hdata, htx]; exact h.data
  case transactions => rw [hvalid, htx]; exact h.transactions
  case sequence => exact hsequence
  case tree => rw [hvalid]; exact h.tree
  case scripts => rw [hvalid]; exact h.scripts
  case work =>
    intro prev' hprev'
    obtain ⟨prev, hlookup, hsame, -, -⟩ := hprev prev' hprev'
    rw [hsame, hwork]
    exact h.work prev hlookup
  case level =>
    intro prev' hprev'
    obtain ⟨prev, hlookup, -, hroot, hle⟩ := hprev prev' hprev'
    rw [hroot, hvalid]
    rcases h.level prev hlookup with hlevel | hlevel | hlevel
    · exact .inl hlevel
    · exact .inr (.inl hlevel)
    · exact .inr (.inr (hlevel.trans hle))

structure Shaped (env : IndexEnv) (m : BlockMap) (unlinked : List (UInt256 × UInt256)) :
    Prop where
  tree : Tree m
  linking : Linking m unlinked []
  sound : ∀ h e, m.lookup h = some e → Sound m e
  root : ∀ h e, m.lookup h = some e → e.pprev = none → h = env.hashGenesisBlock

structure Consistent (env : IndexEnv) (st : ChainState) : Prop where
  shaped : Shaped env st.mapBlockIndex st.mapBlocksUnlinked
  /-- Before the genesis block is active there is no other block. -/
  inactive : st.chainActive = [] → ∀ h e, st.entry h = some e → h = env.hashGenesisBlock
  branch : Branch (pprevOf st.mapBlockIndex) st.chainActive
  active : ∀ h ∈ st.chainActive, ∃ e, st.entry h = some e ∧ e.nChainTx ≠ 0 ∧
    e.nStatus.failed = false ∧ (e.pprev = none ∨ BLOCK_VALID_SCRIPTS ≤ e.nStatus.valid)
  marked : ∀ h e, st.entry h = some e → e.nStatus.failed = true → Invalid st.mapBlockIndex h
  candidate : ∀ h ∈ st.setBlockIndexCandidates, ∃ e, st.entry h = some e ∧ e.nChainTx ≠ 0 ∧
    notWorse env.toChainEnv st e = true
  complete : ∀ h e, st.entry h = some e → e.nChainTx ≠ 0 → e.nStatus.failed = false →
    notWorse env.toChainEnv st e = true → h ∈ st.setBlockIndexCandidates

/-! ## Totals and levels along a line -/

section

variable {env : IndexEnv} {m : BlockMap} {unlinked : List (UInt256 × UInt256)}
  (hs : Shaped env m unlinked)

include hs

variable {e : CBlockIndex} {h : UInt256}

/-- An entry is linked iff no block on its line misses its data. -/
theorem Shaped.linked_iff (he : m.lookup h = some e) : e.nChainTx ≠ 0 ↔
      ∀ a x, Above (pprevOf m) a h → m.lookup a = some x → x.nStatus.haveData = true :=
  (hs.linking.received_iff hs.tree h e he).symm

theorem Shaped.linked_above {a : UInt256} {x : CBlockIndex} (he : m.lookup h = some e)
    (hlinked : e.nChainTx ≠ 0) (ha : Above (pprevOf m) a h) (hx : m.lookup a = some x) :
    x.nChainTx ≠ 0 := by
  rw [hs.linked_iff hx]
  intro b y hb hy
  exact (hs.linked_iff he).mp hlinked b y (hb.trans ha) hy

theorem Shaped.level_above {n : Nat} (hn : BLOCK_VALID_TRANSACTIONS < n) {a : UInt256}
    {x : CBlockIndex} (he : m.lookup h = some e) (hlevel : n ≤ e.nStatus.valid)
    (ha : Above (pprevOf m) a h) (hx : m.lookup a = some x) (hp : x.pprev ≠ none) :
    n ≤ x.nStatus.valid := by
  obtain ⟨i, hi⟩ := ha
  induction i generalizing h e with
  | zero =>
    cases hi
    rw [he] at hx
    cases hx
    exact hlevel
  | succ i ih =>
    obtain ⟨p, hpprev, hi⟩ := Option.bind_eq_some_iff.mp hi
    rw [pprevOf_eq he] at hpprev
    obtain ⟨pe, hpe, -⟩ := hs.tree.parent h e p he hpprev
    have hprev : e.prev m = some pe := by simp [CBlockIndex.prev, hpprev, hpe]
    rcases (hs.sound h e he).level pe hprev with hroot | hlow | hle
    · -- The parent is the root, so it is the block itself.
      obtain rfl : a = p := above_root hpe hroot ⟨i, hi⟩
      rw [hpe] at hx
      cases hx
      exact absurd hroot hp
    · omega
    · exact ih hpe (hlevel.trans hle) hi

theorem Shaped.genesis_root (he : m.lookup env.hashGenesisBlock = some e) : e.pprev = none := by
  obtain ⟨a, ae, ha, hae, hsum⟩ := hs.tree.exists_ancestor he le_rfl
  have hp : ae.pprev = none := hs.tree.pprev_eq_none hae (by omega)
  obtain rfl : a = env.hashGenesisBlock := hs.root a ae hae hp
  rw [he] at hae
  cases hae
  exact hp

end

/-! ## The assertions -/

section

variable {env : IndexEnv} {st : ChainState}

variable {h : UInt256} {e : CBlockIndex}

theorem firstInvalid_iff (ht : Tree st.mapBlockIndex) (he : st.entry h = some e) :
    st.firstInvalid e = true ↔ Invalid st.mapBlockIndex h := by
  simp only [firstInvalid, any_eq_true, mem_line ht he]
  constructor
  · rintro ⟨x, ⟨a, ha, hx⟩, hfailed⟩
    exact ⟨a, x, ha, hx, hfailed⟩
  · rintro ⟨a, x, ha, hx, hfailed⟩
    exact ⟨x, ⟨a, ha, hx⟩, hfailed⟩

theorem Shaped.firstMissing_iff (hs : Shaped env st.mapBlockIndex st.mapBlocksUnlinked)
    (he : st.entry h = some e) :
    st.firstMissing e = true ↔ e.nChainTx = 0 := by
  rw [← not_iff_not, ← ne_eq e.nChainTx, hs.linked_iff he, Bool.not_eq_true,
    firstMissing, any_eq_false]
  constructor
  · intro hall a x ha hx
    simpa using hall x ((mem_line hs.tree he).mpr ⟨a, ha, hx⟩)
  · intro hall x hx
    obtain ⟨a, ha, hx⟩ := (mem_line hs.tree he).mp hx
    simp [hall a x ha hx]

theorem Shaped.firstNotValid_eq (hs : Shaped env st.mapBlockIndex st.mapBlocksUnlinked) {n : Nat}
    (he : st.entry h = some e)
    (hn : n = BLOCK_VALID_TREE ∨ BLOCK_VALID_TRANSACTIONS < n ∧ n ≤ e.nStatus.valid) :
    st.firstNotValid n e = false := by
  rw [firstNotValid, any_eq_false]
  intro x hx
  obtain ⟨a, ha, hx⟩ := (mem_line hs.tree he).mp hx
  simp only [Bool.and_eq_true, decide_eq_true_eq, not_and, not_lt]
  intro hp
  rcases hn with rfl | ⟨hlt, hle⟩
  · exact (hs.sound a x hx).tree
  · exact hs.level_above hlt he hle ha hx (Option.isSome_iff_ne_none.mp hp)

theorem Consistent.getLast_active (hc : Consistent env st) (hne : st.chainActive ≠ []) :
    st.chainActive.getLast? = some env.hashGenesisBlock := by
  have hlast := getLast?_eq_some_getLast hne
  obtain ⟨e, he, -⟩ := hc.active _ (getLast_mem hne)
  have hp := hc.branch.parent_last hlast
  rw [pprevOf_eq he] at hp
  rw [hlast, hc.shaped.root _ e he hp]

theorem Shaped.isUnlinked_iff (hs : Shaped env st.mapBlockIndex st.mapBlocksUnlinked)
    (he : st.entry h = some e) :
    st.isUnlinked e = true ↔
      e.pprev ≠ none ∧ e.nStatus.haveData = true ∧ e.nChainTx = 0 := by
  have hlinked := hs.linking.linked_iff he
  rw [isUnlinked, hs.tree.hash_eq h e he]
  cases hp : e.pprev with
  | none => simp
  | some p =>
    obtain ⟨pe, hpe, -⟩ := hs.tree.parent h e p he hp
    have hparent : parentLinked st.mapBlockIndex e = true ↔ pe.nChainTx ≠ 0 := by
      simp [parentLinked, CBlockIndex.prev, hp, hpe]
    rw [Option.any_some, elem_iff, hs.linking.mem_unlinked]
    constructor
    · rintro ⟨x, px, hx, hdata, hxp, hpx, hzero⟩
      rw [show st.mapBlockIndex.lookup h = some e from he] at hx
      cases hx
      rw [hpe] at hpx
      cases hpx
      refine ⟨by simp, hdata, ?_⟩
      by_contra hne
      exact (hparent.mp (hlinked.mp hne).2) hzero
    · rintro ⟨-, hdata, hzero⟩
      refine ⟨e, pe, he, hdata, hp, hpe, ?_⟩
      by_contra hne
      exact (hlinked.mpr ⟨hdata, hparent.mpr hne⟩) hzero

theorem Consistent.entryChecked (hc : Consistent env st) (hne : st.chainActive ≠ [])
    (he : st.entry h = some e) : EntryChecked env st e := by
  have hs := hc.shaped
  have hsound := hs.sound h e he
  have hhash := hs.tree.hash_eq h e he
  have hmissing := hs.firstMissing_iff he
  obtain ⟨hlength, hlast⟩ := line_spec hs.tree he
  -- A block outside every invalid line carries no mark.
  have hfailed : st.firstInvalid e = false → e.nStatus.failed = false := by
    intro hvalid
    by_contra hmark
    have := (firstInvalid_iff hs.tree he).mpr (hc.marked h e he (by simpa using hmark))
    rw [hvalid] at this
    cases this
  constructor
  case visited => exact hlast
  case genesis =>
    intro hp
    have hgenesis := hs.root h e he hp
    rw [hhash, hc.getLast_active hne]
    exact ⟨hgenesis, congrArg some hgenesis.symm⟩
  case data =>
    rw [← not_iff_not, Bool.not_eq_false, hsound.data]
    omega
  case transactions => exact hsound.transactions
  case sequence => exact hsound.sequence
  case chainTx => exact hmissing
  case height => exact hlength
  case work =>
    rw [Option.all_eq_true]
    intro prev hprev
    exact decide_eq_true (BitVec.le_of_lt (hsound.work prev hprev))
  case skip =>
    rw [or_iff_not_imp_left]
    intro hheight
    cases hp : e.pprev with
    | none =>
      have := (hs.tree.root h e he hp).1
      omega
    | some p =>
      have hlt := getSkipHeight_lt (show 0 < e.nHeight by omega)
      obtain ⟨a, ae, ha, hae, hsum⟩ :=
        hs.tree.exists_ancestor he (Nat.sub_le e.nHeight (getSkipHeight e.nHeight))
      rw [hs.tree.skip h e p he hp, ha, Option.bind_some, show st.entry a = some ae from hae]
      exact decide_eq_true (by omega)
  case treeValid => exact hs.firstNotValid_eq he (.inl rfl)
  case chainValid => exact fun hle => hs.firstNotValid_eq he (.inr ⟨by decide, hle⟩)
  case scriptsValid => exact fun hle => hs.firstNotValid_eq he (.inr ⟨by decide, hle⟩)
  case failed => exact hfailed
  case candidate =>
    intro hgood hvalid
    rw [Bool.and_eq_true, Bool.not_eq_true', ← Bool.not_eq_true, hmissing] at hgood
    rw [isCandidate, elem_iff, hhash]
    exact hc.complete h e he hgood.2 (hfailed hvalid) hgood.1
  case notCandidate =>
    intro hbad
    rw [isCandidate, ← Bool.not_eq_true, elem_iff, hhash]
    intro hmem
    obtain ⟨x, hx, hlinked, hworse⟩ := hc.candidate h hmem
    rw [he] at hx
    cases hx
    rw [hworse, Bool.true_and, Bool.not_eq_false', hmissing] at hbad
    exact hlinked hbad
  case unlinked =>
    intro hwait _
    rw [Bool.and_eq_true, Bool.and_eq_true, hmissing, Option.isSome_iff_ne_none] at hwait
    rw [hs.isUnlinked_iff he]
    exact ⟨hwait.1.1, hwait.1.2, hwait.2⟩
  case notUnlinked =>
    intro hwait
    rw [← Bool.not_eq_true, hs.isUnlinked_iff he]
    rintro ⟨hp, hdata, hzero⟩
    rw [hdata, hmissing.mpr hzero, Option.isSome_iff_ne_none.mpr hp] at hwait
    cases hwait

theorem length_le_one_of_nodup {l : List UInt256} {g : UInt256} (hl : l.Nodup)
    (hall : ∀ h ∈ l, h = g) : l.length ≤ 1 := by
  match l with
  | [] => exact Nat.zero_le 1
  | [_] => exact le_rfl
  | a :: b :: l =>
    have hab : a = b := (hall a (by simp)).trans (hall b (by simp)).symm
    simp [hab] at hl

/-- **A consistent index passes the check.** -/
theorem Consistent.checked (hc : Consistent env st) : BlockIndexChecked env st := by
  have hexists : ∀ h ∈ st.mapBlockIndex.keys, ∃ e, st.entry h = some e := fun h hmem =>
    Option.isSome_iff_exists.mp (mem_keys.mp hmem)
  refine ⟨fun hempty => ?_, fun hne => ?_, fun hne h _ e he => hc.entryChecked hne he⟩
  · refine length_le_one_of_nodup st.mapBlockIndex.nodupKeys (g := env.hashGenesisBlock) ?_
    intro h hmem
    obtain ⟨e, he⟩ := hexists h hmem
    exact hc.inactive hempty h e he
  · refine le_antisymm (length_le_one_of_nodup (g := env.hashGenesisBlock)
        (Nodup.filter _ st.mapBlockIndex.nodupKeys) ?_)
      (length_pos_of_mem (a := env.hashGenesisBlock) ?_)
    · intro h hmem
      obtain ⟨hmem, hroot⟩ := mem_filter.mp hmem
      obtain ⟨e, he⟩ := hexists h hmem
      rw [he, Option.any_some, Option.isNone_iff_eq_none] at hroot
      exact hc.shaped.root h e he hroot
    · -- The last active block is there.
      have hmem := mem_of_getLast? (hc.getLast_active hne)
      obtain ⟨e, he, -⟩ := hc.active _ hmem
      refine mem_filter.mpr ⟨mem_keys.mpr (Option.isSome_iff_exists.mpr ⟨e, he⟩), ?_⟩
      rw [he, Option.any_some, hc.shaped.genesis_root he]
      rfl

end

end Passion.Chain
