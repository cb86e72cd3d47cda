import Passion.Mining.BlockAssembler

/-!
# What the assembler puts into a block

Three invariants carry the two loops:

- `Filled`: what is in the block is in the pool, once, after its parents, and the counters are the
  sums over it and below the limits;
- in `addPriorityTxs`, the block, the heap and what waits together have no entry twice;
- in `addScoreTxs`, neither do the rest of the index, the cleared and the waiting transactions.

A round takes one entry off a queue, and only a transaction that goes into the block brings entries
back to it. So the length of the queue, with a full queue counted for each entry outside the block,
goes down with every round.
-/

namespace Passion

open Lib List

/-! ## Queues -/

section

variable {α : Type}

variable {l : List α}

theorem popAt_perm {i : Nat} {rest : List α} {x : α} (h : popAt i l = some (x, rest)) :
    (x :: rest).Perm l := by
  obtain ⟨y, hy, hpair⟩ := Option.map_eq_some_iff.mp h
  obtain ⟨hlt, rfl⟩ := List.getElem?_eq_some_iff.mp hy
  obtain ⟨rfl, rfl⟩ := Prod.mk.inj hpair
  exact getElem_cons_eraseIdx_perm hlt

theorem popAt_eq_none {i : Nat} (h : popAt i l = none) : l = [] := by
  have hle := getElem?_eq_none_iff.mp (Option.map_eq_none_iff.mp h)
  by_contra hne
  exact absurd (Nat.mod_lt i (length_pos_of_ne_nil hne)) (not_lt.mpr hle)

theorem cons_eraseP_perm {p : α → Bool} {x : α} (h : l.find? p = some x) :
    (x :: l.eraseP p).Perm l := by
  obtain ⟨hp, pre, post, rfl, hpre⟩ := find?_eq_some_iff_append.mp h
  rw [eraseP_append_right _ fun y hy => by simpa using hpre y hy, eraseP_cons_of_pos hp]
  exact perm_middle.symm

theorem requeue_perm (key : α → UInt256) (children : List UInt256) (queue waiting : List α) :
    ((requeue key children queue waiting).1 ++ (requeue key children queue waiting).2).Perm
      (queue ++ waiting) := by
  unfold requeue
  induction children generalizing queue waiting with
  | nil => exact .refl _
  | cons child children ih =>
    rw [foldl_cons]
    cases hfind : waiting.find? fun x => key x == child with
    | none => simpa only using ih queue waiting
    | some x =>
      refine (ih _ _).trans ?_
      exact perm_middle.symm.trans ((cons_eraseP_perm hfind).append_left queue)

end

/-! ## Entries of the pool -/

/-- The ids of `l` are in the pool, and none is there twice. -/
structure Entries (pool : CTxMemPool) (l : List UInt256) : Prop where
  nodup : l.Nodup
  mem : ∀ h ∈ l, pool.contains h = true

namespace Entries

variable {pool : CTxMemPool} {l l' : List UInt256}

theorem subperm (h : Entries pool l) (hs : l'.Subperm l) : Entries pool l' where
  nodup := by
    obtain ⟨l1, hperm, hsub⟩ := hs
    exact hperm.nodup_iff.mp (h.nodup.sublist hsub)
  mem x hx := h.mem x (hs.subset hx)

theorem perm (h : Entries pool l) (hp : l'.Perm l) : Entries pool l' := h.subperm hp.subperm

theorem lookup (h : Entries pool l) {x : UInt256} (hx : x ∈ l) :
    ∃ entry, pool.mapTx.lookup x = some entry := Option.isSome_iff_exists.mp (h.mem x hx)

theorem length_le (h : Entries pool l) : l.length ≤ pool.mapTx.keys.length := by
  refine (subperm_of_subset h.nodup fun x hx => ?_).length_le
  exact AList.mem_keys.mp (AList.lookup_isSome.mp (h.mem x hx))

theorem keys (pool : CTxMemPool) : Entries pool pool.mapTx.keys where
  nodup := pool.mapTx.keys_nodup
  mem _ hx := AList.lookup_isSome.mpr (AList.mem_keys.mpr hx)

end Entries

/-- No transaction of the pool mints or spends zerocoins, as for every transaction that
`AcceptToMemoryPoolWorker` lets in. -/
def CTxMemPool.NoZerocoins (pool : CTxMemPool) : Prop :=
  ∀ h entry, pool.mapTx.lookup h = some entry → entry.tx.containsZerocoins = false

def CTxMemPoolEntry.shieldedSize (entry : CTxMemPoolEntry) : Nat :=
  if entry.tx.isShieldedTx then entry.nTxSize else 0

namespace AssemblerEnv

variable {P : Type} {env : AssemblerEnv P}

def ParentsFirst (pool : CTxMemPool) (l : List UInt256) : Prop :=
  ∀ pre x post, l = pre ++ x :: post → ∀ p ∈ pool.getMemPoolParents x, p ∈ pre

theorem parentsFirst_concat {pool : CTxMemPool} {l : List UInt256} {y : UInt256}
    (h : ParentsFirst pool l) (hy : ∀ p ∈ pool.getMemPoolParents y, p ∈ l) :
    ParentsFirst pool (l ++ [y]) := by
  intro pre x post heq p hp
  rcases eq_nil_or_concat post with rfl | ⟨post, z, rfl⟩
  · obtain ⟨rfl, hx⟩ := append_inj' heq rfl
    rw [singleton_inj.mp hx] at hy
    exact hy p hp
  · have hsplit : l ++ [y] = (pre ++ x :: post) ++ [z] := by simpa using heq
    exact h pre x post (append_inj' hsplit rfl).1 p hp

/-- The state of an assembler that began with the transactions `vtx` and with the shielded size
`n₀`. -/
structure Filled (env : AssemblerEnv P) (vtx : List CTransaction) (n₀ : Nat) (s : BlockAssembler) :
    Prop where
  vtx_eq : s.vtx = vtx ++ s.inBlock.filterMap fun h => (env.pool.mapTx.lookup h).map (·.tx)
  entries : Entries env.pool s.inBlock
  parents : ParentsFirst env.pool s.inBlock
  size_eq : s.nBlockSize = 1000 + (s.inBlock.map (env.pool.total (·.nTxSize))).sum
  size_lt : s.inBlock = [] ∨ s.nBlockSize < env.nBlockMaxSize
  sigOps_eq : s.nBlockSigOps = 100 + (s.inBlock.map (env.pool.total (·.sigOpCount))).sum
  sigOps_lt : s.nBlockSigOps < maxBlockSigOpsCurrent
  shielded_eq : s.nSizeShielded = n₀ + (s.inBlock.map (env.pool.total (·.shieldedSize))).sum
  shielded_le : s.nSizeShielded ≤ max n₀ maxBlockShieldedTxesSize

/-- The two states differ in `lastFewTxs` and `blockFinished` at most. -/
def SameBlock (s s' : BlockAssembler) : Prop :=
  ∃ n b, s' = { s with lastFewTxs := n, blockFinished := b }

theorem SameBlock.refl (s : BlockAssembler) : SameBlock s s := ⟨_, _, rfl⟩

variable {vtx : List CTransaction} {n₀ : Nat} {s s' : BlockAssembler}

theorem Filled.sameBlock (h : Filled env vtx n₀ s) (hs : SameBlock s s') :
    Filled env vtx n₀ s' := by
  obtain ⟨n, b, rfl⟩ := hs
  exact { h with }

theorem filled_resetBlock (env : AssemblerEnv P) (s : BlockAssembler) (vtx : List CTransaction) :
    Filled env vtx s.nSizeShielded (s.resetBlock vtx) where
  vtx_eq := by simp [BlockAssembler.resetBlock]
  entries := ⟨nodup_nil, by simp [BlockAssembler.resetBlock]⟩
  parents pre x post h := by simp [BlockAssembler.resetBlock] at h
  size_eq := rfl
  size_lt := .inl rfl
  sigOps_eq := rfl
  sigOps_lt := show 100 < maxBlockSigOpsCurrent by decide
  shielded_eq := rfl
  shielded_le := Nat.le_max_left _ _

/-! ## Testing and adding -/

/-- The transaction of an entry fits. -/
structure Fits (env : AssemblerEnv P) (entry : CTxMemPoolEntry) (s : BlockAssembler) : Prop where
  size : s.nBlockSize + entry.nTxSize < env.nBlockMaxSize
  shielded : entry.tx.isShieldedTx = true →
    s.nSizeShielded + entry.nTxSize ≤ maxBlockShieldedTxesSize
  sigOps : s.nBlockSigOps + entry.sigOpCount < maxBlockSigOpsCurrent

theorem sameBlock_noteTooLarge (env : AssemblerEnv P) (s : BlockAssembler) :
    SameBlock s (env.noteTooLarge s) := by
  unfold noteTooLarge
  split_ifs
  · exact ⟨s.lastFewTxs, true, rfl⟩
  · exact ⟨s.lastFewTxs + 1, s.blockFinished, rfl⟩
  · exact .refl s

theorem wp_testForBlock (env : AssemblerEnv P) (entry : CTxMemPoolEntry) (s : BlockAssembler) :
    wp (env.testForBlock entry)
      (fun fits s' => SameBlock s s' ∧ (fits = true → s' = s ∧ Fits env entry s))
      (fun e _ => e = .assertion ∧ entry.tx.containsZerocoins ≠ false) s := by
  simp only [testForBlock, wp_bind, wp_ensure, wp_get, wp_ite, wp_pure]
  refine ⟨fun _ => ⟨fun _ => ⟨.refl s, Bool.noConfusion⟩, fun _ => ⟨fun _ => ?_, fun hsize => ?_⟩⟩,
    fun hzc => ⟨trivial, hzc⟩⟩
  · exact ⟨sameBlock_noteTooLarge env s, Bool.noConfusion⟩
  · refine ⟨fun _ => ⟨.refl s, Bool.noConfusion⟩, fun hshielded =>
      ⟨fun _ => ⟨?_, Bool.noConfusion⟩, fun hsigOps => ?_⟩⟩
    · split_ifs
      · exact ⟨s.lastFewTxs, true, rfl⟩
      · exact .refl s
    · exact ⟨.refl s, fun _ => ⟨trivial, Nat.lt_of_not_le hsize,
        fun hsh => Nat.le_of_not_lt fun hlt => hshielded ⟨hsh, hlt⟩, Nat.lt_of_not_le hsigOps⟩⟩

variable {iter : UInt256} {queue : List UInt256} {entry : CTxMemPoolEntry}

theorem Filled.addToBlock (h : Filled env vtx n₀ s)
    (hentry : env.pool.mapTx.lookup iter = some entry) (hnew : iter ∉ s.inBlock)
    (hparents : ∀ p ∈ env.pool.getMemPoolParents iter, p ∈ s.inBlock) (hfits : Fits env entry s) :
    Filled env vtx n₀ (s.addToBlock iter entry) where
  vtx_eq := by simp [BlockAssembler.addToBlock, h.vtx_eq, hentry]
  entries := by
    refine ⟨?_, ?_⟩
    · have hnodup := h.entries.nodup.concat hnew
      rw [concat_eq_append] at hnodup
      exact hnodup
    · intro x hx
      rcases mem_append.mp hx with hx | hx
      · exact h.entries.mem x hx
      · rw [mem_singleton.mp hx, CTxMemPool.contains, hentry]
        rfl
  parents := parentsFirst_concat h.parents hparents
  size_eq := by
    simp [BlockAssembler.addToBlock, CTxMemPool.total_of_lookup hentry, h.size_eq, Nat.add_assoc]
  size_lt := .inr hfits.size
  sigOps_eq := by
    simp [BlockAssembler.addToBlock, CTxMemPool.total_of_lookup hentry, h.sigOps_eq, Nat.add_assoc]
  sigOps_lt := hfits.sigOps
  shielded_eq := by
    simp only [BlockAssembler.addToBlock, map_append, map_cons, map_nil,
      sum_append, sum_singleton, CTxMemPool.total_of_lookup hentry,
      CTxMemPoolEntry.shieldedSize, h.shielded_eq]
    split_ifs <;> omega
  shielded_le := by
    simp only [BlockAssembler.addToBlock]
    split_ifs with hsh
    · exact (hfits.shielded hsh).trans (Nat.le_max_right _ _)
    · exact h.shielded_le

theorem mem_inBlock_of_not_dependent (h : ¬env.isStillDependent s iter = true) :
    ∀ p ∈ env.pool.getMemPoolParents iter, p ∈ s.inBlock := by
  simpa [isStillDependent] using h

/-- What a failure says: only zerocoins in the pool let an assertion fail. -/
def Aborts (env : AssemblerEnv P) (e : AssemblerExit) : Prop :=
  e = .assertion ∧ ¬env.pool.NoZerocoins

theorem Filled.testAndAdd (h : Filled env vtx n₀ s)
    (hentry : env.pool.mapTx.lookup iter = some entry) (hnew : iter ∉ s.inBlock)
    (hparents : ∀ p ∈ env.pool.getMemPoolParents iter, p ∈ s.inBlock) :
    wp (env.testAndAdd iter entry) (fun added s' => Filled env vtx n₀ s' ∧
        s'.inBlock = if added then s.inBlock ++ [iter] else s.inBlock)
      (fun e _ => Aborts env e) s := by
  rw [AssemblerEnv.testAndAdd, wp_bind]
  refine wp_mono ?_ ?_ (wp_testForBlock env entry s)
  · intro fits s' hs'
    obtain ⟨hsame, hfits⟩ := hs'
    simp only [wp_ite]
    refine ⟨fun htrue => ?_, fun _ => ⟨h.sameBlock hsame, ?_⟩⟩
    · obtain ⟨rfl, hfits⟩ := hfits htrue
      exact ⟨h.addToBlock hentry hnew hparents hfits, rfl⟩
    · obtain ⟨n, b, rfl⟩ := hsame
      rfl
  · intro e _ he
    exact ⟨he.1, fun hno => he.2 (hno iter entry hentry)⟩

@[simp] theorem wp_deref {σ : Type} {Q : CTxMemPoolEntry → σ → Prop}
    {E : AssemblerExit → σ → Prop} {t : σ} (hentry : env.pool.mapTx.lookup iter = some entry) :
    wp (env.deref iter) Q E t ↔ Q entry t := by
  simp [wp, deref, hentry]

/-! ## Rounds -/

/-- The measure of both loops, by the lengths of the queue and of the block. -/
def roundsLeft (env : AssemblerEnv P) (queue inBlock : List UInt256) : Nat :=
  queue.length + (env.pool.mapTx.keys.length - inBlock.length) * (env.pool.mapTx.keys.length + 1)

theorem roundsLeft_perm (env : AssemblerEnv P) {queue' : List UInt256} (h : queue.Perm queue')
    (inBlock : List UInt256) :
    roundsLeft env queue inBlock = roundsLeft env queue' inBlock := by
  rw [roundsLeft, h.length_eq, roundsLeft]

theorem roundsLeft_le_maxRounds (env : AssemblerEnv P) (h : Entries env.pool queue)
    (inBlock : List UInt256) :
    roundsLeft env queue inBlock ≤ env.maxRounds := by
  unfold roundsLeft maxRounds
  rw [Nat.succ_mul, add_comm]
  exact add_le_add (Nat.mul_le_mul_right _ (Nat.sub_le _ _)) (h.length_le.trans (Nat.le_succ _))

theorem roundsLeft_cons (env : AssemblerEnv P) (iter : UInt256) (queue inBlock : List UInt256) :
    roundsLeft env queue inBlock < roundsLeft env (iter :: queue) inBlock := by
  unfold roundsLeft
  rw [length_cons]
  omega

/-- A transaction that goes into the block may bring the queue back to any length. -/
theorem roundsLeft_add {queue' inBlock : List UInt256} (hqueue : Entries env.pool queue')
    (hblock : Entries env.pool (inBlock ++ [iter])) :
    roundsLeft env queue' (inBlock ++ [iter]) < roundsLeft env (iter :: queue) inBlock := by
  have hq := hqueue.length_le
  have hb := hblock.length_le
  simp only [length_append, length_singleton] at hb
  unfold roundsLeft
  generalize env.pool.mapTx.keys.length = N at *
  obtain ⟨k, rfl⟩ := Nat.exists_eq_add_of_le hb
  simp only [length_append, length_cons, length_nil, Nat.add_sub_cancel_left]
  have hk : inBlock.length + 1 + k - inBlock.length = k + 1 := by omega
  rw [hk, Nat.succ_mul]
  omega

/-- How a loop is left early: by `return` with a filled block, or by an assertion. -/
def Leaves (env : AssemblerEnv P) (vtx : List CTransaction) (n₀ : Nat) (e : AssemblerExit)
    (s : BlockAssembler) : Prop := (e = .returned ∧ Filled env vtx n₀ s) ∨ Aborts env e

theorem Leaves.handled {e : AssemblerExit} (h : Leaves env vtx n₀ e s) :
    if e == .returned then Filled env vtx n₀ s else Aborts env e := by
  rcases h with ⟨rfl, h⟩ | h
  · exact h
  · obtain ⟨rfl, hzc⟩ := h
    exact ⟨rfl, hzc⟩

section

/-- The heap and what waits have entries of the pool that are not in the block, each once. -/
structure PriorityInv (env : AssemblerEnv P) (vtx : List CTransaction) (n₀ : Nat)
    (s : BlockAssembler × PriorityLocals P) : Prop where
  filled : Filled env vtx n₀ s.1
  entries : Entries env.pool (s.1.inBlock ++ (s.2.vecPriority ++ s.2.waitPriMap).map Prod.snd)

def priorityLeft (env : AssemblerEnv P) (s : BlockAssembler × PriorityLocals P) : Nat :=
  roundsLeft env (s.2.vecPriority.map Prod.snd) s.1.inBlock

theorem wp_tryPriorityTx {actualPriority : P} {iter : UInt256} (locals : PriorityLocals P)
    (hfilled : Filled env vtx n₀ s) (hentries : Entries env.pool
      (s.inBlock ++ iter :: (locals.vecPriority ++ locals.waitPriMap).map Prod.snd)) :
    wp (env.tryPriorityTx actualPriority iter) (fun _ t => PriorityInv env vtx n₀ t ∧
        priorityLeft env t < roundsLeft env (iter :: locals.vecPriority.map Prod.snd) s.inBlock)
      (fun e t => Leaves env vtx n₀ e t.1) (s, locals) := by
  obtain ⟨entry, hentry⟩ := hentries.lookup (x := iter) (by simp)
  have hnew : iter ∉ s.inBlock := fun hmem =>
    (nodup_append.mp hentries.nodup).2.2 iter hmem iter mem_cons_self rfl
  simp only [tryPriorityTx, wp_bind, wp_get, wp_ensure, wp_ite, wp_deref hentry, wp_onOuter]
  refine ⟨fun _ => ⟨fun _ => ⟨⟨hfilled, ?_⟩, roundsLeft_cons env iter _ _⟩, fun hfree => ?_⟩,
    fun helem => absurd (by simpa using helem) hnew⟩
  · -- put aside: from the heap to the waiting transactions
    refine hentries.perm (Perm.append_left _ ?_)
    simp
  · refine wp_mono ?_ (fun _ _ => .inr)
      (hfilled.testAndAdd hentry hnew (mem_inBlock_of_not_dependent hfree))
    intro added s' hs'
    obtain ⟨hfilled', hblock⟩ := hs'
    refine ⟨fun hadded => ⟨fun _ => ?_, fun _ => .inl ⟨rfl, hfilled'⟩⟩, fun hadded => ?_⟩
    · rw [if_pos hadded] at hblock
      have hmoved := (requeue_perm Prod.snd (env.pool.getMemPoolChildren iter) locals.vecPriority
        locals.waitPriMap).map Prod.snd
      generalize requeue Prod.snd (env.pool.getMemPoolChildren iter) locals.vecPriority
        locals.waitPriMap = queues at hmoved ⊢
      have hentries' : Entries env.pool (s'.inBlock ++ (queues.1 ++ queues.2).map Prod.snd) := by
        rw [hblock, append_assoc]
        exact hentries.perm ((hmoved.cons iter).append_left s.inBlock)
      refine ⟨⟨hfilled', hentries'⟩, ?_⟩
      have hsub := ((sublist_append_left queues.1 queues.2).map Prod.snd).trans
        (sublist_append_right s'.inBlock _)
      have hqueue := hentries'.subperm hsub.subperm
      rw [priorityLeft, hblock]
      exact roundsLeft_add hqueue (hblock ▸ hfilled'.entries)
    · rw [if_neg hadded] at hblock
      refine ⟨⟨hfilled', ?_⟩, ?_⟩
      · rw [hblock]
        exact hentries.subperm ((sublist_cons_self _ _).append_left _).subperm
      · rw [priorityLeft, hblock]
        exact roundsLeft_cons env iter _ _

/-- A round keeps the invariant and makes the measure smaller. -/
theorem wp_priorityRound {t : BlockAssembler × PriorityLocals P} (h : PriorityInv env vtx n₀ t)
    (hcond : priorityCond t = true) :
    wp env.priorityRound
      (fun _ t' => PriorityInv env vtx n₀ t' ∧ priorityLeft env t' < priorityLeft env t)
      (fun e t' => Leaves env vtx n₀ e t'.1) t := by
  obtain ⟨s, locals⟩ := t
  simp only [priorityRound, wp_bind, wp_get]
  cases hpop : popAt (env.topPriority locals.vecPriority) locals.vecPriority with
  | none => simp [priorityCond, popAt_eq_none hpop] at hcond
  | some popped =>
    obtain ⟨⟨actualPriority, iter⟩, vecPriority⟩ := popped
    have hperm := popAt_perm hpop
    simp only [wp_bind, wp_set]
    have hentries : Entries env.pool
        (s.inBlock ++ iter :: (vecPriority ++ locals.waitPriMap).map Prod.snd) := by
      refine h.entries.perm (Perm.append_left s.inBlock ?_)
      exact (hperm.append_right locals.waitPriMap).map Prod.snd
    refine wp_mono ?_ (fun _ _ => id)
      (wp_tryPriorityTx { locals with vecPriority } h.filled hentries)
    intro _ t' ht'
    exact ⟨ht'.1, ht'.2.trans_eq (roundsLeft_perm env (hperm.map Prod.snd) s.inBlock)⟩

theorem wp_addPriorityTxs (h : Filled env vtx n₀ s) (hempty : s.inBlock = []) :
    wp env.addPriorityTxs (fun _ s' => Filled env vtx n₀ s') (fun e _ => Aborts env e) s := by
  rw [addPriorityTxs, wp_ite]
  refine ⟨fun _ => h, fun _ => ?_⟩
  rw [wp_returning, wp_withLocals]
  have hids : (env.pool.mapTx.keys.map fun mi => (env.priority mi, mi)).map Prod.snd =
      env.pool.mapTx.keys := by
    rw [map_map]
    exact map_id _
  refine wp_mono (fun _ t ht => ht.1.filled) (fun _ _ => Leaves.handled)
    (wp_whileLoop (fun _ => wp_priorityRound) ⟨h, ?_⟩ ?_ ?_)
  · rw [hempty, append_nil, hids]
    exact .keys env.pool
  · rw [priorityLeft, hids]
    exact roundsLeft_le_maxRounds env (.keys env.pool) _
  · intro t hzero
    have hnil := length_eq_zero_iff.mp (Nat.eq_zero_of_add_eq_zero_right hzero)
    simp [priorityCond, map_eq_nil_iff.mp hnil]

end

section

/-- The rest of the index, the cleared and the waiting transactions are of the pool, each once. -/
structure ScoreInv (env : AssemblerEnv P) (vtx : List CTransaction) (n₀ : Nat)
    (t : BlockAssembler × ScoreLocals) : Prop where
  filled : Filled env vtx n₀ t.1
  entries : Entries env.pool (t.2.mi ++ t.2.clearedTxs ++ t.2.waitSet)

def scoreLeft (env : AssemblerEnv P) (t : BlockAssembler × ScoreLocals) : Nat :=
  roundsLeft env (t.2.mi ++ t.2.clearedTxs) t.1.inBlock

theorem nextScoreTx_perm {iter : UInt256} {locals locals' : ScoreLocals}
    (h : env.nextScoreTx locals = some (iter, locals')) :
    (iter :: (locals'.mi ++ locals'.clearedTxs)).Perm (locals.mi ++ locals.clearedTxs) ∧
      locals'.waitSet = locals.waitSet := by
  unfold nextScoreTx at h
  cases hpop : popAt (env.topScore locals.clearedTxs) locals.clearedTxs with
  | some popped =>
    rw [hpop] at h
    cases h
    refine ⟨?_, rfl⟩
    exact perm_middle.symm.trans ((popAt_perm hpop).append_left locals.mi)
  | none =>
    rw [hpop] at h
    cases hmi : locals.mi with
    | nil =>
      rw [hmi] at h
      cases h
    | cons next mi =>
      rw [hmi] at h
      cases h
      exact ⟨.refl _, rfl⟩

theorem nextScoreTx_eq_none {locals : ScoreLocals} (h : env.nextScoreTx locals = none) :
    locals.mi = [] ∧ locals.clearedTxs = [] := by
  unfold nextScoreTx at h
  cases hpop : popAt (env.topScore locals.clearedTxs) locals.clearedTxs with
  | some popped =>
    rw [hpop] at h
    cases h
  | none =>
    rw [hpop] at h
    cases hmi : locals.mi with
    | nil => exact ⟨rfl, popAt_eq_none hpop⟩
    | cons next mi =>
      rw [hmi] at h
      cases h

theorem wp_tryScoreTx {iter : UInt256} (locals : ScoreLocals) (hfilled : Filled env vtx n₀ s)
    (hentries : Entries env.pool (iter :: (locals.mi ++ locals.clearedTxs ++ locals.waitSet))) :
    wp (env.tryScoreTx iter) (fun _ t => ScoreInv env vtx n₀ t ∧
        scoreLeft env t < roundsLeft env (iter :: (locals.mi ++ locals.clearedTxs)) s.inBlock)
      (fun e t => Leaves env vtx n₀ e t.1) (s, locals) := by
  obtain ⟨entry, hentry⟩ := hentries.lookup mem_cons_self
  have hrest := hentries.subperm (sublist_cons_self _ _).subperm
  simp only [tryScoreTx, wp_bind, wp_get, wp_ensure, wp_ite, wp_deref hentry, wp_onOuter]
  refine ⟨fun _ => ⟨⟨hfilled, hrest⟩, roundsLeft_cons env iter _ _⟩, fun helem =>
    ⟨fun _ => ⟨⟨hfilled, ?_⟩, roundsLeft_cons env iter _ _⟩, fun hfree =>
      ⟨fun _ => ?_, fun _ => .inl ⟨rfl, hfilled⟩⟩⟩⟩
  · -- put aside: from the queue to the waiting transactions
    exact hentries.perm perm_middle
  · have hnew : iter ∉ s.inBlock := by simpa using helem
    refine wp_mono ?_ (fun _ _ => .inr)
      (hfilled.testAndAdd hentry hnew (mem_inBlock_of_not_dependent hfree))
    intro added s' hs'
    obtain ⟨hfilled', hblock⟩ := hs'
    refine ⟨fun hadded => ?_, fun hadded => ?_⟩
    · rw [if_pos hadded] at hblock
      have hmoved := requeue_perm id (env.pool.getMemPoolChildren iter) locals.clearedTxs
        locals.waitSet
      generalize requeue id (env.pool.getMemPoolChildren iter) locals.clearedTxs
        locals.waitSet = queues at hmoved ⊢
      have hentries' : Entries env.pool (locals.mi ++ queues.1 ++ queues.2) := by
        refine hrest.perm ?_
        rw [append_assoc, append_assoc]
        exact hmoved.append_left locals.mi
      refine ⟨⟨hfilled', hentries'⟩, ?_⟩
      have hqueue := hentries'.subperm (sublist_append_left _ _).subperm
      rw [scoreLeft, hblock]
      exact roundsLeft_add hqueue (hblock ▸ hfilled'.entries)
    · rw [if_neg hadded] at hblock
      refine ⟨⟨hfilled', hrest⟩, ?_⟩
      rw [scoreLeft, hblock]
      exact roundsLeft_cons env iter _ _

theorem wp_scoreRound {t : BlockAssembler × ScoreLocals} (h : ScoreInv env vtx n₀ t)
    (hcond : scoreCond t = true) :
    wp env.scoreRound (fun _ t' => ScoreInv env vtx n₀ t' ∧ scoreLeft env t' < scoreLeft env t)
      (fun e t' => Leaves env vtx n₀ e t'.1) t := by
  obtain ⟨s, locals⟩ := t
  simp only [scoreRound, wp_bind, wp_get]
  cases hnext : env.nextScoreTx locals with
  | none =>
    obtain ⟨hmi, hcleared⟩ := nextScoreTx_eq_none hnext
    simp [scoreCond, hmi, hcleared] at hcond
  | some next =>
    obtain ⟨iter, locals'⟩ := next
    obtain ⟨hperm, hwait⟩ := nextScoreTx_perm hnext
    have hentries : Entries env.pool
        (iter :: (locals'.mi ++ locals'.clearedTxs ++ locals'.waitSet)) := by
      rw [hwait]
      exact h.entries.perm (hperm.append_right locals.waitSet)
    refine wp_mono ?_ (fun _ _ => id) (wp_tryScoreTx locals' h.filled hentries)
    intro _ t' ht'
    exact ⟨ht'.1, ht'.2.trans_eq (roundsLeft_perm env hperm s.inBlock)⟩

theorem wp_addScoreTxs (h : Filled env vtx n₀ s) :
    wp env.addScoreTxs (fun _ s' => Filled env vtx n₀ s') (fun e _ => Aborts env e) s := by
  rw [addScoreTxs, wp_returning, wp_withLocals]
  have hindex : Entries env.pool (env.miningScore ++ []) := by
    rw [append_nil]
    exact (Entries.keys env.pool).perm env.miningScore_perm
  refine wp_mono (fun _ t ht => ht.1.filled) (fun _ _ => Leaves.handled)
    (wp_whileLoop (fun _ => wp_scoreRound) ⟨h, ?_⟩ (roundsLeft_le_maxRounds env hindex _) ?_)
  · rw [append_nil]
    exact hindex
  · intro t hzero
    have hnil := length_eq_zero_iff.mp (Nat.eq_zero_of_add_eq_zero_right hzero)
    obtain ⟨hmi, hcleared⟩ := append_eq_nil_iff.mp hnil
    simp [scoreCond, hmi, hcleared]

end

/-! ## The transactions of a block -/

/-- The transactions `txs`, of the entries `added`, are each in the pool and there once, stand after
their parents, and keep the limits. -/
structure Selects (env : AssemblerEnv P) (added : List UInt256) (txs : List CTransaction) :
    Prop where
  txs_eq : txs = added.filterMap fun h => (env.pool.mapTx.lookup h).map (·.tx)
  nodup : added.Nodup
  mem : ∀ h ∈ added, env.pool.contains h = true
  parents : ParentsFirst env.pool added
  size : (added.map (env.pool.total (·.nTxSize))).sum < env.nBlockMaxSize
  shieldedSize : (added.map (env.pool.total (·.shieldedSize))).sum ≤ maxBlockShieldedTxesSize
  sigOps : (added.map (env.pool.total (·.sigOpCount))).sum < maxBlockSigOpsCurrent

theorem Filled.selects (h : Filled env vtx n₀ s) : Selects env s.inBlock
    (s.inBlock.filterMap fun h => (env.pool.mapTx.lookup h).map (·.tx)) where
  txs_eq := rfl
  nodup := h.entries.nodup
  mem := h.entries.mem
  parents := h.parents
  size := by
    have hmax : 1000 ≤ env.nBlockMaxSize := Nat.le_max_left _ _
    have hsize := h.size_eq
    rcases h.size_lt with hnil | hlt
    · rw [hnil, map_nil, sum_nil]
      omega
    · omega
  shieldedSize := by
    have heq := h.shielded_eq
    have hle := h.shielded_le
    omega
  sigOps := by
    have heq := h.sigOps_eq
    have hlt := h.sigOps_lt
    omega

/-- In a pool with exact links, what a selected transaction spends from the pool stands before it,
and its id is that of its entry. -/
theorem Selects.of_linksExact {added : List UInt256} {txs : List CTransaction}
    (h : Selects env added txs) (hlinks : CTxMemPool.LinksExact env.pool) :
    txs.map (·.hash) = added ∧ ∀ pre x post, added = pre ++ x :: post →
      ∀ p, CTxMemPool.Spends env.pool x p → p ∈ pre := by
  refine ⟨?_, fun pre x post heq p hp => h.parents pre x post heq p ((hlinks.spends x p).mpr hp)⟩
  rw [h.txs_eq, map_filterMap]
  refine (filterMap_congr ?_).trans filterMap_some
  intro x hx
  obtain ⟨entry, hentry⟩ := Option.isSome_iff_exists.mp (h.mem x hx)
  have hhash := hlinks.links.hash x entry.core (by rw [CTxMemPool.core, hentry]; rfl)
  rw [hentry]
  exact congrArg some hhash

theorem wp_addTxs (env : AssemblerEnv P) (s : BlockAssembler) (vtx : List CTransaction) :
    wp (env.addPriorityTxs >>= fun _ => env.addScoreTxs)
      (fun _ s' => Filled env vtx s.nSizeShielded s') (fun e _ => Aborts env e)
      (s.resetBlock vtx) := by
  rw [wp_bind]
  exact wp_mono (fun _ _ => wp_addScoreTxs) (fun _ _ => id)
    (wp_addPriorityTxs (filled_resetBlock env s vtx) rfl)

/-- **The assembler selects a valid block.** Whatever the pool and the orders, the transactions it
adds are distinct, stand after their parents in the pool, and keep the limits. Only zerocoins in the
pool make it fail. -/
theorem addTxs_selects (env : AssemblerEnv P) (s : BlockAssembler) (vtx : List CTransaction) :
    (env.pool.NoZerocoins → ∃ s', env.addTxs s vtx = some s') ∧
      ∀ s', env.addTxs s vtx = some s' → ∃ added txs, s'.vtx = vtx ++ txs ∧
        Selects env added txs ∧ (CTxMemPool.LinksExact env.pool → txs.map (·.hash) = added ∧
          ∀ pre x post, added = pre ++ x :: post →
            ∀ p, CTxMemPool.Spends env.pool x p → p ∈ pre) := by
  have hwp := wp_addTxs env s vtx
  unfold addTxs
  unfold wp at hwp
  cases hrun : (env.addPriorityTxs >>= fun _ => env.addScoreTxs) (s.resetBlock vtx) with
  | ok a s' =>
    rw [hrun] at hwp
    refine ⟨fun _ => ⟨s', rfl⟩, fun s'' heq => ?_⟩
    cases heq
    exact ⟨s'.inBlock, _, hwp.vtx_eq, hwp.selects, hwp.selects.of_linksExact⟩
  | error e s' =>
    rw [hrun] at hwp
    refine ⟨fun hno => absurd hno hwp.2, ?_⟩
    intro s'' hs''
    cases hs''

/-! ## A block with as many shielded bytes as allowed -/

section

open CTxMemPool

/-- A shielded transaction of 375000 bytes: eleven spends, 391 shielded outputs, and an `OP_RETURN`
with ten bytes. -/
def largeShieldTx (n : UInt256) : CTransaction where
  nVersion := CTransaction.versionSapling
  nType := CTransaction.typeNormal
  vin := []
  vout := [⟨0, 0x6a :: 10 :: replicate 10 0⟩]
  sapData := some
    ⟨4 * COIN, (range 11).map fun i => ⟨7, 16 * n + i⟩, replicate 391 ⟨n⟩, replicate 64 1⟩
  extraPayload := none
  hash := n

def largeShieldSubmission (n : UInt256) : Submission :=
  ⟨largeShieldTx n, 4 * COIN, 0, false, 1, none⟩

/-- Two of them in the pool, and the largest blocks that can be asked for. -/
def largeShieldEnv : AssemblerEnv Unit where
  pool := (runEvents ⟨empty, []⟩
    [.accept (largeShieldSubmission 1), .accept (largeShieldSubmission 2)]).pool
  blockMaxSize := 2000000
  blockMinSize := 0
  blockPrioritySize := 50000
  saplingMaintenance := false
  minRelayTxFee := ⟨10000⟩
  isFinalTx _ := true
  priority _ := ()
  allowFree _ := true
  topPriority _ := 0
  topScore _ := 0
  miningScore := _
  miningScore_perm := .refl _

def newAssembler : BlockAssembler := ⟨[], [], [], 0, 0, 0, 0, [], 0, false, 0⟩

theorem addTxs_largeShield : (largeShieldEnv.addTxs newAssembler []).map (fun s =>
      (s.inBlock.map (largeShieldEnv.pool.total (·.shieldedSize))).sum) = some 750000 := by
  decide +kernel

/-- The shielded transactions of a block may have exactly `MAX_BLOCK_SHIELDED_TXES_SIZE` bytes. -/
theorem shieldedSize_not_below : ∃ s, largeShieldEnv.addTxs newAssembler [] = some s ∧
    ¬(s.inBlock.map (largeShieldEnv.pool.total (·.shieldedSize))).sum <
      maxBlockShieldedTxesSize := by
  obtain ⟨s, hs, hsum⟩ := Option.map_eq_some_iff.mp addTxs_largeShield
  refine ⟨s, hs, ?_⟩
  rw [hsum]
  exact lt_irrefl _

theorem addTxs_selects_largeShield : ∃ s added txs, largeShieldEnv.addTxs newAssembler [] = some s ∧
    s.vtx = [] ++ txs ∧ Selects largeShieldEnv added txs := by
  obtain ⟨s, hs, -⟩ := Option.map_eq_some_iff.mp addTxs_largeShield
  obtain ⟨added, txs, hvtx, hselects, -⟩ := (addTxs_selects largeShieldEnv newAssembler []).2 s hs
  exact ⟨s, added, txs, hs, hvtx, hselects⟩

end

end AssemblerEnv

end Passion
