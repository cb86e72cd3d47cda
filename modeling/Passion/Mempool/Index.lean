import Passion.Mempool.Adding
import Passion.Mempool.Walks

/-!
# The indexes of the pool

`mapNextTx` and `mapSaplingNullifiers` are to say which entry spends an outpoint or a nullifier
(`IndexesExact`). Taking out any set of entries keeps that, and so does adding a transaction that
passes the conflict checks. All the functions that remove take out entries together with their
descendants, once or several times (`Trims`), apart from the first step of `removeForBlock`.

`clear` empties `mapNextTx` but leaves `mapSaplingNullifiers` as it is. So the indexes are exact
throughout a run if and only if nothing shielded is in the pool whenever it is cleared
(`indexes_exact_iff`).
-/

namespace Passion

open Lib (Map)
open List
open Relation

namespace CTxMemPool

open CTxMemPoolEntry

variable {pool pool' pool'' : CTxMemPool}

def Holds (pool : CTxMemPool) (tx : CTransaction) : Prop :=
  ∃ e, pool.mapTx.lookup tx.hash = some e ∧ e.tx = tx

/-- The indexes have the inputs and nullifiers of the transactions in the pool, and no two of those
share one. -/
structure IndexesExact (pool : CTxMemPool) : Prop where
  next : ∀ o tx, pool.mapNextTx.lookup o = some tx ↔ pool.Holds tx ∧ o ∈ tx.vin.map (·.prevout)
  nullifiers : ∀ nf tx, pool.mapSaplingNullifiers.lookup nf = some tx ↔
    pool.Holds tx ∧ nf ∈ tx.shieldedNullifiers
  outpoints_distinct : ∀ tx tx', pool.Holds tx → pool.Holds tx' →
    ∀ o, o ∈ tx.vin.map (·.prevout) → o ∈ tx'.vin.map (·.prevout) → tx = tx'
  nullifiers_distinct : ∀ tx tx', pool.Holds tx → pool.Holds tx' →
    ∀ nf, nf ∈ tx.shieldedNullifiers → nf ∈ tx'.shieldedNullifiers → tx = tx'

variable {tx : CTransaction} {entry : CTxMemPoolEntry} {S : List UInt256}

theorem holds_iff : pool.Holds tx ↔ ∃ e, pool.core tx.hash = some e ∧ e.tx = tx := by
  unfold Holds core
  cases pool.mapTx.lookup tx.hash <;> simp

theorem Holds.contains (h : pool.Holds tx) : pool.contains tx.hash = true := by
  obtain ⟨e, he, -⟩ := h
  rw [CTxMemPool.contains, he]
  rfl

theorem LinksOk.holds (hok : LinksOk pool) {h : UInt256} {e : CTxMemPoolEntry}
    (he : pool.core h = some e) : pool.Holds e.tx := by
  rw [holds_iff, hok.hash h e he]
  exact ⟨e, he, rfl⟩

/-! ## One index

Both indexes map things that transactions use up, `uses tx`, to the transaction. -/

variable {κ : Type} [DecidableEq κ]

def IndexOf (pool : CTxMemPool) (uses : CTransaction → List κ) (index : Map κ CTransaction) :
    Prop :=
  ∀ k tx, index.lookup k = some tx ↔ pool.Holds tx ∧ k ∈ uses tx

variable {uses : CTransaction → List κ} {index index' : Map κ CTransaction}

theorem IndexOf.distinct (h : IndexOf pool uses index) {tx' : CTransaction} (htx : pool.Holds tx)
    (htx' : pool.Holds tx') {k : κ} (hk : k ∈ uses tx) (hk' : k ∈ uses tx') : tx = tx' := by
  have h1 := (h k tx).mpr ⟨htx, hk⟩
  have h2 := (h k tx').mpr ⟨htx', hk'⟩
  exact Option.some.inj (h1.symm.trans h2)

theorem indexesExact_iff : IndexesExact pool ↔
    IndexOf pool (fun tx => tx.vin.map (·.prevout)) pool.mapNextTx ∧
      IndexOf pool CTransaction.shieldedNullifiers pool.mapSaplingNullifiers := by
  constructor
  · intro h
    exact ⟨h.next, h.nullifiers⟩
  · rintro ⟨hnext, hnull⟩
    exact ⟨hnext, hnull, fun tx tx' h h' o => hnext.distinct h h',
      fun tx tx' h h' nf => hnull.distinct h h'⟩

theorem Removes.holds (h : Removes pool pool' S) :
    pool'.Holds tx ↔ pool.Holds tx ∧ tx.hash ∉ S := by
  rw [holds_iff, holds_iff, h.core]
  split_ifs with hS <;> simp [hS]

theorem IndexOf.removes (h : IndexOf pool uses index) (hok : LinksOk pool)
    (hS : Removes pool pool' S) (hindex : ∀ k, index'.lookup k =
      if ∃ r ∈ S, ∃ e, pool.core r = some e ∧ k ∈ uses e.tx then none else index.lookup k) :
    IndexOf pool' uses index' := by
  intro k tx
  rw [hindex, hS.holds]
  split_ifs with hgone
  · obtain ⟨r, hr, e, he, hk⟩ := hgone
    refine ⟨nofun, ?_⟩
    rintro ⟨⟨htx, hnot⟩, hk'⟩
    obtain rfl := h.distinct (hok.holds he) htx hk hk'
    rw [hok.hash r e he] at hnot
    exact absurd hr hnot
  · rw [h]
    refine ⟨fun ⟨htx, hk⟩ => ⟨⟨htx, fun hr => hgone ?_⟩, hk⟩, fun ⟨htx, hk⟩ => ⟨htx.1, hk⟩⟩
    obtain ⟨e, he, rfl⟩ := holds_iff.mp htx
    exact ⟨e.tx.hash, hr, e, he, hk⟩

theorem IndexesExact.removes (h : IndexesExact pool) (hok : LinksOk pool)
    (hS : Removes pool pool' S) : IndexesExact pool' := by
  obtain ⟨hnext, hnull⟩ := indexesExact_iff.mp h
  exact indexesExact_iff.mpr ⟨hnext.removes hok hS hS.next, hnull.removes hok hS hS.nullifiers⟩

theorem Adds.holds (h : Adds pool pool' entry) (hnew : pool.contains entry.tx.hash = false) :
    pool'.Holds tx ↔ pool.Holds tx ∨ tx = entry.tx := by
  have hnot : tx.hash = entry.tx.hash → ¬ pool.Holds tx := fun heq htx =>
    ne_of_contains htx.contains hnew heq
  rw [holds_iff, h.core]
  split_ifs with heq
  · simp only [hnot heq, false_or, Option.some.injEq, exists_eq_left', core_tx, withFeeDelta_tx]
    exact eq_comm
  · rw [holds_iff]
    refine ⟨.inl, fun hor => hor.elim id ?_⟩
    rintro rfl
    exact absurd rfl heq

theorem IndexOf.adds (h : IndexOf pool uses index) (hadd : Adds pool pool' entry)
    (hnew : pool.contains entry.tx.hash = false)
    (hfree : ∀ k ∈ uses entry.tx, index.lookup k = none)
    (hindex : ∀ k, index'.lookup k = if k ∈ uses entry.tx then some entry.tx else index.lookup k) :
    IndexOf pool' uses index' := by
  intro k tx
  rw [hindex, hadd.holds hnew]
  split_ifs with hk
  · rw [Option.some.injEq]
    constructor
    · rintro rfl
      exact ⟨.inr rfl, hk⟩
    · rintro ⟨htx | rfl, hmem⟩
      · have hsome := (h k tx).mpr ⟨htx, hmem⟩
        rw [hfree k hk] at hsome
        cases hsome
      · rfl
  · rw [h]
    refine ⟨fun ⟨htx, hmem⟩ => ⟨.inl htx, hmem⟩, fun ⟨htx, hmem⟩ => ⟨?_, hmem⟩⟩
    rcases htx with htx | rfl
    · exact htx
    · exact absurd hmem hk

/-- **Adding a transaction that passes the conflict checks** keeps the indexes exact. -/
theorem IndexesExact.adds (h : IndexesExact pool)
    (hchecks : pool.passesConflictChecks entry.tx = true) (hadd : Adds pool pool' entry) :
    IndexesExact pool' := by
  simp only [passesConflictChecks, Bool.and_eq_true, Bool.not_eq_true', all_eq_true,
    Option.isNone_iff_eq_none] at hchecks
  obtain ⟨⟨⟨-, hnew⟩, hinputs⟩, hnullifiers⟩ := hchecks
  obtain ⟨hnext, hnull⟩ := indexesExact_iff.mp h
  have hfree : ∀ o ∈ entry.tx.vin.map (·.prevout), pool.mapNextTx.lookup o = none :=
    forall_mem_map.mpr hinputs
  refine indexesExact_iff.mpr ⟨hnext.adds hadd hnew hfree fun o => ?_,
    hnull.adds hadd hnew hnullifiers hadd.nullifiers⟩
  rw [hadd.next]
  split_ifs with ho
  · rw [hfree o ho, Option.none_or]
  · rw [Option.or_none]

/-! ## Removing entries with their descendants -/

structure Sound (pool : CTxMemPool) : Prop where
  links : LinksOk pool
  indexes : IndexesExact pool

theorem sound_empty : Sound empty := by
  refine ⟨linksOk_empty, indexesExact_iff.mpr ⟨fun o tx => ?_, fun nf tx => ?_⟩⟩
  all_goals exact ⟨nofun, fun h => nomatch h.1.choose_spec.1⟩

theorem Sound.removes (h : Sound pool) (hS : Removes pool pool' S) : Sound pool' :=
  ⟨h.links.removes hS, h.indexes.removes h.links hS⟩

theorem Sound.clearPrioritisation (h : Sound pool) (hash : UInt256) :
    Sound (pool.clearPrioritisation hash) :=
  ⟨{ h.links with }, { h.indexes with }⟩

/-- A set of entries that contains their children. -/
structure Stage (pool : CTxMemPool) (S : List UInt256) : Prop where
  mem : ∀ r ∈ S, pool.contains r = true
  nodup : S.Nodup
  closed : ∀ c p, Linked pool c p → p ∈ S → c ∈ S

/-- Stages are taken out one after another, and fee deltas are forgotten. -/
inductive Trims : CTxMemPool → CTxMemPool → Prop where
  | refl (pool : CTxMemPool) : Trims pool pool
  | stage {pool pool' : CTxMemPool} (S : List UInt256) (hS : Stage pool S)
      (h : Trims (pool.removeStaged S false) pool') : Trims pool pool'
  | forget {pool pool' : CTxMemPool} (hash : UInt256)
      (h : Trims (pool.clearPrioritisation hash) pool') : Trims pool pool'

theorem Trims.trans (h : Trims pool pool') (h' : Trims pool' pool'') : Trims pool pool'' := by
  induction h with
  | refl => exact h'
  | stage S hS _ ih => exact .stage S hS (ih h')
  | forget hash _ ih => exact .forget hash (ih h')

theorem Trims.sound (h : Trims pool pool') (hsound : Sound pool) : Sound pool' := by
  induction h with
  | refl => exact hsound
  | stage S hS _ ih =>
    exact ih (hsound.removes (removeStaged_removes hsound.links hS.mem hS.nodup false))
  | forget hash _ ih => exact ih (hsound.clearPrioritisation hash)

theorem trims_foldl {β : Type} {step : CTxMemPool → β → CTxMemPool}
    (hstep : ∀ pool b, Sound pool → Trims pool (step pool b)) (l : List β) (hsound : Sound pool) :
    Trims pool (l.foldl step pool) := by
  induction l generalizing pool with
  | nil => exact .refl pool
  | cons b l ih =>
    have hone := hstep pool b hsound
    exact hone.trans (ih (hone.sound hsound))

theorem LinksOk.stage_calculateAllDescendants (hok : LinksOk pool) {l : List UInt256}
    (hl : ∀ it ∈ l, pool.contains it = true) : Stage pool (pool.calculateAllDescendants l) := by
  obtain ⟨hmem, hnodup⟩ := mem_calculateAllDescendants hok hl
  refine ⟨fun r hr => ?_, hnodup, fun c p hcp hp => ?_⟩
  · obtain ⟨it, hit, hr⟩ := (hmem r).mp hr
    rcases hr.cases_head with rfl | ⟨q, hrq, -⟩
    · exact hl _ hit
    · exact hok.mem_of_parent hrq
  · obtain ⟨it, hit, hp⟩ := (hmem p).mp hp
    exact (hmem c).mpr ⟨it, hit, .head hcp hp⟩

/-! ## The functions that remove -/

theorem trims_removeRecursive (pool : CTxMemPool) (origTx : CTransaction) (h : Sound pool) :
    Trims pool (pool.removeRecursive origTx) := by
  refine .stage _ (h.links.stage_calculateAllDescendants fun it hit => ?_) (.refl _)
  split_ifs at hit with hin
  · rw [mem_singleton.mp hit]
    exact hin
  · obtain ⟨i, -, hi⟩ := mem_filterMap.mp (mem_dedup.mp hit)
    obtain ⟨tx, htx, rfl⟩ := Option.map_eq_some_iff.mp hi
    exact ((h.indexes.next _ tx).mp htx).1.contains

theorem contains_of_mem_entriesWith {test : CTxMemPoolEntry → Bool} {h : UInt256}
    (hh : h ∈ pool.entriesWith test) : pool.contains h = true :=
  Map.mem_keys.mp (mem_filter.mp hh).1

theorem trims_removeForReorg (env : ReorgEnv) (h : Sound pool) :
    Trims pool (pool.removeForReorg env) :=
  .stage _ (h.links.stage_calculateAllDescendants fun _ => contains_of_mem_entriesWith) (.refl _)

theorem trims_removeWithAnchor (invalidRoot : UInt256) (h : Sound pool) :
    Trims pool (pool.removeWithAnchor invalidRoot) :=
  trims_foldl trims_removeRecursive _ h

theorem trims_removeConflict (pool : CTxMemPool) (tx : CTransaction) (found : Option CTransaction)
    (h : Sound pool) : Trims pool (pool.removeConflict tx found) := by
  unfold removeConflict
  split
  · exact .refl pool
  · split_ifs
    · exact .refl pool
    · exact (trims_removeRecursive pool _ h).trans (.forget _ (.refl _))

theorem trims_removeConflicts (tx : CTransaction) (h : Sound pool) :
    Trims pool (pool.removeConflicts tx) := by
  have hinputs : Trims pool (tx.vin.foldl (fun pool txin =>
      pool.removeConflict tx (pool.mapNextTx.lookup txin.prevout)) pool) :=
    trims_foldl (fun pool _ => trims_removeConflict pool tx _) tx.vin h
  exact hinputs.trans
    (trims_foldl (fun pool _ => trims_removeConflict pool tx _) _ (hinputs.sound h))

theorem trims_expire (time : Int) (h : Sound pool) : Trims pool (pool.expire time).1 :=
  .stage _ (h.links.stage_calculateAllDescendants fun _ => contains_of_mem_entriesWith) (.refl _)

theorem trims_trimLoop (env : TrimEnv) (sizelimit fuel : Nat) (spent : List COutPoint)
    (h : Sound pool) : Trims pool (trimLoop env sizelimit fuel pool spent).1 := by
  induction fuel generalizing pool spent with
  | zero => exact .refl pool
  | succ fuel ih =>
    unfold trimLoop
    split_ifs with hsize
    · exact .refl pool
    · -- the stage is empty if there is no entry to take out
      have hstage : Stage pool (if pool.contains (env.lowestScore pool) then
          pool.calculateDescendants (env.lowestScore pool) [] else []) := by
        split_ifs with hin
        · exact h.links.stage_calculateAllDescendants (l := [env.lowestScore pool])
            (by simpa using hin)
        · exact ⟨nofun, nodup_nil, nofun⟩
      have hone : Trims pool (pool.removeStaged _ false) := .stage _ hstage (.refl _)
      exact hone.trans (ih _ (hone.sound h))

theorem trims_trimToSize (env : TrimEnv) (sizelimit : Nat) (h : Sound pool) :
    Trims pool (pool.trimToSize env sizelimit).1 :=
  trims_trimLoop env sizelimit _ [] h

/-- The entry of a transaction in a block leaves alone; what conflicts with it goes with its
descendants. -/
theorem Sound.removeForBlockTx (h : Sound pool) (tx : CTransaction) :
    Sound (pool.removeForBlockTx tx) := by
  refine clearPrioritisation ((trims_removeConflicts tx ?_).sound ?_) tx.hash
  all_goals
    split_ifs with hin
    · exact h.removes (removeStaged_removes h.links (by simpa using hin) (nodup_singleton _) true)
    · exact h

theorem Sound.removeForBlock (h : Sound pool) (vtx : List CTransaction) :
    Sound (pool.removeForBlock vtx) := by
  induction vtx generalizing pool with
  | nil => exact h
  | cons tx vtx ih => exact ih (h.removeForBlockTx tx)

theorem hasZerocoinSpendInputs_of_checks (h : pool.passesConflictChecks tx = true) :
    tx.hasZerocoinSpendInputs = false ∧ pool.contains tx.hash = false := by
  simp only [passesConflictChecks, CTransaction.containsZerocoins, Bool.and_eq_true,
    Bool.not_eq_true', Bool.or_eq_false_iff] at h
  exact ⟨h.1.1.1.1, h.1.1.2⟩

theorem Sound.addUnchecked (h : Sound pool) (hchecks : pool.passesConflictChecks entry.tx = true)
    (setAncestors : List UInt256) :
    Sound (pool.addUnchecked entry setAncestors) := by
  obtain ⟨hzc, hnew⟩ := hasZerocoinSpendInputs_of_checks hchecks
  have hadds := addUnchecked_adds h.links hnew hzc setAncestors
  exact ⟨h.links.adds hadds, h.indexes.adds hchecks hadds⟩

/-! ## Runs -/

/-- Calls that change which transactions are in the pool. -/
inductive PoolOp where
  | addUnchecked (entry : CTxMemPoolEntry) (setAncestors : List UInt256)
  | removeRecursive (origTx : CTransaction)
  | removeConflicts (tx : CTransaction)
  | removeForBlock (vtx : List CTransaction)
  | removeWithAnchor (invalidRoot : UInt256)
  | trimToSize (env : TrimEnv) (sizelimit : Nat)
  | expire (time : Int)
  | clear

def PoolOp.apply (pool : CTxMemPool) : PoolOp → CTxMemPool
  | addUnchecked entry setAncestors => pool.addUnchecked entry setAncestors
  | removeRecursive origTx => pool.removeRecursive origTx
  | removeConflicts tx => pool.removeConflicts tx
  | removeForBlock vtx => pool.removeForBlock vtx
  | removeWithAnchor invalidRoot => pool.removeWithAnchor invalidRoot
  | trimToSize env sizelimit => (pool.trimToSize env sizelimit).1
  | expire time => (pool.expire time).1
  | clear => pool.clear

def runOps (ops : List PoolOp) : CTxMemPool := ops.foldl PoolOp.apply empty

theorem runOps_concat (ops : List PoolOp) (op : PoolOp) :
    runOps (ops ++ [op]) = op.apply (runOps ops) := by
  unfold runOps
  rw [foldl_append]
  rfl

/-- In every state of the run in which a transaction is added, it passes the conflict checks. -/
def ObeysChecks (ops : List PoolOp) : Prop :=
  ∀ before entry setAncestors, before ++ [.addUnchecked entry setAncestors] <+: ops →
    (runOps before).passesConflictChecks entry.tx = true

theorem lookup_clear_holds : ¬ pool.clear.Holds tx := by
  rintro ⟨e, he, -⟩
  cases he

/-- **What `clear` leaves**: the indexes are exact if and only if nothing shielded was in the
pool. -/
theorem IndexesExact.clear_iff (h : IndexesExact pool) :
    IndexesExact pool.clear ↔ ∀ tx, pool.Holds tx → tx.shieldedNullifiers = [] := by
  constructor
  · intro hclear tx htx
    rw [eq_nil_iff_forall_not_mem]
    intro nf hnf
    have hsome : pool.clear.mapSaplingNullifiers.lookup nf = some tx :=
      (h.nullifiers nf tx).mpr ⟨htx, hnf⟩
    exact lookup_clear_holds ((hclear.nullifiers nf tx).mp hsome).1
  · intro hnone
    refine indexesExact_iff.mpr ⟨fun o tx => ?_, fun nf tx => ?_⟩
    · exact ⟨nofun, fun ho => absurd ho.1 lookup_clear_holds⟩
    · constructor
      · intro hsome
        obtain ⟨htx, hnf⟩ := (h.nullifiers nf tx).mp hsome
        rw [hnone tx htx] at hnf
        cases hnf
      · exact fun ho => absurd ho.1 lookup_clear_holds

theorem Sound.apply_iff (h : Sound pool) {op : PoolOp}
    (hchecks : ∀ entry A, op = .addUnchecked entry A → pool.passesConflictChecks entry.tx = true) :
    Sound (op.apply pool) ↔
      (op = .clear → ∀ tx, pool.Holds tx → tx.shieldedNullifiers = []) := by
  cases op with
  | clear =>
    refine ⟨fun hclear _ => h.indexes.clear_iff.mp hclear.indexes, fun hnone => ?_⟩
    exact ⟨linksOk_clear pool, h.indexes.clear_iff.mpr (hnone rfl)⟩
  | addUnchecked entry A =>
    exact iff_of_true (h.addUnchecked (hchecks entry A rfl) A) nofun
  | removeRecursive origTx =>
    exact iff_of_true ((trims_removeRecursive pool origTx h).sound h) nofun
  | removeConflicts tx => exact iff_of_true ((trims_removeConflicts tx h).sound h) nofun
  | removeForBlock vtx => exact iff_of_true (h.removeForBlock vtx) nofun
  | removeWithAnchor root =>
    exact iff_of_true ((trims_removeWithAnchor root h).sound h) nofun
  | trimToSize env n => exact iff_of_true ((trims_trimToSize env n h).sound h) nofun
  | expire time => exact iff_of_true ((trims_expire time h).sound h) nofun

theorem obeysChecks_concat {ops : List PoolOp} {op : PoolOp} :
    ObeysChecks (ops ++ [op]) ↔ ObeysChecks ops ∧
      ∀ entry A, op = .addUnchecked entry A →
        (runOps ops).passesConflictChecks entry.tx = true := by
  constructor
  · intro h
    refine ⟨fun before entry A hb => h before entry A (hb.trans (prefix_append ops [op])), ?_⟩
    rintro entry A rfl
    exact h ops entry A (prefix_refl _)
  · rintro ⟨hops, hop⟩ before entry A hb
    rcases prefix_concat_iff.mp hb with heq | hb
    · obtain ⟨rfl, hlast⟩ := append_inj' heq rfl
      exact hop entry A (singleton_inj.mp hlast).symm
    · exact hops before entry A hb

/-- Links and indexes stay in order as long as nothing shielded is cleared away. -/
theorem sound_runOps {ops : List PoolOp} (hchecks : ObeysChecks ops)
    (hclear : ∀ before, before ++ [.clear] <+: ops →
      ∀ tx, (runOps before).Holds tx → tx.shieldedNullifiers = []) : Sound (runOps ops) := by
  induction ops using reverseRecOn with
  | nil => exact sound_empty
  | append_singleton ops op ih =>
    obtain ⟨hchecks, hlast⟩ := obeysChecks_concat.mp hchecks
    have hsound := ih hchecks fun before hb => hclear before (hb.trans (prefix_append ops [op]))
    rw [runOps_concat, hsound.apply_iff hlast]
    rintro rfl
    exact hclear ops (prefix_refl _)

/-- **The indexes over a run**: they are exact in every state if and only if, whenever the pool is
cleared, no transaction in it has a nullifier. -/
theorem indexes_exact_iff (ops : List PoolOp) (hchecks : ObeysChecks ops) :
    (∀ before, before <+: ops → (runOps before).IndexesExact) ↔
      ∀ before, before ++ [.clear] <+: ops →
        ∀ tx, (runOps before).Holds tx → tx.shieldedNullifiers = [] := by
  constructor
  · intro hexact before hb
    have hafter := hexact (before ++ [.clear]) hb
    rw [runOps_concat] at hafter
    exact (hexact before ((prefix_append before [.clear]).trans hb)).clear_iff.mp hafter
  · intro hclear before hb
    refine (sound_runOps (fun b entry A h => hchecks b entry A (h.trans hb)) ?_).indexes
    exact fun b h => hclear b (h.trans hb)

theorem obeysChecks_add_clear {A : List UInt256} (h : empty.passesConflictChecks entry.tx = true) :
    ObeysChecks [.addUnchecked entry A, .clear] := by
  change ObeysChecks (([] ++ [.addUnchecked entry A]) ++ [.clear])
  refine obeysChecks_concat.mpr ⟨?_, fun _ _ hop => ?_⟩
  · refine obeysChecks_concat.mpr ⟨fun before _ _ hb => ?_, fun _ _ hop => ?_⟩
    · simp at hb
    · cases hop
      exact h
  · cases hop

def shieldedTx : CTransaction where
  nVersion := 3
  nType := 0
  vin := []
  vout := []
  sapData := some ⟨0, [⟨0, 7⟩], [⟨5⟩], [1]⟩
  extraPayload := none
  hash := 1

/-- After it was cleared away its nullifier is still taken, and the same transaction does not pass
the conflict checks of the empty pool. -/
theorem clear_keeps_nullifier :
    ObeysChecks [.addUnchecked (.new shieldedTx 0 0 false 0) [], .clear] ∧
      ¬ (runOps [.addUnchecked (.new shieldedTx 0 0 false 0) [], .clear]).IndexesExact ∧
      (runOps [.addUnchecked (.new shieldedTx 0 0 false 0) [], .clear]).mapTx = ∅ ∧
      (runOps [.addUnchecked (.new shieldedTx 0 0 false 0) [], .clear]).passesConflictChecks
        shieldedTx = false := by
  refine ⟨obeysChecks_add_clear (by decide), fun h => ?_, rfl, by decide⟩
  obtain ⟨⟨e, he, -⟩, -⟩ := (h.nullifiers 7 shieldedTx).mp (by decide)
  cases he

def transparentTx : CTransaction where
  nVersion := 1
  nType := 0
  vin := [⟨⟨9, 0⟩, [], 0⟩]
  vout := [⟨5, []⟩]
  sapData := none
  extraPayload := none
  hash := 2

theorem indexes_exact_transparent :
    ObeysChecks [.addUnchecked (.new transparentTx 0 0 false 0) [], .clear] ∧
      ∀ before, before <+: [.addUnchecked (.new transparentTx 0 0 false 0) [], .clear] →
        (runOps before).IndexesExact := by
  have hchecks : ObeysChecks [.addUnchecked (.new transparentTx 0 0 false 0) [], .clear] :=
    obeysChecks_add_clear (by decide)
  refine ⟨hchecks, (indexes_exact_iff _ hchecks).mpr fun before hb tx htx => ?_⟩
  obtain rfl : before = [.addUnchecked (.new transparentTx 0 0 false 0) []] := by
    rcases before with _ | ⟨op, _ | ⟨op', before⟩⟩ <;> simp_all
  have hadds : Adds empty _ (.new transparentTx 0 0 false 0) :=
    addUnchecked_adds linksOk_empty rfl rfl []
  rcases (hadds.holds rfl).mp htx with ⟨e, he, -⟩ | rfl
  · cases he
  · rfl

end CTxMemPool

end Passion
