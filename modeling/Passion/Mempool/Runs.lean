import Passion.Mempool.Reorg

/-!
# Runs of the pool

Transactions are accepted, and taken out for all sorts of reasons; when blocks are disconnected,
their transactions are added again and `UpdateTransactionsFromBlock` is called. Between calls, links
and totals are to be what the transactions in the pool spend (`Exact`).

They are, unless a transaction is accepted while the pool has one that spends from it. That happens
after a reorganisation: `AcceptToMemoryPool` trims the pool also while transactions are added again,
when their descendants are not linked to them yet, and may take out one of those transactions and
leave its descendants. The run theorem is `exact_iff_accepts_unspent`.
-/

namespace Passion

open Lib (Map)
open Lib.Dag Relation

namespace CTxMemPool

open CTxMemPoolEntry

/-- Links and totals are what the transactions in the pool spend. -/
structure Exact (pool : CTxMemPool) : Prop where
  parents : ∀ c p, p ∈ pool.getMemPoolParents c ↔ Spends pool c p
  children : ∀ c p, c ∈ pool.getMemPoolChildren p ↔ Spends pool c p
  totals : TotalsOver pool (Spends pool)

theorem Consistent.exact {pool : CTxMemPool} (h : Consistent pool []) : Exact pool := by
  have hlinked : ∀ c p, Linked pool c p ↔ Spends pool c p := by
    intro c p
    rw [h.linked]
    simp
  have hlinkedEq : Linked pool = Spends pool := by
    funext c p
    exact propext (hlinked c p)
  refine ⟨hlinked, fun c p => ?_, hlinkedEq ▸ h.totals⟩
  rw [← h.sound.links.symm]
  exact hlinked c p

/-! ## Events -/

/-- A transaction that is offered to the pool, with what its entry is made of. -/
structure Submission where
  tx : CTransaction
  nFee : CAmount
  nTime : Int
  spendsCoinbaseOrCoinstake : Bool
  sigOps : Nat
  limits : Option AncestorLimits

def Submission.entry (sub : Submission) : CTxMemPoolEntry :=
  .new sub.tx sub.nFee sub.nTime sub.spendsCoinbaseOrCoinstake sub.sigOps

/-- What `AcceptToMemoryPoolWorker` does with the pool: nothing, or `addUnchecked` with the
ancestors that were found within the limits. -/
def submit (pool : CTxMemPool) (sub : Submission) : Option CTxMemPool :=
  if pool.passesConflictChecks sub.tx then
    match pool.calculateMemPoolAncestors sub.entry sub.limits true with
    | .ok setAncestors => some (pool.addUnchecked sub.entry setAncestors)
    | .error _ => none
  else none

theorem submit_eq_some {pool pool' : CTxMemPool} {sub : Submission}
    (h : pool.submit sub = some pool') :
    pool.passesConflictChecks sub.tx = true ∧ ∃ A,
      pool.calculateMemPoolAncestors sub.entry sub.limits true = .ok A ∧
      pool' = pool.addUnchecked sub.entry A := by
  unfold submit at h
  split_ifs at h with hchecks
  refine ⟨hchecks, ?_⟩
  cases hA : pool.calculateMemPoolAncestors sub.entry sub.limits true with
  | ok A =>
    rw [hA] at h
    exact ⟨A, rfl, (Option.some.inj h).symm⟩
  | error err =>
    rw [hA] at h
    cases h

/-- The pool, and the ids that were added again since the last update (`vHashUpdate`). -/
structure PoolState where
  pool : CTxMemPool
  vHashUpdate : List UInt256

inductive PoolEvent where
  | accept (sub : Submission)
  | readd (sub : Submission)
  | updateTransactionsFromBlock
  | removeRecursive (origTx : CTransaction)
  | removeForBlock (vtx : List CTransaction)
  | removeForReorg (env : ReorgEnv)
  | removeWithAnchor (invalidRoot : UInt256)
  | expire (time : Int)
  | trimToSize (env : TrimEnv) (sizelimit : Nat)

namespace PoolEvent

def apply (s : PoolState) : PoolEvent → PoolState
  | accept sub => { s with pool := (s.pool.submit sub).getD s.pool }
  | readd sub =>
    match s.pool.submit sub with
    | none => s
    | some pool => ⟨pool, s.vHashUpdate ++ [sub.tx.hash]⟩
  | updateTransactionsFromBlock => ⟨s.pool.updateTransactionsFromBlock s.vHashUpdate, []⟩
  | removeRecursive origTx => { s with pool := s.pool.removeRecursive origTx }
  | removeForBlock vtx => { s with pool := s.pool.removeForBlock vtx }
  | removeForReorg env => { s with pool := s.pool.removeForReorg env }
  | removeWithAnchor invalidRoot => { s with pool := s.pool.removeWithAnchor invalidRoot }
  | expire time => { s with pool := (s.pool.expire time).1 }
  | trimToSize env sizelimit => { s with pool := (s.pool.trimToSize env sizelimit).1 }

/-- How a node calls the pool. No transaction spends its own outputs. While transactions are added
again no other is accepted, and they come parents first: what one spends in the pool was added again
before it, and does not spend from it. In a block a transaction stands after those it spends. -/
def InOrder (s : PoolState) : PoolEvent → Prop
  | accept sub => NoSelfSpend sub.tx ∧ s.vHashUpdate = []
  | readd sub =>
    NoSelfSpend sub.tx ∧ sub.tx.hash ∉ s.vHashUpdate ∧
      (∀ txin ∈ sub.tx.vin, s.pool.contains txin.prevout.hash = true →
        txin.prevout.hash ∈ s.vHashUpdate) ∧
      ∀ c ∈ s.vHashUpdate, ¬ SpentBy s.pool sub.tx.hash c
  | removeForBlock vtx => BlockOrder s.pool vtx
  | _ => True

def Unspent (s : PoolState) : PoolEvent → Prop
  | accept sub => (s.pool.submit sub).isSome = true → ∀ c, ¬ SpentBy s.pool sub.tx.hash c
  | _ => True

end PoolEvent

/-- Every event of a run satisfies `P` in the state that it meets. -/
def Along (P : PoolState → PoolEvent → Prop) : PoolState → List PoolEvent → Prop
  | _, [] => True
  | s, ev :: events => P s ev ∧ Along P (ev.apply s) events

def runEvents (s : PoolState) (events : List PoolEvent) : PoolState :=
  events.foldl PoolEvent.apply s

/-! ## One event -/

variable {s : PoolState}

/-- **One event keeps the invariant**, if it is no acceptance of a transaction that is spent
from. -/
theorem Consistent.apply {ev : PoolEvent} (h : Consistent s.pool s.vHashUpdate)
    (horder : ev.InOrder s) (hunspent : ev.Unspent s) :
    Consistent (ev.apply s).pool (ev.apply s).vHashUpdate := by
  cases ev with
  | accept sub =>
    obtain ⟨hself, hR⟩ := horder
    rw [PoolEvent.apply]
    cases hsub : s.pool.submit sub with
    | none => exact h
    | some pool' =>
      obtain ⟨hchecks, A, hA, rfl⟩ := submit_eq_some hsub
      rw [hR] at h ⊢
      exact h.accept hchecks hself (alone_new ..) hA (hunspent (by rw [hsub]; rfl))
  | readd sub =>
    obtain ⟨hself, hR, hparents, hspent⟩ := horder
    rw [PoolEvent.apply]
    cases hsub : s.pool.submit sub with
    | none => exact h
    | some pool' =>
      obtain ⟨hchecks, A, hA, rfl⟩ := submit_eq_some hsub
      exact h.readd hchecks hself (alone_new ..) hA hR hparents hspent
  | updateTransactionsFromBlock => exact h.updateTransactionsFromBlock
  | removeRecursive origTx => exact h.trims (trims_removeRecursive s.pool origTx h.sound)
  | removeForBlock vtx => exact h.removeForBlock horder
  | removeForReorg env => exact h.trims (trims_removeForReorg env h.sound)
  | removeWithAnchor root => exact h.trims (trims_removeWithAnchor root h.sound)
  | expire time => exact h.trims (trims_expire time h.sound)
  | trimToSize env n => exact h.trims (trims_trimToSize env n h.sound)

/-- And if the pool is exact afterwards, it was none. -/
theorem Consistent.unspent_of_exact {ev : PoolEvent} (h : Consistent s.pool s.vHashUpdate)
    (horder : ev.InOrder s) (hexact : (ev.apply s).vHashUpdate = [] → Exact (ev.apply s).pool) :
    ev.Unspent s := by
  cases ev with
  | accept sub =>
    intro hsome c hspent
    obtain ⟨pool', hsub⟩ := Option.isSome_iff_exists.mp hsome
    have hpool : (PoolEvent.apply s (.accept sub)).pool = pool' := by
      rw [PoolEvent.apply, hsub]
      rfl
    have hexact := hexact horder.2
    rw [hpool] at hexact
    obtain ⟨hchecks, A, -, rfl⟩ := submit_eq_some hsub
    obtain ⟨hzc, hnew⟩ := hasZerocoinSpendInputs_of_checks hchecks
    change s.pool.contains sub.entry.tx.hash = false at hnew
    have hadds := addUnchecked_adds h.sound.links hnew hzc A
    have hspends := (hadds.spends hnew).mpr (.inr (.inr ⟨rfl, spentBy_iff.mp hspent⟩))
    -- so the new entry is a parent of `c`, but it has no links of that kind
    rcases (hadds.parents c _).mp ((hexact.parents c _).mpr hspends) with hold | ⟨rfl, -⟩
    · have := h.sound.links.parent_mem c _ hold
      rw [hnew] at this
      cases this
    · obtain ⟨e, he, -⟩ := hspent
      have : s.pool.contains sub.entry.tx.hash = true := by
        rw [contains, he]
        rfl
      rw [hnew] at this
      cases this
  | readd sub => exact trivial
  | updateTransactionsFromBlock => exact trivial
  | removeRecursive origTx => exact trivial
  | removeForBlock vtx => exact trivial
  | removeForReorg env => exact trivial
  | removeWithAnchor root => exact trivial
  | expire time => exact trivial
  | trimToSize env n => exact trivial

/-! ## Runs -/

theorem Consistent.exact_iff (h : Consistent s.pool s.vHashUpdate) {events : List PoolEvent}
    (horder : Along PoolEvent.InOrder s events) :
    (∀ before, before <+: events → (runEvents s before).vHashUpdate = [] →
      Exact (runEvents s before).pool) ↔ Along PoolEvent.Unspent s events := by
  induction events generalizing s with
  | nil =>
    refine iff_of_true (fun before hb hR => ?_) trivial
    rw [List.prefix_nil.mp hb] at hR ⊢
    have hR' : s.vHashUpdate = [] := hR
    rw [hR'] at h
    exact h.exact
  | cons ev events ih =>
    obtain ⟨hev, hevents⟩ := horder
    constructor
    · intro hexact
      have hunspent : ev.Unspent s := h.unspent_of_exact hev (hexact [ev] ⟨events, rfl⟩)
      refine ⟨hunspent, (ih (h.apply hev hunspent) hevents).mp fun before hb => ?_⟩
      exact hexact (ev :: before) ((List.prefix_cons_inj ev).mpr hb)
    · rintro ⟨hunspent, hrest⟩ before hb hR
      cases before with
      | nil =>
        have hR' : s.vHashUpdate = [] := hR
        rw [hR'] at h
        exact h.exact
      | cons ev' before =>
        obtain ⟨heq, hbefore⟩ := List.cons_prefix_cons.mp hb
        subst heq
        exact (ih (h.apply hev hunspent) hevents).mpr hrest before hbefore hR

/-- **Links and totals over a run.** They are exact in every state in which no update is due, if and
only if no transaction is accepted while the pool has one that spends from it. -/
theorem exact_iff_accepts_unspent (events : List PoolEvent)
    (horder : Along PoolEvent.InOrder ⟨empty, []⟩ events) :
    (∀ before, before <+: events → (runEvents ⟨empty, []⟩ before).vHashUpdate = [] →
      Exact (runEvents ⟨empty, []⟩ before).pool) ↔
      Along PoolEvent.Unspent ⟨empty, []⟩ events :=
  Consistent.exact_iff (s := ⟨empty, []⟩) consistent_empty horder

def spendingTx (hash prev : UInt256) : CTransaction where
  nVersion := 1
  nType := 0
  vin := [⟨⟨prev, 0⟩, [], 0⟩]
  vout := [⟨5, []⟩]
  sapData := none
  extraPayload := none
  hash

def spendingSubmission (hash prev : UInt256) : Submission :=
  ⟨spendingTx hash prev, 3, 0, false, 1, none⟩

/-- The pool is as large as the number of its transactions, and transaction 1 has the lowest
score. -/
def countingTrimEnv : TrimEnv := ⟨fun pool => pool.mapTx.keys.length, fun _ => 1⟩

/-- Transaction 2 spends from transaction 1, which is in a block with transaction 3. The block is
disconnected. When transaction 3 is added again, after transaction 1, the pool has one too many, and
is trimmed before the update. -/
def trimmedReorg : List PoolEvent :=
  [.accept (spendingSubmission 2 1), .readd (spendingSubmission 1 9),
    .readd (spendingSubmission 3 8), .trimToSize countingTrimEnv 2, .updateTransactionsFromBlock,
    .accept (spendingSubmission 1 9)]

/-- At the end transactions 1 and 2 are in the pool and not linked. -/
theorem trimmed_reorg_not_exact : Along PoolEvent.InOrder ⟨empty, []⟩ trimmedReorg ∧
      (runEvents ⟨empty, []⟩ trimmedReorg).vHashUpdate = [] ∧
      ¬ Exact (runEvents ⟨empty, []⟩ trimmedReorg).pool := by
  refine ⟨?_, rfl, fun h => ?_⟩
  · refine ⟨⟨by decide, rfl⟩, ⟨by decide, by decide, by decide, nofun⟩,
      ⟨by decide, by decide, by decide, ?_⟩, trivial, trivial, ⟨by decide, rfl⟩, trivial⟩
    rintro c hc ⟨e, he, txin, htxin, hspends⟩
    obtain rfl : c = 1 := List.mem_singleton.mp hc
    cases he
    obtain rfl := List.mem_singleton.mp htxin
    exact absurd hspends (by decide)
  · have hspends : Spends (runEvents ⟨empty, []⟩ trimmedReorg).pool 2 1 :=
      ⟨by decide, _, rfl, by decide⟩
    have hmem := (h.parents 2 1).mpr hspends
    cases hmem

/-- A reorganisation in a pool with room for all. -/
def plainReorg : List PoolEvent :=
  [.accept (spendingSubmission 2 1), .readd (spendingSubmission 1 9), .updateTransactionsFromBlock]

theorem plain_reorg_exact : Along PoolEvent.InOrder ⟨empty, []⟩ plainReorg ∧
      ∀ before, before <+: plainReorg → (runEvents ⟨empty, []⟩ before).vHashUpdate = [] →
        Exact (runEvents ⟨empty, []⟩ before).pool := by
  have horder : Along PoolEvent.InOrder ⟨empty, []⟩ plainReorg :=
    ⟨⟨by decide, rfl⟩, ⟨by decide, by decide, by decide, nofun⟩, trivial, trivial⟩
  refine ⟨horder, (exact_iff_accepts_unspent plainReorg horder).mpr ⟨fun _ c hspent => ?_, trivial,
    trivial, trivial⟩⟩
  obtain ⟨e, he, -⟩ := hspent
  cases he

end CTxMemPool

end Passion
