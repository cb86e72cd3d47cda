import Passion.Budget.FinalizedChecks
import Passion.Budget.Manager

/-!
# Votes on finalized budgets

`CFinalizedBudget::AddOrUpdateVote` and `GetVoteCount` of `budget/finalizedbudget`, and
`CBudgetManager::UpdateFinalizedBudget` and `RemoveStaleVotesOnFinalBudget` of
`budget/budgetmanager.cpp`.

Every fourteenth block marks the votes of masternodes that are not enabled any more as invalid. The
proposals count valid votes only; `GetVoteCount` of a finalized budget is the size of the map,
marked votes included. So the marking has no effect on what is paid
(`toManager_removeStaleVotes`).

Main result: `getVoteCount_eq_enabled_iff`, when the counts are those of the enabled masternodes.
-/

namespace Passion

open Lib

namespace FinalizedRecord

/-- `AddOrUpdateVote` at time `now`: `none` where it returns `false`. -/
def addOrUpdateVote (now : Int) (fb : FinalizedRecord) (vote : CFinalizedBudgetVote) :
    Option FinalizedRecord :=
  let tooSoon := (fb.mapVotes.lookup vote.mnId).any fun old =>
    decide (vote.nTime < old.nTime) || decide (vote.nTime - old.nTime < budgetVoteUpdateMin)
  if tooSoon then none
  else if now + 60 * 60 < vote.nTime then none
  else some { fb with mapVotes := fb.mapVotes.insert vote.mnId vote }

/-- `RemoveStaleVotesOnFinalBudget`; `findEnabled` is `IsEnabled()` of the masternode that
`mnodeman.Find` returns, if any. -/
def removeStaleVotesOnFinalBudget (findEnabled : COutPoint → Option Bool) (fb : FinalizedRecord) :
    FinalizedRecord :=
  { fb with
    mapVotes := fb.mapVotes.mapVal fun mnId vote =>
      { vote with fValid := (findEnabled mnId).getD false } }

end FinalizedRecord

def CFinalizedBudget.enabledVotes (findEnabled : COutPoint → Option Bool) (fb : CFinalizedBudget) :
    Int :=
  (fb.mapVotes.filter fun mnId => findEnabled mnId = some true).card

/-- The finalized budgets of `CBudgetManager`, with their votes. -/
structure FinalizedStore where
  mapFinalizedBudgets : Map UInt256 FinalizedRecord

namespace FinalizedStore

/-- What the payment of superblocks reads of the store. -/
def toManager (st : FinalizedStore) (nCountEnabled : Nat) : CBudgetManager where
  mapFinalizedBudgets := st.mapFinalizedBudgets.entries.map fun e => e.2.toFinalizedBudget
  nCountEnabled := nCountEnabled

/-- `UpdateFinalizedBudget`, without the request for a budget that is not known. -/
def updateFinalizedBudget (now : Int) (st : FinalizedStore) (vote : CFinalizedBudgetVote) :
    Bool × FinalizedStore :=
  match st.mapFinalizedBudgets.lookup vote.nBudgetHash with
  | none => (false, st)
  | some fb =>
    match fb.addOrUpdateVote now vote with
    | none => (false, st)
    | some fb => (true, ⟨st.mapFinalizedBudgets.insert vote.nBudgetHash fb⟩)

/-- The loop over `mapFinalizedBudgets` at the end of `NewBlock`. -/
def removeStaleVotes (findEnabled : COutPoint → Option Bool) (st : FinalizedStore) :
    FinalizedStore :=
  ⟨st.mapFinalizedBudgets.mapVal fun _ fb => fb.removeStaleVotesOnFinalBudget findEnabled⟩

end FinalizedStore

/-! ## The marking changes no count -/

theorem FinalizedRecord.toFinalizedBudget_removeStale (findEnabled : COutPoint → Option Bool)
    (fb : FinalizedRecord) :
    (fb.removeStaleVotesOnFinalBudget findEnabled).toFinalizedBudget = fb.toFinalizedBudget := by
  simp [toFinalizedBudget, removeStaleVotesOnFinalBudget, Map.keys_mapVal]

open FinalizedRecord

namespace FinalizedStore

/-- After the marking, the same budgets are picked, paid and accepted as before. -/
theorem toManager_removeStaleVotes (findEnabled : COutPoint → Option Bool) (st : FinalizedStore)
    (nCountEnabled : Nat) :
    (st.removeStaleVotes findEnabled).toManager nCountEnabled = st.toManager nCountEnabled := by
  simp [toManager, removeStaleVotes, Map.mapVal, toFinalizedBudget_removeStale]

end FinalizedStore

theorem CFinalizedBudget.getVoteCount_eq_enabledVotes_iff {findEnabled : COutPoint → Option Bool}
    {fb : CFinalizedBudget} :
    fb.getVoteCount = fb.enabledVotes findEnabled ↔
      ∀ mnId ∈ fb.mapVotes, findEnabled mnId = some true := by
  unfold getVoteCount enabledVotes
  rw [Nat.cast_inj, eq_comm, Finset.card_filter_eq_iff]

namespace FinalizedStore

/-- **The counts are those of the enabled masternodes** if and only if no masternode that voted is
missing or disabled. The counts are the ones that `GetBudgetWithHighestVoteCount`,
`GetPayeeAndAmount` and `IsTransactionValid` of the manager compare. -/
theorem getVoteCount_eq_enabled_iff (st : FinalizedStore) (findEnabled : COutPoint → Option Bool)
    (nCountEnabled : Nat) :
    (∀ fb ∈ ((st.removeStaleVotes findEnabled).toManager nCountEnabled).mapFinalizedBudgets,
        fb.getVoteCount = fb.enabledVotes findEnabled) ↔
      ∀ hash fb, st.mapFinalizedBudgets.lookup hash = some fb →
        ∀ mnId ∈ fb.mapVotes, findEnabled mnId = some true := by
  rw [toManager_removeStaleVotes]
  simp only [CFinalizedBudget.getVoteCount_eq_enabledVotes_iff, toManager, List.forall_mem_map]
  constructor
  · intro h hash fb hfb mnId hmn
    have hmem := AList.mem_lookup_iff.1 hfb
    exact h _ hmem mnId (List.mem_toFinset.2 hmn)
  · intro h e he mnId hmn
    have hlookup := AList.mem_lookup_iff.2 he
    exact h e.1 e.2 hlookup mnId (List.mem_toFinset.1 hmn)

end FinalizedStore

/-! ### A budget whose voters are gone -/

namespace FinalizedSample

/-- The masternode of number `n` votes for the budget with the given hash. -/
def voteOf (n : Nat) (budgetHash : UInt256) : CFinalizedBudgetVote where
  fValid := true
  nBudgetHash := budgetHash
  nTime := 1600000000
  mnId := ⟨5, n⟩
  hash := budgetHash + n

def rivals : FinalizedStore where
  mapFinalizedBudgets :=
    AList.insert 8 { budget [(2, 60 * COIN)] with hash := 8 }
      (AList.insert 7 (budget [(1, 40 * COIN)]) ∅)

/-- Masternodes 0 and 1 vote for the first budget, masternode 2 for the second. -/
def voted : FinalizedStore :=
  [voteOf 0 7, voteOf 1 7, voteOf 2 8].foldl
    (fun st vote => (st.updateFinalizedBudget 1600000000 vote).2) rivals

/-- Masternode 0 is disabled and masternode 1 has left the list. -/
def laterEnabled (mnId : COutPoint) : Option Bool :=
  if mnId = ⟨5, 0⟩ then some false else if mnId = ⟨5, 2⟩ then some true else none

def marked : CBudgetManager := (voted.removeStaleVotes laterEnabled).toManager 1

end FinalizedSample

open FinalizedSample in
/-- The budget that no enabled masternode voted for counts two votes, is picked and fills the
block. -/
theorem marked_pays_stale_budget :
    ¬ (∀ fb ∈ marked.mapFinalizedBudgets, fb.getVoteCount = fb.enabledVotes laterEnabled) ∧
      (marked.getBudgetWithHighestVoteCount 43200).map
          (fun fb => (fb.getVoteCount, fb.enabledVotes laterEnabled)) = some (2, 0) ∧
      marked.getPayeeAndAmount 43200 = some (payee, 40 * COIN) := by
  decide +kernel

end Passion
