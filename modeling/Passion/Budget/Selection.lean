import Mathlib.Data.List.Sort
import Passion.Budget.Collateral
import Passion.Lib.Greedy

/-!
# The proposals that a budget pays

`CBudgetManager::GetBudget` of `budget/budgetmanager.cpp`, with `RemoveStaleVotesOnProposal` and
`CBudgetProposal::IsPassing`, `IsEstablished` and `PtrHigherYes`.

The votes of masternodes that are gone are marked, the proposals are sorted by their net yes votes,
and the budget of the next superblock is given to those that pass, in that order, as far as it goes.
The loop is a greedy choice (`Lib.greedy`) among the passing proposals: `ret_grab` says so, where no
sum leaves 64 bits.

**Amounts.** `AddProposal` takes no proposal that asks for more than a whole budget. Two budgets
fit into 64 bits on every network, so the sums of the loop are exact on a store that was filled by
`AddProposal` (`admitted_run`).

Main result: `getBudget_isBudget`.
-/

namespace Passion

open Lib List
open CollateralSample (env)

/-- Mainnet proposals must be a day old, others five minutes. -/
def ConsensusParams.nProposalEstablishmentTime (params : ConsensusParams) : Int :=
  match params.network with
  | .main => 60 * 60 * 24
  | .testnet | .regtest => 60 * 5

namespace ProposalRecord

/-- `GetYeas() - GetNays()`. -/
def netYes (p : ProposalRecord) : Int := (p.getVoteCount .yes : Int) - p.getVoteCount .no

/-- `PtrHigherYes`. A tie goes to the higher collateral hash. -/
def ptrHigherYes (a b : ProposalRecord) : Bool :=
  if a.netYes = b.netYes then decide (b.nFeeTXHash < a.nFeeTXHash)
  else decide (b.netYes < a.netYes)

def setAllotted (nAllottedIn : CAmount) (p : ProposalRecord) : ProposalRecord :=
  { p with nAllotted := nAllottedIn }

/-- `RemoveStaleVotesOnProposal`; `findEnabled` is `IsEnabled()` of the masternode that
`mnodeman.Find` returns, if any. -/
def removeStaleVotesOnProposal (findEnabled : COutPoint → Option Bool) (p : ProposalRecord) :
    ProposalRecord :=
  { p with
    mapVotes := p.mapVotes.mapVal fun mnId vote =>
      { vote with fValid := (findEnabled mnId).getD false } }

theorem hash_removeStaleVotes (findEnabled : COutPoint → Option Bool) (p : ProposalRecord) :
    (p.removeStaleVotesOnProposal findEnabled).hash = p.hash := rfl

end ProposalRecord

/-- What `GetBudget` asks of the node. `fValid` and `nTime` are the members of a stored proposal
that `UpdateValid` and `CheckCollateral` set, by its hash. The order of `std::sort` among proposals
that `PtrHigherYes` does not tell apart is not specified. -/
structure SelectionEnv extends BudgetEnv where
  getAdjustedTime : Int
  findEnabled : COutPoint → Option Bool
  fValid : UInt256 → Bool
  nTime : UInt256 → Int
  sort : List ProposalRecord → List ProposalRecord
  sort_perm : ∀ l, (sort l).Perm l
  sort_sorted : ∀ l, (sort l).Pairwise fun a b => b.ptrHigherYes a = false
  /-- A cycle is no longer than the one of mainnet. -/
  cycle_bounds : 0 < params.nBudgetCycleBlocks ∧ params.nBudgetCycleBlocks ≤ 43200

open SelectionEnv

structure GrabState where
  /-- The stored proposals, whose `nAllotted` is set on the way. -/
  proposals : Indexed UInt256 fun p : ProposalRecord => p.hash
  nBudgetAllocated : CAmount
  vBudgetProposalsRet : List ProposalRecord

/-- `SetAllotted` through the pointer to a stored proposal. -/
def allotAt (hash : UInt256) (nAllottedIn : CAmount) (q : ProposalRecord) : ProposalRecord :=
  if q.hash = hash then q.setAllotted nAllottedIn else q

theorem hash_allotAt (hash : UInt256) (nAllottedIn : CAmount) (q : ProposalRecord) :
    (allotAt hash nAllottedIn q).hash = q.hash := by
  unfold allotAt
  split <;> rfl

namespace SelectionEnv

variable (env : SelectionEnv)

def nBlockStart : Int :=
  env.nCurrentHeight - env.nCurrentHeight.tmod env.params.nBudgetCycleBlocks +
    env.params.nBudgetCycleBlocks

def nBlockEnd : Int := env.nBlockStart + env.params.nBudgetCycleBlocks - 1

def nTotalBudget : CAmount := getTotalBudget env.params env.nBlockStart

def isEstablished (p : ProposalRecord) : Bool :=
  decide (env.nTime p.hash < env.getAdjustedTime - env.params.nProposalEstablishmentTime)

def isPassing (nBlockStartBudget nBlockEndBudget : Int) (mnCount : Nat) (p : ProposalRecord) :
    Bool :=
  if !env.fValid p.hash then false
  else if nBlockStartBudget < p.nBlockStart then false
  else if p.nBlockEnd < nBlockEndBudget then false
  else if p.netYes ≤ (mnCount / 10 : Nat) then false
  else if !env.isEstablished p then false
  else true

def passes (p : ProposalRecord) : Bool :=
  env.isPassing env.nBlockStart env.nBlockEnd env.nCountEnabled p

def grab (s : GrabState) (p : ProposalRecord) : GrabState :=
  if env.passes p then
    if wrap64 (p.nAmount + s.nBudgetAllocated) ≤ env.nTotalBudget then
      { proposals := s.proposals.update (allotAt p.hash p.nAmount) (hash_allotAt _ _)
        nBudgetAllocated := wrap64 (s.nBudgetAllocated + p.nAmount)
        vBudgetProposalsRet := s.vBudgetProposalsRet ++ [p.setAllotted p.nAmount] }
    else { s with proposals := s.proposals.update (allotAt p.hash 0) (hash_allotAt _ _) }
  else s

/-- The stored proposals, after the votes of masternodes that are gone were marked. -/
def cleanVotes (st : BudgetStore) : Indexed UInt256 fun p : ProposalRecord => p.hash :=
  st.proposals.update (·.removeStaleVotesOnProposal env.findEnabled)
    (ProposalRecord.hash_removeStaleVotes env.findEnabled)

def getBudget (st : BudgetStore) : List ProposalRecord × BudgetStore :=
  if env.nCurrentHeight ≤ 0 then ([], st)
  else
    let proposals := env.cleanVotes st
    let vBudgetPorposalsSort := env.sort (proposals.objects.entries.map (·.2))
    let s := vBudgetPorposalsSort.foldl env.grab ⟨proposals, 0, []⟩
    (s.vBudgetProposalsRet, { st with proposals := s.proposals })

end SelectionEnv

/-! ## What a budget should be -/

/-- The list is a budget for the superblock that is voted on: proposals of the store that pass, each
of them once and with its full amount, by net yes votes, within the total. A proposal that passes
and is not among them does not fit beside those that were chosen before it. -/
structure IsBudget (env : SelectionEnv) (st : BudgetStore) (ret : List ProposalRecord) : Prop where
  chosen : ∀ p ∈ ret, ∃ q, (env.cleanVotes st).objects.lookup q.hash = some q ∧
    env.passes q = true ∧ p = q.setAllotted q.nAmount
  distinct : (ret.map fun p => p.hash).Nodup
  ordered : ret.Pairwise fun a b => b.netYes ≤ a.netYes
  within : (ret.map (·.nAllotted)).sum ≤ env.nTotalBudget
  full : ∀ p ∈ ret, p.nAllotted = p.nAmount
  skipped : ∀ q, (env.cleanVotes st).objects.lookup q.hash = some q → env.passes q = true →
    q.hash ∉ ret.map (fun p => p.hash) →
      ∃ before after, ret = before ++ after ∧
        (∀ p ∈ before, q.ptrHigherYes p = false) ∧ (∀ p ∈ after, p.ptrHigherYes q = false) ∧
        env.nTotalBudget < q.nAmount + (before.map (·.nAmount)).sum

/-- Every stored proposal asks for an amount that `CheckAmount` lets through. -/
def BudgetStore.Admitted (params : ConsensusParams) (st : BudgetStore) : Prop :=
  ∀ hash p, st.proposals.objects.lookup hash = some p →
    (p.checkAmount (getTotalBudget params p.nBlockStart)).isOk = true

/-! ## Amounts -/

theorem getTotalBudget_bounds {params : ConsensusParams}
    (hcycle : 0 < params.nBudgetCycleBlocks ∧ params.nBudgetCycleBlocks ≤ 43200) (h : Int) :
    0 ≤ getTotalBudget params h ∧
      getTotalBudget params h ≤ 1036800000000000000 := by
  have hreward : ∀ r ∈ blockRewards, 0 ≤ r.tdiv 5 ∧ r.tdiv 5 ≤ 24000000000000 := by decide
  obtain ⟨hzero, hmost⟩ := hreward _ (getBlockValue_mem_blockRewards params.network h)
  refine ⟨mul_nonneg hzero hcycle.1.le, ?_⟩
  calc getTotalBudget params h
      ≤ 24000000000000 * 43200 := mul_le_mul hmost hcycle.2 hcycle.1.le (by decide)
    _ = 1036800000000000000 := by decide

theorem wrap64_add_budgets {a b : Int} (ha : 0 ≤ a ∧ a ≤ 1036800000000000000)
    (hb : 0 ≤ b ∧ b ≤ 1036800000000000000) : wrap64 (a + b) = a + b :=
  wrap64_of_fits ⟨by omega, by omega⟩

theorem ProposalRecord.checkAmount_isOk_iff {p : ProposalRecord} {nTotalBudget : CAmount} :
    (p.checkAmount nTotalBudget).isOk = true ↔
      10 * COIN ≤ p.nAmount ∧ p.nAmount ≤ nTotalBudget := by
  unfold checkAmount
  split_ifs with hlow hhigh
  · exact iff_of_false (by decide) fun h => h.1.not_gt hlow
  · exact iff_of_false (by decide) fun h => h.2.not_gt hhigh
  · exact iff_of_true (by decide) ⟨not_lt.mp hlow, not_lt.mp hhigh⟩

open ProposalRecord

namespace BudgetStore

variable {params : ConsensusParams} {st : BudgetStore}

theorem Admitted.bounds (h : st.Admitted params)
    (hcycle : 0 < params.nBudgetCycleBlocks ∧ params.nBudgetCycleBlocks ≤ 43200) {hash : UInt256}
    {p : ProposalRecord} (hp : st.proposals.objects.lookup hash = some p) :
    0 ≤ p.nAmount ∧ p.nAmount ≤ 1036800000000000000 := by
  obtain ⟨hlow, hhigh⟩ := checkAmount_isOk_iff.mp (h hash p hp)
  have hcoin : 0 ≤ 10 * COIN := by decide
  exact ⟨hcoin.trans hlow, hhigh.trans (getTotalBudget_bounds hcycle _).2⟩

theorem Admitted.update (h : st.Admitted params) {g : ProposalRecord → ProposalRecord}
    (hhash : ∀ p, (g p).hash = p.hash)
    (hkeep : ∀ p, (g p).nAmount = p.nAmount ∧ (g p).nBlockStart = p.nBlockStart) :
    Admitted params { st with proposals := st.proposals.update g hhash } := by
  intro hash p hp
  rw [Indexed.update, Map.lookup_mapVal, Option.map_eq_some_iff] at hp
  obtain ⟨q, hq, rfl⟩ := hp
  rw [checkAmount_isOk_iff, (hkeep q).1, (hkeep q).2]
  exact checkAmount_isOk_iff.mp (h hash q hq)

theorem Admitted.of_lookup {st' : BudgetStore} (h : st.Admitted params)
    (hleft : ∀ hash p, st'.proposals.objects.lookup hash = some p →
      st.proposals.objects.lookup hash = some p) : st'.Admitted params :=
  fun hash p hp => h hash p (hleft hash p hp)

theorem Admitted.addProposal {env : BudgetEnv} {p : ProposalRecord} (h : st.Admitted env.params) :
    (st.addProposal env p).2.Admitted env.params := by
  rw [addProposal_eq]
  split_ifs with haccept
  · intro hash q hq
    simp only [Indexed.add, Map.lookup_insertNew, lookup_of_acceptsProposal haccept,
      Option.getD_none] at hq
    split_ifs at hq with hhash
    · cases hq
      simp only [acceptsProposal, isWellFormed] at haccept
      -- the middle one of the three checks is the one of the amount
      cases hamount : p.checkAmount (getTotalBudget env.params p.nBlockStart) with
      | ok => rfl
      | error e =>
        rw [hamount] at haccept
        cases hstart : p.checkStartEnd env <;>
          simp [hstart, bind, Except.bind, Except.toBool] at haccept
    · exact h hash q hq
  · exact h

theorem Admitted.removeAt (h : st.Admitted params) (f : UInt256) :
    Admitted params { st with proposals := st.proposals.removeAt f } := by
  refine h.of_lookup fun hash p hp => ?_
  unfold Indexed.removeAt at hp
  split at hp
  · exact hp
  · rw [Map.lookup_erase'] at hp
    split_ifs at hp
    exact hp

theorem Admitted.apply {step : BudgetEnv × BudgetOp} (h : st.Admitted step.1.params) :
    (st.apply step).Admitted step.1.params := by
  obtain ⟨env, op⟩ := step
  cases op with
  | addProposal p => exact addProposal h
  | addFinalizedBudget fb =>
    simp only [BudgetStore.apply, addFinalizedBudget_eq]
    split_ifs <;> exact h
  | checkAndRemove =>
    refine h.of_lookup fun hash p hp => ?_
    simp only [BudgetStore.apply, checkAndRemove, Indexed.clean, Map.lookup_keep,
      Option.filter_eq_some_iff] at hp
    exact hp.1
  | removeByFeeTxId feeTxId =>
    simp only [BudgetStore.apply, removeByFeeTxId]
    split
    · exact h.removeAt feeTxId
    · exact h
  | changeVotes ofProposal ofBudget =>
    exact h.update (hash_setVotes ofProposal) fun _ => ⟨rfl, rfl⟩

theorem admitted_run (steps : List (BudgetEnv × BudgetOp))
    (hparams : ∀ step ∈ steps, step.1.params = params) : (run steps).Admitted params := by
  suffices hfrom : ∀ st : BudgetStore, st.Admitted params →
      (steps.foldl apply st).Admitted params by
    exact hfrom empty fun hash p hp => absurd hp (by simp [empty, Indexed.empty])
  induction steps with
  | nil => exact fun st h => h
  | cons step steps ih =>
    intro st h
    obtain ⟨hhead, htail⟩ := forall_mem_cons.mp hparams
    exact ih htail (st.apply step) (hhead ▸ Admitted.apply (hhead ▸ h))

end BudgetStore

/-! ## The loop -/

theorem ProposalRecord.netYes_le {a b : ProposalRecord} (h : b.ptrHigherYes a = false) :
    b.netYes ≤ a.netYes := by
  unfold ptrHigherYes at h
  split_ifs at h with heq
  · exact heq.le
  · exact not_lt.mp (of_decide_eq_false h)

namespace SelectionEnv

variable (env : SelectionEnv)

def choice (l : List ProposalRecord) : List ProposalRecord :=
  greedy (fun p => p.nAmount) env.nTotalBudget 0 (l.filter env.passes)

/-- **The loop chooses greedily.** With amounts of at most one budget no sum leaves 64 bits, so the
test of a round is the test of the choice. -/
theorem ret_grab (l : List ProposalRecord)
    (hl : ∀ p ∈ l, 0 ≤ p.nAmount ∧ p.nAmount ≤ 1036800000000000000) (s : GrabState)
    (hs : 0 ≤ s.nBudgetAllocated ∧ s.nBudgetAllocated ≤ env.nTotalBudget) :
    (l.foldl env.grab s).vBudgetProposalsRet =
      s.vBudgetProposalsRet ++
        (greedy (fun p => p.nAmount) env.nTotalBudget s.nBudgetAllocated
          (l.filter env.passes)).map fun p => p.setAllotted p.nAmount := by
  have htotal : env.nTotalBudget ≤ 1036800000000000000 :=
    (getTotalBudget_bounds env.cycle_bounds _).2
  induction l generalizing s with
  | nil => simp
  | cons p l ih =>
    obtain ⟨⟨hp, hp'⟩, htail⟩ := forall_mem_cons.mp hl
    have hexact : wrap64 (p.nAmount + s.nBudgetAllocated) = p.nAmount + s.nBudgetAllocated :=
      wrap64_add_budgets ⟨hp, hp'⟩ ⟨hs.1, hs.2.trans htotal⟩
    rw [foldl_cons]
    by_cases hpass : env.passes p = true
    · rw [filter_cons_of_pos hpass, greedy_cons]
      by_cases hfits : p.nAmount + s.nBudgetAllocated ≤ env.nTotalBudget
      · rw [ih htail]
        · simp [grab, hpass, hexact, hfits, add_comm s.nBudgetAllocated]
        · simp only [grab, hpass, hexact, hfits, if_true, add_comm s.nBudgetAllocated]
          exact ⟨add_nonneg hp hs.1, trivial⟩
      · rw [ih htail]
        · simp [grab, hpass, hexact, hfits]
        · simpa [grab, hpass, hexact, hfits] using hs
    · rw [ih htail]
      · simp [grab, hpass]
      · simpa [grab, hpass] using hs

def sorted (st : BudgetStore) : List ProposalRecord :=
  env.sort ((env.cleanVotes st).objects.entries.map (·.2))

variable {env} {st : BudgetStore}

variable {q : ProposalRecord}

theorem mem_sorted : q ∈ env.sorted st ↔ (env.cleanVotes st).objects.lookup q.hash = some q := by
  rw [sorted, (env.sort_perm _).mem_iff, mem_map]
  constructor
  · rintro ⟨e, he, rfl⟩
    have hlookup := AList.mem_lookup_iff.mpr he
    rwa [(env.cleanVotes st).keyed _ _ hlookup]
  · exact fun h => ⟨⟨q.hash, q⟩, AList.mem_lookup_iff.mp h, rfl⟩

theorem nodup_sorted : ((env.sorted st).map fun p => p.hash).Nodup := by
  refine ((env.sort_perm _).map _).nodup_iff.mpr ?_
  have hkeys : ((env.cleanVotes st).objects.entries.map (·.2)).map (fun p => p.hash) =
      (env.cleanVotes st).objects.keys := by
    rw [map_map]
    refine map_congr_left fun e he => ?_
    exact (env.cleanVotes st).keyed _ _ (AList.mem_lookup_iff.mpr he)
  rw [hkeys]
  exact (env.cleanVotes st).objects.nodupKeys

theorem amount_sorted (hadmitted : st.Admitted env.params) (hq : q ∈ env.sorted st) :
    0 ≤ q.nAmount ∧ q.nAmount ≤ 1036800000000000000 :=
  (hadmitted.update (hash_removeStaleVotes env.findEnabled)
    fun _ => ⟨rfl, rfl⟩).bounds env.cycle_bounds (mem_sorted.mp hq)

theorem getBudget_eq (hheight : 0 < env.nCurrentHeight) (hadmitted : st.Admitted env.params) :
    (env.getBudget st).1 = (env.choice (env.sorted st)).map fun p => p.setAllotted p.nAmount := by
  have htotal := getTotalBudget_bounds env.cycle_bounds env.nBlockStart
  rw [getBudget, if_neg (not_le.mpr hheight)]
  exact (env.ret_grab (env.sorted st) (fun p hp => amount_sorted hadmitted hp) _
    ⟨le_refl 0, htotal.1⟩).trans (nil_append _)

theorem choice_sublist (l : List ProposalRecord) : (env.choice l).Sublist l :=
  (greedy_sublist ..).trans filter_sublist

/-- A passing proposal that is not chosen is ranked between two parts of the choice, and the part
before it leaves too little. -/
theorem exists_split_of_not_chosen (hq : q ∈ env.sorted st) (hpass : env.passes q = true)
    (hout : q ∉ env.choice (env.sorted st)) :
    ∃ before after, env.choice (env.sorted st) = before ++ after ∧
      (∀ p ∈ before, q.ptrHigherYes p = false) ∧ (∀ p ∈ after, p.ptrHigherYes q = false) ∧
      env.nTotalBudget < q.nAmount + (before.map (·.nAmount)).sum := by
  obtain ⟨before, after, hfilter, rest, hrest, hchoice, htotal⟩ :=
    exists_split_of_not_taken (mem_filter.mpr ⟨hq, hpass⟩) hout
  have hsorted : ((env.sorted st).filter env.passes).Pairwise fun a b => b.ptrHigherYes a = false :=
    (env.sort_sorted _).sublist filter_sublist
  rw [hfilter, pairwise_append, pairwise_cons] at hsorted
  refine ⟨_, rest, hchoice, ?_, fun p hp => hsorted.2.1.1 p (hrest.subset hp), ?_⟩
  · exact fun p hp => hsorted.2.2 p ((greedy_sublist ..).subset hp) q mem_cons_self
  · rwa [add_zero] at htotal

end SelectionEnv

/-- **`GetBudget` gives a budget**, at every height above the genesis block and for any votes. -/
theorem getBudget_isBudget (env : SelectionEnv) (st : BudgetStore)
    (hheight : 0 < env.nCurrentHeight) (hadmitted : st.Admitted env.params) :
    IsBudget env st (env.getBudget st).1 := by
  have hhash : ((env.choice (env.sorted st)).map fun p => p.setAllotted p.nAmount).map
      (fun p => p.hash) = (env.choice (env.sorted st)).map fun p => p.hash := by
    rw [map_map]
    rfl
  rw [getBudget_eq hheight hadmitted]
  constructor
  case chosen =>
    intro p hp
    obtain ⟨q, hq, rfl⟩ := mem_map.mp hp
    exact ⟨q, mem_sorted.mp ((choice_sublist _).subset hq),
      of_mem_filter ((greedy_sublist ..).subset hq), rfl⟩
  case distinct =>
    rw [hhash]
    exact nodup_sorted.sublist ((choice_sublist _).map _)
  case ordered =>
    refine pairwise_map.mpr ?_
    refine ((env.sort_sorted _).sublist (choice_sublist _)).imp fun {a b} h => ?_
    exact netYes_le h
  case within =>
    have hfits := used_add_sum_greedy_le (fun p : ProposalRecord => p.nAmount)
      env.nTotalBudget (getTotalBudget_bounds env.cycle_bounds env.nBlockStart).1
      ((env.sorted st).filter env.passes)
    rw [map_map]
    rwa [add_zero] at hfits
  case full =>
    intro p hp
    obtain ⟨q, -, rfl⟩ := mem_map.mp hp
    rfl
  case skipped =>
    intro q hstored hpass hout
    have hout' : q ∉ env.choice (env.sorted st) :=
      fun h => hout (hhash ▸ mem_map_of_mem h)
    obtain ⟨before, after, hchoice, hbefore, hafter, htotal⟩ :=
      exists_split_of_not_chosen (mem_sorted.mpr hstored) hpass hout'
    refine ⟨_, _, by rw [hchoice, map_append], ?_, ?_, ?_⟩
    · exact forall_mem_map.mpr hbefore
    · exact forall_mem_map.mpr hafter
    · rwa [map_map]

theorem keeps_allotAt (hash : UInt256) (nAllottedIn : CAmount) (q : ProposalRecord) :
    (allotAt hash nAllottedIn q).nAmount = q.nAmount ∧
      (allotAt hash nAllottedIn q).nBlockStart = q.nBlockStart := by
  unfold allotAt
  split <;> exact ⟨rfl, rfl⟩

/-- The amounts stay as they were admitted, whatever is allotted. -/
theorem BudgetStore.Admitted.getBudget {env : SelectionEnv} {st : BudgetStore}
    {params : ConsensusParams} (h : st.Admitted params) :
    (env.getBudget st).2.Admitted params := by
  unfold SelectionEnv.getBudget
  split_ifs
  · exact h
  · refine foldlRecOn
      (motive := fun s : GrabState => Admitted params { st with proposals := s.proposals }) _ _
      (h.update (hash_removeStaleVotes env.findEnabled) fun _ => ⟨rfl, rfl⟩) fun s hs p _ => ?_
    unfold grab
    split_ifs
    · exact hs.update (hash_allotAt _ _) (keeps_allotAt _ _)
    · exact hs.update (hash_allotAt _ _) (keeps_allotAt _ _)
    · exact hs

/-! ### Two proposals that do not fit together -/

namespace SelectionSample

/-- The order that the sort of `GetBudget` establishes. -/
def ByYes (a b : ProposalRecord) : Prop := b.ptrHigherYes a = false

instance : DecidableRel ByYes := fun a b => inferInstanceAs (Decidable (b.ptrHigherYes a = false))

theorem byYes_iff {a b : ProposalRecord} : ByYes a b ↔ b.netYes < a.netYes ∨
      (b.netYes = a.netYes ∧ b.nFeeTXHash.toNat ≤ a.nFeeTXHash.toNat) := by
  unfold ByYes ptrHigherYes
  split_ifs with heq
  · simp [heq, BitVec.lt_def]
  · simp only [decide_eq_false_iff_not, not_lt, heq, false_and, or_false]
    exact ⟨fun h => lt_of_le_of_ne h heq, le_of_lt⟩

instance : Std.Total ByYes := ⟨fun a b => by simp only [byYes_iff]; omega⟩

instance : IsTrans ProposalRecord ByYes :=
  ⟨fun a b c hab hbc => by simp only [byYes_iff] at *; omega⟩

/-- The first asks for 60000 coins, the second for 50000; the budget has 103680. -/
def proposal (hash : UInt256) (nAmount : CAmount) : ProposalRecord :=
  { CollateralSample.proposal hash with nAmount := nAmount }

def votes (hash : UInt256) : Map COutPoint CBudgetVote :=
  (range (4 - hash.toNat)).foldl
    (fun m i => m.insert ⟨100, i⟩ ⟨true, hash, .yes, 0, ⟨100, i⟩, hash⟩) ∅

def steps : List (BudgetEnv × BudgetOp) :=
  [(env, .addProposal (proposal 1 (60000 * COIN))),
    (env, .addProposal (proposal 2 (50000 * COIN))),
    (env, .changeVotes votes fun _ => ∅)]

theorem cycle_main : 0 < ConsensusParams.main.nBudgetCycleBlocks ∧
    ConsensusParams.main.nBudgetCycleBlocks ≤ 43200 := by decide

/-- Ten masternodes are enabled, so that a proposal needs two votes. -/
def envAt (nCurrentHeight : Int) : SelectionEnv where
  params := .main
  nCurrentHeight := nCurrentHeight
  nCountEnabled := 10
  getTransaction := env.getTransaction
  findActive := env.findActive
  hasValidDestination := env.hasValidDestination
  getAdjustedTime := 100000
  findEnabled _ := some true
  fValid _ := true
  nTime _ := 0
  sort l := l.insertionSort ByYes
  sort_perm l := perm_insertionSort ByYes l
  sort_sorted l := pairwise_insertionSort ByYes l
  cycle_bounds := cycle_main

/-- The amounts come to one unit more than 64 bits hold. -/
def overflowing : BudgetStore where
  proposals := (Indexed.empty.add nFeeTXHash
      { proposal 1 (10 * COIN) with mapVotes := votes 1 }).add nFeeTXHash
    { proposal 2 (9223372036854775808 - 10 * COIN) with mapVotes := votes 2 }
  budgets := .empty

end SelectionSample

open SelectionSample BudgetStore in
/-- The first proposal is paid, and the second does not fit beside it. -/
theorem getBudget_isBudget_sample :
    IsBudget (envAt 43100) (run steps) ((envAt 43100).getBudget (run steps)).1 ∧
      (((envAt 43100).getBudget (run steps)).1.map fun p => (p.hash, p.nAllotted)) =
        [(1, 60000 * COIN)] :=
  ⟨getBudget_isBudget (envAt 43100) (run steps) (by decide)
    (admitted_run steps (by simp [steps, envAt, CollateralSample.env])), by decide +kernel⟩

open SelectionSample BudgetStore in
/-- At the genesis block nothing is chosen, although both proposals pass. Amounts that
`AddProposal` would refuse can pass the test of the loop by overflow. -/
theorem getBudget_not_budget :
    ¬ IsBudget (envAt 0) (run steps) ((envAt 0).getBudget (run steps)).1 ∧
      ¬ IsBudget (envAt 43100) overflowing ((envAt 43100).getBudget overflowing).1 := by
  constructor
  · intro h
    have hnone : ((envAt 0).getBudget (run steps)).1 = [] := by decide +kernel
    have hstored : (((envAt 0).cleanVotes (run steps)).objects.lookup 1).any
        (fun q => q.hash == 1 && (envAt 0).passes q &&
          decide (q.nAmount ≤ (envAt 0).nTotalBudget)) = true := by decide +kernel
    obtain ⟨q, hq, hpass⟩ := (Option.any_eq_true _ _).mp hstored
    simp only [Bool.and_eq_true, beq_iff_eq, decide_eq_true_eq] at hpass
    obtain ⟨⟨hhash, hpass⟩, hamount⟩ := hpass
    rw [← hhash] at hq
    obtain ⟨before, after, hsplit, -, -, htotal⟩ := h.skipped q hq hpass (by simp [hnone])
    obtain ⟨rfl, rfl⟩ := append_eq_nil_iff.mp (hnone.symm.trans hsplit).symm
    rw [map_nil, sum_nil, add_zero] at htotal
    exact hamount.not_gt htotal
  · intro h
    have hsum : ¬ ((((envAt 43100).getBudget overflowing).1.map (·.nAllotted)).sum ≤
        (envAt 43100).nTotalBudget) := by decide +kernel
    exact hsum h.within

end Passion
