import Mathlib.Algebra.Order.BigOperators.Group.List
import Mathlib.Algebra.Ring.Int.Defs
import Passion.Budget.FinalizedBudget
import Passion.Budget.ProposalVotes
import Passion.Validation.Values

/-!
# What a finalized budget is checked for

`CFinalizedBudget::IsWellFormed` and `CFinalizedBudget::CheckProposals` of
`budget/finalizedbudget.cpp`. The first is asked once, when the budget comes from a peer; a
masternode asks the second before it votes for the budget on its own.

**The amount.** `GetTotalPayout` adds the amounts as 64-bit integers, and no payment is looked at by
itself. A negative payment makes room for others, and so does a sum that wraps around.

**The proposals.** `CheckProposals` compares the number of payments with the number of winning
proposals, and looks each payment up among them. A proposal that is paid twice in the place of
another passes.

Main results: `pays_within_iff`, when a well-formed budget stays within the total;
`checkProposals_perm_iff`, when a budget that passes pays each winning proposal once.
-/

namespace Passion

open Lib

structure CFinalizedBudgetVote where
  fValid : Bool
  nBudgetHash : UInt256
  nTime : Int
  mnId : COutPoint
  hash : UInt256
  deriving DecidableEq, Repr

/-- `CFinalizedBudget` with its name, its fee transaction and its votes. -/
structure FinalizedRecord where
  hash : UInt256
  strBudgetName : String
  nBlockStart : Int
  vecBudgetPayments : List CTxBudgetPayment
  nFeeTXHash : UInt256
  mapVotes : Map COutPoint CFinalizedBudgetVote

/-- `CBudgetProposal` with the members that are not about its votes. -/
structure ProposalRecord extends CBudgetProposal where
  nBlockStart : Int
  nBlockEnd : Int
  address : CScript
  nAmount : CAmount
  nAllotted : CAmount
  nFeeTXHash : UInt256

namespace FinalizedRecord

variable (fb : FinalizedRecord)

def toFinalizedBudget : CFinalizedBudget where
  nBlockStart := fb.nBlockStart
  vecBudgetPayments := fb.vecBudgetPayments
  mapVotes := fb.mapVotes.keys.toFinset

def getBlockEnd : Int := fb.toFinalizedBudget.getBlockEnd

def getTotalPayout : CAmount :=
  fb.vecBudgetPayments.foldl (fun ret p => wrap64 (ret + p.nAmount)) 0

/-! ## `IsWellFormed`

A check that fails leaves its reason in `strInvalid`. -/

def checkStartEnd (params : ConsensusParams) : Except String Unit :=
  if fb.nBlockStart = 0 then .error "Invalid BlockStart == 0"
  else if fb.nBlockStart.tmod params.nBudgetCycleBlocks ≠ 0 then .error "Invalid BlockStart"
  else if 100 < fb.getBlockEnd - fb.nBlockStart then .error "Invalid BlockEnd"
  else if 100 < fb.vecBudgetPayments.length then
    .error "Invalid budget payments count (too many)"
  else .ok ()

def checkAmount (nTotalBudget : CAmount) : Except String Unit :=
  if nTotalBudget < fb.getTotalPayout then .error "Invalid Payout (more than max)" else .ok ()

def checkName : Except String Unit :=
  if fb.strBudgetName = "" then .error "Invalid Budget Name" else .ok ()

def isWellFormed (params : ConsensusParams) (nTotalBudget : CAmount) : Except String Unit := do
  fb.checkStartEnd params
  fb.checkAmount nTotalBudget
  fb.checkName

/-! ## `CheckProposals` -/

def matchesProposal (mapWinningProposals : Map UInt256 ProposalRecord) (p : CTxBudgetPayment) :
    Bool :=
  match mapWinningProposals.lookup p.nProposalHash with
  | none => false
  | some prop => decide (p.payee = prop.address) && decide (p.nAmount = prop.nAmount)

def checkProposals (mapWinningProposals : Map UInt256 ProposalRecord) : Bool :=
  if mapWinningProposals.entries.isEmpty then false
  else if mapWinningProposals.entries.length ≠ fb.vecBudgetPayments.length then false
  else fb.vecBudgetPayments.all (matchesProposal mapWinningProposals)

/-! ## The payments of a well-formed budget -/

def exactPayout : Int := (fb.vecBudgetPayments.map (·.nAmount)).sum

def PaysWithin (nTotalBudget : CAmount) : Prop :=
  (∀ p ∈ fb.vecBudgetPayments, 0 ≤ p.nAmount ∧ p.nAmount ≤ nTotalBudget) ∧
    fb.exactPayout ≤ nTotalBudget

instance (nTotalBudget : CAmount) : Decidable (fb.PaysWithin nTotalBudget) :=
  inferInstanceAs (Decidable (_ ∧ _))

variable {fb : FinalizedRecord}

theorem foldl_wrap64 (payments : List CTxBudgetPayment) (a : Int) :
    payments.foldl (fun ret p => wrap64 (ret + p.nAmount)) (wrap64 a) =
      wrap64 (a + (payments.map (·.nAmount)).sum) := by
  induction payments generalizing a with
  | nil => simp
  | cons p payments ih =>
    rw [List.foldl_cons, wrap64_add_left, ih, List.map_cons, List.sum_cons, add_assoc]

theorem getTotalPayout_eq : fb.getTotalPayout = wrap64 fb.exactPayout := by
  have h := foldl_wrap64 fb.vecBudgetPayments 0
  rwa [zero_add] at h

theorem getTotalPayout_le {params : ConsensusParams} {nTotalBudget : CAmount}
    (hwf : fb.isWellFormed params nTotalBudget = .ok ()) : fb.getTotalPayout ≤ nTotalBudget := by
  obtain ⟨_, -, hwf⟩ := bind_eq_ok.1 hwf
  obtain ⟨_, hamount, -⟩ := bind_eq_ok.1 hwf
  by_contra! hlt
  simp [checkAmount, hlt] at hamount

/-- **A well-formed budget stays within the total** if and only if no payment is negative and the
payments add up without a wrap. -/
theorem pays_within_iff {params : ConsensusParams} {nTotalBudget : CAmount}
    (hT : Fits64 nTotalBudget) (hwf : fb.isWellFormed params nTotalBudget = .ok ()) :
    fb.PaysWithin nTotalBudget ↔
      (∀ p ∈ fb.vecBudgetPayments, 0 ≤ p.nAmount) ∧ fb.exactPayout < 9223372036854775808 := by
  constructor
  · rintro ⟨hall, hsum⟩
    exact ⟨fun p hp => (hall p hp).1, lt_of_le_of_lt hsum hT.2⟩
  · rintro ⟨hpos, hlt⟩
    have hnonneg : 0 ≤ fb.exactPayout := List.sum_nonneg (by simpa using hpos)
    have hexact : fb.getTotalPayout = fb.exactPayout := by
      rw [getTotalPayout_eq, wrap64_of_fits ⟨by omega, hlt⟩]
    have hsum : fb.exactPayout ≤ nTotalBudget := hexact ▸ getTotalPayout_le hwf
    refine ⟨fun p hp => ⟨hpos p hp, le_trans ?_ hsum⟩, hsum⟩
    exact List.single_le_sum (by simpa using hpos) _ (List.mem_map_of_mem hp)

end FinalizedRecord

/-! ### Budgets for the superblock of height 43200 -/

namespace FinalizedSample

def payee : CScript := [0x76, 0xa9]

def budget (payments : List (UInt256 × CAmount)) : FinalizedRecord where
  hash := 7
  strBudgetName := "main"
  nBlockStart := 43200
  vecBudgetPayments := payments.map fun p => ⟨p.1, payee, p.2⟩
  nFeeTXHash := 70
  mapVotes := ∅

/-- What may be paid in all: 103680 coins. -/
def total : CAmount := getTotalBudget .main 43200

/-- The second payment is of one unit less than nothing. -/
def overpaying : FinalizedRecord := budget [(1, total + 1), (2, -1)]

end FinalizedSample

open FinalizedSample in
theorem pays_within_iff_sample : (budget [(1, 40 * COIN), (2, 60 * COIN)]).PaysWithin total := by
  have hwf : (budget [(1, 40 * COIN), (2, 60 * COIN)]).isWellFormed .main total = .ok () := by
    decide
  exact (FinalizedRecord.pays_within_iff (by decide) hwf).2 (by decide)

open FinalizedSample in
/-- A negative payment makes room for one above the total. -/
theorem overpaying_wellFormed :
    overpaying.isWellFormed .main total = .ok () ∧ ¬ overpaying.PaysWithin total := by
  decide

/-! ## The winning proposals -/

/-- The payment that is due to a winning proposal; `SubmitFinalBudget` makes these. -/
def proposalPayment (e : Sigma fun _ : UInt256 => ProposalRecord) : CTxBudgetPayment :=
  ⟨e.1, e.2.address, e.2.nAllotted⟩

namespace FinalizedRecord

variable {fb : FinalizedRecord} {winning : Map UInt256 ProposalRecord}

theorem matchesProposal_iff {p : CTxBudgetPayment} : matchesProposal winning p = true ↔
      ∃ prop, winning.lookup p.nProposalHash = some prop ∧ p.payee = prop.address ∧
        p.nAmount = prop.nAmount := by
  unfold matchesProposal
  cases winning.lookup p.nProposalHash with
  | none => simp
  | some prop => simp

theorem checkProposals_iff : fb.checkProposals winning = true ↔
      winning.entries ≠ [] ∧ winning.entries.length = fb.vecBudgetPayments.length ∧
        ∀ p ∈ fb.vecBudgetPayments, matchesProposal winning p = true := by
  unfold checkProposals
  by_cases hempty : winning.entries = []
  · simp
  · by_cases hlen : winning.entries.length = fb.vecBudgetPayments.length
    · simp
    · simp

def getProposalsHashes (fb : FinalizedRecord) : List UInt256 :=
  fb.vecBudgetPayments.map (·.nProposalHash)

theorem mem_due_of_matches (hdue : ∀ e ∈ winning.entries, e.2.nAllotted = e.2.nAmount)
    {p : CTxBudgetPayment} (hp : matchesProposal winning p = true) :
    p ∈ winning.entries.map proposalPayment := by
  obtain ⟨prop, hlookup, hpayee, hamount⟩ := matchesProposal_iff.1 hp
  have hmem := AList.mem_lookup_iff.1 hlookup
  have hallotted : prop.nAllotted = p.nAmount := (hdue _ hmem).trans hamount.symm
  refine List.mem_map.2 ⟨_, hmem, ?_⟩
  simp [proposalPayment, ← hpayee, hallotted]

theorem allotted_of_matches {e : Sigma fun _ : UInt256 => ProposalRecord}
    (he : e ∈ winning.entries) (hp : matchesProposal winning (proposalPayment e) = true) :
    e.2.nAllotted = e.2.nAmount := by
  obtain ⟨prop, hlookup, -, hamount⟩ := matchesProposal_iff.1 hp
  have hentry : winning.lookup e.1 = some e.2 := AList.mem_lookup_iff.2 he
  have hprop : prop = e.2 := Option.some.inj (hlookup.symm.trans hentry)
  rwa [hprop] at hamount

/-- **A budget that passes `CheckProposals` pays each winning proposal once** if and only if it
names no proposal twice and what is allotted to a proposal is what it asks for. -/
theorem checkProposals_perm_iff (hcheck : fb.checkProposals winning = true) :
    fb.vecBudgetPayments.Perm (winning.entries.map proposalPayment) ↔
      fb.getProposalsHashes.Nodup ∧ ∀ e ∈ winning.entries, e.2.nAllotted = e.2.nAmount := by
  obtain ⟨-, hlen, hmatch⟩ := checkProposals_iff.1 hcheck
  constructor
  · intro hperm
    have hkeys : (winning.entries.map proposalPayment).map (·.nProposalHash) = winning.keys := by
      simp [AList.keys, List.keys, proposalPayment]
    refine ⟨?_, fun e he => ?_⟩
    · rw [getProposalsHashes, (hperm.map _).nodup_iff, hkeys]
      exact winning.keys_nodup
    · have hpaid := hperm.mem_iff.2 (List.mem_map_of_mem he)
      exact allotted_of_matches he (hmatch _ hpaid)
  · rintro ⟨hnodup, hdue⟩
    have hsub : fb.vecBudgetPayments ⊆ winning.entries.map proposalPayment :=
      fun p hp => mem_due_of_matches hdue (hmatch p hp)
    have hsubperm := List.subperm_of_subset (List.Nodup.of_map _ hnodup) hsub
    exact hsubperm.perm_of_length_le (by simp [hlen])

end FinalizedRecord

/-! ### Two winning proposals -/

namespace FinalizedSample

/-- A proposal that asks for 40 coins, all of which are allotted to it. -/
def proposal (hash : UInt256) : ProposalRecord where
  hash := hash
  mapVotes := ∅
  nBlockStart := 43200
  nBlockEnd := 86401
  address := payee
  nAmount := 40 * COIN
  nAllotted := 40 * COIN
  nFeeTXHash := hash + 10

def winners : Map UInt256 ProposalRecord :=
  AList.insert 2 (proposal 2) (AList.insert 1 (proposal 1) ∅)

/-- The first proposal is paid in the place of the second, too. -/
def paidTwice : FinalizedRecord := budget [(1, 40 * COIN), (1, 40 * COIN)]

end FinalizedSample

open FinalizedSample in
theorem checkProposals_perm_iff_sample :
    (budget [(1, 40 * COIN), (2, 40 * COIN)]).vecBudgetPayments.Perm
      (winners.entries.map proposalPayment) := by
  have hcheck : (budget [(1, 40 * COIN), (2, 40 * COIN)]).checkProposals winners = true := by
    decide
  exact (FinalizedRecord.checkProposals_perm_iff hcheck).2 (by decide)

open FinalizedSample in
theorem paidTwice_passes : paidTwice.checkProposals winners = true ∧
      ¬ paidTwice.vecBudgetPayments.Perm (winners.entries.map proposalPayment) := by
  decide

end Passion
