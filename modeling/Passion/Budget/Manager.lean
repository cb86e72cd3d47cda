import Passion.Budget.FinalizedBudget
import Passion.Validation.Values

/-!
# Superblocks: the producer and the validator

`CBudgetManager::GetBudgetWithHighestVoteCount`, `IsBudgetPaymentBlock`, `GetPayeeAndAmount`,
`FillBlockPayee` and `IsTransactionValid` of `budget/budgetmanager.cpp`.

The producer pays what the finalized budget with most votes says for the height, and asks nothing of
the payment history. The validator goes through all budgets above the threshold, in the order of the
map, and takes the first that accepts; each of them it asks drops and adds records of the history.

Main results: `isTransactionValid_valid_iff`, the closed form of the validator's loop in terms of
the history before it; `superblock_agrees_iff`, when the producer's coinstake is accepted.
-/

namespace Passion

open Lib CFinalizedBudget List

structure CBudgetManager where
  /-- The finalized budgets in the order of their hashes, which is that of the map. -/
  mapFinalizedBudgets : List CFinalizedBudget
  /-- `mnodeman.CountEnabled(ActiveProtocol())`. -/
  nCountEnabled : Nat

namespace CBudgetManager

/-- One round of the loop of `GetBudgetWithHighestVoteCount`. -/
def higher (chainHeight : Int) (best : Option CFinalizedBudget × Int) (fb : CFinalizedBudget) :
    Option CFinalizedBudget × Int :=
  if best.2 < fb.getVoteCount ∧ fb.nBlockStart ≤ chainHeight ∧ chainHeight ≤ fb.getBlockEnd then
    (some fb, fb.getVoteCount)
  else best

variable (m : CBudgetManager)

def getBudgetWithHighestVoteCount (chainHeight : Int) : Option CFinalizedBudget :=
  (m.mapFinalizedBudgets.foldl (higher chainHeight) (none, 0)).1

def getHighestVoteCount (chainHeight : Int) : Int :=
  ((m.getBudgetWithHighestVoteCount chainHeight).map (·.getVoteCount)).getD (-1)

/-- `nCountThreshold` of `IsBudgetPaymentBlock`: one less than the highest count where a tenth of
the masternodes is none. -/
def countThreshold (nBlockHeight : Int) : Int :=
  let nHighestCount := m.getHighestVoteCount nBlockHeight
  let nCountThreshold := nHighestCount - (m.nCountEnabled / 10 : Nat)
  if nCountThreshold = nHighestCount then nCountThreshold - 1 else nCountThreshold

def isBudgetPaymentBlock (nBlockHeight : Int) : Bool :=
  decide (((m.nCountEnabled / 20 : Nat) : Int) < m.getHighestVoteCount nBlockHeight)

def getPayeeAndAmount (chainHeight : Int) : Option (CScript × CAmount) :=
  if m.isBudgetPaymentBlock chainHeight then
    match m.getBudgetWithHighestVoteCount chainHeight with
    | none => none
    | some pfb =>
      match pfb.getPayeeAndAmount chainHeight with
      | none => none
      | some payment =>
        if m.countThreshold chainHeight < pfb.getVoteCount then some payment else none
  else none

def getExpectedPayeeAmount (chainHeight : Int) : Option CAmount :=
  (m.getPayeeAndAmount chainHeight).map (·.2)

/-- `FillBlockPayee`: `none` where it returns `false`. -/
def fillBlockPayee (params : ConsensusParams) (txNew : CTransaction) (nHeight : Int)
    (fProofOfStake : Bool) : Option CTransaction :=
  if nHeight ≤ 0 then none
  else
    match m.getPayeeAndAmount nHeight with
    | none => none
    | some (payee, nAmount) =>
      let blockValue := getBlockValue params.network nHeight
      if fProofOfStake then some { txNew with vout := txNew.vout ++ [⟨nAmount, payee⟩] }
      else
        -- miners get the full amount on these blocks, and `resize(2)` drops other outputs
        some { txNew with
          vout := (txNew.vout.take 1).map (fun out => { out with nValue := blockValue }) ++
            [⟨nAmount, payee⟩] }

/-- The loop of `IsTransactionValid`, with the flag `fThreshold`. -/
def checkBudgets (nCountThreshold : Int) (onChain : UInt256 → Bool) (txNew : CTransaction)
    (nBlockHash : UInt256) (nBlockHeight : Int) :
    List CFinalizedBudget → Bool → PaymentHistory → TrxValidationStatus × PaymentHistory
  | [], fThreshold, history => (if fThreshold then .inValid else .voteThreshold, history)
  | pfb :: rest, fThreshold, history =>
    if nCountThreshold < pfb.getVoteCount then
      match pfb.isTransactionValid onChain txNew nBlockHash nBlockHeight history with
      | (.valid, history) => (.valid, history)
      | (_, history) =>
        checkBudgets nCountThreshold onChain txNew nBlockHash nBlockHeight rest true history
    else
      checkBudgets nCountThreshold onChain txNew nBlockHash nBlockHeight rest fThreshold history

def isTransactionValid (onChain : UInt256 → Bool) (txNew : CTransaction) (nBlockHash : UInt256)
    (nBlockHeight : Int) (history : PaymentHistory) : TrxValidationStatus × PaymentHistory :=
  if !m.isBudgetPaymentBlock nBlockHeight then (.inValid, history)
  else
    checkBudgets (m.countThreshold nBlockHeight) onChain txNew nBlockHash nBlockHeight
      m.mapFinalizedBudgets false history

/-- What `IsBlockPayeeValid` asks of the manager, at a given history. -/
def toBudget (onChain : UInt256 → Bool) (history : PaymentHistory) : Budget where
  isBudgetPaymentBlock := m.isBudgetPaymentBlock
  isTransactionValid txNew hash h := (m.isTransactionValid onChain txNew hash h history).1

/-! ## The producer -/

variable {h : Int}

theorem mem_of_foldl_higher {fb : CFinalizedBudget} (l : List CFinalizedBudget)
    (best : Option CFinalizedBudget × Int) (hfb : (l.foldl (higher h) best).1 = some fb) :
    (fb ∈ l ∧ fb.covers h = true) ∨ best.1 = some fb := by
  induction l generalizing best with
  | nil => exact .inr hfb
  | cons g l ih =>
    rcases ih _ hfb with ⟨hmem, hcov⟩ | hbest
    · exact .inl ⟨mem_cons_of_mem g hmem, hcov⟩
    · unfold higher at hbest
      split_ifs at hbest with hg
      · cases hbest
        exact .inl ⟨mem_cons_self, covers_iff_le.2 hg.2⟩
      · exact .inr hbest

variable {m}

theorem getBudgetWithHighestVoteCount_mem {fb : CFinalizedBudget}
    (hfb : m.getBudgetWithHighestVoteCount h = some fb) :
    fb ∈ m.mapFinalizedBudgets ∧ fb.covers h = true := by
  rcases mem_of_foldl_higher _ _ hfb with hmem | hnone
  · exact hmem
  · cases hnone

theorem countThreshold_lt (h : Int) : m.countThreshold h < m.getHighestVoteCount h := by
  simp only [countThreshold]
  split_ifs <;> omega

theorem getPayeeAndAmount_of_isBudgetPaymentBlock (hblock : m.isBudgetPaymentBlock h = true) :
    ∃ fb p, m.getBudgetWithHighestVoteCount h = some fb ∧
      fb.getBudgetPaymentByBlock h = some p ∧
      m.getPayeeAndAmount h = some (p.payee, p.nAmount) := by
  have hlt := countThreshold_lt (m := m) h
  cases hfb : m.getBudgetWithHighestVoteCount h with
  | none =>
    have hcount : m.getHighestVoteCount h = -1 := by simp [getHighestVoteCount, hfb]
    rw [isBudgetPaymentBlock, decide_eq_true_eq] at hblock
    omega
  | some fb =>
    have hcount : m.getHighestVoteCount h = fb.getVoteCount := by simp [getHighestVoteCount, hfb]
    obtain ⟨p, hp⟩ := covers_iff.1 (getBudgetWithHighestVoteCount_mem hfb).2
    rw [hcount] at hlt
    exact ⟨fb, p, rfl, hp,
      by simp [getPayeeAndAmount, hblock, hfb, CFinalizedBudget.getPayeeAndAmount, hp, hlt]⟩

/-! ## The validator -/

/-- The budget is asked, and it has a payment at the height. -/
def asked (nCountThreshold h : Int) (fb : CFinalizedBudget) : Bool :=
  decide (nCountThreshold < fb.getVoteCount) && fb.covers h

/-- A record of the proposal names another block of the active chain, at a height that all of
`ranges` cover. -/
def PaidElsewhere (onChain : UInt256 → Bool) (hash : UInt256) (history : PaymentHistory)
    (nProposalHash : UInt256) (ranges : List CFinalizedBudget) : Prop :=
  ∃ paid r, history.lookup nProposalHash = some (paid, r) ∧ paid ≠ hash ∧ onChain paid = true ∧
    ∀ g ∈ ranges, g.covers r = true

/-- A budget that is asked after those of `before` has one of `vout` as its payment, and the payment
is not recorded elsewhere. -/
def PaymentAccepted (nCountThreshold : Int) (onChain : UInt256 → Bool) (hash : UInt256) (h : Int)
    (history : PaymentHistory) (vout : List CTxOut) (before : List CFinalizedBudget)
    (fb : CFinalizedBudget) : Prop :=
  nCountThreshold < fb.getVoteCount ∧ ∃ p, fb.getBudgetPaymentByBlock h = some p ∧ p.out ∈ vout ∧
    ¬ PaidElsewhere onChain hash history p.nProposalHash
      (fb :: before.filter (asked nCountThreshold h))

section

variable {onChain : UInt256 → Bool} {hash : UInt256} {h threshold : Int} {tx : CTransaction}

theorem paidElsewhere_isPaidAlready {g : CFinalizedBudget} {q : UInt256} {history : PaymentHistory}
    {proposal : UInt256} {ranges : List CFinalizedBudget} :
    PaidElsewhere onChain hash (g.isPaidAlready onChain q hash h history).2 proposal ranges ↔
      PaidElsewhere onChain hash history proposal (g :: ranges) := by
  refine exists_congr fun paid => exists_congr fun r => ?_
  rw [forall_mem_cons]
  by_cases hne : paid = hash
  · simp [hne]
  · rw [lookup_isPaidAlready_ne hne]
    tauto

theorem exists_split_cons {α : Type} {P : List α → α → Prop} (a : α) (l : List α) :
    (∃ pre x post, a :: l = pre ++ x :: post ∧ P pre x) ↔
      P [] a ∨ ∃ pre x post, l = pre ++ x :: post ∧ P (a :: pre) x := by
  constructor
  · rintro ⟨_ | ⟨b, pre⟩, x, post, heq, hP⟩
    · cases heq
      exact .inl hP
    · cases heq
      exact .inr ⟨pre, x, post, rfl, hP⟩
  · rintro (hP | ⟨pre, x, post, rfl, hP⟩)
    · exact ⟨[], a, l, rfl, hP⟩
    · exact ⟨a :: pre, x, post, rfl, hP⟩

variable {history : PaymentHistory} {vout : List CTxOut} {g fb : CFinalizedBudget}
  {pre : List CFinalizedBudget}

theorem paymentAccepted_cons_of_not_asked (hg : asked threshold h g = false) :
    PaymentAccepted threshold onChain hash h history vout (g :: pre) fb ↔
      PaymentAccepted threshold onChain hash h history vout pre fb := by
  simp [PaymentAccepted, hg]

theorem paymentAccepted_cons_of_asked (hg : asked threshold h g = true) (q : UInt256) :
    PaymentAccepted threshold onChain hash h history vout (g :: pre) fb ↔
      PaymentAccepted threshold onChain hash h (g.isPaidAlready onChain q hash h history).2 vout
        pre fb := by
  simp only [PaymentAccepted, paidElsewhere_isPaidAlready, filter_cons_of_pos hg]
  simp only [PaidElsewhere, forall_mem_cons, and_left_comm]

theorem paymentAccepted_nil_iff {p : CTxBudgetPayment} (hvotes : threshold < fb.getVoteCount)
    (hp : fb.getBudgetPaymentByBlock h = some p) :
    PaymentAccepted threshold onChain hash h history vout [] fb ↔
      p.out ∈ vout ∧ ¬ (fb.isPaidAlready onChain p.nProposalHash hash h history).1 = true := by
  have hpaid : PaidElsewhere onChain hash history p.nProposalHash [fb] ↔
      (fb.isPaidAlready onChain p.nProposalHash hash h history).1 = true := by
    rw [isPaidAlready_iff]
    refine exists_congr fun paid => exists_congr fun r => ?_
    rw [forall_mem_singleton]
    tauto
  simp only [PaymentAccepted, hvotes, hp]
  rw [← hpaid]
  simp

/-- **The loop accepts** when one of the budgets it asks does, with the records that are left after
those asked before it. -/
theorem checkBudgets_valid_iff (l : List CFinalizedBudget) (fThreshold : Bool)
    (history : PaymentHistory) :
    (checkBudgets threshold onChain tx hash h l fThreshold history).1 = .valid ↔
      ∃ pre fb post, l = pre ++ fb :: post ∧
        PaymentAccepted threshold onChain hash h history tx.vout pre fb := by
  induction l generalizing fThreshold history with
  | nil =>
    simp only [checkBudgets]
    split_ifs <;> simp
  | cons g l ih =>
    rw [exists_split_cons]
    by_cases hvotes : threshold < g.getVoteCount
    · cases hp : g.getBudgetPaymentByBlock h with
      | none =>
        -- out of range: the budget neither accepts nor touches the history
        have hasked : asked threshold h g = false := by
          have hcov : ¬ g.covers h = true := by simp [covers_iff, hp]
          simp [asked, hcov]
        have hself : ¬ PaymentAccepted threshold onChain hash h history tx.vout [] g := by
          simp [PaymentAccepted, hp]
        simp only [checkBudgets, hvotes, if_true, isTransactionValid_of_none hp,
          ih, hself, false_or, paymentAccepted_cons_of_not_asked hasked]
      | some p =>
        have hasked : asked threshold h g = true := by
          simp [asked, hvotes, covers_iff.2 ⟨p, hp⟩]
        rw [paymentAccepted_nil_iff hvotes hp]
        simp only [checkBudgets, hvotes, if_true, isTransactionValid_eq hp,
          paymentAccepted_cons_of_asked hasked p.nProposalHash]
        by_cases hpaid : (g.isPaidAlready onChain p.nProposalHash hash h history).1 = true
        · simp only [hpaid, if_true, ih, not_true_eq_false, and_false, false_or]
        · by_cases hout : p.out ∈ tx.vout
          · simp [hpaid, hout]
          · simp only [hpaid, Bool.false_eq_true, if_false, hout, ih, false_and, false_or]
    · have hasked : asked threshold h g = false := by simp [asked, hvotes]
      have hself : ¬ PaymentAccepted threshold onChain hash h history tx.vout [] g := by
        simp [PaymentAccepted, hvotes]
      simp only [checkBudgets, hvotes, if_false, ih, hself, false_or,
        paymentAccepted_cons_of_not_asked hasked]

theorem isTransactionValid_valid_iff (hblock : m.isBudgetPaymentBlock h = true) :
    (m.isTransactionValid onChain tx hash h history).1 = .valid ↔
      ∃ pre fb post, m.mapFinalizedBudgets = pre ++ fb :: post ∧
        PaymentAccepted (m.countThreshold h) onChain hash h history tx.vout pre fb := by
  simp only [isTransactionValid, hblock, Bool.not_true, Bool.false_eq_true, if_false,
    checkBudgets_valid_iff]

end

/-! ## Agreement -/

def due (m : CBudgetManager) (h : Int) : List CTxOut :=
  ((m.getPayeeAndAmount h).map fun payment => ⟨payment.2, payment.1⟩).toList

def validationEnv (m : CBudgetManager) (env : ValidationEnv) : ValidationEnv :=
  { env with getExpectedPayeeAmount := fun nHeight => m.getExpectedPayeeAmount nHeight }

def minted (tx : CTransaction) (nValueIn : CAmount) : CAmount :=
  wrap64 ((tx.vout.map (·.nValue)).sum - nValueIn)

/-- The coinstake that the producer makes of `txNew` is valid at the budget check, and its value
passes the check of the block's value. -/
def Agrees (m : CBudgetManager) (env : ValidationEnv) (onChain : UInt256 → Bool)
    (history : PaymentHistory) (txNew : CTransaction) (nValueIn : CAmount) (hash : UInt256)
    (h : Nat) : Prop :=
  ∃ tx, m.fillBlockPayee env.params txNew h true = some tx ∧
    (m.isTransactionValid onChain tx hash h history).1 = .valid ∧
    isBlockValueValid (m.validationEnv env) h (getBlockValue env.params.network h)
      (minted tx nValueIn) = true

/-- What a node accepts above the block value: what its budgets say when it is synced. Otherwise the
total budget in the first hundred blocks of a cycle, of which testnet asks nothing, and nothing in
the others. -/
def AmountAllowed (env : ValidationEnv) (h : Nat) (nAmount : CAmount) : Prop :=
  let blockValue := getBlockValue env.params.network h
  env.isSynced = true ∨
    if (h : Int) % env.params.nBudgetCycleBlocks < 100 then
      env.params.network = .testnet ∨
        wrap64 (blockValue + nAmount) ≤ wrap64 (blockValue + getTotalBudget env.params h)
    else wrap64 (blockValue + nAmount) ≤ wrap64 blockValue

section

variable {env : ValidationEnv} {onChain : UInt256 → Bool} {history : PaymentHistory}
  {txNew : CTransaction} {nValueIn : CAmount} {hash : UInt256} {h : Nat}

theorem isBlockValueValid_iff (h13 : env.superblocksActive = true) {nAmount : CAmount}
    (hdue : m.getExpectedPayeeAmount h = some nAmount) :
    isBlockValueValid (m.validationEnv env) h (getBlockValue env.params.network h)
        (wrap64 (getBlockValue env.params.network h + nAmount)) = true ↔
      AmountAllowed env h nAmount := by
  cases hsync : env.isSynced with
  | true =>
    simp [isBlockValueValid, budgetAllowance, validationEnv, AmountAllowed, hsync, h13, hdue,
      wrap64_add_right]
  | false =>
    simp only [isBlockValueValid, budgetAllowance, validationEnv, AmountAllowed, hsync]
    by_cases hcycle : h % env.params.nBudgetCycleBlocks < 100
    · by_cases htest : env.params.network = .testnet
      · simp [hcycle, htest]
      · simp [hcycle, htest]
    · simp [hcycle]

/-- **When the producer and the validator of superblocks agree.** Some budget above the threshold
must accept an output of the coinstake, which the record of another block prevents. -/
theorem superblock_agrees_iff (h13 : env.superblocksActive = true) (hpos : 0 < h)
    (hblock : m.isBudgetPaymentBlock h = true)
    (hreward : (txNew.vout.map (·.nValue)).sum = nValueIn + getBlockValue env.params.network h) :
    Agrees m env onChain history txNew nValueIn hash h ↔
      (∃ pre fb post, m.mapFinalizedBudgets = pre ++ fb :: post ∧
        PaymentAccepted (m.countThreshold h) onChain hash h history (txNew.vout ++ m.due h)
          pre fb) ∧
      ∀ nAmount, m.getExpectedPayeeAmount h = some nAmount → AmountAllowed env h nAmount := by
  obtain ⟨fb, p, -, -, hpay⟩ := getPayeeAndAmount_of_isBudgetPaymentBlock hblock
  have hamount : m.getExpectedPayeeAmount h = some p.nAmount := by
    simp [getExpectedPayeeAmount, hpay]
  have hdue : m.due h = [⟨p.nAmount, p.payee⟩] := by simp [due, hpay]
  have hfill : m.fillBlockPayee env.params txNew h true =
      some { txNew with vout := txNew.vout ++ m.due h } := by
    have hnot : ¬ h = 0 := by omega
    simp [fillBlockPayee, hnot, hpay, hdue]
  have hminted : minted { txNew with vout := txNew.vout ++ m.due h } nValueIn =
      wrap64 (getBlockValue env.params.network h + p.nAmount) := by
    have hsum : (txNew.vout.map (·.nValue)).sum + p.nAmount - nValueIn =
        getBlockValue env.params.network h + p.nAmount := by
      rw [hreward, add_assoc, add_comm nValueIn, Int.add_sub_cancel]
    simp only [minted, hdue, map_append, sum_append, map_cons, map_nil,
      sum_singleton, hsum]
  simp only [Agrees, hfill, Option.some.injEq, exists_eq_left', hminted,
    isTransactionValid_valid_iff hblock, isBlockValueValid_iff h13 hamount, hamount, forall_eq']

end

/-! ### Two budgets above the threshold -/

open HistoryState.Sample (payment start)

namespace Sample

def voters (n : Nat) : Finset COutPoint := (Finset.range n).image fun i => ⟨0, i⟩

def minority : CFinalizedBudget := ⟨288, [payment 2, payment 1], voters 2⟩

def majority : CFinalizedBudget := ⟨288, [payment 1, payment 2], voters 3⟩

/-- Of 20 masternodes, three vote for the payments in order and two for the other order. The budget
with fewer votes has the smaller hash. -/
def manager : CBudgetManager := ⟨[minority, majority], 20⟩

def env : ValidationEnv :=
  { ValidationEnv.sample 288 with params := .regtest 0, superblocksActive := true }

def coinstake : CTransaction :=
  .paying [⟨0, []⟩, ⟨1000 * COIN + getBlockValue .regtest 288, [0x53]⟩]

def first : CTransaction := (manager.fillBlockPayee env.params coinstake 288 true).getD coinstake

def history : PaymentHistory :=
  (manager.isTransactionValid start.contains first 1000 288 ∅).2

def onChain : UInt256 → Bool :=
  HistoryState.contains ⟨∅, 1000 :: start.chainActive⟩

end Sample

open Sample

/-- The first superblock of the cycle is accepted: nothing is recorded before it. -/
theorem superblock_agrees_first :
    Agrees manager env start.contains ∅ coinstake (1000 * COIN) 1000 288 := by
  refine (superblock_agrees_iff (by decide) (by decide) (by decide +kernel)
    (by decide +kernel)).2 ⟨⟨[minority], majority, [], rfl, ?_⟩, fun _ _ => .inl rfl⟩
  refine ⟨by decide +kernel, payment 1, by decide +kernel, by decide +kernel, ?_⟩
  rintro ⟨paid, r, hrec, -⟩
  exact absurd hrec (by simp)

/-- The check of the first superblock records it as the payer of both proposals. The producer then
pays proposal 2, which no block has paid, and the validator refuses it. -/
theorem superblock_refused_second :
    (manager.isTransactionValid start.contains first 1000 288 ∅).1 = .valid ∧
      (payment 2).out ∉ first.vout ∧
      manager.due 289 = [(payment 2).out] ∧
      ¬ Agrees manager env onChain history coinstake (1000 * COIN) 1001 289 ∧
      isBlockPayeeValid (.sample [.enableSuperblocks, .masternodeBudgetEnforcement])
        (manager.toBudget onChain history) true .empty
        ⟨[.paying [], .paying (coinstake.vout ++ manager.due 289)], 1001⟩ 289 = false := by
  refine ⟨by decide +kernel, by decide +kernel, by decide +kernel, ?_, by decide +kernel⟩
  rintro ⟨tx, hfill, hvalid, -⟩
  have hstatus : (manager.fillBlockPayee env.params coinstake 289 true).map
      (fun tx => (manager.isTransactionValid onChain tx 1001 289 history).1) =
        some .inValid := by decide +kernel
  rw [show ((289 : Nat) : Int) = 289 from rfl] at hfill hvalid
  rw [hfill, Option.map_some, hvalid] at hstatus
  exact absurd hstatus (by decide)

end CBudgetManager

end Passion
