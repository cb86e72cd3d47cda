import Passion.Masternode.PayeeCheck

/-!
# Finalized budgets and the payment history

`CFinalizedBudget::IsPaidAlready` and `CFinalizedBudget::IsTransactionValid` of
`budget/finalizedbudget.cpp`.

**The history** (`mapPayment_History`). One map for the whole process, from a proposal to the block
that was checked first for it. A check drops the records of other cycles, and records its own block
if the proposal has no record left. It does so before it looks for the payment, so the block of a
record need not pay anything.

**Runs.** Blocks are checked in any order, and the active chain grows and shrinks in between. A
record counts as a payment when its block is on the active chain and is not the block at hand.

Main results: `isTransactionValid_eq`, what one check answers and records;
`doublePayment_justified_of_recorded`, what the answers mean in a run whose checks record paying
blocks only.
-/

namespace Passion

open Lib Option

structure CTxBudgetPayment where
  nProposalHash : UInt256
  payee : CScript
  nAmount : CAmount
  deriving DecidableEq, Repr

namespace CTxBudgetPayment

def out (p : CTxBudgetPayment) : CTxOut := ⟨p.nAmount, p.payee⟩

def paidBy (p : CTxBudgetPayment) (out : CTxOut) : Bool :=
  decide (p.payee = out.scriptPubKey) && decide (p.nAmount = out.nValue)

theorem paidBy_iff {p : CTxBudgetPayment} {out : CTxOut} : p.paidBy out = true ↔ out = p.out := by
  obtain ⟨value, script⟩ := out
  simp only [paidBy, out, Bool.and_eq_true, decide_eq_true_eq, CTxOut.mk.injEq]
  exact ⟨fun h => ⟨h.2.symm, h.1.symm⟩, fun h => ⟨h.2.symm, h.1.symm⟩⟩

end CTxBudgetPayment

/-- The masternodes that voted are the keys of `mapVotes`; only their number is read here. -/
structure CFinalizedBudget where
  nBlockStart : Int
  vecBudgetPayments : List CTxBudgetPayment
  mapVotes : Finset COutPoint
  deriving DecidableEq

/-- `mapPayment_History`: from a proposal to the hash and height of a block. -/
abbrev PaymentHistory := Map UInt256 (UInt256 × Int)

namespace CFinalizedBudget

variable (fb : CFinalizedBudget)

/-- A budget without payments ends before it starts: `size() - 1` is cast back to `int`. -/
def getBlockEnd : Int := fb.nBlockStart + (fb.vecBudgetPayments.length - 1)

def getVoteCount : Int := fb.mapVotes.card

def getBudgetPaymentByBlock (nBlockHeight : Int) : Option CTxBudgetPayment :=
  if nBlockHeight - fb.nBlockStart < 0 then none
  else fb.vecBudgetPayments[(nBlockHeight - fb.nBlockStart).toNat]?

def getPayeeAndAmount (nBlockHeight : Int) : Option (CScript × CAmount) :=
  (fb.getBudgetPaymentByBlock nBlockHeight).map fun p => (p.payee, p.nAmount)

def covers (nHeight : Int) : Bool :=
  decide (fb.nBlockStart ≤ nHeight) && decide (nHeight ≤ fb.getBlockEnd)

/-- The first loop of `IsPaidAlready`. -/
def dropOtherCycles (history : PaymentHistory) : PaymentHistory :=
  history.keep fun _ record => fb.covers record.2

/-- `IsPaidAlready`, with the history it leaves; `onChain` is
`chainActive.Contains(mapBlockIndex[hash])`. -/
def isPaidAlready (onChain : UInt256 → Bool) (nProposalHash nBlockHash : UInt256)
    (nBlockHeight : Int) (history : PaymentHistory) : Bool × PaymentHistory :=
  let history := fb.dropOtherCycles history
  match history.lookup nProposalHash with
  | none => (false, history.insert nProposalHash (nBlockHash, nBlockHeight))
  | some (nPaidBlockHash, _) =>
    if nBlockHash ≠ nPaidBlockHash then (onChain nPaidBlockHash, history) else (false, history)

def isTransactionValid (onChain : UInt256 → Bool) (txNew : CTransaction) (nBlockHash : UInt256)
    (nBlockHeight : Int) (history : PaymentHistory) : TrxValidationStatus × PaymentHistory :=
  if fb.getBlockEnd < nBlockHeight then (.inValid, history)
  else if nBlockHeight < fb.nBlockStart then (.inValid, history)
  else
    match fb.vecBudgetPayments[(nBlockHeight - fb.nBlockStart).toNat]? with
    | none => (.inValid, history)
    | some payment =>
      match fb.isPaidAlready onChain payment.nProposalHash nBlockHash nBlockHeight history with
      | (true, history) => (.doublePayment, history)
      | (false, history) =>
        (if txNew.vout.reverse.any payment.paidBy then .valid else .inValid, history)

variable {fb : CFinalizedBudget}

theorem covers_iff_le {h : Int} : fb.covers h = true ↔ fb.nBlockStart ≤ h ∧ h ≤ fb.getBlockEnd := by
  simp [covers]

theorem covers_iff {h : Int} : fb.covers h = true ↔ ∃ p, fb.getBudgetPaymentByBlock h = some p := by
  rw [covers_iff_le, getBlockEnd, getBudgetPaymentByBlock]
  split_ifs with hneg
  · simp only [exists_false, iff_false]
    omega
  · simp only [getElem?_eq_some_iff]
    refine ⟨fun hle => ⟨_, by omega, rfl⟩, ?_⟩
    rintro ⟨p, hlt, -⟩
    omega

section

variable {onChain : UInt256 → Bool} {proposal hash : UInt256} {h : Int} {history : PaymentHistory}

theorem lookup_dropOtherCycles (q : UInt256) : (fb.dropOtherCycles history).lookup q =
      (history.lookup q).filter fun record => fb.covers record.2 :=
  Map.lookup_keep _ history q

theorem isPaidAlready_of_none (hold : (fb.dropOtherCycles history).lookup proposal = none) :
    fb.isPaidAlready onChain proposal hash h history =
      (false, (fb.dropOtherCycles history).insert proposal (hash, h)) := by
  simp [isPaidAlready, hold]

theorem isPaidAlready_of_some {record : UInt256 × Int}
    (hold : (fb.dropOtherCycles history).lookup proposal = some record) :
    fb.isPaidAlready onChain proposal hash h history =
      (decide (record.1 ≠ hash) && onChain record.1, fb.dropOtherCycles history) := by
  simp only [isPaidAlready, hold]
  by_cases hne : hash = record.1
  · simp [hne]
  · simp [hne, Ne.symm hne]

/-- The proposal counts as paid when a record of this cycle names another block, on the active
chain. -/
theorem isPaidAlready_iff : (fb.isPaidAlready onChain proposal hash h history).1 = true ↔
      ∃ paid r, history.lookup proposal = some (paid, r) ∧ fb.covers r = true ∧ paid ≠ hash ∧
        onChain paid = true := by
  have hkeep : (fb.dropOtherCycles history).lookup proposal = _ := lookup_dropOtherCycles proposal
  cases hold : (fb.dropOtherCycles history).lookup proposal with
  | none =>
    rw [isPaidAlready_of_none hold]
    simp only [Bool.false_eq_true, false_iff, not_exists, not_and]
    intro paid r hrec hr
    rw [hold, hrec, filter_some, if_pos hr] at hkeep
    cases hkeep
  | some record =>
    obtain ⟨hrec, hr⟩ := filter_eq_some_iff.1 (hkeep.symm.trans hold)
    rw [isPaidAlready_of_some hold, hrec]
    simp only [Bool.and_eq_true, decide_eq_true_eq, some.injEq]
    refine ⟨fun hp => ⟨record.1, record.2, rfl, hr, hp.1, hp.2⟩, ?_⟩
    rintro ⟨paid, r, rfl, -, hne, hon⟩
    exact ⟨hne, hon⟩

/-- Records of this cycle stay, and the block is recorded where there was none. -/
theorem lookup_isPaidAlready (q : UInt256) :
    (fb.isPaidAlready onChain proposal hash h history).2.lookup q =
      ((history.lookup q).filter fun record => fb.covers record.2).or
        (if q = proposal then some (hash, h) else none) := by
  rw [← lookup_dropOtherCycles]
  cases hold : (fb.dropOtherCycles history).lookup proposal with
  | none =>
    rw [isPaidAlready_of_none hold, Map.lookup_insert']
    split_ifs with hq
    · rw [hq, hold, none_or]
    · rw [or_none]
  | some record =>
    rw [isPaidAlready_of_some hold]
    split_ifs with hq
    · rw [hq, hold, some_or]
    · rw [or_none]

theorem lookup_isPaidAlready_ne {q paid : UInt256} {r : Int} (hne : paid ≠ hash) :
    (fb.isPaidAlready onChain proposal hash h history).2.lookup q = some (paid, r) ↔
      history.lookup q = some (paid, r) ∧ fb.covers r = true := by
  rw [lookup_isPaidAlready]
  cases history.lookup q with
  | none => simp [hne.symm]
  | some record =>
    by_cases hr : fb.covers record.2 = true
    · simp only [filter_some, hr, if_true, some_or, some.injEq]
      exact ⟨fun he => ⟨he, by rwa [he] at hr⟩, fun he => he.1⟩
    · simp only [filter_some, hr, Bool.false_eq_true, if_false, none_or,
        some.injEq]
      refine ⟨fun he => ?_, fun he => absurd he.2 (by rwa [he.1] at hr)⟩
      split_ifs at he
      exact absurd (congrArg Prod.fst (some.inj he)).symm hne

theorem isPaidAlready_snd_of_recorded (hcycle : ∀ q record, history.lookup q = some record →
      fb.covers record.2 = true) (hrec : (history.lookup proposal).isSome = true) :
    (fb.isPaidAlready onChain proposal hash h history).2 = history := by
  have hkeep : fb.dropOtherCycles history = history := Map.keep_eq_self hcycle
  obtain ⟨record, hrec⟩ := isSome_iff_exists.1 hrec
  rw [isPaidAlready_of_some (hkeep.symm ▸ hrec), hkeep]

variable {tx : CTransaction}

theorem isTransactionValid_of_none (hp : fb.getBudgetPaymentByBlock h = none) :
    fb.isTransactionValid onChain tx hash h history = (.inValid, history) := by
  have hcov : fb.covers h = false := by
    rw [← Bool.not_eq_true, covers_iff, hp]
    simp
  unfold isTransactionValid
  split_ifs with hend hstart
  · rfl
  · rfl
  · exact absurd (covers_iff_le.2 ⟨not_lt.1 hstart, not_lt.1 hend⟩) (by simp [hcov])

/-- **What a check answers and records**, at a height of the budget. -/
theorem isTransactionValid_eq {p : CTxBudgetPayment} (hp : fb.getBudgetPaymentByBlock h = some p) :
    fb.isTransactionValid onChain tx hash h history =
      (if (fb.isPaidAlready onChain p.nProposalHash hash h history).1 then .doublePayment
        else if p.out ∈ tx.vout then .valid else .inValid,
      (fb.isPaidAlready onChain p.nProposalHash hash h history).2) := by
  have hcov := covers_iff_le.1 (covers_iff.2 ⟨p, hp⟩)
  have hget : fb.vecBudgetPayments[(h - fb.nBlockStart).toNat]? = some p := by
    simpa [getBudgetPaymentByBlock, show ¬ h - fb.nBlockStart < 0 by omega] using hp
  have hany : tx.vout.reverse.any p.paidBy = true ↔ p.out ∈ tx.vout := by
    simp [CTxBudgetPayment.paidBy_iff]
  simp only [isTransactionValid, not_lt.2 hcov.1, not_lt.2 hcov.2, hget, hany]
  rcases fb.isPaidAlready onChain p.nProposalHash hash h history with ⟨_ | _, history'⟩ <;> rfl

end

end CFinalizedBudget

/-! ## Runs -/

/-- A block as the budget check reads it: its height, and its coinstake (or coinbase). -/
structure BudgetBlock where
  nHeight : Int
  txNew : CTransaction

/-- What does not change in a run: the block behind every hash, and the output that every proposal
asks for. -/
structure HistoryEnv where
  block : UInt256 → BudgetBlock
  proposal : UInt256 → CTxOut

def HistoryEnv.Pays (env : HistoryEnv) (hash nProposalHash : UInt256) : Prop :=
  env.proposal nProposalHash ∈ (env.block hash).txNew.vout

instance (env : HistoryEnv) (hash nProposalHash : UInt256) :
    Decidable (env.Pays hash nProposalHash) :=
  inferInstanceAs (Decidable (_ ∈ _))

/-- The history and the active chain, its tip first. -/
structure HistoryState where
  mapPaymentHistory : PaymentHistory
  chainActive : List UInt256

inductive HistoryEvent where
  | check (fb : CFinalizedBudget) (hash : UInt256)
  | connect (hash : UInt256)
  | disconnect

open CFinalizedBudget

namespace HistoryState

def init (chain : List UInt256) : HistoryState := ⟨∅, chain⟩

@[simp] theorem lookup_init (chain : List UInt256) (q : UInt256) :
    (init chain).mapPaymentHistory.lookup q = none :=
  AList.lookup_empty q

def contains (st : HistoryState) (hash : UInt256) : Bool := st.chainActive.elem hash

section

variable (env : HistoryEnv)

/-- The check of a block against a budget: the answer, and the history it leaves. -/
def checked (st : HistoryState) (fb : CFinalizedBudget) (hash : UInt256) :
    TrxValidationStatus × PaymentHistory :=
  fb.isTransactionValid st.contains (env.block hash).txNew hash (env.block hash).nHeight
    st.mapPaymentHistory

def apply (st : HistoryState) : HistoryEvent → HistoryState
  | .check fb hash => { st with mapPaymentHistory := (st.checked env fb hash).2 }
  | .connect hash => { st with chainActive := hash :: st.chainActive }
  | .disconnect => { st with chainActive := st.chainActive.tail }

def answers : List HistoryEvent → HistoryState → List TrxValidationStatus
  | [], _ => []
  | .check fb hash :: events, st =>
    (st.checked env fb hash).1 :: answers events (st.apply env (.check fb hash))
  | event :: events, st => answers events (st.apply env event)

def paymentAt (fb : CFinalizedBudget) (hash : UInt256) : Option CTxBudgetPayment :=
  fb.getBudgetPaymentByBlock (env.block hash).nHeight

/-- A check for the payment `p` that keeps the history exact. -/
structure CheckOk (st : HistoryState) (fb : CFinalizedBudget) (hash : UInt256)
    (p : CTxBudgetPayment) : Prop where
  /-- A block that does not pay finds its proposal recorded, and no record of another cycle. -/
  recorded : ¬ env.Pays hash p.nProposalHash →
    (st.mapPaymentHistory.lookup p.nProposalHash).isSome = true ∧
      ∀ q record, st.mapPaymentHistory.lookup q = some record → fb.covers record.2 = true
  /-- The block of the record, if it is another one of the active chain, lies below. -/
  below : ∀ paid r, st.mapPaymentHistory.lookup p.nProposalHash = some (paid, r) →
    fb.covers r = true → paid ≠ hash → st.contains paid = true → r < (env.block hash).nHeight

/-- The states of the runs whose checks all keep the history exact. -/
inductive Run : HistoryState → Prop
  | init (chain : List UInt256) : Run (init chain)
  | check {st : HistoryState} (fb : CFinalizedBudget) (hash : UInt256) : Run st →
      (∀ p, paymentAt env fb hash = some p → CheckOk env st fb hash p) →
      Run (st.apply env (.check fb hash))
  | connect {st : HistoryState} (hash : UInt256) : Run st →
      (env.block hash).nHeight = st.chainActive.length → Run (st.apply env (.connect hash))
  | disconnect {st : HistoryState} : Run st → Run (st.apply env .disconnect)

/-- Every record names a block that pays, under its height. -/
def Exact (st : HistoryState) : Prop :=
  ∀ q paid r, st.mapPaymentHistory.lookup q = some (paid, r) →
    env.Pays paid q ∧ (env.block paid).nHeight = r

variable {env} {st : HistoryState} {fb : CFinalizedBudget} {hash : UInt256} {p : CTxBudgetPayment}

theorem checked_snd (hp : paymentAt env fb hash = some p) :
    (st.checked env fb hash).2 = (fb.isPaidAlready st.contains p.nProposalHash hash
      (env.block hash).nHeight st.mapPaymentHistory).2 := by
  rw [checked, isTransactionValid_eq hp]

theorem apply_check_of_not_pays (hp : paymentAt env fb hash = some p)
    (hok : CheckOk env st fb hash p) (hpays : ¬ env.Pays hash p.nProposalHash) :
    st.apply env (.check fb hash) = st := by
  obtain ⟨hrec, hcycle⟩ := hok.recorded hpays
  simp only [apply, checked_snd hp, isPaidAlready_snd_of_recorded hcycle hrec]

/-- One allowed check keeps the records exact: what it adds is a block that pays. -/
theorem Exact.check (hst : Exact env st)
    (hok : ∀ p, paymentAt env fb hash = some p → CheckOk env st fb hash p) :
    Exact env (st.apply env (.check fb hash)) := by
  cases hp : paymentAt env fb hash with
  | none => simpa [apply, checked, isTransactionValid_of_none hp] using hst
  | some p =>
    by_cases hpays : env.Pays hash p.nProposalHash
    · intro q paid r hq
      simp only [apply, checked_snd hp, lookup_isPaidAlready] at hq
      rcases or_eq_some_iff.1 hq with hold | ⟨-, hnew⟩
      · exact hst q paid r (filter_eq_some_iff.1 hold).1
      · obtain ⟨rfl, hrecord⟩ := ite_none_right_eq_some.1 hnew
        cases hrecord
        exact ⟨hpays, rfl⟩
    · rwa [apply_check_of_not_pays hp (hok p hp) hpays]

theorem Run.exact (hst : Run env st) : Exact env st := by
  induction hst with
  | init chain =>
    intro q paid r hq
    simp at hq
  | check fb hash _ hok ih => exact ih.check hok
  | connect hash _ _ ih => exact ih
  | disconnect _ ih => exact ih

/-- **The history is exact as long as no check records a block that does not pay.** A double payment
is answered only above a block of the active chain that makes the payment, and checking a block
that does not pay leaves all later answers as they were. -/
theorem doublePayment_justified_of_recorded (hst : Run env st)
    (hp : paymentAt env fb hash = some p) (hok : CheckOk env st fb hash p) :
    ((st.checked env fb hash).1 = .doublePayment →
      ∃ paid ∈ st.chainActive, (env.block paid).nHeight < (env.block hash).nHeight ∧
        env.Pays paid p.nProposalHash) ∧
    (¬ env.Pays hash p.nProposalHash →
      ∀ events, answers env events (st.apply env (.check fb hash)) = answers env events st) := by
  refine ⟨fun hdouble => ?_, fun hpays events => ?_⟩
  · have hpaid : (fb.isPaidAlready st.contains p.nProposalHash hash (env.block hash).nHeight
        st.mapPaymentHistory).1 = true := by
      by_contra hnot
      rw [checked, isTransactionValid_eq hp] at hdouble
      split_ifs at hdouble
    obtain ⟨paid, r, hrec, hcov, hne, hon⟩ := isPaidAlready_iff.1 hpaid
    obtain ⟨hpays, rfl⟩ := hst.exact _ _ _ hrec
    exact ⟨paid, List.elem_iff.1 hon, hok.below _ _ hrec hcov hne hon, hpays⟩
  · rw [apply_check_of_not_pays hp hok hpays]

end

/-! ### Two budgets that pay the same two proposals in either order -/

namespace Sample

def payment (nProposalHash : UInt256) : CTxBudgetPayment :=
  ⟨nProposalHash, [if nProposalHash = 1 then 0x51 else 0x52], 10 * COIN⟩

/-- A chain of empty blocks below height 288, where the second cycle of regtest starts, block 1000
at that height, which pays proposal 1, and block 1001 above it, which pays proposal 2. -/
def env : HistoryEnv where
  block hash :=
    if hash = 1000 then ⟨288, .paying [(payment 1).out]⟩
    else if hash = 1001 then ⟨289, .paying [(payment 2).out]⟩
    else ⟨hash.toNat, .paying []⟩
  proposal nProposalHash := (payment nProposalHash).out

def start : HistoryState := init ((List.range 288).reverse.map (BitVec.ofNat 256))

def inOrder : CFinalizedBudget := ⟨288, [payment 1, payment 2], {⟨0, 0⟩}⟩

def swapped : CFinalizedBudget := ⟨288, [payment 2, payment 1], {⟨0, 0⟩}⟩

def paidOnce : HistoryState :=
  (start.apply env (.check inOrder 1000)).apply env (.connect 1000)

theorem run_paidOnce : Run env paidOnce := by
  refine .connect 1000 (.check inOrder 1000 (.init _) fun p hp => ?_) (by decide +kernel)
  obtain rfl : payment 1 = p := by
    have hpay : paymentAt env inOrder 1000 = some (payment 1) := by decide +kernel
    exact some.inj (hpay.symm.trans hp)
  refine ⟨fun hpays => absurd (by decide +kernel) hpays, fun paid r hrec => ?_⟩
  exact absurd ((lookup_init _ _).symm.trans hrec) (by simp)

theorem lookup_paidOnce {q : UInt256} {record : UInt256 × Int}
    (hq : paidOnce.mapPaymentHistory.lookup q = some record) : q = 1 ∧ record = (1000, 288) := by
  have hentries : paidOnce.mapPaymentHistory.entries = [⟨1, (1000, 288)⟩] := by decide +kernel
  have hmem := AList.mem_lookup_iff.1 (mem_def.2 hq)
  rw [hentries, List.mem_singleton] at hmem
  cases hmem
  exact ⟨rfl, rfl⟩

theorem not_pays_two {paid : UInt256} (hpaid : paid ∈ 1000 :: start.chainActive) :
    ¬ env.Pays paid 2 := by
  have hlow : paid.toNat ≤ 1000 := by
    rcases List.mem_cons.1 hpaid with rfl | hpaid
    · decide
    · obtain ⟨i, hi, rfl⟩ := List.mem_map.1 hpaid
      have := List.mem_range.1 (List.mem_reverse.1 hi)
      simp only [BitVec.toNat_ofNat]
      omega
  have hne : paid ≠ 1001 := by
    intro h
    rw [h] at hlow
    exact absurd hlow (by decide)
  simp only [HistoryEnv.Pays, env]
  split_ifs
  · decide
  · exact List.not_mem_nil

end Sample

open Sample

/-- Block 1001 does not pay proposal 1 again, and block 1000 below it did. -/
theorem doublePayment_of_paidOnce : (paidOnce.checked env swapped 1001).1 = .doublePayment ∧
      ∃ paid ∈ paidOnce.chainActive,
        (env.block paid).nHeight < (env.block 1001).nHeight ∧
          env.Pays paid 1 := by
  have hp : paymentAt env swapped 1001 = some (payment 1) := by
    decide +kernel
  have hdouble : (paidOnce.checked env swapped 1001).1 = .doublePayment := by
    decide +kernel
  have hok : CheckOk env paidOnce swapped 1001 (payment 1) := by
    refine ⟨fun _ => ⟨by decide +kernel, fun q record hq => ?_⟩, fun paid r hr _ _ _ => ?_⟩
    · rw [(lookup_paidOnce hq).2]
      decide
    · have hr : r = 288 := congrArg Prod.snd (lookup_paidOnce hr).2
      rw [hr]
      decide +kernel
  exact ⟨hdouble, (doublePayment_justified_of_recorded run_paidOnce hp hok).1 hdouble⟩

/-- Block 1000 is checked against both budgets and pays proposal 1 as the second of them says. The
check against the first one leaves it recorded for proposal 2, which it does not pay, so block 1001
that pays proposal 2 is a double payment, although no block of the chain pays it. Without that one
check the payment is valid. -/
theorem unpaid_proposal_doublePayment :
    let events := [HistoryEvent.check inOrder 1000, .connect 1000,
      .check inOrder 1001]
    ¬ env.Pays 1000 2 ∧
      (∀ paid ∈ 1000 :: start.chainActive, ¬ env.Pays paid 2) ∧
      answers env events (start.apply env (.check swapped 1000)) =
        [.valid, .doublePayment] ∧
      answers env events start = [.valid, .valid] :=
  ⟨by decide +kernel, fun _ hpaid => not_pays_two hpaid, by decide +kernel,
    by decide +kernel⟩

end HistoryState

end Passion
