import Passion.Budget.Manager

/-!
# Superblocks on the active chain

`IsBlockPayeeValid` of `masternode-payments.cpp` with a budget manager behind it, over runs of block
checks, connections and reorganisations.

**Double payments.** A budget answers `DoublePayment` where its proposal is recorded for another
block of the active chain. The loop of the manager turns this into `InValid`, since the budget is
above the threshold, and with enforcement a block that pays the masternode instead is refused
(`fallback_accepted_iff`).

**Payments once per cycle.** A record names the block that was checked first for its proposal, and
no check replaces it while its height is in range. A recorded block that is not on the active chain
therefore hides the blocks that make the payment: none of them is recorded (`pays_twice`). Where
this does not happen, the block that was accepted last for a proposal is the recorded one, and
`acceptedOnce_of_reaches` follows.
-/

namespace Passion

open Lib List Option
open CFinalizedBudget (lookup_isPaidAlready covers_iff)

/-! ## The fallback to the masternode -/

namespace CBudgetManager

variable {m : CBudgetManager} {h : Int}

theorem exists_asked (hblock : m.isBudgetPaymentBlock h = true) :
    ∃ fb ∈ m.mapFinalizedBudgets, asked (m.countThreshold h) h fb = true := by
  obtain ⟨fb, p, hbest, -, -⟩ := getPayeeAndAmount_of_isBudgetPaymentBlock hblock
  obtain ⟨hmem, hcovers⟩ := getBudgetWithHighestVoteCount_mem hbest
  have hcount : m.getHighestVoteCount h = fb.getVoteCount := by simp [getHighestVoteCount, hbest]
  have hvotes : m.countThreshold h < fb.getVoteCount := hcount ▸ countThreshold_lt h
  exact ⟨fb, hmem, by simp [asked, hvotes, hcovers]⟩

section

variable {onChain : UInt256 → Bool} {tx : CTransaction} {hash : UInt256} {threshold : Int}

theorem checkBudgets_of_not_valid (l : List CFinalizedBudget) (fThreshold : Bool)
    (history : PaymentHistory)
    (habove : fThreshold = true ∨ ∃ fb ∈ l, threshold < fb.getVoteCount)
    (hnot : (checkBudgets threshold onChain tx hash h l fThreshold history).1 ≠ .valid) :
    (checkBudgets threshold onChain tx hash h l fThreshold history).1 = .inValid := by
  induction l generalizing fThreshold history with
  | nil => simpa [checkBudgets] using habove
  | cons fb l ih =>
    unfold checkBudgets at hnot ⊢
    by_cases hvotes : threshold < fb.getVoteCount
    · rw [if_pos hvotes] at hnot ⊢
      split at hnot
      · exact absurd rfl hnot
      · exact ih true _ (.inl rfl) hnot
    · rw [if_neg hvotes] at hnot ⊢
      refine ih fThreshold history (habove.imp_right ?_) hnot
      simp [hvotes]

end

/-- **A block that pays the masternode instead of a budget** is accepted at no superblock. Whether
the budgets are paid already makes no difference. -/
theorem fallback_accepted_iff (env : PaymentEnv) (m : CBudgetManager) (t : VoteTables)
    (onChain : UInt256 → Bool) (history : PaymentHistory) (block : PayeeBlock) (h : Int)
    {tx : CTransaction} (htx : block.txNew env h = some tx)
    (h13 : env.isSporkActive .enableSuperblocks = true)
    (h9 : env.isSporkActive .masternodeBudgetEnforcement = true)
    (hmasternode : t.isTransactionValid env tx h = true)
    (hinstead : ∀ fb ∈ m.mapFinalizedBudgets, m.countThreshold h < fb.getVoteCount →
      ∀ p, fb.getBudgetPaymentByBlock h = some p → p.out ∉ tx.vout) :
    isBlockPayeeValid env (m.toBudget onChain history) true t block h = true ↔
      m.isBudgetPaymentBlock h = false := by
  cases hblock : m.isBudgetPaymentBlock h with
  | false => simp [isBlockPayeeValid, htx, budgetStatus, toBudget, hblock, hmasternode]
  | true =>
    have hnot : (m.isTransactionValid onChain tx block.hash h history).1 ≠ .valid := by
      rw [Ne, isTransactionValid_valid_iff hblock]
      rintro ⟨pre, fb, post, hsplit, hvotes, p, hp, hout, -⟩
      exact hinstead fb (by simp [hsplit]) hvotes p hp hout
    have hinvalid : (m.isTransactionValid onChain tx block.hash h history).1 = .inValid := by
      obtain ⟨fb, hmem, hasked⟩ := exists_asked hblock
      simp only [asked, Bool.and_eq_true, decide_eq_true_eq] at hasked
      simp only [isTransactionValid, hblock] at hnot ⊢
      exact checkBudgets_of_not_valid _ _ _ (.inr ⟨fb, hmem, hasked.1⟩) hnot
    simp [isBlockPayeeValid, htx, budgetStatus, toBudget, hblock, hinvalid, h13, h9]

/-! ### A budget that names a proposal twice -/

namespace FallbackSample

open HistoryState.Sample (payment start)

def env : PaymentEnv where
  params := .regtest 0
  isSporkActive id := decide (id ∈ [.enableSuperblocks, .masternodeBudgetEnforcement])
  currentMasterNode _ := none
  encodeDestination _ := (ConsensusParams.regtest 0).strDevFeeAddress
  devpayee := []
  encode_devpayee := rfl
  noReturn _ _ := 0

def repeating : CFinalizedBudget := ⟨288, [payment 1, payment 1], Sample.voters 3⟩

def manager : CBudgetManager := ⟨[repeating], 20⟩

def paying (hash : UInt256) (out : CTxOut) : PayeeBlock :=
  ⟨[.paying [], .paying [⟨0, []⟩, ⟨1000 * COIN, [0x53]⟩, out]], hash⟩

def history : PaymentHistory :=
  (manager.isTransactionValid start.contains (.paying [(payment 1).out]) 1000 288 ∅).2

def masternodeOut : CTxOut := ⟨20 * COIN, [0x51]⟩

end FallbackSample

open FallbackSample HistoryState.Sample in
/-- Block 1000 of the active chain has paid proposal 1, which is due again in the next block. The
budget says so, and the block that pays the masternode is refused all the same. -/
theorem fallback_refused :
    (manager.isTransactionValid start.contains (.paying [(payment 1).out]) 1000 288 ∅).1 = .valid ∧
      (∀ fb ∈ manager.mapFinalizedBudgets, manager.countThreshold 289 < fb.getVoteCount →
        fb.getBudgetPaymentByBlock 289 = some (payment 1) ∧
          (fb.isTransactionValid Sample.onChain (.paying [masternodeOut]) 1001 289 history).1 =
            .doublePayment) ∧
      ((paying 1001 masternodeOut).txNew env 289).any
        (fun tx => (VoteTables.sample 289).isTransactionValid env tx 289) = true ∧
      isBlockPayeeValid env (manager.toBudget Sample.onChain history) true (.sample 289)
        (paying 1001 masternodeOut) 289 = false := by
  refine ⟨by decide +kernel, ?_, by decide +kernel, by decide +kernel⟩
  intro fb hfb _
  obtain rfl := mem_singleton.mp hfb
  decide +kernel

open FallbackSample HistoryState.Sample in
/-- Behind the last payment of the budget the masternode is paid. -/
theorem fallback_accepted_after_end :
    isBlockPayeeValid env (manager.toBudget Sample.onChain history) true (.sample 290)
      (paying 1001 masternodeOut) 290 = true := by
  refine (fallback_accepted_iff env manager (.sample 290) Sample.onChain history
    (paying 1001 masternodeOut) 290 rfl (by decide) (by decide) (by decide +kernel) ?_).mpr
    (by decide +kernel)
  intro fb hfb _ p hp
  obtain rfl := mem_singleton.mp hfb
  cases hp

/-! ## The proposal that a block is accepted for -/

/-- The proposal of the first budget that answers `Valid` in the loop of `IsTransactionValid`. -/
def acceptedFor (nCountThreshold : Int) (onChain : UInt256 → Bool) (txNew : CTransaction)
    (nBlockHash : UInt256) (nBlockHeight : Int) :
    List CFinalizedBudget → PaymentHistory → Option UInt256
  | [], _ => none
  | pfb :: rest, history =>
    if nCountThreshold < pfb.getVoteCount then
      match pfb.isTransactionValid onChain txNew nBlockHash nBlockHeight history with
      | (.valid, _) => (pfb.getBudgetPaymentByBlock nBlockHeight).map (·.nProposalHash)
      | (_, history) =>
        acceptedFor nCountThreshold onChain txNew nBlockHash nBlockHeight rest history
    else acceptedFor nCountThreshold onChain txNew nBlockHash nBlockHeight rest history

/-- What a check of block `hash` at height `h` leaves of the history: the records of the cycle stay,
and every other record that is there names the block. -/
structure Keeps (inCycle : Int → Prop) (hash : UInt256) (h : Int)
    (history history' : PaymentHistory) : Prop where
  kept : ∀ q b r, history.lookup q = some (b, r) → inCycle r → history'.lookup q = some (b, r)
  origin : ∀ q b r, history'.lookup q = some (b, r) →
    history.lookup q = some (b, r) ∨ (b = hash ∧ r = h)

section

variable {inCycle : Int → Prop} {hash : UInt256} {history history' : PaymentHistory}
  {onChain : UInt256 → Bool} {tx : CTransaction} {threshold : Int}

theorem Keeps.refl (history : PaymentHistory) : Keeps inCycle hash h history history :=
  ⟨fun _ _ _ hq _ => hq, fun _ _ _ hq => .inl hq⟩

theorem Keeps.trans {history'' : PaymentHistory} (h1 : Keeps inCycle hash h history history')
    (h2 : Keeps inCycle hash h history' history'') : Keeps inCycle hash h history history'' where
  kept q b r hq hr := h2.kept q b r (h1.kept q b r hq hr) hr
  origin q b r hq := by
    rcases h2.origin q b r hq with hold | hnew
    · exact h1.origin q b r hold
    · exact .inr hnew

/-- The budget covers the recorded heights of the cycle, and no other ones. -/
def Ranges (inCycle : Int → Prop) (history : PaymentHistory) (fb : CFinalizedBudget) : Prop :=
  ∀ q b r, history.lookup q = some (b, r) → (fb.covers r = true ↔ inCycle r)

variable {fb : CFinalizedBudget}

theorem keeps_isPaidAlready (onChain : UInt256 → Bool) (hash : UInt256) (h : Int)
    (hranges : Ranges inCycle history fb) (proposal : UInt256) :
    Keeps inCycle hash h history (fb.isPaidAlready onChain proposal hash h history).2 where
  kept q b r hq hr := by
    rw [lookup_isPaidAlready, hq, filter_some,
      if_pos ((hranges q b r hq).mpr hr), some_or]
  origin q b r hq := by
    rw [lookup_isPaidAlready, or_eq_some_iff] at hq
    rcases hq with hold | ⟨-, hnew⟩
    · exact .inl (filter_eq_some_iff.mp hold).1
    · obtain ⟨-, hrecord⟩ := ite_none_right_eq_some.mp hnew
      cases hrecord
      exact .inr ⟨rfl, rfl⟩

/-- What a check adds is in the range of every budget that is asked. -/
theorem Ranges.keeps (hranges : Ranges inCycle history fb)
    (hkeeps : Keeps inCycle hash h history history') (hcovers : fb.covers h = true)
    (hcycle : inCycle h) : Ranges inCycle history' fb := by
  intro q b r hq
  rcases hkeeps.origin q b r hq with hold | ⟨-, rfl⟩
  · exact hranges q b r hold
  · exact iff_of_true hcovers hcycle

/-- The record of the proposal after the budget was asked: the block, or a block that was recorded
before in the cycle. The budget answers a double payment if that one is on the active chain. -/
theorem record_isPaidAlready (onChain : UInt256 → Bool) (hash : UInt256) (h : Int)
    (hranges : Ranges inCycle history fb) (proposal : UInt256) :
    ∃ b r, (fb.isPaidAlready onChain proposal hash h history).2.lookup proposal = some (b, r) ∧
      ((b = hash ∧ r = h) ∨ (history.lookup proposal = some (b, r) ∧ inCycle r ∧
        ((fb.isPaidAlready onChain proposal hash h history).1 = false → b = hash ∨
          onChain b = false))) := by
  rw [lookup_isPaidAlready]
  cases hold : (history.lookup proposal).filter fun record => fb.covers record.2 with
  | none => exact ⟨hash, h, by simp, .inl ⟨rfl, rfl⟩⟩
  | some record =>
    obtain ⟨b, r⟩ := record
    obtain ⟨hrecord, hcovers⟩ := filter_eq_some_iff.mp hold
    refine ⟨b, r, by simp, .inr ⟨hrecord, (hranges _ b r hrecord).mp hcovers, fun hpaid => ?_⟩⟩
    by_contra hother
    obtain ⟨hne, hon⟩ := not_or.mp hother
    rw [Bool.not_eq_false] at hon
    have : (fb.isPaidAlready onChain proposal hash h history).1 = true :=
      CFinalizedBudget.isPaidAlready_iff.mpr ⟨b, r, hrecord, hcovers, hne, hon⟩
    rw [hpaid] at this
    cases this

end

section

variable (inCycle : Int → Prop) (threshold : Int) (onChain : UInt256 → Bool) (tx : CTransaction)
  (hash : UInt256) (h : Int) (history : PaymentHistory) {fb : CFinalizedBudget}
  (l : List CFinalizedBudget) (fThreshold : Bool)

theorem loop_cons_of_not_asked (hasked : asked threshold h fb = false) :
    (∃ f, checkBudgets threshold onChain tx hash h (fb :: l) fThreshold history =
        checkBudgets threshold onChain tx hash h l f history) ∧
      acceptedFor threshold onChain tx hash h (fb :: l) history =
        acceptedFor threshold onChain tx hash h l history := by
  by_cases hvotes : threshold < fb.getVoteCount
  · have hp : fb.getBudgetPaymentByBlock h = none := by
      have hcovers : ¬ fb.covers h = true := by simpa [asked, hvotes] using hasked
      simpa [covers_iff, eq_none_iff_forall_ne_some] using hcovers
    simp only [checkBudgets, acceptedFor, hvotes, if_true,
      CFinalizedBudget.isTransactionValid_of_none hp]
    exact ⟨⟨true, rfl⟩, trivial⟩
  · simp only [checkBudgets, acceptedFor, hvotes, if_false]
    exact ⟨⟨fThreshold, rfl⟩, trivial⟩

theorem loop_cons_of_asked {p : CTxBudgetPayment} (hvotes : threshold < fb.getVoteCount)
    (hp : fb.getBudgetPaymentByBlock h = some p) :
    let paid := fb.isPaidAlready onChain p.nProposalHash hash h history
    (paid.1 = false ∧ p.out ∈ tx.vout ∧
      checkBudgets threshold onChain tx hash h (fb :: l) fThreshold history = (.valid, paid.2) ∧
      acceptedFor threshold onChain tx hash h (fb :: l) history = some p.nProposalHash) ∨
    (checkBudgets threshold onChain tx hash h (fb :: l) fThreshold history =
        checkBudgets threshold onChain tx hash h l true paid.2 ∧
      acceptedFor threshold onChain tx hash h (fb :: l) history =
        acceptedFor threshold onChain tx hash h l paid.2) := by
  simp only [checkBudgets, acceptedFor, hvotes, CFinalizedBudget.isTransactionValid_eq hp]
  cases hpaid : (fb.isPaidAlready onChain p.nProposalHash hash h history).1 with
  | true => simp
  | false =>
    by_cases hout : p.out ∈ tx.vout
    · simp [hout, hp]
    · simp [hout]

/-- The budgets of the list that are asked have the recorded heights of the cycle in range. -/
def AllRange : Prop := ∀ fb ∈ l, asked threshold h fb = true → Ranges inCycle history fb

/-- What the loop does to the history `history`, which it leaves as `history'`. -/
structure LoopSpec (history' : PaymentHistory) : Prop where
  keeps : Keeps inCycle hash h history history'
  /-- A budget that is asked has a record of its cycle afterwards. -/
  recorded : (∃ fb ∈ l, asked threshold h fb = true) →
    ∃ q b r, history'.lookup q = some (b, r) ∧ inCycle r
  /-- The block is accepted for a proposal if it is the one that is recorded, or if the recorded one
  is not on the active chain. -/
  accepted : ∀ q, acceptedFor threshold onChain tx hash h l history = some q →
    ∃ fb ∈ l, asked threshold h fb = true ∧ ∃ p, fb.getBudgetPaymentByBlock h = some p ∧
      p.nProposalHash = q ∧ p.out ∈ tx.vout ∧
      ∃ b r, history'.lookup q = some (b, r) ∧ ((b = hash ∧ r = h) ∨
        (history.lookup q = some (b, r) ∧ inCycle r ∧ (b = hash ∨ onChain b = false)))

variable {inCycle threshold onChain tx hash h history l}

theorem payment_of_asked (hasked : asked threshold h fb = true) :
    threshold < fb.getVoteCount ∧ ∃ p, fb.getBudgetPaymentByBlock h = some p := by
  simp only [asked, Bool.and_eq_true, decide_eq_true_eq] at hasked
  exact ⟨hasked.1, covers_iff.mp hasked.2⟩

theorem AllRange.keeps {history' : PaymentHistory}
    (hall : AllRange inCycle threshold h history l)
    (hkeeps : Keeps inCycle hash h history history') (hcycle : inCycle h) :
    AllRange inCycle threshold h history' l := by
  intro fb hfb hasked
  have hcovers : fb.covers h = true := covers_iff.mpr (payment_of_asked hasked).2
  exact (hall fb hfb hasked).keeps hkeeps hcovers hcycle

theorem LoopSpec.cons {history1 history' : PaymentHistory}
    (hspec : LoopSpec inCycle threshold onChain tx hash h history1 l history')
    (hkeeps : Keeps inCycle hash h history history1)
    (hloop : acceptedFor threshold onChain tx hash h (fb :: l) history =
      acceptedFor threshold onChain tx hash h l history1)
    (hrecorded : asked threshold h fb = true →
      ∃ q b r, history1.lookup q = some (b, r) ∧ inCycle r) :
    LoopSpec inCycle threshold onChain tx hash h history (fb :: l) history' where
  keeps := hkeeps.trans hspec.keeps
  recorded := by
    rintro ⟨g, hg, hasked⟩
    rcases mem_cons.mp hg with rfl | hg
    · obtain ⟨q, b, r, hq, hr⟩ := hrecorded hasked
      exact ⟨q, b, r, hspec.keeps.kept q b r hq hr, hr⟩
    · exact hspec.recorded ⟨g, hg, hasked⟩
  accepted := by
    intro q hq
    obtain ⟨g, hg, hasked, p, hp, hproposal, hout, b, r, hrecord, hor⟩ :=
      hspec.accepted q (hloop ▸ hq)
    refine ⟨g, mem_cons_of_mem fb hg, hasked, p, hp, hproposal, hout, b, r, hrecord, ?_⟩
    rcases hor with hself | ⟨hold, hr, hoff⟩
    · exact .inl hself
    · rcases hkeeps.origin q b r hold with hold | hself
      · exact .inr ⟨hold, hr, hoff⟩
      · exact .inl hself

/-- **The loop**, where all budgets that are asked agree on the recorded heights of the cycle. -/
theorem loopSpec_checkBudgets (hcycle : inCycle h) (l : List CFinalizedBudget) (fThreshold : Bool)
    (history : PaymentHistory) (hall : AllRange inCycle threshold h history l) :
    LoopSpec inCycle threshold onChain tx hash h history l
      (checkBudgets threshold onChain tx hash h l fThreshold history).2 := by
  induction l generalizing fThreshold history with
  | nil => exact ⟨.refl history, by simp, by simp [acceptedFor]⟩
  | cons fb l ih =>
    have htail : AllRange inCycle threshold h history l :=
      fun g hg => hall g (mem_cons_of_mem fb hg)
    cases hasked : asked threshold h fb with
    | false =>
      obtain ⟨⟨f, hloop⟩, haccepted⟩ :=
        loop_cons_of_not_asked threshold onChain tx hash h history l fThreshold hasked
      rw [hloop]
      exact (ih f history htail).cons (.refl history) haccepted (by simp [hasked])
    | true =>
      obtain ⟨hvotes, p, hp⟩ := payment_of_asked hasked
      have hranges : Ranges inCycle history fb := hall fb mem_cons_self hasked
      have hkeeps := keeps_isPaidAlready onChain hash h hranges p.nProposalHash
      obtain ⟨b, r, hrecord, hor⟩ := record_isPaidAlready onChain hash h hranges p.nProposalHash
      have hr : inCycle r := by
        rcases hor with ⟨-, rfl⟩ | ⟨-, hr, -⟩
        · exact hcycle
        · exact hr
      rcases loop_cons_of_asked threshold onChain tx hash h history l fThreshold hvotes hp with
        ⟨hpaid, hout, hloop, haccepted⟩ | ⟨hloop, haccepted⟩
      · rw [hloop]
        refine ⟨hkeeps, fun _ => ⟨_, b, r, hrecord, hr⟩, fun q hq => ?_⟩
        cases haccepted.symm.trans hq
        exact ⟨fb, mem_cons_self, hasked, p, hp, rfl, hout, b, r, hrecord,
          hor.imp_right fun ho => ⟨ho.1, ho.2.1, ho.2.2 hpaid⟩⟩
      · rw [hloop]
        exact (ih true _ (htail.keeps hkeeps hcycle)).cons hkeeps haccepted
          fun _ => ⟨_, b, r, hrecord, hr⟩

/-- The loop has a proposal that it accepts for just where it answers `Valid`. -/
theorem isSome_acceptedFor :
    (acceptedFor threshold onChain tx hash h l history).isSome = true ↔
      (checkBudgets threshold onChain tx hash h l fThreshold history).1 = .valid := by
  induction l generalizing fThreshold history with
  | nil =>
    simp only [acceptedFor, checkBudgets]
    split_ifs <;> simp
  | cons fb l ih =>
    cases hasked : asked threshold h fb with
    | false =>
      obtain ⟨⟨f, hloop⟩, haccepted⟩ :=
        loop_cons_of_not_asked threshold onChain tx hash h history l fThreshold hasked
      rw [hloop, haccepted, ih f]
    | true =>
      obtain ⟨hvotes, p, hp⟩ := payment_of_asked hasked
      rcases loop_cons_of_asked threshold onChain tx hash h history l fThreshold hvotes hp with
        ⟨-, -, hloop, haccepted⟩ | ⟨hloop, haccepted⟩
      · simp [hloop, haccepted]
      · rw [hloop, haccepted, ih true]

end

end CBudgetManager

/-! ## Runs -/

open CBudgetManager

/-- What does not change in a run: the sporks and parameters, and the blocks with their heights. -/
structure SuperblockEnv where
  env : PaymentEnv
  block : UInt256 → PayeeBlock
  height : UInt256 → Int

/-- A block of the active chain, with the proposal that its coinstake was accepted for. -/
structure PaidBlock where
  hash : UInt256
  accepted : Option UInt256
  deriving DecidableEq

/-- The history and the active chain, its tip first. -/
structure SuperblockState where
  mapPaymentHistory : PaymentHistory
  chainActive : List PaidBlock

/-- Blocks are checked when they arrive and again when they are connected, each time with the
budgets and votes of the moment. -/
inductive SuperblockEvent where
  | check (m : CBudgetManager) (hash : UInt256)
  | connect (m : CBudgetManager) (t : VoteTables) (hash : UInt256)
  | disconnect

namespace SuperblockState

/-- At startup the history is empty, and nothing is known about the chain that was loaded. -/
def init (chain : List UInt256) : SuperblockState := ⟨∅, chain.map fun hash => ⟨hash, none⟩⟩

def contains (st : SuperblockState) (hash : UInt256) : Bool :=
  st.chainActive.any fun x => x.hash == hash

section

variable (E : SuperblockEnv) (st : SuperblockState)

/-- The transaction that `IsBlockPayeeValid` hands to the manager. -/
def superblockTx (m : CBudgetManager) (hash : UInt256) : Option CTransaction :=
  if E.env.isSporkActive .enableSuperblocks && m.isBudgetPaymentBlock (E.height hash) then
    (E.block hash).txNew E.env (E.height hash)
  else none

def historyAfter (m : CBudgetManager) (hash : UInt256) : PaymentHistory :=
  match superblockTx E m hash with
  | none => st.mapPaymentHistory
  | some tx =>
    (m.isTransactionValid st.contains tx hash (E.height hash) st.mapPaymentHistory).2

/-- The proposal for which a check accepts the block, if it accepts it as a superblock. -/
def acceptedProposal (m : CBudgetManager) (hash : UInt256) : Option UInt256 :=
  match superblockTx E m hash with
  | none => none
  | some tx =>
    acceptedFor (m.countThreshold (E.height hash)) st.contains tx hash (E.height hash)
      m.mapFinalizedBudgets st.mapPaymentHistory

def apply : SuperblockEvent → SuperblockState
  | .check m hash => { st with mapPaymentHistory := st.historyAfter E m hash }
  | .connect m _ hash =>
    { mapPaymentHistory := st.historyAfter E m hash
      chainActive := ⟨hash, st.acceptedProposal E m hash⟩ :: st.chainActive }
  | .disconnect => { st with chainActive := st.chainActive.tail }

/-- A block is connected on top of the chain, if it passes the check of a synced node. -/
def Legal : SuperblockEvent → Prop
  | .connect m t hash =>
    (E.block hash).hash = hash ∧ E.height hash = st.chainActive.length ∧
      st.contains hash = false ∧
      isBlockPayeeValid E.env (m.toBudget st.contains st.mapPaymentHistory) true t (E.block hash)
        (E.height hash) = true
  | _ => True

/-- The states of the runs whose steps all satisfy `P`. -/
inductive Reaches (P : SuperblockState → SuperblockEvent → Prop) : SuperblockState → Prop
  | init (chain : List UInt256) : Reaches P (init chain)
  | step {st : SuperblockState} (e : SuperblockEvent) : Reaches P st → st.Legal E e → P st e →
      Reaches P (st.apply E e)

def cycle (h : Int) : Int := h / E.env.params.nBudgetCycleBlocks

/-- No two blocks of the active chain were accepted for one proposal in one cycle. -/
def AcceptedOnce : Prop :=
  ∀ q c, (st.chainActive.filter fun x =>
    decide (x.accepted = some q) && decide (cycle E (E.height x.hash) = c)).length ≤ 1

/-- The condition on the check of a superblock: no record is of a later cycle, and each budget that
is asked covers the recorded heights of the block's cycle and no other recorded height. -/
structure CheckMeets (m : CBudgetManager) (hash : UInt256) : Prop where
  cycles : ∀ q b r, st.mapPaymentHistory.lookup q = some (b, r) →
    cycle E r ≤ cycle E (E.height hash)
  ranges : AllRange (fun r => cycle E r = cycle E (E.height hash))
    (m.countThreshold (E.height hash)) (E.height hash) st.mapPaymentHistory m.mapFinalizedBudgets

/-- The condition on the connection of a superblock: a proposal whose payment it has is recorded in
the cycle, if at all, for the block itself or for a block of the active chain. -/
def Unhidden (m : CBudgetManager) (hash : UInt256) (tx : CTransaction) : Prop :=
  ∀ fb ∈ m.mapFinalizedBudgets,
    asked (m.countThreshold (E.height hash)) (E.height hash) fb = true →
    ∀ p, fb.getBudgetPaymentByBlock (E.height hash) = some p → p.out ∈ tx.vout →
    ∀ b r, st.mapPaymentHistory.lookup p.nProposalHash = some (b, r) →
      cycle E r = cycle E (E.height hash) → b = hash ∨ st.contains b = true

def Meets : SuperblockEvent → Prop
  | .check m hash => ∀ tx, superblockTx E m hash = some tx → st.CheckMeets E m hash
  | .connect m _ hash => ∀ tx, superblockTx E m hash = some tx →
      st.CheckMeets E m hash ∧ st.Unhidden E m hash tx
  | .disconnect => True

/-- Records have the heights of their blocks. A block that was accepted for a proposal is the
recorded one, until a block of a later cycle is recorded. -/
structure Exact : Prop where
  heights : ∀ q b r, st.mapPaymentHistory.lookup q = some (b, r) → r = E.height b
  recorded : ∀ x ∈ st.chainActive, ∀ q, x.accepted = some q →
    st.mapPaymentHistory.lookup q = some (x.hash, E.height x.hash) ∨
      ∃ q' b r, st.mapPaymentHistory.lookup q' = some (b, r) ∧
        cycle E (E.height x.hash) < cycle E r
  once : st.AcceptedOnce E

end

variable {E : SuperblockEnv} {st : SuperblockState} {m : CBudgetManager} {hash : UInt256}
  {tx : CTransaction}

theorem isBudgetPaymentBlock_of_superblockTx (htx : superblockTx E m hash = some tx) :
    m.isBudgetPaymentBlock (E.height hash) = true := by
  unfold superblockTx at htx
  split_ifs at htx with hblock
  exact (Bool.and_eq_true_iff.mp hblock).2

/-- Accepted for a proposal means paid as a superblock. -/
theorem isSome_acceptedProposal (hhash : (E.block hash).hash = hash) :
    (st.acceptedProposal E m hash).isSome = true ↔
      PaidAsSuperblock E.env (m.toBudget st.contains st.mapPaymentHistory) (E.block hash)
        (E.height hash) := by
  unfold acceptedProposal PaidAsSuperblock superblockTx budgetStatus
  cases hsuper : E.env.isSporkActive .enableSuperblocks &&
      m.isBudgetPaymentBlock (E.height hash) with
  | false => simp [toBudget, hsuper]
  | true =>
    obtain ⟨h13, hblock⟩ := Bool.and_eq_true_iff.mp hsuper
    cases htx : (E.block hash).txNew E.env (E.height hash) with
    | none => simp
    | some tx =>
      simp [toBudget, h13, hhash, isTransactionValid, hblock, isSome_acceptedFor false]

theorem loopSpec_historyAfter (htx : superblockTx E m hash = some tx)
    (hmeets : st.CheckMeets E m hash) :
    LoopSpec (fun r => cycle E r = cycle E (E.height hash)) (m.countThreshold (E.height hash))
      st.contains tx hash (E.height hash) st.mapPaymentHistory m.mapFinalizedBudgets
      (st.historyAfter E m hash) := by
  have hblock := isBudgetPaymentBlock_of_superblockTx htx
  simp only [historyAfter, htx, isTransactionValid, hblock]
  refine loopSpec_checkBudgets ?_ _ _ _ hmeets.ranges
  rfl

theorem Exact.check (hexact : st.Exact E)
    (hmeets : ∀ tx, superblockTx E m hash = some tx → st.CheckMeets E m hash) :
    Exact E { st with mapPaymentHistory := st.historyAfter E m hash } := by
  cases htx : superblockTx E m hash with
  | none => rwa [historyAfter, htx]
  | some tx =>
    have hspec := loopSpec_historyAfter htx (hmeets tx htx)
    refine ⟨fun q b r hq => ?_, fun x hx q hq => ?_, hexact.once⟩
    · rcases hspec.keeps.origin q b r hq with hold | ⟨rfl, rfl⟩
      · exact hexact.heights q b r hold
      · rfl
    · obtain ⟨q', b', r', hnew, hr'⟩ :=
        hspec.recorded (exists_asked (isBudgetPaymentBlock_of_superblockTx htx))
      rcases hexact.recorded x hx q hq with hrecord | ⟨q1, b1, r1, hlater, hlt⟩
      · rcases ((hmeets tx htx).cycles q _ _ hrecord).lt_or_eq with hlt | heq
        · exact .inr ⟨q', b', r', hnew, hlt.trans_eq hr'.symm⟩
        · exact .inl (hspec.keeps.kept q _ _ hrecord heq)
      · have hle := (hmeets tx htx).cycles q1 b1 r1 hlater
        exact .inr ⟨q', b', r', hnew, (hlt.trans_le hle).trans_eq hr'.symm⟩

variable {q : UInt256}

theorem superblockTx_of_accepted (hq : st.acceptedProposal E m hash = some q) :
    ∃ tx, superblockTx E m hash = some tx := by
  cases htx : superblockTx E m hash with
  | none => simp [acceptedProposal, htx] at hq
  | some tx => exact ⟨tx, rfl⟩

theorem lookup_of_accepted (hexact : st.Exact E) (hmeets : ∀ tx, superblockTx E m hash = some tx →
      st.CheckMeets E m hash ∧ st.Unhidden E m hash tx)
    (hq : st.acceptedProposal E m hash = some q) :
    (st.historyAfter E m hash).lookup q = some (hash, E.height hash) := by
  obtain ⟨tx, htx⟩ := superblockTx_of_accepted hq
  obtain ⟨hcheck, hunhidden⟩ := hmeets tx htx
  have hspec := loopSpec_historyAfter htx hcheck
  simp only [acceptedProposal, htx] at hq
  obtain ⟨fb, hfb, hasked, p, hp, rfl, hout, b, r, hrecord, hor⟩ := hspec.accepted q hq
  rcases hor with ⟨rfl, rfl⟩ | ⟨hold, hr, hoff⟩
  · exact hrecord
  · have hself : b = hash := by
      rcases hunhidden fb hfb hasked p hp hout b r hold hr with hself | hon
      · exact hself
      · exact hoff.resolve_right (by simp [hon])
    rw [hrecord, hexact.heights _ b r hold, hself]

/-- No record is of a later cycle than the block that was checked last. -/
theorem CheckMeets.cycle_le (htx : superblockTx E m hash = some tx)
    (hmeets : st.CheckMeets E m hash) {b : UInt256} {r : Int}
    (hq : (st.historyAfter E m hash).lookup q = some (b, r)) :
    cycle E r ≤ cycle E (E.height hash) := by
  rcases (loopSpec_historyAfter htx hmeets).keeps.origin q b r hq with hold | ⟨-, rfl⟩
  · exact hmeets.cycles q b r hold
  · exact le_rfl

/-- One connection adds to no proposal that was accepted for in the cycle. -/
theorem Exact.connect (hexact : st.Exact E) (hnew : st.contains hash = false)
    (hmeets : ∀ tx, superblockTx E m hash = some tx →
      st.CheckMeets E m hash ∧ st.Unhidden E m hash tx) :
    Exact E
      { mapPaymentHistory := st.historyAfter E m hash
        chainActive := ⟨hash, st.acceptedProposal E m hash⟩ :: st.chainActive } := by
  have hcheck := hexact.check fun tx htx => (hmeets tx htx).1
  refine ⟨hcheck.heights, forall_mem_cons.mpr
    ⟨fun q hq => .inl (lookup_of_accepted hexact hmeets hq), hcheck.recorded⟩, fun q c => ?_⟩
  by_cases hq : st.acceptedProposal E m hash = some q ∧ cycle E (E.height hash) = c
  · -- a block that was accepted for the proposal before would be recorded in the place of this one
    have hothers : st.chainActive.filter (fun x =>
        decide (x.accepted = some q) && decide (cycle E (E.height x.hash) = c)) = [] := by
      rw [filter_eq_nil_iff]
      intro x hx hboth
      simp only [Bool.and_eq_true, decide_eq_true_eq] at hboth
      have hne : x.hash ≠ hash := by
        rintro rfl
        exact absurd hnew (by simpa [contains] using ⟨x, hx, rfl⟩)
      rcases hcheck.recorded x hx q hboth.1 with hrecord | ⟨q', b', r', hlater, hlt⟩
      · exact hne (congrArg Prod.fst (some.inj (hrecord.symm.trans
          (lookup_of_accepted hexact hmeets hq.1))))
      · obtain ⟨tx, htx⟩ := superblockTx_of_accepted hq.1
        have hle := (hmeets tx htx).1.cycle_le htx hlater
        rw [hboth.2, ← hq.2] at hlt
        exact hle.not_gt hlt
    simp [hothers, hq]
  · have hskip : (decide (st.acceptedProposal E m hash = some q) &&
        decide (cycle E (E.height hash) = c)) = false := by simpa using hq
    rw [filter_cons_of_neg (by simp [hskip])]
    exact hexact.once q c

theorem Exact.disconnect (hexact : st.Exact E) :
    Exact E { st with chainActive := st.chainActive.tail } where
  heights := hexact.heights
  recorded x hx := hexact.recorded x (mem_of_mem_tail hx)
  once q c :=
    (((tail_sublist st.chainActive).filter _).length_le).trans (hexact.once q c)

theorem exact_init (chain : List UInt256) : Exact E (init chain) where
  heights q b r hq := absurd hq (by simp [init])
  recorded x hx q hq := by
    obtain ⟨hash, -, rfl⟩ := mem_map.mp hx
    cases hq
  once q c := by simp [init, List.filter_map, Function.comp_def]

theorem Exact.apply (hexact : st.Exact E) {e : SuperblockEvent} (hlegal : st.Legal E e)
    (hmeets : st.Meets E e) : (st.apply E e).Exact E := by
  cases e with
  | check m hash => exact hexact.check hmeets
  | connect m t hash => exact hexact.connect hlegal.2.2.1 hmeets
  | disconnect => exact hexact.disconnect

/-- **No proposal is paid twice in a cycle**, in the runs that meet the condition at every step. -/
theorem acceptedOnce_of_reaches (E : SuperblockEnv) (st : SuperblockState)
    (hreaches : Reaches E (fun st e => st.Meets E e) st) : st.AcceptedOnce E := by
  suffices hexact : st.Exact E from hexact.once
  induction hreaches with
  | init chain => exact exact_init chain
  | step e _ hlegal hmeets ih => exact ih.apply hlegal hmeets

/-! ### Blocks 1000 and 1001 compete at the first height, 1002 and 1003 at the second -/

namespace RunSample

open HistoryState.Sample (payment start)

def env : SuperblockEnv where
  env := FallbackSample.env
  block hash := FallbackSample.paying hash (payment (if hash = 1003 then 2 else 1)).out
  height hash :=
    if hash = 1000 ∨ hash = 1001 then 288
    else if hash = 1002 ∨ hash = 1003 then 289
    else hash.toNat

def single : CBudgetManager := ⟨[Sample.majority], 20⟩

def start₀ : SuperblockState := init start.chainActive

def paid (first second : UInt256) (m : CBudgetManager) (st : SuperblockState) : SuperblockState :=
  (st.apply env (.connect m .empty first)).apply env (.connect m .empty second)

theorem lookup_first {q b : UInt256} {r : Int}
    (hq : (start₀.apply env (.connect single .empty 1001)).mapPaymentHistory.lookup q =
      some (b, r)) : q = 1 ∧ b = 1001 ∧ r = 288 := by
  have hentries : (start₀.apply env (.connect single .empty 1001)).mapPaymentHistory.entries =
      [⟨1, (1001, 288)⟩] := by decide +kernel
  have hmem := AList.mem_lookup_iff.mp (mem_def.mpr hq)
  rw [hentries, mem_singleton] at hmem
  cases hmem
  exact ⟨rfl, rfl, rfl⟩

theorem lookup_start {q : UInt256} {record : UInt256 × Int} :
    start₀.mapPaymentHistory.lookup q ≠ some record := by simp [start₀, init]

end RunSample

open RunSample in
/-- Two superblocks pay the two proposals. -/
theorem acceptedOnce_two_payments :
    (paid 1001 1003 single start₀).AcceptedOnce env ∧
      (paid 1001 1003 single start₀).chainActive.take 2 = [⟨1003, some 2⟩, ⟨1001, some 1⟩] := by
  refine ⟨acceptedOnce_of_reaches env _ (.step (.connect single .empty 1003)
    (.step (.connect single .empty 1001) (.init _) ?_ ?_) ?_ ?_), by decide +kernel⟩
  · exact ⟨rfl, by decide +kernel, by decide +kernel, by decide +kernel⟩
  · exact fun tx _ => ⟨⟨fun q b r hq => absurd hq lookup_start,
      fun fb _ _ q b r hq => absurd hq lookup_start⟩,
      fun fb _ _ p _ _ b r hq => absurd hq lookup_start⟩
  · exact ⟨rfl, by decide +kernel, by decide +kernel, by decide +kernel⟩
  · refine fun tx _ => ⟨⟨fun q b r hq => ?_, fun fb hfb _ q b r hq => ?_⟩,
      fun fb _ _ p _ _ b r hq _ => ?_⟩
    · obtain ⟨-, -, rfl⟩ := lookup_first hq
      decide +kernel
    · obtain rfl := mem_singleton.mp hfb
      obtain ⟨-, -, rfl⟩ := lookup_first hq
      decide +kernel
    · obtain ⟨-, rfl, -⟩ := lookup_first hq
      exact .inr (by decide +kernel)

open RunSample in
/-- Block 1000 is checked and never connected. It stays recorded for proposal 1, so that block 1001
and, by the budget that pays in the other order, block 1002 are both accepted for it. -/
theorem pays_twice :
    Reaches env (fun _ _ => True)
        (paid 1001 1002 Sample.manager (start₀.apply env (.check Sample.manager 1000))) ∧
      ¬ (paid 1001 1002 Sample.manager (start₀.apply env (.check Sample.manager 1000))).AcceptedOnce
        env := by
  refine ⟨.step (.connect Sample.manager .empty 1002) (.step (.connect Sample.manager .empty 1001)
    (.step (.check Sample.manager 1000) (.init _) trivial trivial) ?_ trivial) ?_ trivial,
    fun h => ?_⟩
  · exact ⟨rfl, by decide +kernel, by decide +kernel, by decide +kernel⟩
  · exact ⟨rfl, by decide +kernel, by decide +kernel, by decide +kernel⟩
  · exact absurd (h 1 2) (by decide +kernel)

end SuperblockState

end Passion
