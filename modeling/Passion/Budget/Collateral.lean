import Passion.Budget.FinalizedChecks
import Passion.Lib.Indexed
import Passion.Script.Script

/-!
# Budget objects and their fee transactions

`CBudgetManager::AddProposal`, `AddFinalizedBudget`, `CheckAndRemove` and `RemoveByFeeTxId`, and
`CheckCollateral`, of `budget/budgetmanager.cpp`.

A proposal or a finalized budget names the transaction that paid its fee, the *collateral*. The
manager keeps an index from the collateral to the object, so that `DisconnectBlock` can remove the
object when the payment is undone.

**The index.** The two stores are instances of `Lib.Indexed`, with the hash as identity and the
collateral as reference. They are independent of each other, and `RemoveByFeeTxId` looks into the
second one only if the first has nothing.

**Shared collateral.** `CheckCollateral` asks for an output that commits to the object. One
transaction can have such outputs for several objects, and nothing asks whether it is in use.

Main result: `linked_run_iff`, the runs in which objects and collateral stay linked.
-/

namespace Passion

open Lib Indexed
open ProposalRecord (nFeeTXHash)

def CScript.isPayToPublicKeyHash (s : CScript) : Bool :=
  decide (s.length = 25) && s[0]? == some OP_DUP && s[1]? == some OP_HASH160 &&
    s[2]? == some 0x14 && s[23]? == some OP_EQUALVERIFY && s[24]? == some OP_CHECKSIG

namespace ConsensusParams

def nBudgetFeeConfirmations (params : ConsensusParams) : Int :=
  match params.network with
  | .main => 6
  | .testnet | .regtest => 3

def nMaxProposalPayments (params : ConsensusParams) : Int :=
  match params.network with
  | .main => 6
  | .testnet | .regtest => 20

end ConsensusParams

/-- What `GetTransaction` finds; the block is null while the transaction is in the mempool. -/
structure CollateralTx where
  vout : List CTxOut
  nLockTime : Nat
  nBlockHash : UInt256

structure BudgetEnv where
  params : ConsensusParams
  /-- `GetBestHeight()`. -/
  nCurrentHeight : Int
  /-- `mnodeman.CountEnabled(ActiveProtocol())`. -/
  nCountEnabled : Nat
  getTransaction : UInt256 → Option CollateralTx
  /-- The height of a block of the active chain. -/
  findActive : UInt256 → Option Int
  /-- `ExtractDestination` gives a destination, and `IsValidDestination` holds of it. -/
  hasValidDestination : CScript → Bool

/-! ## `CheckCollateral` -/

/-- The reasons in `strError`; `malformed` is the refusal without one. -/
inductive CollateralError where
  | cantFind (nTxCollateralHash : UInt256)
  | malformed
  | invalidScript (nTxCollateralHash : UInt256)
  | noOpReturn (nExpectedHash nTxCollateralHash : UInt256)
  | unconfirmed (nTxCollateralHash : UInt256)
  | notInActiveChain (nTxCollateralHash : UInt256)
  | requiresConfirmations (nRequiredConfs nConf nCurrentHeight nProposalHeight : Int)
  deriving DecidableEq, Repr

def proposalFeeTx : CAmount := 50 * COIN

def budgetFeeTx : CAmount := 5 * COIN

/-- `CScript() << OP_RETURN << ToByteVector(nExpectedHash)`. -/
def commitmentScript (nExpectedHash : UInt256) : CScript :=
  CScript.OP_RETURN :: CScript.pushData (CScript.writeLE 32 nExpectedHash.toNat)

namespace BudgetEnv

variable (env : BudgetEnv)

/-- The loop over the outputs. It ends at the first that pays the fee, so the scripts of later ones
are not looked at. -/
def findOpReturn (nTxCollateralHash : UInt256) (findScript : CScript) (nFee : CAmount) :
    List CTxOut → Except CollateralError Bool
  | [] => .ok false
  | o :: rest =>
    if !CScript.isPayToPublicKeyHash o.scriptPubKey && !CScript.isUnspendable o.scriptPubKey then
      .error (.invalidScript nTxCollateralHash)
    else if o.scriptPubKey = findScript ∧ nFee ≤ o.nValue then .ok true
    else findOpReturn nTxCollateralHash findScript nFee rest

def checkCollateralConfs (nProposalHeight : Int) : Except CollateralError Unit :=
  let nRequiredConfs := env.params.nBudgetFeeConfirmations
  let nConf := env.nCurrentHeight - nProposalHeight + 1
  if nConf < nRequiredConfs then
    .error (.requiresConfirmations nRequiredConfs nConf env.nCurrentHeight nProposalHeight)
  else .ok ()

def checkCollateral (nTxCollateralHash nExpectedHash : UInt256) (fBudgetFinalization : Bool) :
    Except CollateralError Unit :=
  match env.getTransaction nTxCollateralHash with
  | none => .error (.cantFind nTxCollateralHash)
  | some txCollateral =>
    if txCollateral.vout.isEmpty then .error .malformed
    else if txCollateral.nLockTime ≠ 0 then .error .malformed
    else do
      let foundOpReturn ← findOpReturn nTxCollateralHash (commitmentScript nExpectedHash)
        (if fBudgetFinalization then budgetFeeTx else proposalFeeTx) txCollateral.vout
      if !foundOpReturn then .error (.noOpReturn nExpectedHash nTxCollateralHash)
      else if txCollateral.nBlockHash = 0 then .error (.unconfirmed nTxCollateralHash)
      else
        let nProposalHeight := (env.findActive txCollateral.nBlockHash).getD 0
        if nProposalHeight = 0 then .error (.notInActiveChain nTxCollateralHash)
        else env.checkCollateralConfs nProposalHeight

end BudgetEnv

/-! ## The checks of a proposal and the validity of both kinds -/

namespace ProposalRecord

variable (env : BudgetEnv) (p : ProposalRecord)

/-- `GetTotalPaymentCount`, with `GetBlockEndCycle` and `GetBlockStartCycle`. -/
def getTotalPaymentCount : Int :=
  let cycle := env.params.nBudgetCycleBlocks
  (p.nBlockEnd - (p.nBlockStart - p.nBlockStart.tmod cycle)).tdiv cycle

def checkStartEnd : Except String Unit :=
  let fNewRules := env.params.networkUpgradeActive p.nBlockStart .v5_0
  if p.nBlockStart < 0 ∨
      (fNewRules ∧ p.nBlockStart.tmod env.params.nBudgetCycleBlocks ≠ 0) then
    .error "Invalid nBlockStart"
  else if p.nBlockEnd < p.nBlockStart then .error "Invalid nBlockEnd (end before start)"
  else if fNewRules ∧ env.params.nMaxProposalPayments < p.getTotalPaymentCount env then
    .error "Invalid payment count"
  else .ok ()

def checkAmount (nTotalBudget : CAmount) : Except String Unit :=
  if p.nAmount < 10 * COIN then .error "Invalid nAmount (too low)"
  else if nTotalBudget < p.nAmount then .error "Invalid nAmount (too high)"
  else .ok ()

/-- `CheckAddress`. The two refusals of a script without a valid address are one here. -/
def checkAddress : Except String Unit :=
  if CScript.isPayToScriptHash p.address then .error "Multisig is not currently supported."
  else if !env.hasValidDestination p.address then .error "Invalid script"
  else .ok ()

def isWellFormed (nTotalBudget : CAmount) : Except String Unit := do
  p.checkStartEnd env
  p.checkAmount nTotalBudget
  p.checkAddress env

def isHeavilyDownvoted (fNewRules : Bool) : Bool :=
  decide ((((if fNewRules then 3 else 1) * env.nCountEnabled / 10 : Nat) : Int) <
    (p.getVoteCount .no : Int) - p.getVoteCount .yes)

def updateValid : Bool :=
  let fNewRules := env.params.networkUpgradeActive env.nCurrentHeight .v5_0
  -- no proposal is dropped before its first superblock
  if (!fNewRules || decide (p.nBlockStart < env.nCurrentHeight)) &&
      p.isHeavilyDownvoted env fNewRules then false
  else if p.nBlockEnd < env.nCurrentHeight then false
  else true

def setVotes (votes : UInt256 → Map COutPoint CBudgetVote) : ProposalRecord :=
  { p with mapVotes := votes p.hash }

theorem hash_setVotes (votes : UInt256 → Map COutPoint CBudgetVote) (p : ProposalRecord) :
    (p.setVotes votes).hash = p.hash := rfl

theorem nFeeTXHash_setVotes (votes : UInt256 → Map COutPoint CBudgetVote) (p : ProposalRecord) :
    (p.setVotes votes).nFeeTXHash = p.nFeeTXHash := rfl

end ProposalRecord

namespace FinalizedRecord

variable (env : BudgetEnv) (fb : FinalizedRecord)

/-- A budget goes after its last payment block. -/
def isExpired : Bool :=
  let nLastSuperBlock :=
    env.nCurrentHeight - env.nCurrentHeight.tmod env.params.nBudgetCycleBlocks
  decide (fb.getBlockEnd < nLastSuperBlock)

def updateValid : Bool := !fb.isExpired env

def setVotes (votes : UInt256 → Map COutPoint CFinalizedBudgetVote) : FinalizedRecord :=
  { fb with mapVotes := votes fb.hash }

theorem hash_setVotes (votes : UInt256 → Map COutPoint CFinalizedBudgetVote)
    (fb : FinalizedRecord) : (fb.setVotes votes).hash = fb.hash := rfl

theorem nFeeTXHash_setVotes (votes : UInt256 → Map COutPoint CFinalizedBudgetVote)
    (fb : FinalizedRecord) : (fb.setVotes votes).nFeeTXHash = fb.nFeeTXHash := rfl

end FinalizedRecord

/-! ## The manager -/

structure BudgetStore where
  /-- `mapProposals` and `mapFeeTxToProposal`. -/
  proposals : Indexed UInt256 fun p : ProposalRecord => p.hash
  /-- `mapFinalizedBudgets` and `mapFeeTxToBudget`. -/
  budgets : Indexed UInt256 FinalizedRecord.hash

inductive BudgetOp where
  | addProposal (p : ProposalRecord)
  | addFinalizedBudget (fb : FinalizedRecord)
  | checkAndRemove
  | removeByFeeTxId (feeTxId : UInt256)
  /-- The votes of the objects become other ones: by a vote that comes in, by the marking of stale
  votes, or by `VoteOnFinalizedBudgets`. -/
  | changeVotes (ofProposal : UInt256 → Map COutPoint CBudgetVote)
      (ofBudget : UInt256 → Map COutPoint CFinalizedBudgetVote)

namespace BudgetStore

def empty : BudgetStore := ⟨.empty, .empty⟩

def addProposal (env : BudgetEnv) (p : ProposalRecord) (st : BudgetStore) : Bool × BudgetStore :=
  let nTotalBudget := getTotalBudget env.params p.nBlockStart
  if (st.proposals.objects.lookup p.hash).isSome then (false, st)
  else if !(p.isWellFormed env nTotalBudget).isOk then (false, st)
  else if !(env.checkCollateral p.nFeeTXHash p.hash false).isOk then (false, st)
  else if !p.updateValid env then (false, st)
  else (true, { st with proposals := st.proposals.add nFeeTXHash p })

def addFinalizedBudget (env : BudgetEnv) (fb : FinalizedRecord) (st : BudgetStore) :
    Bool × BudgetStore :=
  let nTotalBudget := getTotalBudget env.params fb.nBlockStart
  if (st.budgets.objects.lookup fb.hash).isSome then (false, st)
  else if !(fb.isWellFormed env.params nTotalBudget).isOk then (false, st)
  else if !(env.checkCollateral fb.nFeeTXHash fb.hash true).isOk then (false, st)
  else if !fb.updateValid env then (false, st)
  else (true, { st with budgets := st.budgets.add FinalizedRecord.nFeeTXHash fb })

/-- `CheckAndRemove`: each object stays under its hash. -/
def checkAndRemove (env : BudgetEnv) (st : BudgetStore) : BudgetStore where
  proposals := st.proposals.clean nFeeTXHash (·.updateValid env)
  budgets := st.budgets.clean FinalizedRecord.nFeeTXHash (·.updateValid env)

/-- `RemoveByFeeTxId`, which returns after a proposal. -/
def removeByFeeTxId (feeTxId : UInt256) (st : BudgetStore) : BudgetStore :=
  match st.proposals.index.lookup feeTxId with
  | some _ => { st with proposals := st.proposals.removeAt feeTxId }
  | none => { st with budgets := st.budgets.removeAt feeTxId }

def changeVotes (ofProposal : UInt256 → Map COutPoint CBudgetVote)
    (ofBudget : UInt256 → Map COutPoint CFinalizedBudgetVote) (st : BudgetStore) :
    BudgetStore where
  proposals := st.proposals.update (·.setVotes ofProposal) (ProposalRecord.hash_setVotes ofProposal)
  budgets := st.budgets.update (·.setVotes ofBudget) (FinalizedRecord.hash_setVotes ofBudget)

def apply (st : BudgetStore) (step : BudgetEnv × BudgetOp) : BudgetStore :=
  match step.2 with
  | .addProposal p => (st.addProposal step.1 p).2
  | .addFinalizedBudget fb => (st.addFinalizedBudget step.1 fb).2
  | .checkAndRemove => st.checkAndRemove step.1
  | .removeByFeeTxId feeTxId => st.removeByFeeTxId feeTxId
  | .changeVotes ofProposal ofBudget => st.changeVotes ofProposal ofBudget

def run (steps : List (BudgetEnv × BudgetOp)) : BudgetStore := steps.foldl apply empty

end BudgetStore

/-! ## Objects and their collateral -/

inductive BudgetObject where
  | proposal (hash : UInt256)
  | budget (hash : UInt256)
  deriving DecidableEq, Repr

open ProposalRecord

namespace BudgetStore

def feeOf (st : BudgetStore) : BudgetObject → Option UInt256
  | .proposal hash => st.proposals.refAt nFeeTXHash hash
  | .budget hash => st.budgets.refAt FinalizedRecord.nFeeTXHash hash

/-- No two objects share a collateral, and both indexes have exactly the collateral of the objects
in their store. -/
structure Linked (st : BudgetStore) : Prop where
  unshared : ∀ a b feeTxId, st.feeOf a = some feeTxId → st.feeOf b = some feeTxId → a = b
  ofProposals : st.proposals.Exact nFeeTXHash
  ofBudgets : st.budgets.Exact FinalizedRecord.nFeeTXHash

def acceptsProposal (env : BudgetEnv) (p : ProposalRecord) (st : BudgetStore) : Bool :=
  !(st.proposals.objects.lookup p.hash).isSome &&
    (p.isWellFormed env (getTotalBudget env.params p.nBlockStart)).isOk &&
    (env.checkCollateral p.nFeeTXHash p.hash false).isOk && p.updateValid env

def acceptsBudget (env : BudgetEnv) (fb : FinalizedRecord) (st : BudgetStore) : Bool :=
  !(st.budgets.objects.lookup fb.hash).isSome &&
    (fb.isWellFormed env.params (getTotalBudget env.params fb.nBlockStart)).isOk &&
    (env.checkCollateral fb.nFeeTXHash fb.hash true).isOk && fb.updateValid env

/-- An object that is about to be added has a collateral that no stored object has. -/
def FreshCollateral (st : BudgetStore) (step : BudgetEnv × BudgetOp) : Prop :=
  match step.2 with
  | .addProposal p => st.acceptsProposal step.1 p = true → ∀ a, st.feeOf a ≠ some p.nFeeTXHash
  | .addFinalizedBudget fb =>
    st.acceptsBudget step.1 fb = true → ∀ a, st.feeOf a ≠ some fb.nFeeTXHash
  | _ => True

variable {st st' : BudgetStore} {env : BudgetEnv} {step : BudgetEnv × BudgetOp}

theorem addProposal_eq (env : BudgetEnv) (p : ProposalRecord) (st : BudgetStore) :
    st.addProposal env p =
      if st.acceptsProposal env p then
        (true, { st with proposals := st.proposals.add nFeeTXHash p })
      else (false, st) := by
  simp only [addProposal, acceptsProposal]
  split_ifs <;> simp_all

theorem addFinalizedBudget_eq (env : BudgetEnv) (fb : FinalizedRecord) (st : BudgetStore) :
    st.addFinalizedBudget env fb =
      if st.acceptsBudget env fb then
        (true, { st with budgets := st.budgets.add FinalizedRecord.nFeeTXHash fb })
      else (false, st) := by
  simp only [addFinalizedBudget, acceptsBudget]
  split_ifs <;> simp_all

variable {p : ProposalRecord} {fb : FinalizedRecord}

theorem lookup_of_acceptsProposal (h : st.acceptsProposal env p = true) :
    st.proposals.objects.lookup p.hash = none := by
  simp only [acceptsProposal, Bool.and_eq_true, Option.not_isSome, Option.isNone_iff_eq_none] at h
  exact h.1.1.1

theorem lookup_of_acceptsBudget (h : st.acceptsBudget env fb = true) :
    st.budgets.objects.lookup fb.hash = none := by
  simp only [acceptsBudget, Bool.and_eq_true, Option.not_isSome, Option.isNone_iff_eq_none] at h
  exact h.1.1.1

/-! ### The collateral after each operation -/

theorem feeOf_addProposal (h : st.acceptsProposal env p = true) (a : BudgetObject) :
    (st.addProposal env p).2.feeOf a =
      if a = .proposal p.hash then some p.nFeeTXHash else st.feeOf a := by
  rw [addProposal_eq, if_pos h]
  cases a with
  | proposal hash =>
    simp only [BudgetObject.proposal.injEq]
    exact refAt_add (lookup_of_acceptsProposal h) hash
  | budget hash => simp [feeOf]

theorem feeOf_addFinalizedBudget (h : st.acceptsBudget env fb = true) (a : BudgetObject) :
    (st.addFinalizedBudget env fb).2.feeOf a =
      if a = .budget fb.hash then some fb.nFeeTXHash else st.feeOf a := by
  rw [addFinalizedBudget_eq, if_pos h]
  cases a with
  | proposal hash => simp [feeOf]
  | budget hash =>
    simp only [BudgetObject.budget.injEq]
    exact refAt_add (lookup_of_acceptsBudget h) hash

theorem feeOf_of_checkAndRemove {a : BudgetObject} {feeTxId : UInt256}
    (h : (st.checkAndRemove env).feeOf a = some feeTxId) : st.feeOf a = some feeTxId := by
  cases a with
  | proposal hash =>
    obtain ⟨p, hp, -, hfee⟩ := refAt_clean.1 h
    exact refAt_eq_some.2 ⟨p, hp, hfee⟩
  | budget hash =>
    obtain ⟨fb, hfb, -, hfee⟩ := refAt_clean.1 h
    exact refAt_eq_some.2 ⟨fb, hfb, hfee⟩

theorem refAt_of_removeAt {β : Type} {ident ref : β → UInt256} {st : Indexed UInt256 ident}
    {f f' k : UInt256} (h : (st.removeAt f).refAt ref k = some f') : st.refAt ref k = some f' := by
  rw [refAt_removeAt] at h
  split_ifs at h
  exact h

theorem feeOf_of_removeByFeeTxId {f : UInt256} {a : BudgetObject} {feeTxId : UInt256}
    (h : (st.removeByFeeTxId f).feeOf a = some feeTxId) : st.feeOf a = some feeTxId := by
  unfold removeByFeeTxId at h
  cases hf : st.proposals.index.lookup f with
  | some hash =>
    rw [hf] at h
    cases a with
    | proposal k => exact refAt_of_removeAt h
    | budget k => exact h
  | none =>
    rw [hf] at h
    cases a with
    | proposal k => exact h
    | budget k => exact refAt_of_removeAt h

theorem feeOf_changeVotes (ofProposal : UInt256 → Map COutPoint CBudgetVote)
    (ofBudget : UInt256 → Map COutPoint CFinalizedBudgetVote) (a : BudgetObject) :
    (st.changeVotes ofProposal ofBudget).feeOf a = st.feeOf a := by
  cases a with
  | proposal hash =>
    exact refAt_update (hash_setVotes ofProposal) (nFeeTXHash_setVotes ofProposal) hash
  | budget hash =>
    exact refAt_update (FinalizedRecord.hash_setVotes ofBudget)
      (FinalizedRecord.nFeeTXHash_setVotes ofBudget) hash

/-! ### One operation and whole runs -/

theorem linked_empty : Linked empty where
  unshared := by
    intro a b feeTxId ha
    cases a <;> simp [feeOf, empty] at ha
  ofProposals := exact_empty
  ofBudgets := exact_empty

section

variable (h : st.Linked)

include h

theorem unshared_of_feeOf (hsub : ∀ a f, st'.feeOf a = some f → st.feeOf a = some f) :
    ∀ a b f, st'.feeOf a = some f → st'.feeOf b = some f → a = b :=
  fun a b f ha hb => h.unshared a b f (hsub a f ha) (hsub b f hb)

theorem unshared_of_add {new : BudgetObject} {fee : UInt256} (hfresh : ∀ a, st.feeOf a ≠ some fee)
    (hadd : ∀ a, st'.feeOf a = if a = new then some fee else st.feeOf a) :
    ∀ a b f, st'.feeOf a = some f → st'.feeOf b = some f → a = b := by
  intro a b f ha hb
  rw [hadd] at ha hb
  split_ifs at ha hb with hanew hbnew hbnew
  · rw [hanew, hbnew]
  · exact absurd (hb.trans ha.symm) (hfresh b)
  · exact absurd (ha.trans hb.symm) (hfresh a)
  · exact h.unshared a b f ha hb

theorem Linked.addProposal (haccept : st.acceptsProposal env p = true)
    (hfresh : ∀ a, st.feeOf a ≠ some p.nFeeTXHash) :
    (st.addProposal env p).2.Linked where
  unshared := unshared_of_add h hfresh (feeOf_addProposal haccept)
  ofProposals := by
    rw [addProposal_eq, if_pos haccept]
    exact h.ofProposals.add (lookup_of_acceptsProposal haccept) fun k => hfresh (.proposal k)
  ofBudgets := by
    rw [addProposal_eq, if_pos haccept]
    exact h.ofBudgets

theorem Linked.addFinalizedBudget (haccept : st.acceptsBudget env fb = true)
    (hfresh : ∀ a, st.feeOf a ≠ some fb.nFeeTXHash) :
    (st.addFinalizedBudget env fb).2.Linked where
  unshared := unshared_of_add h hfresh (feeOf_addFinalizedBudget haccept)
  ofProposals := by
    rw [addFinalizedBudget_eq, if_pos haccept]
    exact h.ofProposals
  ofBudgets := by
    rw [addFinalizedBudget_eq, if_pos haccept]
    exact h.ofBudgets.add (lookup_of_acceptsBudget haccept) fun k => hfresh (.budget k)

theorem Linked.checkAndRemove : (st.checkAndRemove env).Linked where
  unshared := unshared_of_feeOf h fun _ _ => feeOf_of_checkAndRemove
  ofProposals := h.ofProposals.clean _
  ofBudgets := h.ofBudgets.clean _

theorem Linked.removeByFeeTxId (f : UInt256) : (st.removeByFeeTxId f).Linked where
  unshared := unshared_of_feeOf h fun _ _ => feeOf_of_removeByFeeTxId
  ofProposals := by
    unfold BudgetStore.removeByFeeTxId
    cases st.proposals.index.lookup f with
    | some hash => exact h.ofProposals.removeAt f
    | none => exact h.ofProposals
  ofBudgets := by
    unfold BudgetStore.removeByFeeTxId
    cases st.proposals.index.lookup f with
    | some hash => exact h.ofBudgets
    | none => exact h.ofBudgets.removeAt f

theorem Linked.changeVotes (ofProposal : UInt256 → Map COutPoint CBudgetVote)
    (ofBudget : UInt256 → Map COutPoint CFinalizedBudgetVote) :
    (st.changeVotes ofProposal ofBudget).Linked where
  unshared := unshared_of_feeOf h fun a _ ha => (feeOf_changeVotes _ _ a).symm.trans ha
  ofProposals := h.ofProposals.update (hash_setVotes ofProposal) (nFeeTXHash_setVotes ofProposal)
  ofBudgets := h.ofBudgets.update (FinalizedRecord.hash_setVotes ofBudget)
    (FinalizedRecord.nFeeTXHash_setVotes ofBudget)

theorem Linked.apply (hfresh : st.FreshCollateral step) : (st.apply step).Linked := by
  obtain ⟨env, op⟩ := step
  cases op with
  | addProposal p =>
    by_cases haccept : st.acceptsProposal env p = true
    · exact h.addProposal haccept (hfresh haccept)
    · simpa [apply, addProposal_eq, haccept] using h
  | addFinalizedBudget fb =>
    by_cases haccept : st.acceptsBudget env fb = true
    · exact h.addFinalizedBudget haccept (hfresh haccept)
    · simpa [apply, addFinalizedBudget_eq, haccept] using h
  | checkAndRemove => exact h.checkAndRemove
  | removeByFeeTxId f => exact h.removeByFeeTxId f
  | changeVotes ofProposal ofBudget => exact h.changeVotes ofProposal ofBudget

/-- What `DisconnectBlock` relies on: the removal leaves no object with the collateral. -/
theorem Linked.feeOf_removeByFeeTxId_ne (f : UInt256) (a : BudgetObject) :
    (st.removeByFeeTxId f).feeOf a ≠ some f := by
  unfold BudgetStore.removeByFeeTxId
  cases hf : st.proposals.index.lookup f with
  | some hash =>
    have hprop : st.feeOf (.proposal hash) = some f := (h.ofProposals f hash).1 hf
    cases a with
    | proposal k => exact h.ofProposals.refAt_removeAt_ne f k
    | budget k => exact fun hk => BudgetObject.noConfusion (h.unshared _ (.budget k) f hprop hk)
  | none =>
    cases a with
    | proposal k =>
      intro hk
      exact absurd ((h.ofProposals f k).2 hk) (by simp [hf])
    | budget k => exact h.ofBudgets.refAt_removeAt_ne f k

end

theorem Linked.fresh_of_add {new : BudgetObject} {fee : UInt256} (h : st'.Linked)
    (hadd : ∀ a, st'.feeOf a = if a = new then some fee else st.feeOf a)
    (hnew : st.feeOf new = none) (a : BudgetObject) : st.feeOf a ≠ some fee := by
  intro ha
  have hold : a ≠ new := by
    rintro rfl
    rw [hnew] at ha
    cases ha
  exact hold (h.unshared a new fee ((hadd a).trans ((if_neg hold).trans ha))
    ((hadd new).trans (if_pos rfl)))

theorem FreshCollateral.of_linked (h : (st.apply step).Linked) : st.FreshCollateral step := by
  obtain ⟨env, op⟩ := step
  cases op with
  | addProposal p =>
    intro haccept
    refine h.fresh_of_add (feeOf_addProposal haccept) ?_
    simp [feeOf, refAt, lookup_of_acceptsProposal haccept]
  | addFinalizedBudget fb =>
    intro haccept
    refine h.fresh_of_add (feeOf_addFinalizedBudget haccept) ?_
    simp [feeOf, refAt, lookup_of_acceptsBudget haccept]
  | checkAndRemove => trivial
  | removeByFeeTxId f => trivial
  | changeVotes ofProposal ofBudget => trivial

theorem run_concat (steps : List (BudgetEnv × BudgetOp)) (step : BudgetEnv × BudgetOp) :
    run (steps ++ [step]) = (run steps).apply step := by
  simp [run]

theorem linked_run {steps : List (BudgetEnv × BudgetOp)}
    (hfresh : ∀ pre step, pre ++ [step] <+: steps → (run pre).FreshCollateral step) :
    (run steps).Linked := by
  induction steps using List.reverseRecOn with
  | nil => exact linked_empty
  | append_singleton steps step ih =>
    rw [run_concat]
    have hsteps : (run steps).Linked :=
      ih fun pre s hpre => hfresh pre s (hpre.trans (List.prefix_append _ _))
    exact hsteps.apply (hfresh steps step List.prefix_rfl)

/-- **Objects and collateral stay linked** in every state of a run, and a removal by the collateral
leaves no object with it, if and only if every object that is accepted comes with a collateral that
no stored object has. -/
theorem linked_run_iff (steps : List (BudgetEnv × BudgetOp)) : (∀ pre, pre <+: steps →
        (run pre).Linked ∧ ∀ f a, ((run pre).removeByFeeTxId f).feeOf a ≠ some f) ↔
      ∀ pre step, pre ++ [step] <+: steps → (run pre).FreshCollateral step := by
  constructor
  · intro h pre step hpre
    have hlinked := (h (pre ++ [step]) hpre).1
    rw [run_concat] at hlinked
    exact .of_linked hlinked
  · intro hfresh pre hpre
    have hlinked : (run pre).Linked :=
      linked_run fun pre' step hpre' => hfresh pre' step (hpre'.trans hpre)
    exact ⟨hlinked, hlinked.feeOf_removeByFeeTxId_ne⟩

end BudgetStore

/-! ### One transaction that pays for three objects -/

namespace CollateralSample

/-- Two proposals and a budget have an output each. -/
def collateral : CollateralTx where
  vout := [⟨proposalFeeTx, commitmentScript 1⟩, ⟨proposalFeeTx, commitmentScript 2⟩,
    ⟨budgetFeeTx, commitmentScript 7⟩]
  nLockTime := 0
  nBlockHash := 9

/-- A hundred blocks before the superblock, and a hundred after the collateral. -/
def env : BudgetEnv where
  params := .main
  nCurrentHeight := 43100
  nCountEnabled := 100
  getTransaction hash := if hash = 70 then some collateral else none
  findActive hash := if hash = 9 then some 43000 else none
  hasValidDestination _ := true

def proposal (hash : UInt256) : ProposalRecord :=
  { FinalizedSample.proposal hash with nFeeTXHash := 70 }

def steps : List (BudgetEnv × BudgetOp) :=
  [(env, .addProposal (proposal 1)), (env, .addProposal (proposal 2)),
    (env, .addFinalizedBudget (FinalizedSample.budget [(1, 40 * COIN)]))]

end CollateralSample

open CollateralSample BudgetStore in
/-- All three are accepted, and a reorganisation that undoes the payment removes the first only. -/
theorem shared_collateral_survives : ¬ (run steps).Linked ∧
      ((run steps).removeByFeeTxId 70).feeOf (.proposal 1) = none ∧
      ((run steps).removeByFeeTxId 70).feeOf (.proposal 2) = some 70 ∧
      ((run steps).removeByFeeTxId 70).feeOf (.budget 7) = some 70 := by
  refine ⟨fun h => ?_, by decide +kernel⟩
  have hfirst : (run steps).feeOf (.proposal 1) = some 70 := by decide +kernel
  have hsecond : (run steps).feeOf (.proposal 2) = some 70 := by decide +kernel
  exact absurd (h.unshared _ _ _ hfirst hsecond) (by decide)

end Passion
