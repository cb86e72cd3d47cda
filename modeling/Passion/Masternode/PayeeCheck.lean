import Mathlib.Data.Finset.Card
import Passion.Consensus.Params
import Passion.Masternode.Votes

/-!
# Checking the payees of a block

`CMasternodeBlockPayees::IsTransactionValid`, `CMasternodePayments::IsTransactionValid` and
`IsBlockPayeeValid` of `masternode-payments.cpp`.

The check of one height has two parts. The development fee is looked for in the outputs in order,
and the search stops at the first output to the fee address that has another value. The payees
with enough votes are then looked for level by level, in a map from which a paid level is erased.

Main results: `isTransactionValid_iff`, the closed form of both loops;
`unpaid_level_rejected_iff` and `devFee_enforced_iff`.
-/

namespace Passion

open Lib List

/-- The sporks that the payment code asks for (`sporkid.h`). -/
inductive SporkId where
  | masternodePaymentEnforcement
  | masternodeBudgetEnforcement
  | enableSuperblocks
  | developmentFee
  deriving DecidableEq, Repr

/-- What the payment code reads besides the votes: the parameters, the sporks, the masternode list
and the address encoding. -/
structure PaymentEnv where
  params : ConsensusParams
  isSporkActive : SporkId → Bool
  /-- `GetScriptForDestination` of the collateral key of `GetCurrentMasterNode(mnlevel, 1)`. -/
  currentMasterNode : Int → Option CScript
  /-- `EncodeDestination` of what `ExtractDestination` finds in a script. -/
  encodeDestination : CScript → String
  /-- `GetScriptForDestination(DecodeDestination(strDevFeeAddress))`. -/
  devpayee : CScript
  /-- Encoding undoes decoding on the address of the parameters. -/
  encode_devpayee : encodeDestination devpayee = params.strDevFeeAddress
  /-- What a caller of `GetMasternodePayment` reads at a level without a `return`. -/
  noReturn : Int → CAmount → CAmount

namespace PaymentEnv

variable (env : PaymentEnv)

/-- `GetBlockValue` on the network of the parameters. -/
def blockValue (nHeight : Int) : CAmount := getBlockValue env.params.network nHeight

/-- `reward * nDevFee / 100`. -/
def devFee (nReward : CAmount) : CAmount := (nReward * env.params.nDevFee).tdiv 100

def masternodePayment (mnlevel : Int) (nReward : CAmount) : CAmount :=
  getMasternodePayment env.noReturn mnlevel nReward

def paysDev (out : CTxOut) : Bool :=
  decide (env.params.strDevFeeAddress = env.encodeDestination out.scriptPubKey)

def devScript : CScript := [
    0x76, 0xa9, 0x14, 0xa2, 0x41, 0x80, 0xc8, 0x30, 0x42, 0x5c, 0xd8, 0x46, 0xc7,
    0x84, 0xac, 0xd4, 0xc0, 0x01, 0x69, 0xb0, 0xe3, 0x55, 0xd6, 0x88, 0xac]

/-- Mainnet with the given sporks and no masternode. Scripts other than `devScript` are
nonstandard, so they encode to the empty string. -/
def sample (sporks : List SporkId) : PaymentEnv where
  params := .main
  isSporkActive id := decide (id ∈ sporks)
  currentMasterNode _ := none
  encodeDestination script :=
    if script = devScript then ConsensusParams.main.strDevFeeAddress else ""
  devpayee := devScript
  encode_devpayee := if_pos rfl
  noReturn _ _ := 0

end PaymentEnv

/-- A transaction with the given outputs; the checks here read nothing else of it. -/
def CTransaction.paying (vout : List CTxOut) : CTransaction where
  nVersion := 1
  nType := 0
  vin := []
  vout := vout
  sapData := none
  extraPayload := none
  hash := 0

namespace CMasternodePayee

/-- The payee has `MNPAYMENTS_SIGNATURES_REQUIRED` votes. -/
def hasQuorum (p : CMasternodePayee) : Bool :=
  !decide (p.nVotes < mnPaymentsSignaturesRequired)

/-- The predicate of the `find_if` over the outputs. -/
def paidBy (env : PaymentEnv) (nReward : CAmount) (p : CMasternodePayee) (out : CTxOut) : Bool :=
  decide (p.scriptPubKey = out.scriptPubKey) &&
    decide (env.masternodePayment p.mnlevel nReward ≤ out.nValue)

end CMasternodePayee

namespace CMasternodeBlockPayees

/-- The search for the development fee; `bDevFeeFound` is the flag so far. -/
def devFeeFound (env : PaymentEnv) (devFeeFund : CAmount) (bDevFeeFound : Bool) : List CTxOut → Bool
  | [] => bDevFeeFound
  | out :: vout =>
    if env.paysDev out then
      -- `break`
      if out.nValue ≠ devFeeFund then bDevFeeFound
      else devFeeFound env devFeeFund true vout
    else devFeeFound env devFeeFund bDevFeeFound vout

/-- One round of the loop that fills `max_signatures`. -/
def addSignatures (maxSignatures : Map Int Int) (payee : CMasternodePayee) : Map Int Int :=
  if !payee.hasQuorum then maxSignatures
  else
    match maxSignatures.lookup payee.mnlevel with
    | none => maxSignatures.insert payee.mnlevel payee.nVotes
    | some votes =>
      if votes ≤ payee.nVotes then maxSignatures.insert payee.mnlevel payee.nVotes
      else maxSignatures

/-- The loop over the payees, which erases the levels that are paid. -/
def payeesPaid (env : PaymentEnv) (nReward : CAmount) (vout : List CTxOut) :
    List CMasternodePayee → Map Int Int → Bool
  | [], _ => false
  | payee :: payees, maxSignatures =>
    if !payee.hasQuorum then payeesPaid env nReward vout payees maxSignatures
    else if vout.any (payee.paidBy env nReward) then
      let rest := maxSignatures.erase payee.mnlevel
      if rest.keys.length ≠ 0 then payeesPaid env nReward vout payees rest else true
    else payeesPaid env nReward vout payees maxSignatures

def isTransactionValid (env : PaymentEnv) (b : CMasternodeBlockPayees) (txNew : CTransaction) :
    Bool :=
  let nReward := env.blockValue (b.nBlockHeight - 1)
  if env.isSporkActive .developmentFee &&
      !devFeeFound env (env.devFee nReward) false txNew.vout then false
  else
    let maxSignatures := b.vecPayments.foldl addSignatures ∅
    if maxSignatures.keys.length < mnPaymentsSignaturesRequired then true
    else payeesPaid env nReward txNew.vout b.vecPayments maxSignatures

end CMasternodeBlockPayees

namespace CMasternodeBlockPayees

/-! ## The two loops in closed form -/

variable (env : PaymentEnv)

theorem devFeeFound_true (fund : CAmount) (vout : List CTxOut) :
    devFeeFound env fund true vout = true := by
  induction vout with
  | nil => rfl
  | cons out vout ih =>
    unfold devFeeFound
    split_ifs <;> first | rfl | exact ih

/-- The fee is found iff the first output to the fee address has the value of the fee: the search
stops there if it has not, and no later output can take the flag back if it has. -/
theorem devFeeFound_false_iff (fund : CAmount) (vout : List CTxOut) :
    devFeeFound env fund false vout = true ↔
      ∃ out, vout.find? env.paysDev = some out ∧ out.nValue = fund := by
  induction vout with
  | nil => simp [devFeeFound]
  | cons out vout ih =>
    by_cases hdev : env.paysDev out = true
    · rw [find?_cons_of_pos hdev, devFeeFound, if_pos hdev]
      by_cases hval : out.nValue = fund
      · rw [if_neg (not_not.mpr hval), devFeeFound_true]
        exact iff_of_true rfl ⟨out, rfl, hval⟩
      · rw [if_pos hval]
        refine iff_of_false Bool.false_ne_true ?_
        rintro ⟨o, ho, hv⟩
        exact hval (Option.some.inj ho ▸ hv)
    · rw [find?_cons_of_neg hdev, devFeeFound, if_neg hdev]
      exact ih

def quorumLevels (b : CMasternodeBlockPayees) : Finset Int :=
  ((b.vecPayments.filter CMasternodePayee.hasQuorum).map (·.mnlevel)).toFinset

theorem mem_quorumLevels {b : CMasternodeBlockPayees} {l : Int} :
    l ∈ b.quorumLevels ↔ ∃ p ∈ b.vecPayments, p.hasQuorum = true ∧ p.mnlevel = l := by
  simp [quorumLevels, and_assoc]

theorem mem_addSignatures (m : Map Int Int) (p : CMasternodePayee) (l : Int) :
    l ∈ addSignatures m p ↔ l ∈ m ∨ (p.hasQuorum = true ∧ p.mnlevel = l) := by
  unfold addSignatures
  by_cases hq : p.hasQuorum = true
  · simp only [hq, Bool.not_true, Bool.false_eq_true, if_false, true_and]
    cases hold : m.lookup p.mnlevel with
    | none => simp [or_comm, eq_comm]
    | some votes =>
      have hmem : p.mnlevel ∈ m := AList.lookup_isSome.mp (by rw [hold]; rfl)
      dsimp only
      split_ifs
      · simp [or_comm, eq_comm]
      · exact ⟨.inl, fun h => h.elim id fun e => e ▸ hmem⟩
  · simp [hq]

theorem mem_foldl_addSignatures (ps : List CMasternodePayee) (m : Map Int Int) (l : Int) :
    l ∈ ps.foldl addSignatures m ↔
      l ∈ m ∨ ∃ p ∈ ps, p.hasQuorum = true ∧ p.mnlevel = l := by
  induction ps generalizing m with
  | nil => simp
  | cons p ps ih =>
    rw [foldl_cons, ih, mem_addSignatures, or_assoc]
    simp

theorem mem_signatures {b : CMasternodeBlockPayees} {l : Int} :
    l ∈ b.vecPayments.foldl addSignatures ∅ ↔ l ∈ b.quorumLevels := by
  simp [mem_foldl_addSignatures, mem_quorumLevels]

theorem length_keys_signatures (b : CMasternodeBlockPayees) :
    (b.vecPayments.foldl addSignatures ∅).keys.length = b.quorumLevels.card := by
  have hkeys : (b.vecPayments.foldl addSignatures ∅).keys.toFinset = b.quorumLevels := by
    ext l
    exact mem_toFinset.trans mem_signatures
  rw [← hkeys, toFinset_card_of_nodup (AList.keys_nodup _)]

/-- Some payee of level `l` with enough votes is paid by an output. -/
def LevelPaid (nReward : CAmount) (vout : List CTxOut) (ps : List CMasternodePayee) (l : Int) :
    Prop :=
  ∃ p ∈ ps, p.hasQuorum = true ∧ p.mnlevel = l ∧ ∃ out ∈ vout, p.paidBy env nReward out = true

variable {env}

theorem levelPaid_cons {nReward : CAmount} {vout : List CTxOut} {p : CMasternodePayee}
    {ps : List CMasternodePayee} {l : Int} :
    LevelPaid env nReward vout (p :: ps) l ↔
      (p.hasQuorum = true ∧ p.mnlevel = l ∧ vout.any (p.paidBy env nReward) = true) ∨
        LevelPaid env nReward vout ps l := by
  simp [LevelPaid]

/-- The loop over the payees answers yes iff every level of the map is paid. The map must have a
level: the loop only answers inside a round. -/
theorem payeesPaid_iff (nReward : CAmount) (vout : List CTxOut) (ps : List CMasternodePayee)
    (m : Map Int Int) (hm : m.keys ≠ []) :
    payeesPaid env nReward vout ps m = true ↔ ∀ l ∈ m, LevelPaid env nReward vout ps l := by
  induction ps generalizing m with
  | nil =>
    obtain ⟨l, hl⟩ := exists_mem_of_ne_nil _ hm
    refine iff_of_false Bool.false_ne_true fun h => ?_
    obtain ⟨p, hp, _⟩ := h l hl
    cases hp
  | cons p ps ih =>
    by_cases hpays : p.hasQuorum = true ∧ vout.any (p.paidBy env nReward) = true
    · obtain ⟨hq, hpaid⟩ := hpays
      -- the level of `p` is settled; the others are left to the rest of the loop
      have hrest : (∀ l ∈ m, LevelPaid env nReward vout (p :: ps) l) ↔
          ∀ l ∈ m.erase p.mnlevel, LevelPaid env nReward vout ps l := by
        constructor
        · intro h l hl
          obtain ⟨hne, hl⟩ := AList.mem_erase.mp hl
          rcases levelPaid_cons.mp (h l hl) with ⟨_, he, _⟩ | h
          · exact absurd he.symm hne
          · exact h
        · intro h l hl
          by_cases he : p.mnlevel = l
          · exact levelPaid_cons.mpr (.inl ⟨hq, he, hpaid⟩)
          · exact levelPaid_cons.mpr (.inr (h l (AList.mem_erase.mpr ⟨fun e => he e.symm, hl⟩)))
      rw [hrest]
      simp only [payeesPaid, hq, hpaid, Bool.not_true, Bool.false_eq_true, if_false, if_true]
      by_cases hempty : (m.erase p.mnlevel).keys = []
      · rw [if_neg (by simp [hempty])]
        refine iff_of_true rfl fun l hl => ?_
        rw [AList.mem_keys, hempty] at hl
        cases hl
      · rw [if_pos (by simpa using hempty)]
        exact ih _ hempty
    · have hskip : payeesPaid env nReward vout (p :: ps) m = payeesPaid env nReward vout ps m := by
        unfold payeesPaid
        by_cases hq : p.hasQuorum = true
        · have hpaid : ¬ vout.any (p.paidBy env nReward) = true := fun h => hpays ⟨hq, h⟩
          simp only [hq, if_neg hpaid]
          cases ps <;> rfl
        · simp only [hq]
          cases ps <;> rfl
      rw [hskip, ih m hm]
      refine forall₂_congr fun l _ => ?_
      rw [levelPaid_cons]
      exact ⟨.inr, fun h => h.resolve_left fun ⟨hq, _, hpaid⟩ => hpays ⟨hq, hpaid⟩⟩

/-- The development fee that the table of this height asks for. -/
def requiredDevFee (env : PaymentEnv) (b : CMasternodeBlockPayees) : CAmount :=
  env.devFee (env.blockValue (b.nBlockHeight - 1))

def DevFeeOk (env : PaymentEnv) (b : CMasternodeBlockPayees) (vout : List CTxOut) : Prop :=
  env.isSporkActive .developmentFee = true →
    ∃ out, vout.find? env.paysDev = some out ∧ out.nValue = b.requiredDevFee env

/-- **The check of one height.** It accepts iff the development fee is in order, and there are
fewer than six levels with a payee that has enough votes or all of them are paid. -/
theorem isTransactionValid_iff (b : CMasternodeBlockPayees) (tx : CTransaction) :
    b.isTransactionValid env tx = true ↔
      DevFeeOk env b tx.vout ∧
        (b.quorumLevels.card < mnPaymentsSignaturesRequired ∨
          ∀ l ∈ b.quorumLevels,
            LevelPaid env (env.blockValue (b.nBlockHeight - 1)) tx.vout b.vecPayments l) := by
  have hfee : (env.isSporkActive .developmentFee &&
      !devFeeFound env (env.devFee (env.blockValue (b.nBlockHeight - 1))) false tx.vout) = true ↔
        ¬DevFeeOk env b tx.vout := by
    rw [DevFeeOk, requiredDevFee, ← devFeeFound_false_iff]
    simp
  simp only [isTransactionValid, length_keys_signatures]
  by_cases hok : DevFeeOk env b tx.vout
  · rw [if_neg fun hbad => hfee.mp hbad hok]
    by_cases hfew : b.quorumLevels.card < mnPaymentsSignaturesRequired
    · rw [if_pos hfew]
      exact iff_of_true rfl ⟨hok, .inl hfew⟩
    · have hkeys : (b.vecPayments.foldl addSignatures ∅).keys ≠ [] := by
        intro hnil
        have hlen := length_keys_signatures b
        rw [hnil] at hlen
        exact hfew (by rw [← hlen]; decide)
      rw [if_neg hfew, payeesPaid_iff _ _ _ _ hkeys]
      simp only [mem_signatures]
      exact ⟨fun h => ⟨hok, .inr h⟩, fun h => h.2.resolve_left hfew⟩
  · rw [if_pos (hfee.mpr hok)]
    exact iff_of_false Bool.false_ne_true fun h => hok h.1

/-- **Enforcement of an unpaid level.** When a level has payees with enough votes and none of them
is paid, the transaction is refused iff at least six levels have such a payee, or the development
fee is missing. -/
theorem unpaid_level_rejected_iff (env : PaymentEnv) (b : CMasternodeBlockPayees)
    (tx : CTransaction) (l : Int) (hl : l ∈ b.quorumLevels)
    (hunpaid : ¬ LevelPaid env (env.blockValue (b.nBlockHeight - 1)) tx.vout b.vecPayments l) :
    b.isTransactionValid env tx = false ↔
      mnPaymentsSignaturesRequired ≤ b.quorumLevels.card ∨ ¬ DevFeeOk env b tx.vout := by
  rw [← Bool.not_eq_true, isTransactionValid_iff, not_and_or, not_or, not_lt]
  constructor
  · rintro (hfee | ⟨hmany, _⟩)
    · exact .inr hfee
    · exact .inl hmany
  · rintro (hmany | hfee)
    · exact .inr ⟨hmany, fun h => hunpaid (h l hl)⟩
    · exact .inl hfee

def sample (nBlockHeight : Int) (levels : List Int) : CMasternodeBlockPayees where
  nBlockHeight := nBlockHeight
  vecPayments := levels.map fun l => ⟨[0x51, UInt8.ofNat l.toNat], l, 6⟩

theorem unpaid_level_rejected_six_levels :
    (sample 100 [1, 2, 3, 4, 5, 6]).isTransactionValid (.sample []) (.paying []) = false :=
  (unpaid_level_rejected_iff (.sample []) (sample 100 [1, 2, 3, 4, 5, 6]) (.paying []) 1 (by decide)
    (by rintro ⟨_, _, _, _, _, hout, _⟩; cases hout)).mpr (.inl (by decide))

/-- One level has a payee with six votes, the transaction pays nobody, and it is accepted. -/
theorem unpaid_level_accepted : 1 ∈ (sample 100 [1]).quorumLevels ∧
      ¬ LevelPaid (.sample []) ((PaymentEnv.sample []).blockValue 99) []
        (sample 100 [1]).vecPayments 1 ∧
      (sample 100 [1]).isTransactionValid (.sample []) (.paying []) = true :=
  ⟨by decide, (by rintro ⟨_, _, _, _, _, hout, _⟩; cases hout), by decide⟩

end CMasternodeBlockPayees

def VoteTables.isTransactionValid (env : PaymentEnv) (t : VoteTables) (txNew : CTransaction)
    (nBlockHeight : Int) : Bool :=
  match t.mapMasternodeBlocks.lookup nBlockHeight with
  | some b => b.isTransactionValid env txNew
  | none => true

inductive TrxValidationStatus where
  | inValid
  | valid
  | doublePayment
  | voteThreshold
  deriving DecidableEq, Repr

/-- What `IsBlockPayeeValid` asks of `g_budgetman`. -/
structure Budget where
  isBudgetPaymentBlock : Int → Bool
  isTransactionValid : CTransaction → UInt256 → Int → TrxValidationStatus

structure PayeeBlock where
  vtx : List CTransaction
  hash : UInt256

/-- `vtx[1]` once proof of stake is active, `vtx[0]` before. -/
def PayeeBlock.txNew (env : PaymentEnv) (block : PayeeBlock) (nBlockHeight : Int) :
    Option CTransaction :=
  if env.params.networkUpgradeActive nBlockHeight .pos then block.vtx[1]? else block.vtx[0]?

/-- The superblock branch of `IsBlockPayeeValid`, where it is entered. -/
def budgetStatus (env : PaymentEnv) (budget : Budget) (tx : CTransaction) (hash : UInt256)
    (nBlockHeight : Int) : Option TrxValidationStatus :=
  if env.isSporkActive .enableSuperblocks && budget.isBudgetPaymentBlock nBlockHeight then
    some (budget.isTransactionValid tx hash nBlockHeight)
  else none

/-- `IsBlockPayeeValid`. A block without the transaction it reads is refused here; the source
reads behind the end of `vtx`. -/
def isBlockPayeeValid (env : PaymentEnv) (budget : Budget) (synced : Bool) (t : VoteTables)
    (block : PayeeBlock) (nBlockHeight : Int) : Bool :=
  if !synced then true
  else
    match block.txNew env nBlockHeight with
    | none => false
    | some tx =>
      let status := budgetStatus env budget tx block.hash nBlockHeight
      if status = some .valid then true
      else if status = some .inValid && env.isSporkActive .masternodeBudgetEnforcement then false
      else if t.isTransactionValid env tx nBlockHeight then true
      else !env.isSporkActive .masternodePaymentEnforcement

/-! ## The development fee of a block -/

def PaidAsSuperblock (env : PaymentEnv) (budget : Budget) (block : PayeeBlock)
    (nBlockHeight : Int) : Prop :=
  ∃ tx, block.txNew env nBlockHeight = some tx ∧
    budgetStatus env budget tx block.hash nBlockHeight = some .valid

/-- The transaction has an output to the fee address of the fee of reward `nReward`. -/
def PaysDevFee (env : PaymentEnv) (nReward : CAmount) (vout : List CTxOut) : Prop :=
  ∃ out ∈ vout, env.paysDev out = true ∧ out.nValue = env.devFee nReward

section

variable {env : PaymentEnv} {t : VoteTables} {h : Int}

/-- With payment enforcement on, an accepted block that is no superblock passed the vote check. -/
theorem isTransactionValid_of_isBlockPayeeValid {budget : Budget} {block : PayeeBlock}
    (h8 : env.isSporkActive .masternodePaymentEnforcement = true)
    (hsuper : ¬ PaidAsSuperblock env budget block h)
    (hvalid : isBlockPayeeValid env budget true t block h = true) :
    ∃ tx, block.txNew env h = some tx ∧ t.isTransactionValid env tx h = true := by
  unfold isBlockPayeeValid at hvalid
  cases htx : block.txNew env h with
  | none => simp [htx] at hvalid
  | some tx =>
    have hstatus : budgetStatus env budget tx block.hash h ≠ some .valid :=
      fun hs => hsuper ⟨tx, htx, hs⟩
    refine ⟨tx, rfl, ?_⟩
    by_contra hbad
    simp [htx, hstatus, hbad, h8] at hvalid

def Budget.none : Budget := ⟨fun _ => false, fun _ _ _ => .voteThreshold⟩

def PayeeBlock.paying (vout : List CTxOut) : PayeeBlock := ⟨[.paying vout, .paying vout], 0⟩

theorem PayeeBlock.txNew_paying (vout : List CTxOut) :
    (PayeeBlock.paying vout).txNew env h = some (.paying vout) := by
  unfold txNew
  split <;> rfl

theorem budgetStatus_none (tx : CTransaction) (hash : UInt256) :
    budgetStatus env .none tx hash h = .none := by
  simp [budgetStatus, Budget.none]

theorem not_paidAsSuperblock_none (block : PayeeBlock) : ¬ PaidAsSuperblock env .none block h := by
  rintro ⟨tx, _, hs⟩
  rw [budgetStatus_none] at hs
  cases hs

/-- Outputs that satisfy the check of `b` while every output to the fee address but the first is
above `fee`: the fee the table asks for, then every payee, generously. -/
def generousOutputs (env : PaymentEnv) (b : CMasternodeBlockPayees) (fee : CAmount) : List CTxOut :=
  ⟨b.requiredDevFee env, env.devpayee⟩ :: b.vecPayments.map fun p =>
    ⟨max (env.masternodePayment p.mnlevel (env.blockValue (b.nBlockHeight - 1))) (fee + 1),
      p.scriptPubKey⟩

theorem isTransactionValid_generousOutputs (b : CMasternodeBlockPayees) (fee : CAmount) :
    b.isTransactionValid env (.paying (generousOutputs env b fee)) = true := by
  refine b.isTransactionValid_iff _ |>.mpr
    ⟨fun _ => ⟨⟨b.requiredDevFee env, env.devpayee⟩, ?_, rfl⟩, .inr fun l hl => ?_⟩
  · exact find?_cons_of_pos (decide_eq_true env.encode_devpayee.symm)
  · obtain ⟨p, hp, hq, hpl⟩ := CMasternodeBlockPayees.mem_quorumLevels.mp hl
    refine ⟨p, hp, hq, hpl, _, mem_cons_of_mem _ (mem_map_of_mem hp), ?_⟩
    simp [CMasternodePayee.paidBy]

theorem eq_of_paysDevFee_generousOutputs {b : CMasternodeBlockPayees} {nReward : CAmount}
    (hpays : PaysDevFee env nReward (generousOutputs env b (env.devFee nReward))) :
    b.requiredDevFee env = env.devFee nReward := by
  obtain ⟨out, hout, _, hval⟩ := hpays
  rcases mem_cons.mp hout with rfl | hout
  · exact hval
  · obtain ⟨p, _, rfl⟩ := mem_map.mp hout
    have hle := le_max_right (env.masternodePayment p.mnlevel (env.blockValue (b.nBlockHeight - 1)))
      (env.devFee nReward + 1)
    rw [show max _ _ = env.devFee nReward from hval] at hle
    exact absurd hle (not_le.mpr (Int.lt_succ _))

end

/-- **When the development fee is enforced.** On a synced node with the fee and payment sporks
active, every accepted block that is no superblock pays the fee of its own reward iff votes are
recorded for the height and the table's fee, taken from the reward of the height before, is that
fee. -/
theorem devFee_enforced_iff (env : PaymentEnv) (t : VoteTables) (h : Int)
    (h30 : env.isSporkActive .developmentFee = true)
    (h8 : env.isSporkActive .masternodePaymentEnforcement = true) :
    (∀ (budget : Budget) (block : PayeeBlock), ¬ PaidAsSuperblock env budget block h →
      isBlockPayeeValid env budget true t block h = true →
      ∃ tx, block.txNew env h = some tx ∧ PaysDevFee env (env.blockValue h) tx.vout) ↔
    ∃ b, t.mapMasternodeBlocks.lookup h = some b ∧
      env.devFee (env.blockValue (b.nBlockHeight - 1)) = env.devFee (env.blockValue h) := by
  constructor
  · intro hall
    -- a block of our own is accepted, so it pays the fee of its height
    have hpaying : ∀ vout, t.isTransactionValid env (.paying vout) h = true →
        PaysDevFee env (env.blockValue h) vout := by
      intro vout hvalid
      obtain ⟨tx, htx, hpays⟩ := hall .none (.paying vout) (not_paidAsSuperblock_none _)
        (by simp [isBlockPayeeValid, PayeeBlock.txNew_paying, budgetStatus_none, hvalid])
      rw [PayeeBlock.txNew_paying] at htx
      cases htx
      exact hpays
    cases hb : t.mapMasternodeBlocks.lookup h with
    | none =>
      obtain ⟨out, hout, _⟩ := hpaying [] (by simp [VoteTables.isTransactionValid, hb])
      cases hout
    | some b =>
      refine ⟨b, rfl, eq_of_paysDevFee_generousOutputs (hpaying _ ?_)⟩
      simpa [VoteTables.isTransactionValid, hb] using isTransactionValid_generousOutputs b _
  · rintro ⟨b, hb, hfee⟩ budget block hsuper hvalid
    obtain ⟨tx, htx, hvotes⟩ := isTransactionValid_of_isBlockPayeeValid h8 hsuper hvalid
    simp only [VoteTables.isTransactionValid, hb] at hvotes
    obtain ⟨out, hfind, hval⟩ := (b.isTransactionValid_iff tx |>.mp hvotes).1 h30
    exact ⟨tx, htx, out, mem_of_find?_eq_some hfind, find?_some hfind, hval.trans hfee⟩

/-- Tables with one vote, for a payee at height `h`. -/
def VoteTables.sample (h : Int) : VoteTables :=
  (VoteTables.empty.addWinningMasternode 1 h ⟨h, [0x51], 1, 7⟩).2

def PaymentEnv.enforcing : PaymentEnv := .sample [.developmentFee, .masternodePaymentEnforcement]

/-- Within a phase of the reward schedule the fee of 0.6 coins is enforced. -/
theorem devFee_enforced_within_phase :
    ∃ tx, (PayeeBlock.paying [⟨60000000, PaymentEnv.devScript⟩]).txNew .enforcing 100 = some tx ∧
      PaysDevFee .enforcing (PaymentEnv.enforcing.blockValue 100) tx.vout :=
  (devFee_enforced_iff .enforcing (.sample 100) 100 (by decide) (by decide)).mpr
    ⟨⟨100, [⟨[0x51], 1, 1⟩]⟩, by decide, by decide⟩ .none _ (not_paidAsSuperblock_none _)
    (by decide)

/-- Without votes for the height, a coinstake that pays no fee is accepted; at the first height of
the second phase, so is one that pays the fee of the first. -/
theorem devFee_not_enforced :
    (isBlockPayeeValid .enforcing .none true .empty (.paying [⟨0, []⟩, ⟨12 * COIN, [0x51]⟩]) 100 =
        true ∧
      ¬ PaidAsSuperblock .enforcing .none (.paying [⟨0, []⟩, ⟨12 * COIN, [0x51]⟩]) 100 ∧
      ¬ PaysDevFee .enforcing (PaymentEnv.enforcing.blockValue 100)
        [⟨0, []⟩, ⟨12 * COIN, [0x51]⟩]) ∧
    (isBlockPayeeValid .enforcing .none true (.sample 43201)
        (.paying [⟨0, []⟩, ⟨60000000, PaymentEnv.devScript⟩]) 43201 = true ∧
      ¬ PaidAsSuperblock .enforcing .none
        (.paying [⟨0, []⟩, ⟨60000000, PaymentEnv.devScript⟩]) 43201 ∧
      ¬ PaysDevFee .enforcing (PaymentEnv.enforcing.blockValue 43201)
        [⟨0, []⟩, ⟨60000000, PaymentEnv.devScript⟩]) := by
  refine ⟨⟨by decide, not_paidAsSuperblock_none _, ?_⟩, by decide, not_paidAsSuperblock_none _, ?_⟩
  · unfold PaysDevFee
    decide
  · unfold PaysDevFee
    decide

end Passion
