import Passion.Masternode.Payments

/-!
# Winner messages between masternodes

`CMasternodePayments::ProcessBlock`, which signs one winner for each level and relays them, and the
`MNWINNER` branch of `ProcessMessageMasternodePayments`, which receives them.

Three things happen to the level of a winner on its way. It is not serialized (its line is commented
out) and not hashed, so a received winner has `UNSPECIFIED`. `CanVote` lets a masternode vote once
for a height, so of the winners for the levels of one height only the first to come passes. And the
constructor of the payee record does not set the level.

Main results: `relayed_processBlock`, the shape of what a masternode relays; `winners_recorded_iff`,
when all of it is recorded.
-/

namespace Passion

open Lib List

/-- `CMasternode::LevelValue::UNSPECIFIED`. -/
def levelUnspecified : Int := 0

def mnPaymentsSignaturesTotal : Int := 10

/-- A winner as the masternode that signs it has it. -/
structure SignedWinner where
  vinMasternode : COutPoint
  nBlockHeight : Int
  payee : CScript
  payeeLevel : Int
  deriving DecidableEq, Repr

inductive MessageVersion where
  | strMess
  | hash
  deriving DecidableEq, Repr

/-- A winner as it is serialized. -/
structure WinnerMessage where
  vinMasternode : COutPoint
  nBlockHeight : Int
  payee : CScript
  nMessVersion : MessageVersion
  deriving DecidableEq, Repr

/-- `SerializationOp`, which leaves out `payeeLevel`. -/
def SignedWinner.serialize (w : SignedWinner) : WinnerMessage :=
  ⟨w.vinMasternode, w.nBlockHeight, w.payee, .hash⟩

section

-- `GetHash` of a winner, which reads its payee, height and masternode
variable (hashWinner : CScript → Int → COutPoint → UInt256)

/-- What a receiver has after `vRecv >> winner`: the level is the default constructor's. -/
def WinnerMessage.deserialize (w : WinnerMessage) : CMasternodePaymentWinner where
  nBlockHeight := w.nBlockHeight
  payee := w.payee
  payeeLevel := levelUnspecified
  hash := hashWinner w.payee w.nBlockHeight w.vinMasternode

def SignedWinner.toWinner (w : SignedWinner) : CMasternodePaymentWinner where
  nBlockHeight := w.nBlockHeight
  payee := w.payee
  payeeLevel := w.payeeLevel
  hash := hashWinner w.payee w.nBlockHeight w.vinMasternode

/-! ## The sender -/

structure SenderEnv where
  vin : COutPoint
  /-- `GetMasternodeRank` at the height, or -1. -/
  rank : Int
  bestHeight : Int
  /-- The payee of `GetNextMasternodeInQueueForPayment`, for each level that has one. -/
  nextPayee : Int → Option CScript
  sign : SignedWinner → Bool
  /-- What the memory of a new payee record of a level holds. -/
  indeterminate : Int → Int

/-- One round of the loop over the levels: the winners to relay, and the tables. -/
def signLevel (env : SenderEnv) (nWinnerBlockHeight : Int)
    (s : List SignedWinner × VoteTables) (mnlevel : Int) : List SignedWinner × VoteTables :=
  match env.nextPayee mnlevel with
  | none => s
  | some payee =>
    let newWinner : SignedWinner := ⟨env.vin, nWinnerBlockHeight, payee, mnlevel⟩
    if !env.sign newWinner then s
    else
      match s.2.addWinningMasternode (env.indeterminate mnlevel) env.bestHeight
          (newWinner.toWinner hashWinner) with
      | (true, t) => (s.1 ++ [newWinner], t)
      | (false, t) => (s.1, t)

/-- `ProcessBlock` of a running masternode: what it relays, and its tables. -/
def processBlock (env : SenderEnv) (t : VoteTables) (nLastBlockHeight nBlockHeight : Int) :
    List SignedWinner × VoteTables :=
  let nWinnerBlockHeight := nBlockHeight + 10
  if env.rank = -1 then ([], t)
  else if mnPaymentsSignaturesTotal < env.rank then ([], t)
  else if nWinnerBlockHeight ≤ nLastBlockHeight then ([], t)
  else mnLevels.foldl (signLevel hashWinner env nWinnerBlockHeight) ([], t)

/-! ## The receiver -/

structure ReceiverEnv where
  /-- The chain is synced, the node is not in lite mode and the peer's version is not too old. -/
  listens : Bool
  bestHeight : Int
  nCountEnabled : Nat
  activeProtocol : Int
  /-- The protocol version of the masternode that `Find` returns. -/
  findProtocol : COutPoint → Option Int
  getMasternodeRank : COutPoint → Int → Int
  checkSignature : WinnerMessage → Bool

/-- `CMasternodePaymentWinner::IsValid`. A masternode without a rank has rank -1 and passes. -/
def ReceiverEnv.isValid (env : ReceiverEnv) (w : WinnerMessage) : Bool :=
  match env.findProtocol w.vinMasternode with
  | none => false
  | some protocolVersion =>
    if protocolVersion < env.activeProtocol then false
    else decide (env.getMasternodeRank w.vinMasternode (w.nBlockHeight - 100) ≤
      mnPaymentsSignaturesTotal)

/-- `nHeight - (CountEnabled() * 1.25)`, cut off towards zero. -/
def ReceiverEnv.nFirstBlock (env : ReceiverEnv) : Int :=
  (4 * env.bestHeight - 5 * env.nCountEnabled).tdiv 4

structure PaymentVotes where
  tables : VoteTables
  mapMasternodesLastVote : Map COutPoint Int

namespace PaymentVotes

/-- `CanVote`: `none` where it returns `false`. -/
def canVote (st : PaymentVotes) (outMasternode : COutPoint) (nBlockHeight : Int) :
    Option PaymentVotes :=
  if st.mapMasternodesLastVote.lookup outMasternode = some nBlockHeight then none
  else some { st with
    mapMasternodesLastVote := st.mapMasternodesLastVote.insert outMasternode nBlockHeight }

/-- The `MNWINNER` branch of `ProcessMessageMasternodePayments`. -/
def processWinner (env : ReceiverEnv) (indeterminate : Int) (st : PaymentVotes)
    (w : WinnerMessage) : PaymentVotes :=
  let winner := w.deserialize hashWinner
  if !env.listens then st
  else if (st.tables.mapMasternodePayeeVotes.lookup winner.hash).isSome then st
  else if winner.nBlockHeight < env.nFirstBlock ∨ env.bestHeight + 20 < winner.nBlockHeight then st
  else if w.nMessVersion ≠ .hash then st
  else if !env.isValid w then st
  else
    match st.canVote w.vinMasternode winner.nBlockHeight with
    | none => st
    | some st =>
      if !env.checkSignature w then st
      else
        { st with
          tables := (st.tables.addWinningMasternode indeterminate env.bestHeight winner).2 }

end PaymentVotes

variable {hashWinner}

/-! ## What a masternode relays -/

/-- The winners are by one masternode, for one height, and for different levels. -/
structure OneVoter (vin : COutPoint) (h : Int) (ws : List SignedWinner) : Prop where
  vinMasternode : ∀ w ∈ ws, w.vinMasternode = vin
  nBlockHeight : ∀ w ∈ ws, w.nBlockHeight = h
  levels : (ws.map (·.payeeLevel)).Nodup

theorem OneVoter.tail {vin : COutPoint} {h : Int} {w : SignedWinner} {ws : List SignedWinner}
    (hws : OneVoter vin h (w :: ws)) : OneVoter vin h ws :=
  ⟨(forall_mem_cons.mp hws.vinMasternode).2, (forall_mem_cons.mp hws.nBlockHeight).2,
    (nodup_cons.1 hws.levels).2⟩

theorem signLevel_fst (env : SenderEnv) (h : Int) (s : List SignedWinner × VoteTables)
    (mnlevel : Int) :
    (signLevel hashWinner env h s mnlevel).1 = s.1 ∨
      ∃ payee, (signLevel hashWinner env h s mnlevel).1 =
        s.1 ++ [⟨env.vin, h, payee, mnlevel⟩] := by
  unfold signLevel
  cases env.nextPayee mnlevel with
  | none => exact .inl rfl
  | some payee =>
    dsimp only
    split_ifs
    · exact .inl rfl
    · rcases s.2.addWinningMasternode (env.indeterminate mnlevel) env.bestHeight
        (SignedWinner.toWinner hashWinner ⟨env.vin, h, payee, mnlevel⟩) with ⟨_ | _, t⟩
      · exact .inl rfl
      · exact .inr ⟨payee, rfl⟩

theorem OneVoter.foldl_signLevel {env : SenderEnv} {h : Int} (levels : List Int)
    (s : List SignedWinner × VoteTables) (hs : OneVoter env.vin h s.1) (hlevels : levels.Nodup)
    (hnew : ∀ l ∈ levels, l ∉ s.1.map (·.payeeLevel)) :
    OneVoter env.vin h (levels.foldl (signLevel hashWinner env h) s).1 := by
  induction levels generalizing s with
  | nil => exact hs
  | cons l levels ih =>
    obtain ⟨hl, hlevels⟩ := nodup_cons.1 hlevels
    rcases @signLevel_fst hashWinner env h s l with hsame | ⟨payee, hadd⟩
    · refine ih _ (hsame ▸ hs) hlevels fun l' hl' => ?_
      rw [hsame]
      exact hnew l' (mem_cons_of_mem l hl')
    · refine ih _ ?_ hlevels fun l' hl' => ?_
      · rw [hadd]
        refine ⟨fun w hw => ?_, fun w hw => ?_, ?_⟩
        · rcases mem_append.1 hw with hw | hw
          · exact hs.vinMasternode w hw
          · rw [mem_singleton.1 hw]
        · rcases mem_append.1 hw with hw | hw
          · exact hs.nBlockHeight w hw
          · rw [mem_singleton.1 hw]
        · rw [map_append]
          exact nodup_append_comm.1 (nodup_cons.2 ⟨hnew l mem_cons_self, hs.levels⟩)
      · rw [hadd, map_append, map_singleton, mem_append, mem_singleton, not_or]
        exact ⟨hnew l' (mem_cons_of_mem l hl'), fun (heq : l' = l) => hl (heq ▸ hl')⟩

theorem relayed_processBlock (env : SenderEnv) (t : VoteTables)
    (nLastBlockHeight nBlockHeight : Int) :
    OneVoter env.vin (nBlockHeight + 10)
      (processBlock hashWinner env t nLastBlockHeight nBlockHeight).1 := by
  have hnil : OneVoter env.vin (nBlockHeight + 10) [] := ⟨by simp, by simp, nodup_nil⟩
  unfold processBlock
  dsimp only
  split_ifs
  · exact hnil
  · exact hnil
  · exact hnil
  · exact OneVoter.foldl_signLevel mnLevels ([], t) hnil (by decide) (by simp)

/-! ## Votes in a table -/

namespace CMasternodeBlockPayees

def votesIn (payees : List CMasternodePayee) (payee : CScript) (level : Int) : Int :=
  ((payees.filter fun p => decide (p.scriptPubKey = payee) && decide (p.mnlevel = level)).map
    (·.nVotes)).sum

/-- The level of the record that a vote for the payee goes to: that of the record there is, or what
the memory of a new one holds. -/
def levelOf (indeterminate : Int) (payees : List CMasternodePayee) (payee : CScript) : Int :=
  ((payees.find? fun p => decide (p.scriptPubKey = payee)).map (·.mnlevel)).getD indeterminate

theorem votesIn_cons (p : CMasternodePayee) (ps : List CMasternodePayee) (payee : CScript)
    (level : Int) :
    votesIn (p :: ps) payee level =
      (if p.scriptPubKey = payee ∧ p.mnlevel = level then p.nVotes else 0) +
        votesIn ps payee level := by
  unfold votesIn
  rw [filter_cons]
  split_ifs with h h' h'
  · simp
  · simp_all
  · simp_all
  · simp

/-- A vote counts for its payee, at the level of the payee's record. -/
theorem votesIn_addPayee (indeterminate mnlevel : Int) (ps : List CMasternodePayee)
    (payeeIn payee : CScript) (level : Int) :
    votesIn ((addVotes payeeIn 1 ps).getD
        (ps ++ [CMasternodePayee.new indeterminate mnlevel payeeIn 1])) payee level =
      votesIn ps payee level +
        if payeeIn = payee ∧ levelOf indeterminate ps payeeIn = level then 1 else 0 := by
  induction ps with
  | nil =>
    simp only [addVotes, Option.getD_none, nil_append, votesIn_cons]
    exact add_comm _ _
  | cons p ps ih =>
    by_cases hp : p.scriptPubKey = payeeIn
    · have hlevel : levelOf indeterminate (p :: ps) payeeIn = p.mnlevel := by
        simp [levelOf, hp]
      simp only [addVotes, hp, if_true, Option.getD_some, votesIn_cons, hlevel]
      split_ifs <;> omega
    · have hlevel : levelOf indeterminate (p :: ps) payeeIn = levelOf indeterminate ps payeeIn := by
        simp [levelOf, hp]
      rw [getD_addVotes_cons hp, votesIn_cons, votesIn_cons, ih, hlevel, add_assoc]

end CMasternodeBlockPayees

namespace VoteTables

open CMasternodeBlockPayees

def payeesAt (t : VoteTables) (h : Int) : List CMasternodePayee :=
  ((t.mapMasternodeBlocks.lookup h).map (·.vecPayments)).getD []

def votesFor (t : VoteTables) (h : Int) (payee : CScript) (level : Int) : Int :=
  votesIn (t.payeesAt h) payee level

theorem votesFor_addWinningMasternode {t : VoteTables} {indeterminate bestHeight : Int}
    {w : CMasternodePaymentWinner} (hheight : w.nBlockHeight - 100 ≤ bestHeight + 1)
    (hnew : t.mapMasternodePayeeVotes.lookup w.hash = none) (payee : CScript) (level : Int) :
    (t.addWinningMasternode indeterminate bestHeight w).2.votesFor w.nBlockHeight payee level =
      t.votesFor w.nBlockHeight payee level +
        if w.payee = payee ∧ levelOf indeterminate (t.payeesAt w.nBlockHeight) w.payee = level
          then 1 else 0 := by
  have hnot : ¬ bestHeight + 1 < w.nBlockHeight - 100 := by omega
  simp only [votesFor, ← votesIn_addPayee indeterminate w.payeeLevel]
  simp only [addWinningMasternode, hnot, if_false, hnew, Option.isSome_none, Bool.false_eq_true,
    payeesAt, AList.lookup_insert]
  cases t.mapMasternodeBlocks.lookup w.nBlockHeight <;> rfl

end VoteTables

/-! ## What a node records -/

/-- A winner that comes to a node, at a moment of the node. -/
structure Delivery where
  env : ReceiverEnv
  /-- What the memory of a new payee record holds. -/
  indeterminate : Int
  winner : SignedWinner

/-- The message passes the checks of the handler other than those on earlier votes. -/
structure Delivery.Passes (d : Delivery) : Prop where
  listens : d.env.listens = true
  first : d.env.nFirstBlock ≤ d.winner.nBlockHeight
  last : d.winner.nBlockHeight ≤ d.env.bestHeight + 20
  isValid : d.env.isValid d.winner.serialize = true
  signature : d.env.checkSignature d.winner.serialize = true

namespace PaymentVotes

variable (hashWinner) in
def receive (st : PaymentVotes) (d : Delivery) : PaymentVotes :=
  st.processWinner hashWinner d.env d.indeterminate d.winner.serialize

variable {st : PaymentVotes} {d : Delivery}

theorem receive_of_voted (hvoted : st.mapMasternodesLastVote.lookup d.winner.vinMasternode =
      some d.winner.nBlockHeight) : st.receive hashWinner d = st := by
  have hcan : st.canVote d.winner.vinMasternode d.winner.nBlockHeight = none := by
    simp [canVote, hvoted]
  unfold receive processWinner
  simp only [SignedWinner.serialize, WinnerMessage.deserialize, hcan, ite_self]

theorem foldl_receive_of_voted {vin : COutPoint} {h : Int} (ds : List Delivery)
    (hds : OneVoter vin h (ds.map (·.winner)))
    (hvoted : st.mapMasternodesLastVote.lookup vin = some h) :
    ds.foldl (receive hashWinner) st = st := by
  induction ds with
  | nil => rfl
  | cons d ds ih =>
    have hd : st.receive hashWinner d = st := by
      apply receive_of_voted
      rw [hds.vinMasternode _ mem_cons_self, hds.nBlockHeight _ mem_cons_self, hvoted]
    rw [foldl_cons, hd]
    exact ih hds.tail

theorem receive_of_new (hpass : d.Passes)
    (hvote : st.mapMasternodesLastVote.lookup d.winner.vinMasternode ≠ some d.winner.nBlockHeight)
    (hunseen : st.tables.mapMasternodePayeeVotes.lookup
      (d.winner.serialize.deserialize hashWinner).hash = none) :
    st.receive hashWinner d =
      ⟨(st.tables.addWinningMasternode d.indeterminate d.env.bestHeight
          (d.winner.serialize.deserialize hashWinner)).2,
        st.mapMasternodesLastVote.insert d.winner.vinMasternode d.winner.nBlockHeight⟩ := by
  have hrange : ¬ ((d.winner.serialize.deserialize hashWinner).nBlockHeight < d.env.nFirstBlock ∨
      d.env.bestHeight + 20 < (d.winner.serialize.deserialize hashWinner).nBlockHeight) :=
    not_or.2 ⟨not_lt.2 hpass.first, not_lt.2 hpass.last⟩
  have hcan : st.canVote d.winner.serialize.vinMasternode
      (d.winner.serialize.deserialize hashWinner).nBlockHeight =
        some { st with mapMasternodesLastVote :=
          st.mapMasternodesLastVote.insert d.winner.vinMasternode d.winner.nBlockHeight } :=
    if_neg hvote
  have hversion : d.winner.serialize.nMessVersion = .hash := rfl
  simp only [receive, processWinner, hpass.listens, hunseen, hrange, hversion, hpass.isValid, hcan,
    hpass.signature, Bool.not_true, Bool.false_eq_true, Option.isSome_none, ne_eq,
    not_true_eq_false, if_false]

end PaymentVotes

/-- **When all winners of a masternode for a height are recorded with their levels.** There is at
most one, and the payee's record happens to have its level. -/
theorem winners_recorded_iff {st : PaymentVotes} {vin : COutPoint} {h : Int} {ds : List Delivery}
    (hds : OneVoter vin h (ds.map (·.winner))) (hpass : ∀ d ∈ ds, d.Passes)
    (hvote : st.mapMasternodesLastVote.lookup vin ≠ some h)
    (hunseen : ∀ d ∈ ds, st.tables.mapMasternodePayeeVotes.lookup
      (d.winner.serialize.deserialize hashWinner).hash = none) :
    (∀ d ∈ ds, (ds.foldl (PaymentVotes.receive hashWinner) st).tables.votesFor h d.winner.payee
        d.winner.payeeLevel =
      st.tables.votesFor h d.winner.payee d.winner.payeeLevel + 1) ↔
      ds = [] ∨ ∃ d, ds = [d] ∧ CMasternodeBlockPayees.levelOf d.indeterminate
        (st.tables.payeesAt h) d.winner.payee = d.winner.payeeLevel := by
  cases ds with
  | nil => simp
  | cons d ds =>
    have hvin : d.winner.vinMasternode = vin := hds.vinMasternode _ mem_cons_self
    have hheight : d.winner.nBlockHeight = h := hds.nBlockHeight _ mem_cons_self
    have hd := hpass d mem_cons_self
    -- after the first message the others are not heard
    have hfirst := PaymentVotes.receive_of_new hd (hvin ▸ hheight ▸ hvote) (hunseen d mem_cons_self)
    have hvoted : (st.receive hashWinner d).mapMasternodesLastVote.lookup vin = some h := by
      rw [hfirst, hvin, hheight]
      exact AList.lookup_insert _
    have hvotes : ∀ payee level,
        ((d :: ds).foldl (PaymentVotes.receive hashWinner) st).tables.votesFor h payee level =
          st.tables.votesFor h payee level + if d.winner.payee = payee ∧
            CMasternodeBlockPayees.levelOf d.indeterminate (st.tables.payeesAt h) d.winner.payee =
              level then 1 else 0 := fun payee level => by
      rw [foldl_cons, PaymentVotes.foldl_receive_of_voted ds hds.tail hvoted, hfirst, ← hheight]
      have hlast := hd.last
      exact VoteTables.votesFor_addWinningMasternode
        (show d.winner.nBlockHeight - 100 ≤ d.env.bestHeight + 1 by omega)
        (hunseen d mem_cons_self) payee level
    have hone : ∀ (x : Int) P [Decidable P],
        x + (if P then 1 else 0) = x + 1 ↔ P := fun x P _ => by
      split_ifs with hP
      · simp [hP]
      · simp only [hP, iff_false]
        omega
    simp only [hvotes, hone]
    constructor
    · intro hall
      obtain ⟨-, hlevel⟩ := hall d mem_cons_self
      cases ds with
      | nil => exact .inr ⟨d, rfl, hlevel⟩
      | cons d' ds =>
        -- the level of the record would be that of both winners
        have hlevel' := (hall d' (by simp)).2
        have hnodup := (nodup_cons.1 hds.levels).1
        exact absurd (by simp [← hlevel, ← hlevel']) hnodup
    · rintro (hnil | ⟨d', hone, hlevel⟩)
      · cases hnil
      · obtain ⟨rfl, rfl⟩ := cons.inj hone
        intro d' hd'
        rw [mem_singleton.1 hd']
        exact ⟨rfl, hlevel⟩

end

/-! ### A masternode with payees at two levels -/

namespace WinnerSample

def receiver : ReceiverEnv where
  listens := true
  bestHeight := 1000
  nCountEnabled := 8
  activeProtocol := 90100
  findProtocol _ := some 90100
  getMasternodeRank _ _ := 3
  checkSignature _ := true

def hashWinner (payee : CScript) (_ : Int) (_ : COutPoint) : UInt256 :=
  BitVec.ofNat 256 (payee.foldl (fun n b => 256 * n + b.toNat + 1) 0)

def winner (level : Int) (payee : UInt8) : SignedWinner := ⟨⟨1, 0⟩, 1010, [payee], level⟩

/-- The winner comes to the receiver, where the memory of a new record holds `indeterminate`. -/
def delivery (indeterminate : Int) (w : SignedWinner) : Delivery := ⟨receiver, indeterminate, w⟩

def node : PaymentVotes := ⟨.empty, ∅⟩

theorem passes (indeterminate level : Int) (payee : UInt8) :
    (delivery indeterminate (winner level payee)).Passes where
  listens := rfl
  first := show receiver.nFirstBlock ≤ 1010 by decide
  last := show (1010 : Int) ≤ receiver.bestHeight + 20 by decide
  isValid := rfl
  signature := rfl

end WinnerSample

open WinnerSample in
/-- One winner, for a record whose memory happens to hold its level. -/
theorem winner_recorded_alone :
    ([delivery 2 (winner 2 7)].foldl (PaymentVotes.receive hashWinner) node).tables.votesFor 1010
      [7] 2 = 1 := by
  have hone : OneVoter ⟨1, 0⟩ 1010 ([delivery 2 (winner 2 7)].map (·.winner)) :=
    ⟨by simp [delivery, winner], by simp [delivery, winner], by simp⟩
  exact (@winners_recorded_iff hashWinner node _ _ _ hone
    (fun d hd => mem_singleton.1 hd ▸ passes 2 2 7) (by simp [node])
    (fun d _ => by simp [node, VoteTables.empty])).2 (.inr ⟨_, rfl, rfl⟩) _ mem_cons_self

open WinnerSample in
/-- A masternode signs winners for levels 1 and 2. In either order the second one to come is not
recorded, and the first one is not recorded with its level, but with what the memory held. -/
theorem winners_lost_two_levels : let first := delivery 0 (winner 1 7)
    let second := delivery 0 (winner 2 8)
    (([first, second].foldl (PaymentVotes.receive hashWinner) node).tables.payeesAt 1010 =
        [⟨[7], 0, 1⟩]) ∧
      (([second, first].foldl (PaymentVotes.receive hashWinner) node).tables.payeesAt 1010 =
        [⟨[8], 0, 1⟩]) ∧
      ([first, second].foldl (PaymentVotes.receive hashWinner) node).tables.votesFor 1010 [7] 1 =
        0 ∧
      ([first, second].foldl (PaymentVotes.receive hashWinner) node).tables.votesFor 1010 [8] 2
        = 0 := by
  decide +kernel

end Passion
