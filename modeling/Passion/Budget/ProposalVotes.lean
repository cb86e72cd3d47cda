import Mathlib.Data.List.Count
import Mathlib.Data.List.Induction
import Passion.Lib.KeyedMerge
import Passion.Primitives.Transaction

/-!
# Votes on proposals

`CBudgetProposal::AddOrUpdateVote` of `budget/budgetproposal.cpp`, and `ProcessProposal`,
`ProcessProposalVote`, `UpdateProposal` and `CheckOrphanVotes` of `budget/budgetmanager.cpp`.

A vote can come before the proposal it is for. Such a vote is an *orphan*: a synced node keeps it in
`mapOrphanProposalVotes`, under the hash of the proposal, and tries it again when a proposal is
added. The vote is marked as seen in any case, so a second copy of it is dropped.

**One proposal at a time.** What the store knows of a proposal is a pair: the proposal with its
votes, and the orphan that waits for it (`ProposalStore.about`). No message about another proposal
changes the pair, and the run up to the proposal only moves the orphan.

Main results: `about_run_of_none` and `about_run_of_some`, the pair after the two parts of a run;
`complete_kept`, what is counted in the end; `counts_complete_iff`, when no vote is lost.
-/

namespace Passion

open Lib List

inductive VoteDirection where
  | abstain
  | yes
  | no
  deriving DecidableEq, Repr

/-- A vote, with its hash and the outpoint of its masternode. -/
structure CBudgetVote where
  fValid : Bool
  nProposalHash : UInt256
  nVote : VoteDirection
  nTime : Int
  mnId : COutPoint
  hash : UInt256
  deriving DecidableEq, Repr

def budgetVoteUpdateMin : Int := 60 * 60

structure CBudgetProposal where
  hash : UInt256
  mapVotes : Map COutPoint CBudgetVote

namespace CBudgetProposal

/-- `AddOrUpdateVote` at time `now`: `none` where it returns `false`. -/
def addOrUpdateVote (now : Int) (p : CBudgetProposal) (vote : CBudgetVote) :
    Option CBudgetProposal :=
  let tooSoon := (p.mapVotes.lookup vote.mnId).any fun old =>
    decide (vote.nTime < old.nTime) || decide (vote.nTime - old.nTime < budgetVoteUpdateMin)
  if tooSoon then none
  else if now + 60 * 60 < vote.nTime then none
  else some { p with mapVotes := p.mapVotes.insert vote.mnId vote }

def getVoteCount (p : CBudgetProposal) (vd : VoteDirection) : Nat :=
  p.mapVotes.entries.countP fun e => decide (e.2.nVote = vd) && e.2.fValid

end CBudgetProposal

/-- What the handlers ask of the node when a message comes. -/
structure Moment where
  getTime : Int
  /-- `masternodeSync.IsSynced()`. -/
  isSynced : Bool
  /-- `IsEnabled()` of the masternode that `mnodeman.Find` returns, if any. -/
  findEnabled : COutPoint → Option Bool
  checkSignature : CBudgetVote → Bool
  /-- The proposal is well formed, has its collateral and is not expired. -/
  acceptsProposal : UInt256 → Bool

/-- The proposals and proposal votes of `CBudgetManager`. -/
structure ProposalStore where
  mapProposals : Map UInt256 CBudgetProposal
  mapSeenProposalVotes : Map UInt256 CBudgetVote
  mapOrphanProposalVotes : Map UInt256 CBudgetVote
  /-- An orphan is filed under the proposal it is for. -/
  filed : ∀ k v, mapOrphanProposalVotes.lookup k = some v → v.nProposalHash = k

namespace ProposalStore

def empty : ProposalStore := ⟨∅, ∅, ∅, fun _ _ h => absurd h (by simp)⟩

def fileOrphan (st : ProposalStore) (vote : CBudgetVote) : ProposalStore :=
  { st with
    mapOrphanProposalVotes := st.mapOrphanProposalVotes.insert vote.nProposalHash vote
    filed := fun k v h => by
      rw [Map.lookup_insert'] at h
      split_ifs at h with hk
      · cases h
        exact hk.symm
      · exact st.filed k v h }

def dropOrphan (st : ProposalStore) (nProposalHash : UInt256) : ProposalStore :=
  { st with
    mapOrphanProposalVotes := st.mapOrphanProposalVotes.erase nProposalHash
    filed := fun k v h => by
      rw [Map.lookup_erase'] at h
      split_ifs at h
      exact st.filed k v h }

def putProposal (st : ProposalStore) (nHash : UInt256) (p : CBudgetProposal) : ProposalStore :=
  { st with mapProposals := st.mapProposals.insert nHash p }

/-- `UpdateProposal`; `pfrom` says whether the vote comes from a peer. -/
def updateProposal (mo : Moment) (st : ProposalStore) (vote : CBudgetVote) (pfrom : Bool) :
    Bool × ProposalStore :=
  match st.mapProposals.lookup vote.nProposalHash with
  | none => (false, if pfrom && mo.isSynced then st.fileOrphan vote else st)
  | some p =>
    match p.addOrUpdateVote mo.getTime vote with
    | none => (false, st)
    | some p => (true, st.putProposal vote.nProposalHash p)

/-- One round of `CheckOrphanVotes`. -/
def checkOrphanVote (mo : Moment) (st : ProposalStore)
    (orphan : Sigma fun _ : UInt256 => CBudgetVote) : ProposalStore :=
  match st.updateProposal mo orphan.2 false with
  | (true, st) => st.dropOrphan orphan.1
  | (false, st) => st

/-- `CheckOrphanVotes`, the part about proposals. -/
def checkOrphanVotes (mo : Moment) (st : ProposalStore) : ProposalStore :=
  st.mapOrphanProposalVotes.entries.foldl (checkOrphanVote mo) st

/-- `ProcessProposal`, with `AddProposal`. -/
def processProposal (mo : Moment) (st : ProposalStore) (proposal : CBudgetProposal) :
    ProposalStore :=
  if (st.mapProposals.lookup proposal.hash).isSome then st
  else if !mo.acceptsProposal proposal.hash then st
  else (st.putProposal proposal.hash proposal).checkOrphanVotes mo

def addSeenProposalVote (st : ProposalStore) (vote : CBudgetVote) : ProposalStore :=
  { st with mapSeenProposalVotes := st.mapSeenProposalVotes.insertNew vote.hash vote }

def processProposalVote (mo : Moment) (st : ProposalStore) (vote : CBudgetVote) : ProposalStore :=
  if (st.mapSeenProposalVotes.lookup vote.hash).isSome then st
  else
    match mo.findEnabled vote.mnId with
    | none => st
    | some isEnabled =>
      let st := st.addSeenProposalVote vote
      if !mo.checkSignature vote then st
      else if isEnabled then (st.updateProposal mo vote true).2
      else st

end ProposalStore

/-- What happens to the store: a message about a proposal or a vote, or a call of
`CheckOrphanVotes` for another reason. -/
inductive ProposalEvent where
  | proposal (mo : Moment) (p : CBudgetProposal)
  | vote (mo : Moment) (v : CBudgetVote)
  | recheck (mo : Moment)

namespace ProposalStore

def apply (st : ProposalStore) : ProposalEvent → ProposalStore
  | .proposal mo p => st.processProposal mo p
  | .vote mo v => st.processProposalVote mo v
  | .recheck mo => st.checkOrphanVotes mo

def run (st : ProposalStore) (events : List ProposalEvent) : ProposalStore :=
  events.foldl apply st

/-! ## One proposal -/

/-- What the store knows of a proposal: the proposal, and the vote that waits for it. -/
def about (st : ProposalStore) (k : UInt256) : Option CBudgetProposal × Option CBudgetVote :=
  (st.mapProposals.lookup k, st.mapOrphanProposalVotes.lookup k)

theorem about_fileOrphan (st : ProposalStore) (v : CBudgetVote) (k : UInt256) :
    (st.fileOrphan v).about k =
      if k = v.nProposalHash then ((st.about k).1, some v) else st.about k := by
  simp only [about, fileOrphan, Map.lookup_insert']
  split_ifs <;> rfl

theorem about_dropOrphan (st : ProposalStore) (h k : UInt256) :
    (st.dropOrphan h).about k = if k = h then ((st.about k).1, none) else st.about k := by
  simp only [about, dropOrphan, Map.lookup_erase']
  split_ifs <;> rfl

theorem about_putProposal (st : ProposalStore) (h k : UInt256) (p : CBudgetProposal) :
    (st.putProposal h p).about k = if k = h then (some p, (st.about k).2) else st.about k := by
  simp only [about, putProposal, Map.lookup_insert']
  split_ifs <;> rfl

variable {st : ProposalStore} {mo : Moment} {v : CBudgetVote} {pfrom : Bool}

theorem updateProposal_of_some {p : CBudgetProposal} (hp : (st.about v.nProposalHash).1 = some p) :
    st.updateProposal mo v pfrom = ((p.addOrUpdateVote mo.getTime v).isSome,
      ((p.addOrUpdateVote mo.getTime v).map (st.putProposal v.nProposalHash)).getD st) := by
  have hlookup : st.mapProposals.lookup v.nProposalHash = some p := hp
  simp only [updateProposal, hlookup]
  cases p.addOrUpdateVote mo.getTime v <;> rfl

theorem updateProposal_of_none (hp : (st.about v.nProposalHash).1 = none) :
    st.updateProposal mo v pfrom =
      (false, if pfrom && mo.isSynced then st.fileOrphan v else st) := by
  have hlookup : st.mapProposals.lookup v.nProposalHash = none := hp
  simp only [updateProposal, hlookup]

theorem about_updateProposal_ne {k : UInt256} (hk : k ≠ v.nProposalHash) :
    (st.updateProposal mo v pfrom).2.about k = st.about k := by
  cases hp : (st.about v.nProposalHash).1 with
  | none =>
    rw [updateProposal_of_none hp]
    split_ifs
    · exact (about_fileOrphan st v k).trans (if_neg hk)
    · rfl
  | some p =>
    rw [updateProposal_of_some hp]
    cases p.addOrUpdateVote mo.getTime v with
    | none => rfl
    | some p' => exact (about_putProposal st _ k p').trans (if_neg hk)

/-- What `CheckOrphanVotes` makes of a proposal and the orphan `v`. -/
def retry (mo : Moment) (a : Option CBudgetProposal × Option CBudgetVote) (v : CBudgetVote) :
    Option CBudgetProposal × Option CBudgetVote :=
  ((a.1.bind fun p => p.addOrUpdateVote mo.getTime v).map fun p => (some p, none)).getD a

theorem about_checkOrphanVote {orphan : Sigma fun _ : UInt256 => CBudgetVote}
    (hfiled : orphan.2.nProposalHash = orphan.1) (k : UInt256) :
    (checkOrphanVote mo st orphan).about k =
      if k = orphan.1 then retry mo (st.about k) orphan.2 else st.about k := by
  obtain ⟨h, v⟩ := orphan
  obtain rfl : v.nProposalHash = h := hfiled
  split_ifs with hk
  · subst hk
    cases hp : (st.about v.nProposalHash).1 with
    | none => simp [checkOrphanVote, updateProposal_of_none hp, retry, hp]
    | some p =>
      simp only [checkOrphanVote, updateProposal_of_some hp, retry, hp, Option.bind_some]
      cases p.addOrUpdateVote mo.getTime v with
      | none => rfl
      | some p' => simp [about_dropOrphan, about_putProposal]
  · have hne : (st.updateProposal mo v false).2.about k = st.about k := about_updateProposal_ne hk
    unfold checkOrphanVote
    rcases hupd : st.updateProposal mo v false with ⟨_ | _, st'⟩
    · rwa [hupd] at hne
    · rw [hupd] at hne
      simpa [about_dropOrphan, hk] using hne

theorem about_checkOrphanVotes (mo : Moment) (st : ProposalStore) (k : UInt256) :
    (st.checkOrphanVotes mo).about k =
      ((st.about k).2).elim (st.about k) (retry mo (st.about k)) :=
  Map.read_foldl_of_mem about (fun _ => retry mo) (checkOrphanVote mo)
    st.mapOrphanProposalVotes.entries st.mapOrphanProposalVotes.nodupKeys
    (fun _ _ horphan => about_checkOrphanVote
      (st.filed _ _ (Option.mem_def.1 (AList.mem_lookup_iff.2 horphan)))) st k

/-! ## Messages -/

/-- A vote that the node finds in order when it comes. -/
structure InOrder (mo : Moment) (v : CBudgetVote) : Prop where
  fValid : v.fValid = true
  enabled : mo.findEnabled v.mnId = some true
  signed : mo.checkSignature v = true
  /-- It is not from the future. -/
  nTime : v.nTime ≤ mo.getTime + 60 * 60

def unseen (st : ProposalStore) (v : CBudgetVote) : Prop :=
  st.mapSeenProposalVotes.lookup v.hash = none

section

variable {mo : Moment} {st : ProposalStore} {k : UInt256}

@[simp] theorem about_addSeenProposalVote (v : CBudgetVote) :
    (st.addSeenProposalVote v).about k = st.about k := rfl

variable {v : CBudgetVote} {p : CBudgetProposal}

theorem about_processProposalVote_ne (hk : k ≠ v.nProposalHash) :
    (st.processProposalVote mo v).about k = st.about k := by
  unfold processProposalVote
  cases mo.findEnabled v.mnId with
  | none => simp only [ite_self]
  | some isEnabled =>
    dsimp only
    split_ifs
    · rfl
    · rfl
    · exact about_updateProposal_ne hk
    · rfl

theorem processProposalVote_of_inOrder (hv : InOrder mo v) (hnew : st.unseen v) :
    st.processProposalVote mo v = ((st.addSeenProposalVote v).updateProposal mo v true).2 := by
  simp [processProposalVote, show st.mapSeenProposalVotes.lookup v.hash = none from hnew,
    hv.enabled, hv.signed]

theorem about_processProposalVote_of_none (hv : InOrder mo v) (hnew : st.unseen v)
    (hp : (st.about v.nProposalHash).1 = none) :
    (st.processProposalVote mo v).about v.nProposalHash =
      (none, if mo.isSynced then some v else (st.about v.nProposalHash).2) := by
  have hp' : ((st.addSeenProposalVote v).about v.nProposalHash).1 = none := hp
  rw [processProposalVote_of_inOrder hv hnew, updateProposal_of_none hp', Bool.true_and]
  split_ifs
  · rw [about_fileOrphan, if_pos rfl, hp']
  · exact Prod.ext hp rfl

def withVote (p : CBudgetProposal) (v : CBudgetVote) : CBudgetProposal :=
  { p with mapVotes := p.mapVotes.insert v.mnId v }

theorem lookup_withVote_ne {mn : COutPoint} (hne : mn ≠ v.mnId)
    (hnew : p.mapVotes.lookup mn = none) :
    (withVote p v).mapVotes.lookup mn = none := by
  rwa [withVote, Map.lookup_insert', if_neg hne]

theorem addOrUpdateVote_of_new {now : Int} (hnew : p.mapVotes.lookup v.mnId = none)
    (htime : v.nTime ≤ now + 60 * 60) :
    p.addOrUpdateVote now v = some (withVote p v) := by
  simpa [CBudgetProposal.addOrUpdateVote, hnew, withVote] using htime

theorem about_processProposalVote_of_some (hv : InOrder mo v) (hnew : st.unseen v)
    (hp : (st.about v.nProposalHash).1 = some p) (hmn : p.mapVotes.lookup v.mnId = none) :
    (st.processProposalVote mo v).about v.nProposalHash =
      (some (withVote p v), (st.about v.nProposalHash).2) := by
  have hp' : ((st.addSeenProposalVote v).about v.nProposalHash).1 = some p := hp
  rw [processProposalVote_of_inOrder hv hnew, updateProposal_of_some hp',
    addOrUpdateVote_of_new hmn hv.nTime]
  simp [about_putProposal]

theorem about_checkOrphanVotes_of_settled (hwait : (st.about k).1 = none ∨ (st.about k).2 = none) :
    (st.checkOrphanVotes mo).about k = st.about k := by
  rw [about_checkOrphanVotes]
  rcases hwait with hnone | hnone
  · cases (st.about k).2 <;> simp [retry, hnone]
  · simp [hnone]

theorem about_processProposal_ne (hk : p.hash ≠ k)
    (hwait : (st.about k).1 = none ∨ (st.about k).2 = none) :
    (st.processProposal mo p).about k = st.about k := by
  have hput : (st.putProposal p.hash p).about k = st.about k :=
    (about_putProposal st _ k p).trans (if_neg hk.symm)
  unfold processProposal
  split_ifs
  · rfl
  · rfl
  · rw [about_checkOrphanVotes_of_settled (hput.symm ▸ hwait), hput]

end

/-! ## Runs -/

def ballots (k : UInt256) (events : List ProposalEvent) : List (Moment × CBudgetVote) :=
  events.filterMap fun event =>
    match event with
    | .vote mo v => if v.nProposalHash = k then some (mo, v) else none
    | _ => none

def votesFor (k : UInt256) (events : List ProposalEvent) : List CBudgetVote :=
  (ballots k events).map (·.2)

def voteHashes (events : List ProposalEvent) : List UInt256 :=
  events.filterMap fun event =>
    match event with
    | .vote _ v => some v.hash
    | _ => none

/-- Every vote for the proposal comes once, in order and from a masternode of its own. -/
structure Arrive (st : ProposalStore) (k : UInt256) (events : List ProposalEvent) : Prop where
  inOrder : ∀ b ∈ ballots k events, InOrder b.1 b.2
  unseen : ∀ b ∈ ballots k events, st.unseen b.2
  hashes : (voteHashes events).Nodup
  masternodes : ((votesFor k events).map (·.mnId)).Nodup

section

variable {st : ProposalStore} {k : UInt256} {events : List ProposalEvent} {mo : Moment}

theorem mem_voteHashes_of_mem_ballots {b : Moment × CBudgetVote} (hb : b ∈ ballots k events) :
    b.2.hash ∈ voteHashes events := by
  obtain ⟨event, hevent, hb⟩ := mem_filterMap.1 hb
  refine mem_filterMap.2 ⟨event, hevent, ?_⟩
  cases event with
  | vote mo v =>
    obtain ⟨-, hb⟩ := Option.ite_none_right_eq_some.1 hb
    cases hb
    rfl
  | proposal mo p => cases hb
  | recheck mo => cases hb

@[simp] theorem mapSeenProposalVotes_updateProposal (v : CBudgetVote) (pfrom : Bool) :
    (st.updateProposal mo v pfrom).2.mapSeenProposalVotes = st.mapSeenProposalVotes := by
  cases hp : (st.about v.nProposalHash).1 with
  | none =>
    rw [updateProposal_of_none hp]
    split_ifs <;> rfl
  | some p =>
    rw [updateProposal_of_some hp]
    cases p.addOrUpdateVote mo.getTime v <;> rfl

@[simp] theorem mapSeenProposalVotes_checkOrphanVotes :
    (st.checkOrphanVotes mo).mapSeenProposalVotes = st.mapSeenProposalVotes := by
  unfold checkOrphanVotes
  induction st.mapOrphanProposalVotes.entries generalizing st with
  | nil => rfl
  | cons orphan l ih =>
    have hround : (checkOrphanVote mo st orphan).mapSeenProposalVotes =
        st.mapSeenProposalVotes := by
      have hupd : (st.updateProposal mo orphan.2 false).2.mapSeenProposalVotes =
          st.mapSeenProposalVotes := mapSeenProposalVotes_updateProposal orphan.2 false
      rw [← hupd, checkOrphanVote]
      rcases st.updateProposal mo orphan.2 false with ⟨_ | _, st'⟩ <;> rfl
    rw [foldl_cons, ih, hround]

variable {p : CBudgetProposal} {v : CBudgetVote}

theorem unseen_apply {event : ProposalEvent} (hnew : st.unseen v)
    (hne : ∀ mo w, event = .vote mo w → w.hash ≠ v.hash) : (st.apply event).unseen v := by
  unfold unseen at hnew ⊢
  cases event with
  | proposal mo p =>
    simp only [apply, processProposal]
    split_ifs
    · exact hnew
    · exact hnew
    · rwa [mapSeenProposalVotes_checkOrphanVotes]
  | recheck mo => rwa [apply, mapSeenProposalVotes_checkOrphanVotes]
  | vote mo w =>
    have hseen : (st.addSeenProposalVote w).mapSeenProposalVotes.lookup v.hash = none := by
      rw [addSeenProposalVote, Map.lookup_insertNew, if_neg (hne mo w rfl).symm, hnew]
    simp only [apply, processProposalVote]
    cases mo.findEnabled w.mnId with
    | none => rwa [ite_self]
    | some isEnabled =>
      dsimp only
      split_ifs
      · exact hnew
      · exact hseen
      · rwa [mapSeenProposalVotes_updateProposal]
      · exact hseen

theorem Arrive.tail {event : ProposalEvent} (h : Arrive st k (event :: events)) :
    Arrive (st.apply event) k events := by
  have hsub : ∀ b ∈ ballots k events, b ∈ ballots k (event :: events) := fun b hb => by
    obtain ⟨e, he, hb⟩ := mem_filterMap.1 hb
    exact mem_filterMap.2 ⟨e, mem_cons_of_mem _ he, hb⟩
  have htail : Sublist (ballots k events) (ballots k (event :: events)) :=
    (sublist_cons_self event events).filterMap _
  refine ⟨fun b hb => h.inOrder b (hsub b hb), fun b hb => ?_, ?_,
    h.masternodes.sublist ((htail.map _).map _)⟩
  · refine unseen_apply (h.unseen b (hsub b hb)) ?_
    rintro mo w rfl heq
    have hnodup : (w.hash :: voteHashes events).Nodup := h.hashes
    exact (nodup_cons.1 hnodup).1 (heq ▸ mem_voteHashes_of_mem_ballots hb)
  · exact h.hashes.sublist ((sublist_cons_self event events).filterMap _)

theorem ballots_append (k : UInt256) (l l' : List ProposalEvent) :
    ballots k (l ++ l') = ballots k l ++ ballots k l' :=
  filterMap_append

theorem Arrive.left {l l' : List ProposalEvent} (h : Arrive st k (l ++ l')) : Arrive st k l where
  inOrder b hb := h.inOrder b (by simp [ballots_append, hb])
  unseen b hb := h.unseen b (by simp [ballots_append, hb])
  hashes := h.hashes.sublist ((sublist_append_left l l').filterMap _)
  masternodes := h.masternodes.sublist ((((sublist_append_left l l').filterMap _).map _).map _)

theorem Arrive.right {l l' : List ProposalEvent} (h : Arrive st k (l ++ l')) :
    Arrive (st.run l) k l' := by
  induction l generalizing st with
  | nil => exact h
  | cons event l ih => exact ih h.tail

/-- The orphan after a vote that came too early: a synced node replaces the one it had. -/
def keepOrphan (o : Option CBudgetVote) (b : Moment × CBudgetVote) : Option CBudgetVote :=
  if b.1.isSynced then some b.2 else o

/-- Up to the proposal, only the last vote that a synced node got waits for it. -/
theorem about_run_of_none (h : Arrive st k events) (hnone : (st.about k).1 = none)
    (hbefore : ∀ mo p, .proposal mo p ∈ events → p.hash ≠ k) :
    (st.run events).about k = (none, (ballots k events).foldl keepOrphan (st.about k).2) := by
  induction events generalizing st with
  | nil => exact Prod.ext hnone rfl
  | cons event events ih =>
    have hstep : (st.apply event).about k =
        (none, (ballots k [event]).foldl keepOrphan (st.about k).2) := by
      cases event with
      | proposal mo p =>
        rw [apply, about_processProposal_ne (hbefore mo p mem_cons_self) (.inl hnone)]
        exact Prod.ext hnone rfl
      | recheck mo =>
        rw [apply, about_checkOrphanVotes_of_settled (.inl hnone)]
        exact Prod.ext hnone rfl
      | vote mo v =>
        by_cases hk : v.nProposalHash = k
        · subst hk
          have hmem : (mo, v) ∈ ballots v.nProposalHash (.vote mo v :: events) := by
            simp [ballots]
          rw [apply, about_processProposalVote_of_none (h.inOrder _ hmem) (h.unseen _ hmem) hnone]
          simp [ballots, keepOrphan]
        · rw [apply, about_processProposalVote_ne (symm hk)]
          exact Prod.ext hnone (by simp [ballots, hk])
    have hrest := ih h.tail (by rw [hstep])
      fun mo p hp => hbefore mo p (mem_cons_of_mem _ hp)
    rw [← singleton_append, ballots_append, foldl_append]
    exact hrest.trans (by rw [hstep])

/-- Once the proposal is there and no orphan waits for it, every vote is added. -/
theorem about_run_of_some (h : Arrive st k events) (hp : st.about k = (some p, none))
    (hmn : ∀ v ∈ votesFor k events, p.mapVotes.lookup v.mnId = none) :
    (st.run events).about k = (some ((votesFor k events).foldl withVote p), none) := by
  induction events generalizing st p with
  | nil => exact hp
  | cons event events ih =>
    have hsettled : (st.about k).1 = none ∨ (st.about k).2 = none := .inr (by rw [hp])
    by_cases hvote : ∃ mo v, event = .vote mo v ∧ v.nProposalHash = k
    · obtain ⟨mo, v, rfl, rfl⟩ := hvote
      have hmem : (mo, v) ∈ ballots v.nProposalHash (.vote mo v :: events) := by simp [ballots]
      have hcons : votesFor v.nProposalHash (.vote mo v :: events) =
          v :: votesFor v.nProposalHash events := by simp [votesFor, ballots]
      have hfresh := h.masternodes
      rw [hcons] at hmn hfresh ⊢
      have hstep : (st.apply (.vote mo v)).about v.nProposalHash = (some (withVote p v), none) := by
        rw [apply, about_processProposalVote_of_some (h.inOrder _ hmem) (h.unseen _ hmem)
          (by rw [hp]) (hmn v mem_cons_self), hp]
      refine ih h.tail hstep fun w hw => lookup_withVote_ne ?_ (hmn w (mem_cons_of_mem v hw))
      exact fun heq => (nodup_cons.1 hfresh).1 (mem_map.2 ⟨w, hw, heq⟩)
    · have hsame : votesFor k (event :: events) = votesFor k events := by
        cases event with
        | vote mo v =>
          have hk : v.nProposalHash ≠ k := fun hk => hvote ⟨mo, v, rfl, hk⟩
          simp [votesFor, ballots, hk]
        | proposal mo p => rfl
        | recheck mo => rfl
      have hstep : (st.apply event).about k = st.about k := by
        cases event with
        | vote mo v =>
          exact about_processProposalVote_ne fun hk => hvote ⟨mo, v, rfl, hk.symm⟩
        | recheck mo => exact about_checkOrphanVotes_of_settled hsettled
        | proposal mo q =>
          by_cases hk : q.hash = k
          · have hhave : (st.mapProposals.lookup q.hash).isSome = true := by
              rw [hk, show st.mapProposals.lookup k = some p from congrArg Prod.fst hp]
              rfl
            simp only [apply, processProposal, hhave, if_true]
          · exact about_processProposal_ne hk hsettled
      rw [hsame] at hmn ⊢
      exact ih h.tail (hstep.trans hp) hmn

/-! ## Counting -/

theorem getVoteCount_withVote (hnew : p.mapVotes.lookup v.mnId = none) (hvalid : v.fValid = true)
    (vd : VoteDirection) :
    (withVote p v).getVoteCount vd = p.getVoteCount vd + if v.nVote = vd then 1 else 0 := by
  have hkeys : v.mnId ∉ p.mapVotes.entries.keys := AList.lookup_eq_none.1 hnew
  simp only [withVote, CBudgetProposal.getVoteCount, AList.entries_insert,
    kerase_of_notMem_keys hkeys, countP_cons, hvalid, Bool.and_true, decide_eq_true_eq]

section

variable (votes : List CBudgetVote)

theorem lookup_foldl_withVote {mn : COutPoint}
    (hnew : p.mapVotes.lookup mn = none) (hmn : ∀ v ∈ votes, mn ≠ v.mnId) :
    (votes.foldl withVote p).mapVotes.lookup mn = none := by
  induction votes generalizing p with
  | nil => exact hnew
  | cons v votes ih =>
    exact ih (lookup_withVote_ne (hmn v mem_cons_self) hnew)
      fun w hw => hmn w (mem_cons_of_mem v hw)

/-- How many of the votes are for `vd`. -/
def tally (vd : VoteDirection) (votes : List CBudgetVote) : Nat :=
  votes.countP fun v => decide (v.nVote = vd)

theorem getVoteCount_foldl (hnew : ∀ v ∈ votes, p.mapVotes.lookup v.mnId = none)
    (hmn : (votes.map (·.mnId)).Nodup)
    (hvalid : ∀ v ∈ votes, v.fValid = true) (vd : VoteDirection) :
    (votes.foldl withVote p).getVoteCount vd = p.getVoteCount vd + tally vd votes := by
  induction votes generalizing p with
  | nil => rfl
  | cons v votes ih =>
    obtain ⟨hv, hmn⟩ := nodup_cons.1 hmn
    have hrest : ∀ w ∈ votes, (withVote p v).mapVotes.lookup w.mnId = none := fun w hw =>
      lookup_withVote_ne (fun heq => hv (mem_map.2 ⟨w, hw, heq⟩)) (hnew w (mem_cons_of_mem v hw))
    rw [foldl_cons, ih hrest hmn fun w hw => hvalid w (mem_cons_of_mem v hw),
      getVoteCount_withVote (hnew v mem_cons_self) (hvalid v mem_cons_self)]
    simp only [tally, countP_cons, decide_eq_true_eq]
    omega

theorem length_eq_tally :
    votes.length = tally .abstain votes + tally .yes votes + tally .no votes := by
  induction votes with
  | nil => rfl
  | cons v votes ih =>
    simp only [tally, countP_cons] at ih ⊢
    cases v.nVote <;> simp <;> omega

end

theorem length_eq_of_tally_eq {votes votes' : List CBudgetVote}
    (h : ∀ vd, tally vd votes = tally vd votes') : votes.length = votes'.length := by
  rw [length_eq_tally, length_eq_tally votes', h, h, h]

theorem about_processProposal {o : Option CBudgetVote} (hwait : st.about p.hash = (none, o))
    (hnovotes : p.mapVotes = ∅) (haccept : mo.acceptsProposal p.hash = true)
    (htime : ∀ v, o = some v → v.nTime ≤ mo.getTime + 60 * 60) :
    (st.processProposal mo p).about p.hash = (some (o.toList.foldl withVote p), none) := by
  have hnone : st.mapProposals.lookup p.hash = none := congrArg Prod.fst hwait
  have hput : (st.putProposal p.hash p).about p.hash = (some p, o) := by
    rw [about_putProposal, if_pos rfl, hwait]
  simp only [processProposal, hnone, Option.isSome_none, Bool.false_eq_true, if_false, haccept,
    Bool.not_true, about_checkOrphanVotes, hput]
  cases o with
  | none => rfl
  | some v =>
    have hnew : p.mapVotes.lookup v.mnId = none := by simp [hnovotes]
    simp [retry, addOrUpdateVote_of_new hnew (htime v rfl)]

theorem foldl_keepOrphan_mem (l : List (Moment × CBudgetVote))
    (hv : l.foldl keepOrphan none = some v) : ∃ mo, (mo, v) ∈ l ∧ mo.isSynced = true := by
  induction l using reverseRecOn with
  | nil => cases hv
  | append_singleton l b ih =>
    rw [foldl_append, foldl_cons, keepOrphan] at hv
    split_ifs at hv with hsync
    · cases hv
      exact ⟨b.1, by simp, hsync⟩
    · obtain ⟨mo, hmem, hsync⟩ := ih hv
      exact ⟨mo, mem_append_left _ hmem, hsync⟩

end

/-- The node has the proposal and counts, in each direction, all of the votes. -/
def Complete (st : ProposalStore) (k : UInt256) (votes : List CBudgetVote) : Prop :=
  ∃ p, st.mapProposals.lookup k = some p ∧ ∀ vd, p.getVoteCount vd = tally vd votes

section

variable {st : ProposalStore} {mo : Moment} {P : CBudgetProposal}
  {before after : List ProposalEvent}

/-- The votes that the node keeps: the orphan, and those that came after the proposal. -/
def kept (k : UInt256) (before after : List ProposalEvent) : List CBudgetVote :=
  ((ballots k before).foldl keepOrphan none).toList ++ votesFor k after

theorem kept_sublist (k : UInt256) :
    (kept k before after).Sublist (votesFor k before ++ votesFor k after) := by
  refine Sublist.append ?_ (Sublist.refl _)
  cases horphan : (ballots k before).foldl keepOrphan none with
  | none => exact nil_sublist _
  | some v =>
    obtain ⟨mo, hmem, -⟩ := foldl_keepOrphan_mem _ horphan
    exact singleton_sublist.2 (mem_map_of_mem hmem)

theorem votesFor_arrival : votesFor P.hash (before ++ .proposal mo P :: after) =
      votesFor P.hash before ++ votesFor P.hash after := by
  simp [votesFor, ballots]

theorem Complete.tally_eq {k : UInt256} {votes votes' : List CBudgetVote}
    (h : Complete st k votes) (h' : Complete st k votes') (vd : VoteDirection) :
    tally vd votes = tally vd votes' := by
  obtain ⟨p, hp, hcount⟩ := h
  obtain ⟨p', hp', hcount'⟩ := h'
  cases hp.symm.trans hp'
  rw [← hcount, hcount']

variable (hnovotes : P.mapVotes = ∅) (haccept : mo.acceptsProposal P.hash = true)
  (hnew : st.about P.hash = (none, none))
  (hbefore : ∀ mo p, .proposal mo p ∈ before → p.hash ≠ P.hash)
  (hclock : ∀ b ∈ ballots P.hash before, b.1.getTime ≤ mo.getTime)
  (harrive : Arrive st P.hash (before ++ .proposal mo P :: after))

include hnovotes haccept hnew hbefore hclock harrive

/-- **What the node counts after a run**: the votes that came after the proposal, and of those that
came before it the one orphan. -/
theorem complete_kept :
    Complete (st.run (before ++ .proposal mo P :: after)) P.hash (kept P.hash before after) := by
  have hwait : (st.run before).about P.hash =
      (none, (ballots P.hash before).foldl keepOrphan none) := by
    simpa [hnew] using about_run_of_none harrive.left (by rw [hnew]) hbefore
  have htime : ∀ v, (ballots P.hash before).foldl keepOrphan none = some v →
      v.nTime ≤ mo.getTime + 60 * 60 := fun v hv => by
    obtain ⟨mo', hmem, -⟩ := foldl_keepOrphan_mem _ hv
    have hearlier : mo'.getTime ≤ mo.getTime := hclock _ hmem
    have hv : v.nTime ≤ mo'.getTime + 60 * 60 := (harrive.left.inOrder _ hmem).nTime
    omega
  have hthere := about_processProposal hwait hnovotes haccept htime
  have hsub : (kept P.hash before after).Sublist
      (votesFor P.hash (before ++ .proposal mo P :: after)) := by
    rw [votesFor_arrival]
    exact kept_sublist P.hash
  -- the kept votes are votes of different masternodes, and the proposal comes without votes
  have hmn : ((kept P.hash before after).map (·.mnId)).Nodup :=
    harrive.masternodes.sublist (hsub.map _)
  have hvalid : ∀ v ∈ kept P.hash before after, v.fValid = true := fun v hv => by
    obtain ⟨b, hb, rfl⟩ := mem_map.1 (hsub.subset hv)
    exact (harrive.inOrder b hb).fValid
  have hfresh : ∀ mn, P.mapVotes.lookup mn = none := fun mn => by simp [hnovotes]
  have hend := about_run_of_some (harrive.right.tail) hthere fun v hv =>
    lookup_foldl_withVote _ (hfresh _) fun w hw heq => by
      rw [kept, map_append] at hmn
      exact (disjoint_of_nodup_append hmn) (mem_map.2 ⟨w, hw, heq.symm⟩) (mem_map_of_mem hv)
  rw [← foldl_append] at hend
  refine ⟨(kept P.hash before after).foldl withVote P, ?_, fun vd => ?_⟩
  · rw [run, foldl_append]
    exact congrArg Prod.fst hend
  · rw [getVoteCount_foldl _ (fun v _ => hfresh _) hmn hvalid]
    simp [CBudgetProposal.getVoteCount, hnovotes]

/-- **When no vote is lost.** Of the votes that come before the proposal at most one is kept, and
that only by a synced node. -/
theorem counts_complete_iff : Complete (st.run (before ++ .proposal mo P :: after)) P.hash
        (votesFor P.hash (before ++ .proposal mo P :: after)) ↔
      (ballots P.hash before).length ≤ 1 ∧ ∀ b ∈ ballots P.hash before, b.1.isSynced = true := by
  have hkept := complete_kept hnovotes haccept hnew hbefore hclock harrive
  rw [votesFor_arrival]
  constructor
  · intro hall
    have hlen := length_eq_of_tally_eq (hkept.tally_eq hall)
    simp only [kept, votesFor, length_append, length_map] at hlen
    have horphan : (ballots P.hash before).length =
        ((ballots P.hash before).foldl keepOrphan none).toList.length := by omega
    match hballots : ballots P.hash before with
    | [] => simp
    | [b] =>
      rw [hballots] at horphan
      refine ⟨le_rfl, fun b' hb' => ?_⟩
      rw [mem_singleton.1 hb']
      by_contra hsync
      simp [keepOrphan, hsync] at horphan
    | b :: b' :: l =>
      rw [hballots] at horphan
      have hone : (((b :: b' :: l).foldl keepOrphan none).toList).length ≤ 1 := by
        cases (b :: b' :: l).foldl keepOrphan none <;> simp
      rw [← horphan] at hone
      simp at hone
  · rintro ⟨hlen, hsync⟩
    have heq : kept P.hash before after = votesFor P.hash before ++ votesFor P.hash after := by
      rw [kept]
      match hballots : ballots P.hash before with
      | [] => simp [votesFor, hballots]
      | [b] =>
        have hb : b.1.isSynced = true := hsync b (by simp [hballots])
        simp [votesFor, hballots, keepOrphan, hb]
      | b :: b' :: l =>
        rw [hballots] at hlen
        simp at hlen
    rwa [← heq]

end

/-! ### Two masternodes that vote yes -/

namespace Sample

def moment : Moment where
  getTime := 1000000
  isSynced := true
  findEnabled _ := some true
  checkSignature _ := true
  acceptsProposal _ := true

def proposal : CBudgetProposal := ⟨7, ∅⟩

/-- The vote of masternode `n`. -/
def vote (n : Nat) : CBudgetVote := ⟨true, 7, .yes, 1000000, ⟨0, n⟩, BitVec.ofNat 256 (100 + n)⟩

def oneEarly : List ProposalEvent :=
  [.vote moment (vote 1)] ++ .proposal moment proposal :: [.vote moment (vote 2), .recheck moment]

def bothEarly : List ProposalEvent :=
  [.vote moment (vote 1), .vote moment (vote 2), .proposal moment proposal, .recheck moment]

theorem arrive_oneEarly : Arrive empty 7 oneEarly := by
  refine ⟨fun b hb => ?_, fun b _ => by simp [unseen, empty], by decide +kernel, by decide +kernel⟩
  have hmoment : b.1 = moment ∧ b.2.fValid = true ∧ b.2.nTime = 1000000 := by
    rcases mem_pair.1 hb with rfl | rfl <;> exact ⟨rfl, rfl, rfl⟩
  obtain ⟨hmo, hvalid, htime⟩ := hmoment
  exact ⟨hvalid, by rw [hmo]; rfl, by rw [hmo]; rfl, by rw [hmo, htime]; decide⟩

end Sample

open Sample

/-- One vote comes before the proposal and one after it: both are counted. -/
theorem counts_complete_oneEarly :
    Complete (empty.run Sample.oneEarly) 7 [Sample.vote 1, Sample.vote 2] :=
  (@counts_complete_iff empty moment proposal [.vote moment (vote 1)] _
    rfl rfl rfl (by simp) (by simp [ballots, vote, proposal])
    arrive_oneEarly).2 (by simp [ballots, vote, proposal, moment])

/-- Two votes come before the proposal: the second takes the place of the first. -/
theorem counts_incomplete_bothEarly :
    ((empty.run Sample.bothEarly).mapProposals.lookup 7).map (·.getVoteCount .yes) = some 1 ∧
      tally .yes (votesFor 7 Sample.bothEarly) = 2 ∧
      ¬ Complete (empty.run Sample.bothEarly) 7 (votesFor 7 Sample.bothEarly) := by
  have hcount : ((empty.run bothEarly).mapProposals.lookup 7).map (·.getVoteCount .yes) =
      some 1 := by decide +kernel
  have htally : tally .yes (votesFor 7 bothEarly) = 2 := by decide +kernel
  refine ⟨hcount, htally, ?_⟩
  rintro ⟨p, hp, hall⟩
  rw [hp, Option.map_some, hall] at hcount
  cases hcount

end ProposalStore

end Passion
