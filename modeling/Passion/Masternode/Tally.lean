import Passion.Lib.Rank
import Passion.Masternode.WinnerMessages

/-!
# The tally of the winner votes

Two questions about the tables of `masternode-payments.h` after any history of calls.

**The payee of a level.** `AddPayee` looks for a record by its script only, and the constructor of a
record does not set the level. So a vote goes to the level of the record that there is, or to what
the memory of a new record holds (`levelOf`). Where that is the level of the vote every time,
`GetPayee` returns a script with the most votes of the level (`getPayee_mostVoted`).

**The count of a script at a height** is the number of votes that are held for it
(`storedVotes_eq_heldVotes`). Both maps are pruned while the votes are walked over, so between two
turns of that loop the counts need not agree; they do when no old vote is left.
-/

namespace Passion

open Lib CMasternodePayee List Option

namespace CMasternodeBlockPayees

variable {ps : List CMasternodePayee} {payee payeeIn : CScript} {indeterminate mnlevel n : Int}

/-! ## Records -/

/-- The record of a script, as `AddPayee` finds it. -/
def recordOf (ps : List CMasternodePayee) (payee : CScript) : Option CMasternodePayee :=
  ps.find? fun p => decide (p.scriptPubKey = payee)

def storedIn (ps : List CMasternodePayee) (payee : CScript) : Int :=
  ((recordOf ps payee).map (·.nVotes)).getD 0

theorem recordOf_cons (p : CMasternodePayee) :
    recordOf (p :: ps) payee = if p.scriptPubKey = payee then some p else recordOf ps payee := by
  by_cases hp : p.scriptPubKey = payee <;> simp [recordOf, hp]

/-- **What `AddPayee` does to the records.** -/
theorem recordOf_addPayee :
    recordOf ((addVotes payeeIn n ps).getD (ps ++ [new indeterminate mnlevel payeeIn n])) payee =
      if payeeIn = payee then
        some ⟨payeeIn, levelOf indeterminate ps payeeIn, storedIn ps payeeIn + n⟩
      else recordOf ps payee := by
  induction ps with
  | nil => by_cases hp : payeeIn = payee <;>
      simp [addVotes, recordOf, storedIn, levelOf, new]
  | cons p ps ih =>
    by_cases hp : p.scriptPubKey = payeeIn
    · by_cases hs : payeeIn = payee <;>
        simp [addVotes, recordOf_cons, storedIn, levelOf, hp, hs]
    · rw [getD_addVotes_cons hp, recordOf_cons, recordOf_cons, ih]
      by_cases hs : payeeIn = payee
      · subst hs
        simp [storedIn, levelOf, recordOf_cons, hp]
      · simp [hs]

theorem storedIn_addPayee :
    storedIn ((addVotes payeeIn n ps).getD (ps ++ [new indeterminate mnlevel payeeIn n])) payee =
      storedIn ps payee + if payeeIn = payee then n else 0 := by
  rw [storedIn, recordOf_addPayee]
  split_ifs with hp
  · rw [hp]
    rfl
  · exact (add_zero _).symm

theorem scripts_addPayee : ((addVotes payeeIn n ps).getD
        (ps ++ [new indeterminate mnlevel payeeIn n])).map (·.scriptPubKey) =
      if payeeIn ∈ ps.map (·.scriptPubKey) then ps.map (·.scriptPubKey)
      else ps.map (·.scriptPubKey) ++ [payeeIn] := by
  induction ps with
  | nil => simp [addVotes, new]
  | cons p ps ih =>
    by_cases hp : p.scriptPubKey = payeeIn
    · simp [addVotes, hp]
    · rw [getD_addVotes_cons hp, map_cons, map_cons, ih]
      have hiff : payeeIn ∈ p.scriptPubKey :: ps.map (·.scriptPubKey) ↔
          payeeIn ∈ ps.map (·.scriptPubKey) := mem_cons.trans (or_iff_right (Ne.symm hp))
      simp only [hiff]
      split_ifs <;> rfl

theorem nodup_addPayee (h : (ps.map (·.scriptPubKey)).Nodup) :
    (((addVotes payeeIn n ps).getD (ps ++ [new indeterminate mnlevel payeeIn n])).map
        (·.scriptPubKey)).Nodup := by
  rw [scripts_addPayee]
  split_ifs with hmem
  · exact h
  · exact nodup_append_comm.mp (nodup_cons.mpr ⟨hmem, h⟩)

theorem recordOf_of_mem (h : (ps.map (·.scriptPubKey)).Nodup) {p : CMasternodePayee} (hp : p ∈ ps) :
    recordOf ps p.scriptPubKey = some p := find?_of_nodup h hp

/-! ## The best payee of a level -/

/-- One turn of the loop: the best so far is kept, or gives way to a better one. -/
theorem bestPayee_spec (level : Int) (payment : Option CMasternodePayee) (p : CMasternodePayee) :
    (∀ best, bestPayee level payment p = some best →
      payment = some best ∨ best = p ∧ p.mnlevel = level) ∧
    ∀ q, (payment = some q ∨ q = p ∧ p.mnlevel = level) →
      ∃ best, bestPayee level payment p = some best ∧ q.nVotes ≤ best.nVotes := by
  by_cases hlevel : p.mnlevel = level
  · cases payment with
    | none => simp [bestPayee]
    | some old =>
      by_cases hlt : old.nVotes < p.nVotes
      · grind [bestPayee]
      · grind [bestPayee]
  · simp only [bestPayee, ne_eq, hlevel, and_false, or_false]
    exact ⟨fun best h => h, fun q hq => ⟨q, hq, le_rfl⟩⟩

theorem foldl_bestPayee (level : Int) (payment : Option CMasternodePayee) :
    (∀ best, ps.foldl (bestPayee level) payment = some best →
      payment = some best ∨ best ∈ ps ∧ best.mnlevel = level) ∧
    ∀ q, (payment = some q ∨ q ∈ ps ∧ q.mnlevel = level) →
      ∃ best, ps.foldl (bestPayee level) payment = some best ∧ q.nVotes ≤ best.nVotes := by
  induction ps generalizing payment with
  | nil =>
    simp only [not_mem_nil, false_and, or_false]
    exact ⟨fun best h => h, fun q hq => ⟨q, hq, le_rfl⟩⟩
  | cons p ps ih =>
    obtain ⟨hfrom, hbest⟩ := bestPayee_spec level payment p
    obtain ⟨ihfrom, ihbest⟩ := ih (bestPayee level payment p)
    refine ⟨fun best h => ?_, fun q hq => ?_⟩
    · rcases ihfrom best h with h | ⟨hmem, hlevel⟩
      · rcases hfrom best h with h | ⟨rfl, hlevel⟩
        · exact .inl h
        · exact .inr ⟨mem_cons_self, hlevel⟩
      · exact .inr ⟨mem_cons_of_mem p hmem, hlevel⟩
    · by_cases hnow : payment = some q ∨ q = p ∧ p.mnlevel = level
      · obtain ⟨b, hb, hle⟩ := hbest q hnow
        obtain ⟨best, hbest, hle'⟩ := ihbest b (.inl hb)
        exact ⟨best, hbest, hle.trans hle'⟩
      · obtain ⟨hold, hnew⟩ := not_or.mp hnow
        obtain ⟨hmem, hlevel⟩ := hq.resolve_left hold
        refine ihbest q (.inr ⟨?_, hlevel⟩)
        exact (mem_cons.mp hmem).resolve_left fun heq => hnew ⟨heq, heq ▸ hlevel⟩

/-- What `GetPayee` returns has the most votes of the records of the level. -/
theorem getPayee_some {b : CMasternodeBlockPayees} {level : Int}
    (h : b.getPayee level = some payee) :
    ∃ best ∈ b.vecPayments, best.scriptPubKey = payee ∧ best.mnlevel = level ∧
      ∀ q ∈ b.vecPayments, q.mnlevel = level → q.nVotes ≤ best.nVotes := by
  obtain ⟨best, hbest, rfl⟩ := map_eq_some_iff.mp h
  obtain ⟨hfrom, hmost⟩ := @foldl_bestPayee b.vecPayments level none
  obtain ⟨hmem, hlevel⟩ := (hfrom best hbest).resolve_left (by simp)
  refine ⟨best, hmem, rfl, hlevel, fun q hq hql => ?_⟩
  obtain ⟨best', hbest', hle⟩ := hmost q (.inr ⟨hq, hql⟩)
  rw [hbest] at hbest'
  cases hbest'
  exact hle

theorem getPayee_none_iff {b : CMasternodeBlockPayees} {level : Int} :
    b.getPayee level = none ↔ ∀ q ∈ b.vecPayments, q.mnlevel ≠ level := by
  rw [getPayee, map_eq_none_iff]
  obtain ⟨hfrom, hmost⟩ := @foldl_bestPayee b.vecPayments level none
  constructor
  · intro hnone q hq hlevel
    obtain ⟨best, hbest, -⟩ := hmost q (.inr ⟨hq, hlevel⟩)
    rw [hnone] at hbest
    cases hbest
  · intro hall
    refine eq_none_iff_forall_ne_some.mpr fun best hbest => ?_
    obtain ⟨hmem, hlevel⟩ := (hfrom best hbest).resolve_left (by simp)
    exact hall best hmem hlevel

/-! ## A history of votes -/

/-- A call of `AddPayee`, with what the memory of a new record holds. -/
structure PayeeVote where
  indeterminate : Int
  payeeIn : CScript
  mnlevel : Int
  nIncrement : Int

def addedFor (calls : List PayeeVote) (payee : CScript) (level : Int) : Int :=
  ((calls.filter fun c => decide (c.payeeIn = payee ∧ c.mnlevel = level)).map (·.nIncrement)).sum

def addPayees (b : CMasternodeBlockPayees) (calls : List PayeeVote) : CMasternodeBlockPayees :=
  calls.foldl (fun b c => b.addPayee c.indeterminate c.payeeIn c.mnlevel c.nIncrement) b

/-- What `GetPayee` is for: a script with the most votes of the level, if the level has votes. -/
def MostVoted (calls : List PayeeVote) (b : CMasternodeBlockPayees) (level : Int) : Prop :=
  (∀ payee, b.getPayee level = some payee →
    (∃ c ∈ calls, c.payeeIn = payee ∧ c.mnlevel = level) ∧
    ∀ c ∈ calls, c.mnlevel = level → addedFor calls c.payeeIn level ≤ addedFor calls payee level) ∧
  (b.getPayee level = none ↔ ∀ c ∈ calls, c.mnlevel ≠ level)

/-- The runs in which every vote goes to a record of its own level. -/
inductive VotedOwnLevel : List PayeeVote → CMasternodeBlockPayees → Prop
  | new (nBlockHeight : Int) : VotedOwnLevel [] ⟨nBlockHeight, []⟩
  | add {calls : List PayeeVote} {b : CMasternodeBlockPayees} (c : PayeeVote) :
      VotedOwnLevel calls b → levelOf c.indeterminate b.vecPayments c.payeeIn = c.mnlevel →
      VotedOwnLevel (calls ++ [c]) (b.addPayee c.indeterminate c.payeeIn c.mnlevel c.nIncrement)

variable {calls : List PayeeVote} {c : PayeeVote} {level : Int}

theorem addedFor_append (calls : List PayeeVote) (c : PayeeVote) (payee : CScript) (level : Int) :
    addedFor (calls ++ [c]) payee level = addedFor calls payee level +
      if c.payeeIn = payee ∧ c.mnlevel = level then c.nIncrement else 0 := by
  unfold addedFor
  split_ifs with h <;> simp [h]

theorem addedFor_eq_zero (h : ∀ c ∈ calls, c.payeeIn ≠ payee) : addedFor calls payee level = 0 := by
  have hnone : (calls.filter fun c => decide (c.payeeIn = payee ∧ c.mnlevel = level)) = [] :=
    filter_eq_nil_iff.mpr fun c hc => by simp [h c hc]
  rw [addedFor, hnone]
  rfl

/-- The records after a run: a script that was voted for has one, of the level of all its votes and
with their sum. -/
structure Tallied (calls : List PayeeVote) (ps : List CMasternodePayee) : Prop where
  nodup : (ps.map (·.scriptPubKey)).Nodup
  voted : ∀ payee, (recordOf ps payee).isSome = true ↔ ∃ c ∈ calls, c.payeeIn = payee
  level : ∀ payee p, recordOf ps payee = some p → ∀ c ∈ calls, c.payeeIn = payee →
    c.mnlevel = p.mnlevel
  votes : ∀ payee p, recordOf ps payee = some p → p.nVotes = addedFor calls payee p.mnlevel

theorem Tallied.add (h : Tallied calls ps)
    (hlevel : levelOf c.indeterminate ps c.payeeIn = c.mnlevel) :
    Tallied (calls ++ [c]) ((addVotes c.payeeIn c.nIncrement ps).getD
      (ps ++ [.new c.indeterminate c.mnlevel c.payeeIn c.nIncrement])) := by
  -- a script that has a record has the level of the new vote
  have hsame : ∀ c' ∈ calls, c'.payeeIn = c.payeeIn → c'.mnlevel = c.mnlevel := by
    intro c' hc' heq
    obtain ⟨p, hp⟩ := isSome_iff_exists.mp ((h.voted c.payeeIn).mpr ⟨c', hc', heq⟩)
    rw [h.level c.payeeIn p hp c' hc' heq, ← hlevel]
    simp only [levelOf, show ps.find? _ = some p from hp, map_some, getD_some]
  have hstored : storedIn ps c.payeeIn = addedFor calls c.payeeIn c.mnlevel := by
    cases hp : recordOf ps c.payeeIn with
    | none =>
      have hnot : ∀ c' ∈ calls, c'.payeeIn ≠ c.payeeIn := fun c' hc' heq => by
        have hsome := (h.voted c.payeeIn).mpr ⟨c', hc', heq⟩
        rw [hp] at hsome
        cases hsome
      rw [storedIn, hp, addedFor_eq_zero hnot]
      rfl
    | some p =>
      rw [storedIn, hp, ← hlevel]
      simp only [levelOf, show ps.find? _ = some p from hp]
      exact h.votes c.payeeIn p hp
  refine ⟨nodup_addPayee h.nodup, fun payee => ?_, fun payee p hp c' hc' heq => ?_,
    fun payee p hp => ?_⟩
  · rw [recordOf_addPayee]
    by_cases hpayee : c.payeeIn = payee
    · simp [hpayee]
    · simp [hpayee, h.voted payee]
  · rw [recordOf_addPayee] at hp
    rcases mem_append.mp hc' with hc' | hc'
    · split_ifs at hp with hpayee
      · cases hp
        rw [hlevel]
        exact hsame c' hc' (heq.trans hpayee.symm)
      · exact h.level payee p hp c' hc' heq
    · obtain rfl := mem_singleton.mp hc'
      rw [if_pos heq] at hp
      cases hp
      exact hlevel.symm
  · rw [recordOf_addPayee] at hp
    rw [addedFor_append]
    split_ifs at hp with hpayee
    · cases hp
      rw [hlevel, hstored, if_pos ⟨hpayee, rfl⟩, hpayee]
    · rw [if_neg fun hand => hpayee hand.1, add_zero]
      exact h.votes payee p hp

theorem VotedOwnLevel.tallied {b : CMasternodeBlockPayees} (h : VotedOwnLevel calls b) :
    Tallied calls b.vecPayments := by
  induction h with
  | new nBlockHeight => exact ⟨nodup_nil, by simp [recordOf], by simp, by simp [recordOf]⟩
  | add c _ hlevel ih => exact ih.add hlevel

/-- **`GetPayee` returns a payee with the most votes**, in a run in which every vote goes to a
record of its own level. -/
theorem getPayee_mostVoted {b : CMasternodeBlockPayees} (h : VotedOwnLevel calls b) (level : Int) :
    MostVoted calls b level := by
  have ht := h.tallied
  -- the record of a vote
  have hrecord : ∀ c ∈ calls, ∃ p ∈ b.vecPayments, p.mnlevel = c.mnlevel ∧
      p.nVotes = addedFor calls c.payeeIn c.mnlevel := by
    intro c hc
    obtain ⟨p, hp⟩ := isSome_iff_exists.mp ((ht.voted c.payeeIn).mpr ⟨c, hc, rfl⟩)
    have hlevel := ht.level c.payeeIn p hp c hc rfl
    exact ⟨p, mem_of_find?_eq_some hp, hlevel.symm, hlevel ▸ ht.votes c.payeeIn p hp⟩
  refine ⟨fun payee hpayee => ?_, ?_⟩
  · obtain ⟨best, hmem, rfl, rfl, hmost⟩ := getPayee_some hpayee
    have hbest := recordOf_of_mem ht.nodup hmem
    obtain ⟨c, hc, hc'⟩ := (ht.voted _).mp (isSome_of_eq_some hbest)
    refine ⟨⟨c, hc, hc', ht.level _ best hbest c hc hc'⟩, fun c' hc' hlevel => ?_⟩
    obtain ⟨p, hp, hpl, hvotes⟩ := hrecord c' hc'
    rw [← hlevel, ← hvotes, hlevel, ← ht.votes _ best hbest]
    exact hmost p hp (hpl.trans hlevel)
  · rw [getPayee_none_iff]
    constructor
    · intro hnone c hc hlevel
      obtain ⟨p, hp, hpl, -⟩ := hrecord c hc
      exact hnone p hp (hpl.trans hlevel)
    · rintro hnone p hp rfl
      have hfound := recordOf_of_mem ht.nodup hp
      obtain ⟨c, hc, hc'⟩ := (ht.voted _).mp (isSome_of_eq_some hfound)
      exact hnone c hc (ht.level _ p hfound c hc hc')

theorem getPayee_mostVoted_two :
    VotedOwnLevel [⟨1, [0x51], 1, 1⟩, ⟨2, [0x52], 2, 1⟩] ⟨7, [⟨[0x51], 1, 1⟩, ⟨[0x52], 2, 1⟩]⟩ ∧
      MostVoted [⟨1, [0x51], 1, 1⟩, ⟨2, [0x52], 2, 1⟩] ⟨7, [⟨[0x51], 1, 1⟩, ⟨[0x52], 2, 1⟩]⟩ 2 :=
  have hrun : VotedOwnLevel [⟨1, [0x51], 1, 1⟩, ⟨2, [0x52], 2, 1⟩]
      ⟨7, [⟨[0x51], 1, 1⟩, ⟨[0x52], 2, 1⟩]⟩ :=
    .add ⟨2, [0x52], 2, 1⟩ (.add ⟨1, [0x51], 1, 1⟩ (.new 7) rfl) rfl
  ⟨hrun, getPayee_mostVoted hrun 2⟩

/-- One vote, for a record in memory that held zero; and two votes for one script, at two levels,
the first record in memory that held its level. -/
theorem getPayee_misses_level :
    ¬MostVoted [⟨0, [0x51], 1, 1⟩] (addPayees ⟨7, []⟩ [⟨0, [0x51], 1, 1⟩]) 1 ∧
      ¬MostVoted [⟨1, [0x51], 1, 1⟩, ⟨2, [0x51], 2, 1⟩]
        (addPayees ⟨7, []⟩ [⟨1, [0x51], 1, 1⟩, ⟨2, [0x51], 2, 1⟩]) 2 := by
  refine ⟨fun h => ?_, fun h => ?_⟩
  · exact h.2.mp (by decide) ⟨0, [0x51], 1, 1⟩ mem_cons_self rfl
  · exact h.2.mp (by decide) ⟨2, [0x51], 2, 1⟩ (mem_cons_of_mem _ mem_cons_self) rfl

end CMasternodeBlockPayees

/-! ## Stored counts and held votes -/

namespace VoteTables

open CMasternodeBlockPayees

def storedVotes (t : VoteTables) (h : Int) (payee : CScript) : Int := storedIn (t.payeesAt h) payee

def IsVote (h : Int) (payee : CScript) (w : CMasternodePaymentWinner) : Prop :=
  w.nBlockHeight = h ∧ w.payee = payee

instance (h : Int) (payee : CScript) (w : CMasternodePaymentWinner) :
    Decidable (IsVote h payee w) :=
  inferInstanceAs (Decidable (_ ∧ _))

def heldVotes (t : VoteTables) (h : Int) (payee : CScript) : Nat :=
  t.mapMasternodePayeeVotes.entries.countP fun e => IsVote h payee e.2

/-- The operations on the tables. -/
inductive VoteCall where
  | addWinningMasternode (indeterminate bestHeight : Int) (winnerIn : CMasternodePaymentWinner)
  | cleanPaymentList (nLimit nHeight : Int)
  | clear

def call (t : VoteTables) : VoteCall → VoteTables
  | .addWinningMasternode indeterminate bestHeight winnerIn =>
    (t.addWinningMasternode indeterminate bestHeight winnerIn).2
  | .cleanPaymentList nLimit nHeight => t.cleanPaymentList nLimit nHeight
  | .clear => empty

def Counted (t : VoteTables) : Prop := ∀ h payee, t.storedVotes h payee = t.heldVotes h payee

variable {t : VoteTables} {hash : UInt256} {w : CMasternodePaymentWinner}

theorem Counted.addWinningMasternode (ht : t.Counted) (indeterminate bestHeight : Int)
    (w : CMasternodePaymentWinner) :
    (t.addWinningMasternode indeterminate bestHeight w).2.Counted := by
  unfold VoteTables.addWinningMasternode
  split_ifs with hlate hseen
  · exact ht
  · exact ht
  · intro h payee
    rw [heldVotes, AList.entries_insert_of_notMem (AList.lookup_eq_none.mp (by simpa using hseen)),
      countP_cons, Int.natCast_add, ← heldVotes, ← ht h payee, storedVotes, storedVotes, payeesAt,
      Map.lookup_insert']
    by_cases hh : h = w.nBlockHeight
    · subst hh
      have hpayees : ((t.mapMasternodeBlocks.lookup w.nBlockHeight).getD
          ⟨w.nBlockHeight, []⟩).vecPayments = t.payeesAt w.nBlockHeight := by
        cases hb : t.mapMasternodeBlocks.lookup w.nBlockHeight <;> simp [payeesAt, hb]
      rw [if_pos rfl, map_some, getD_some, addPayee, storedIn_addPayee, hpayees]
      simp [IsVote]
    · rw [if_neg hh, if_neg (by simp [IsVote, Ne.symm hh])]
      exact (add_zero _).symm

/-! The loop of `CleanPaymentList`, with the votes that are still to come. -/

def Old (nLimit nHeight h : Int) : Prop := nLimit < nHeight - h

/-- The counts of heights that are not old agree, those of old heights agree or are gone, and the
old votes that are held are still to come. -/
structure Cleaning (nLimit nHeight : Int) (t : VoteTables) (hashes : List UInt256) : Prop where
  counted : ∀ h payee, t.storedVotes h payee = t.heldVotes h payee ∨
    Old nLimit nHeight h ∧ t.storedVotes h payee = 0
  toCome : ∀ hash w, t.mapMasternodePayeeVotes.lookup hash = some w →
    Old nLimit nHeight w.nBlockHeight → hash ∈ hashes

variable {nLimit nHeight : Int} {hashes : List UInt256}

theorem Cleaning.cleanVote (hc : Cleaning nLimit nHeight t (hash :: hashes)) :
    Cleaning nLimit nHeight (t.cleanVote nLimit nHeight hash) hashes := by
  have hrest : ∀ hash' w, t.mapMasternodePayeeVotes.lookup hash' = some w →
      Old nLimit nHeight w.nBlockHeight → hash' ≠ hash → hash' ∈ hashes :=
    fun hash' w hw hold hne => (mem_cons.mp (hc.toCome hash' w hw hold)).resolve_left hne
  unfold VoteTables.cleanVote
  cases hlookup : t.mapMasternodePayeeVotes.lookup hash with
  | none =>
    refine ⟨hc.counted, fun hash' w hw hold => hrest hash' w hw hold ?_⟩
    rintro rfl
    rw [hlookup] at hw
    cases hw
  | some winner =>
    dsimp only
    split_ifs with hold
    · refine ⟨fun h payee => ?_, fun hash' w hw hold' => ?_⟩
      · by_cases hh : h = winner.nBlockHeight
        · subst hh
          exact .inr ⟨hold, by simp [storedVotes, payeesAt, storedIn, recordOf]⟩
        · have hcount := hc.counted h payee
          simp only [storedVotes, heldVotes, payeesAt, Map.lookup_erase', if_neg hh] at hcount ⊢
          rw [← Map.countP_erase hlookup fun e => IsVote h payee e] at hcount
          simpa [IsVote, Ne.symm hh] using hcount
      · rw [Map.lookup_erase'] at hw
        split_ifs at hw with hne
        exact hrest hash' w hw hold' hne
    · refine ⟨hc.counted, fun hash' w hw hold' => hrest hash' w hw hold' ?_⟩
      rintro rfl
      rw [hlookup] at hw
      cases hw
      exact hold hold'

theorem Cleaning.foldl (hc : Cleaning nLimit nHeight t hashes) :
    Cleaning nLimit nHeight (hashes.foldl (VoteTables.cleanVote nLimit nHeight) t) [] := by
  induction hashes generalizing t with
  | nil => exact hc
  | cons hash hashes ih => exact ih hc.cleanVote

theorem Counted.cleanPaymentList (ht : t.Counted) (nLimit nHeight : Int) :
    (t.cleanPaymentList nLimit nHeight).Counted := by
  have hstart : Cleaning nLimit nHeight t t.mapMasternodePayeeVotes.keys := by
    refine ⟨fun h payee => .inl (ht h payee), fun hash w hw _ => ?_⟩
    exact AList.mem_keys.mpr (AList.lookup_isSome.mp (isSome_of_eq_some hw))
  have hend := hstart.foldl
  intro h payee
  rcases hend.counted h payee with hcount | ⟨hold, hzero⟩
  · exact hcount
  -- no vote for an old height is left
  · rw [VoteTables.cleanPaymentList, hzero, heldVotes, eq_comm, Int.natCast_eq_zero,
      countP_eq_zero]
    intro e he hvote
    obtain ⟨rfl, -⟩ := of_decide_eq_true hvote
    exact not_mem_nil (hend.toCome e.1 e.2 (AList.mem_lookup_iff.mpr he) hold)

theorem Counted.call (ht : t.Counted) (c : VoteCall) : (t.call c).Counted := by
  cases c with
  | addWinningMasternode indeterminate bestHeight w => exact ht.addWinningMasternode _ _ w
  | cleanPaymentList nLimit nHeight => exact ht.cleanPaymentList nLimit nHeight
  | clear => exact fun _ _ => rfl

/-- **A stored count is the number of votes that are held**, after any calls. -/
theorem storedVotes_eq_heldVotes (calls : List VoteCall) (h : Int) (payee : CScript) :
    (calls.foldl call empty).storedVotes h payee = (calls.foldl call empty).heldVotes h payee := by
  have hrun : ∀ (cs : List VoteCall) t, t.Counted →
      (cs.foldl call t).Counted := by
    intro cs
    induction cs with
    | nil => exact fun t ht => ht
    | cons c cs ih => exact fun t ht => ih _ (ht.call c)
  exact hrun calls empty (fun _ _ => rfl) h payee

end VoteTables

end Passion
