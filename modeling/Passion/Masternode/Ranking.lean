import Passion.Lib.Rank
import Passion.Masternode.HashCache
import Passion.Masternode.WinnerMessages
import Passion.Stake.Compact

/-!
# The ranking of masternodes

`CMasternodeMan::GetMasternodeRank` of `masternodeman.cpp`, and the two places of
`masternode-payments.cpp` that ask for a rank: `ProcessBlock`, before a masternode votes for a
winner, and `IsValid`, for a vote that is received.

The rank of a masternode that is not in the ranking is -1. `ProcessBlock` knows of this value, and
`IsValid` does not. The two also rank by different blocks: a vote is made for ten blocks above the
height for which the voter has ranked itself, and the receiver counts down from the height of the
vote.

Main results: `isValid_top_iff`, when a vote that is accepted comes from the first places of the
ranking; `relayed_isValid_iff`, when an honest vote is accepted.
-/

namespace Passion

open Lib Option

/-! ## Masternodes -/

structure CMasternode where
  /-- `vin.prevout`. -/
  vin : COutPoint
  protocolVersion : Int
  sigTime : Int
  fCollateralSpent : Bool
  /-- `lastPing.sigTime`, if there is a ping. -/
  lastPing : Option Int
  deriving DecidableEq, Repr

/-- `CMasternode::state`, as far as `GetActiveState` returns it. -/
inductive MasternodeState where
  | preEnabled
  | enabled
  | expired
  | remove
  | vinSpent
  deriving DecidableEq, Repr

def masternodeMinPingSeconds (network : Network) : Int := if network = .regtest then 90 else 10 * 60

def masternodeExpirationSeconds (network : Network) : Int :=
  if network = .regtest then 180 else 120 * 60

def masternodeRemovalSeconds (network : Network) : Int :=
  if network = .regtest then 200 else 130 * 60

namespace CMasternode

variable (mn : CMasternode)

def isPingedWithin (seconds now : Int) : Bool :=
  match mn.lastPing with
  | none => false
  | some pingTime => decide (now - pingTime < seconds)

/-- `GetActiveState`. A null ping has the time zero. -/
def getActiveState (network : Network) (now : Int) : MasternodeState :=
  if mn.fCollateralSpent then .vinSpent
  else if !mn.isPingedWithin (masternodeRemovalSeconds network) now then .remove
  else if !mn.isPingedWithin (masternodeExpirationSeconds network) now then .expired
  else if mn.lastPing.getD 0 - mn.sigTime < masternodeMinPingSeconds network then .preEnabled
  else .enabled

def isEnabled (network : Network) (now : Int) : Bool := mn.getActiveState network now == .enabled

end CMasternode

/-- `MN_WINNER_MINIMUM_AGE`, in seconds. -/
def mnWinnerMinimumAge : Int := 8000

/-- What the ranking reads at a node. Masternodes are under their outputs. The order of
`std::sort` among equal scores is not specified: any order by score will do. -/
structure CMasternodeMan where
  network : Network
  hashes : HashCache
  mapMasternodes : Map COutPoint CMasternode
  keyed : ∀ o mn, mapMasternodes.lookup o = some mn → mn.vin = o
  /-- `IsSporkActive(SPORK_8_MASTERNODE_PAYMENT_ENFORCEMENT)`. -/
  paymentEnforcement : Bool
  adjustedTime : Int
  activeProtocol : Int
  hash256 : List UInt8 → UInt256
  sort : List (Int × COutPoint) → List (Int × COutPoint)
  sort_perm : ∀ scores, (sort scores).Perm scores
  sort_sorted : ∀ scores, (sort scores).Pairwise fun a b => b.1 ≤ a.1

namespace CMasternodeMan

variable (man : CMasternodeMan)

def find (o : COutPoint) : Option CMasternode := man.mapMasternodes.lookup o

def calculateScore (hash : UInt256) (vin : COutPoint) : UInt256 :=
  let hash2 := man.hash256 (CScript.writeLE 32 hash.toNat)
  let aux := vin.hash + BitVec.ofNat 256 vin.n
  let hash3 := man.hash256 (CScript.writeLE 32 hash.toNat ++ CScript.writeLE 32 aux.toNat)
  if hash2 < hash3 then hash3 - hash2 else hash2 - hash3

def ranks (minProtocol : Int) (fOnlyActive : Bool) (mn : CMasternode) : Bool :=
  !decide (mn.protocolVersion < minProtocol) &&
    !(man.paymentEnforcement && decide (man.adjustedTime - mn.sigTime < mnWinnerMinimumAge)) &&
    (!fOnlyActive || mn.isEnabled man.network man.adjustedTime)

/-- `vecMasternodeScores`, sorted, for the hash of a block. -/
def scores (minProtocol : Int) (fOnlyActive : Bool) (hash : UInt256) : List (Int × COutPoint) :=
  man.sort (((man.mapMasternodes.entries.map (·.2)).filter (man.ranks minProtocol fOnlyActive)).map
    fun mn => (((man.calculateScore hash mn.vin).getCompact : Int), mn.vin))

/-- The ranking at a height, by the hash of the block below; empty for an unknown height. `none`
is the null entry that `GetHashAtHeight` may read. -/
def ranking (nBlockHeight minProtocol : Int) (fOnlyActive : Bool) :
    Option (List (Int × COutPoint)) :=
  (man.hashes.getHashAtHeight (nBlockHeight - 1)).map fun hash =>
    if hash = 0 then [] else man.scores minProtocol fOnlyActive hash

def getMasternodeRank (vin : COutPoint) (nBlockHeight minProtocol : Int) (fOnlyActive : Bool) :
    Option Int :=
  (man.ranking nBlockHeight minProtocol fOnlyActive).map fun scores =>
    match rankFrom vin 0 scores with
    | none => -1
    | some rank => rank

def isValid (w : WinnerMessage) : Option Bool :=
  match man.find w.vinMasternode with
  | none => some false
  | some pmn =>
    if pmn.protocolVersion < man.activeProtocol then some false
    else
      (man.getMasternodeRank w.vinMasternode (w.nBlockHeight - 100) man.activeProtocol true).map
        fun n => !decide (mnPaymentsSignaturesTotal < n)

/-- A node that receives winners, with the ranking as it computes it. -/
def receiver (env : ReceiverEnv) : ReceiverEnv :=
  { env with
    bestHeight := man.hashes.nBestHeight
    activeProtocol := man.activeProtocol
    findProtocol := fun o => (man.find o).map (·.protocolVersion)
    getMasternodeRank := fun vin nBlockHeight =>
      (man.getMasternodeRank vin nBlockHeight man.activeProtocol true).getD (-1) }

/-- A masternode that signs winners, with its own rank at a block. -/
def sender (env : SenderEnv) (nBlockHeight : Int) : SenderEnv :=
  { env with
    bestHeight := man.hashes.nBestHeight
    rank := (man.getMasternodeRank env.vin (nBlockHeight - 100) man.activeProtocol true).getD (-1) }

/-- A masternode has one of the first `MNPAYMENTS_SIGNATURES_TOTAL` places in the ranking at a
height. -/
def Top (nBlockHeight : Int) (vin : COutPoint) : Prop :=
  ∃ scores, man.ranking nBlockHeight man.activeProtocol true = some scores ∧
    vin ∈ (scores.take mnPaymentsSignaturesTotal.toNat).map Prod.snd

/-! ## Who is in the ranking -/

variable {man} {vin : COutPoint} {nBlockHeight minProtocol : Int} {fOnlyActive : Bool}
  {hash : UInt256}

theorem mem_scores_iff : vin ∈ (man.scores minProtocol fOnlyActive hash).map Prod.snd ↔
    ∃ mn, man.find vin = some mn ∧ man.ranks minProtocol fOnlyActive mn = true := by
  simp only [scores, ((man.sort_perm _).map Prod.snd).mem_iff, List.map_map, List.mem_map,
    List.mem_filter, Function.comp_apply]
  constructor
  · rintro ⟨mn, ⟨⟨e, he, rfl⟩, hranks⟩, rfl⟩
    have hlookup : man.mapMasternodes.lookup e.1 = some e.2 := AList.mem_lookup_iff.mpr he
    rw [man.keyed e.1 e.2 hlookup]
    exact ⟨e.2, hlookup, hranks⟩
  · rintro ⟨mn, hfind, hranks⟩
    exact ⟨mn, ⟨⟨⟨vin, mn⟩, AList.mem_lookup_iff.mp hfind, rfl⟩, hranks⟩, man.keyed vin mn hfind⟩

theorem mem_ranking_iff {pmn : CMasternode} {scores : List (Int × COutPoint)}
    (hfind : man.find vin = some pmn)
    (hscores : man.ranking nBlockHeight minProtocol fOnlyActive = some scores) :
    vin ∈ scores.map Prod.snd ↔ man.hashes.getHashAtHeight (nBlockHeight - 1) ≠ some 0 ∧
      man.ranks minProtocol fOnlyActive pmn = true := by
  obtain ⟨hash, hhash, rfl⟩ := map_eq_some_iff.mp hscores
  by_cases hzero : hash = 0
  · simp [hhash, hzero]
  · rw [if_neg hzero, mem_scores_iff, hfind, hhash]
    simp only [some.injEq, exists_eq_left', ne_eq, hzero, not_false_eq_true, true_and]

theorem not_lt_rank_iff {scores : List (Int × COutPoint)} {n : Int}
    (hscores : man.ranking nBlockHeight minProtocol fOnlyActive = some scores)
    (hrank : man.getMasternodeRank vin nBlockHeight minProtocol fOnlyActive = some n) :
    ¬ mnPaymentsSignaturesTotal < n ↔ (vin ∈ scores.map Prod.snd →
      vin ∈ (scores.take mnPaymentsSignaturesTotal.toNat).map Prod.snd) := by
  rw [getMasternodeRank, hscores, map_some, some.injEq] at hrank
  cases hplace : rankFrom vin 0 scores with
  | none =>
    have hnot := rankFrom_eq_none_iff.mp hplace
    obtain rfl : -1 = n := by simpa only [hplace] using hrank
    exact iff_of_true (by decide) fun hmem => absurd hmem hnot
  | some rank =>
    have hmem : vin ∈ scores.map Prod.snd := by
      by_contra hnot
      rw [rankFrom_eq_none_iff.mpr hnot] at hplace
      cases hplace
    obtain rfl : rank = n := by simpa only [hplace] using hrank
    rw [forall_prop_of_true hmem, ← rankFrom_le_iff hplace]
    simp only [mnPaymentsSignaturesTotal]
    omega

/-- `IsValid` accepts a masternode among the first, and one that is not in the ranking. -/
theorem isValid_eq_true_iff {w : WinnerMessage} : man.isValid w = some true ↔
    ∃ pmn scores, man.find w.vinMasternode = some pmn ∧
      ¬ pmn.protocolVersion < man.activeProtocol ∧
      man.ranking (w.nBlockHeight - 100) man.activeProtocol true = some scores ∧
      (w.vinMasternode ∈ scores.map Prod.snd →
        w.vinMasternode ∈ (scores.take mnPaymentsSignaturesTotal.toNat).map Prod.snd) := by
  unfold isValid
  cases hfind : man.find w.vinMasternode with
  | none => simp
  | some pmn =>
    by_cases hold : pmn.protocolVersion < man.activeProtocol
    · simp [hold]
    · cases hscores : man.ranking (w.nBlockHeight - 100) man.activeProtocol true with
      | none => simp [getMasternodeRank, hscores]
      | some scores =>
        obtain ⟨n, hrank⟩ : ∃ n, man.getMasternodeRank w.vinMasternode (w.nBlockHeight - 100)
            man.activeProtocol true = some n := by simp [getMasternodeRank, hscores]
        have hlimit := not_lt_rank_iff hscores hrank
        simp only [hold, if_false, hrank, map_some, some.injEq, Bool.not_eq_true',
          decide_eq_false_iff_not, hlimit, exists_and_left, exists_eq_left',
          not_false_eq_true, true_and]

theorem isValid_receiver (env : ReceiverEnv) {w : WinnerMessage} {valid : Bool}
    (h : man.isValid w = some valid) : (man.receiver env).isValid w = valid := by
  unfold isValid at h
  cases hfind : man.find w.vinMasternode with
  | none => simp_all [ReceiverEnv.isValid, receiver]
  | some pmn =>
    by_cases hold : pmn.protocolVersion < man.activeProtocol
    · simp_all [ReceiverEnv.isValid, receiver]
    · simp only [hfind, hold] at h
      obtain ⟨n, hrank, rfl⟩ := map_eq_some_iff.mp h
      simp [ReceiverEnv.isValid, receiver, hfind, hold, hrank, ← decide_not]

/-- **When an accepted vote comes from the first places of the ranking**: the voter is in the
ranking, or the vote is refused for another reason. -/
theorem isValid_top_iff (man : CMasternodeMan) (w : WinnerMessage) :
    (man.isValid w = some true → man.Top (w.nBlockHeight - 100) w.vinMasternode) ↔
      ∀ pmn, man.find w.vinMasternode = some pmn →
        pmn.protocolVersion < man.activeProtocol ∨
        man.hashes.getHashAtHeight (w.nBlockHeight - 100 - 1) = none ∨
        (man.hashes.getHashAtHeight (w.nBlockHeight - 100 - 1) ≠ some 0 ∧
          man.ranks man.activeProtocol true pmn = true) := by
  constructor
  · intro htop pmn hfind
    by_contra! hcond
    obtain ⟨hnew, hhash, hskip⟩ := hcond
    obtain ⟨hash, hhash⟩ := ne_none_iff_exists'.mp hhash
    obtain ⟨scores, hscores⟩ : ∃ scores,
        man.ranking (w.nBlockHeight - 100) man.activeProtocol true = some scores := by
      simp [ranking, hhash]
    -- a voter outside the ranking is accepted
    have hout : w.vinMasternode ∉ scores.map Prod.snd := fun hmem =>
      have hin := (mem_ranking_iff hfind hscores).mp hmem
      hskip hin.1 hin.2
    obtain ⟨scores', hscores', hmem⟩ := htop (isValid_eq_true_iff.mpr
      ⟨pmn, scores, hfind, not_lt.mpr hnew, hscores, fun hmem => absurd hmem hout⟩)
    cases hscores.symm.trans hscores'
    exact hout (List.map_subset Prod.snd (List.take_subset _ _) hmem)
  · intro hcond hvalid
    obtain ⟨pmn, scores, hfind, hnew, hscores, hmem⟩ := isValid_eq_true_iff.mp hvalid
    rcases hcond pmn hfind with hold | hnull | hranked
    · exact absurd hold hnew
    · simp [ranking, hnull] at hscores
    · exact ⟨scores, hscores, hmem ((mem_ranking_iff hfind hscores).mpr hranked)⟩

/-! ## Honest votes -/

section

variable {hashWinner : CScript → Int → COutPoint → UInt256} {env : SenderEnv} {t : VoteTables}
  {nLastBlockHeight : Int} {w : SignedWinner}

theorem ranks_of_relayed (hw : w ∈ (processBlock hashWinner (man.sender env nBlockHeight) t
      nLastBlockHeight nBlockHeight).1) :
    ∃ pmn, man.find env.vin = some pmn ∧ man.ranks man.activeProtocol true pmn = true := by
  have hrank : (man.sender env nBlockHeight).rank ≠ -1 := by
    intro hnone
    simp [processBlock, hnone] at hw
  cases hscores : man.ranking (nBlockHeight - 100) man.activeProtocol true with
  | none => simp [sender, getMasternodeRank, hscores] at hrank
  | some scores =>
    have hmem : env.vin ∈ scores.map Prod.snd := by
      by_contra hnot
      simp [sender, getMasternodeRank, hscores, rankFrom_eq_none_iff.mpr hnot] at hrank
    obtain ⟨hash, -, rfl⟩ := map_eq_some_iff.mp hscores
    by_cases hzero : hash = 0
    · simp [hzero] at hmem
    · rw [if_neg hzero] at hmem
      exact mem_scores_iff.mp hmem

/-- **When an honest vote is accepted**, by a node that has the same chain and masternodes: the
voter is among the first of the ranking ten blocks above the one for which it has ranked itself, or
the hash for that ranking is unknown. -/
theorem relayed_isValid_iff (hw : w ∈ (processBlock hashWinner (man.sender env nBlockHeight) t
      nLastBlockHeight nBlockHeight).1) :
    man.isValid w.serialize = some true ↔ man.Top (nBlockHeight - 90) env.vin ∨
      man.hashes.getHashAtHeight (nBlockHeight - 90 - 1) = some 0 := by
  have hrelayed : OneVoter env.vin (nBlockHeight + 10) (processBlock hashWinner
      (man.sender env nBlockHeight) t nLastBlockHeight nBlockHeight).1 :=
    relayed_processBlock (man.sender env nBlockHeight) t nLastBlockHeight nBlockHeight
  have hvin : w.serialize.vinMasternode = env.vin := hrelayed.vinMasternode w hw
  have hheight : w.serialize.nBlockHeight - 100 = nBlockHeight - 90 := by
    have hwinner : w.serialize.nBlockHeight = nBlockHeight + 10 := hrelayed.nBlockHeight w hw
    omega
  obtain ⟨pmn, hfind, hranks⟩ := ranks_of_relayed hw
  have hnew : ¬ pmn.protocolVersion < man.activeProtocol := by
    simp only [ranks, Bool.and_eq_true, Bool.not_eq_true', decide_eq_false_iff_not] at hranks
    exact hranks.1.1
  rw [isValid_eq_true_iff, hvin, hheight]
  constructor
  · rintro ⟨pmn', scores, hfind', -, hscores, htop⟩
    by_cases hzero : man.hashes.getHashAtHeight (nBlockHeight - 90 - 1) = some 0
    · exact .inr hzero
    · exact .inl ⟨scores, hscores, htop ((mem_ranking_iff hfind hscores).mpr ⟨hzero, hranks⟩)⟩
  · rintro (⟨scores, hscores, htop⟩ | hzero)
    · exact ⟨pmn, scores, hfind, hnew, hscores, fun _ => htop⟩
    · have hscores : man.ranking (nBlockHeight - 90) man.activeProtocol true = some [] := by
        simp [ranking, hzero]
      exact ⟨pmn, [], hfind, hnew, hscores, by simp⟩

end

end CMasternodeMan

/-! ### Twelve masternodes -/

namespace RankSample

/-- By the first block the masternode with the greatest number is the best, by every other block
the one with the least. -/
def hash256 (bytes : List UInt8) : UInt256 :=
  match bytes[32]? with
  | none => 0
  | some number =>
    BitVec.ofNat 256 (if bytes.head? = some 1 then number.toNat else 100 - number.toNat)

def outpoint (number : Nat) : COutPoint := ⟨BitVec.ofNat 256 number, 0⟩

/-- The masternodes ping, except for the twelfth. -/
def masternode (number : Nat) : CMasternode :=
  ⟨outpoint number, 70920, 0, false, if number = 12 then none else some 100000⟩

def numbers : List Nat := [1, 2, 3, 4, 5, 6, 7, 8, 9, 10, 11, 12]

theorem nodup_outpoints : (numbers.map outpoint).Nodup := by decide

def masternodes : Map COutPoint CMasternode where
  entries := numbers.map fun number => ⟨outpoint number, masternode number⟩
  nodupKeys := by
    rw [List.NodupKeys, List.keys, List.map_map]
    exact nodup_outpoints

theorem keyed_masternodes (o : COutPoint) (mn : CMasternode) (h : masternodes.lookup o = some mn) :
    mn.vin = o := by
  obtain ⟨number, -, heq⟩ := List.mem_map.mp (AList.mem_lookup_iff.mp h)
  cases heq
  rfl

def byScore (a b : Int × COutPoint) : Prop := b.1 ≤ a.1

instance : DecidableRel byScore := fun a b => inferInstanceAs (Decidable (b.1 ≤ a.1))

instance : Std.Total byScore := ⟨fun a b => le_total b.1 a.1⟩

instance : IsTrans (Int × COutPoint) byScore := ⟨fun _ _ _ hab hbc => le_trans hbc hab⟩

/-- A node at height 91, one minute after the pings. -/
def man : CMasternodeMan where
  network := .main
  hashes := .load ((List.range 92).map fun i => BitVec.ofNat 256 (i + 1))
  mapMasternodes := masternodes
  keyed := keyed_masternodes
  paymentEnforcement := true
  adjustedTime := 100060
  activeProtocol := 70920
  hash256 := hash256
  sort scores := scores.insertionSort byScore
  sort_perm scores := List.perm_insertionSort byScore scores
  sort_sorted scores := List.pairwise_insertionSort byScore scores

/-- The masternode with a number votes for one payee of the first level. -/
def voter (number : Nat) : SenderEnv where
  vin := outpoint number
  rank := -1
  bestHeight := 0
  nextPayee level := if level = 1 then some [0x51] else none
  sign _ := true
  indeterminate _ := 1

def hashWinner (_ : CScript) (_ : Int) (_ : COutPoint) : UInt256 := 1

/-- What `ProcessNewBlock` at height 91 has the masternode with a number relay. -/
def relayed (number : Nat) : List SignedWinner :=
  (processBlock hashWinner (man.sender (voter number) 101) .empty 0 101).1

def winner (number : Nat) : SignedWinner := ⟨outpoint number, 111, [0x51], 1⟩

end RankSample

open RankSample in
/-- The fifth masternode is the seventh by the first block, and the fifth by the eleventh. -/
theorem honest_vote_accepted :
    winner 5 ∈ relayed 5 ∧ man.isValid (winner 5).serialize = some true := by
  have hrelayed : winner 5 ∈ relayed 5 := by decide +kernel
  refine ⟨hrelayed, (CMasternodeMan.relayed_isValid_iff hrelayed).mpr (.inl ⟨_, rfl, ?_⟩)⟩
  decide +kernel

open RankSample in
/-- The eleventh masternode is the first by the first block, and the last by the eleventh. -/
theorem honest_vote_refused : winner 11 ∈ relayed 11 ∧
      man.getMasternodeRank (outpoint 11) (101 - 100) man.activeProtocol true = some 1 ∧
      man.getMasternodeRank (outpoint 11) (111 - 100) man.activeProtocol true = some 11 ∧
      man.isValid (winner 11).serialize = some false := by
  decide +kernel

open RankSample in
/-- The twelfth masternode does not ping, is not in the ranking, and votes. -/
theorem disabled_vote_accepted : man.isValid (winner 12).serialize = some true ∧
      ¬ man.Top (111 - 100) (outpoint 12) := by
  refine ⟨by decide +kernel, ?_⟩
  rintro ⟨scores, hscores, htop⟩
  have hfind : man.find (outpoint 12) = some (masternode 12) := by decide +kernel
  have hmem := List.map_subset Prod.snd (List.take_subset _ scores) htop
  have hranks := ((CMasternodeMan.mem_ranking_iff hfind hscores).mp hmem).2
  exact absurd hranks (by decide +kernel)

end Passion
