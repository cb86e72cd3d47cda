import Passion.Masternode.Ranking

/-!
# Whose turn it is to be paid

`GetNextMasternodeInQueueForPayment` and `GetCurrentMasterNode` of `masternodeman.cpp`, with the
functions of `masternode-payments.cpp` that they ask (`IsScheduled`), and the two that ask them:
`FillBlockPayee` and `ProcessBlock`.

**The level as a protocol version.** The queue of a level calls `CountEnabled(mnlevel)`, whose
argument is a protocol version. So its count is that of the enabled masternodes of all levels, and
through it, and through the count in `GetLastPaid`, the queue of one level depends on the others.
With the two counts given it does not (`getNextMasternodeInQueueForPayment_congr`).

**The flag of `FillBlockPayee`** is not set by a recorded vote, so a level with a vote goes unpaid
after a level that has nobody to pay (`paid_levels_iff`).

**The guard of `ProcessBlock`** compares the height of the winners with the height of the last
block, which is ten less. So it stops no second call for one block, and the masternode may sign two
payees for a height and level (`one_payee_of_runs`).
-/

namespace Passion

open Lib List Option

/-- `CMasternode::Level`. -/
def masternodeLevel (vin_val : CAmount) (blockHeight : Int) : Int :=
  if blockHeight < 0 then levelUnspecified
  else if vin_val = 1000 * COIN then 1
  else if vin_val = 5000 * COIN then 2
  else if vin_val = 10000 * COIN then 3
  else if vin_val = 25000 * COIN then 4
  else levelUnspecified

/-- A masternode of the list, with what is read of it for payments. -/
structure ListedMasternode extends CMasternode where
  deposit : CAmount
  /-- `GetScriptForDestination(pubKeyCollateralAddress.GetID())`. -/
  mnpayee : CScript

/-- The order of outputs, by which `mapMasternodes` is walked over. -/
def COutPoint.before (a b : COutPoint) : Prop := a.hash < b.hash ∨ a.hash = b.hash ∧ a.n < b.n

theorem COutPoint.before_asymm {a b : COutPoint} (h : a.before b) : ¬b.before a := by
  intro h'
  rcases h with h | ⟨h, hn⟩ <;> rcases h' with h' | ⟨h', hn'⟩ <;> bv_omega

/-- `mapMasternodes`, in its order. -/
structure MasternodeList where
  nodes : List ListedMasternode
  ordered : nodes.Pairwise fun a b => a.vin.before b.vin

/-- What else the queue reads at a node. -/
structure QueueEnv where
  network : Network
  /-- `chainActive.Height()`. -/
  chainHeight : Int
  bestHeight : Int
  activeProtocol : Int
  adjustedTime : Int
  tables : VoteTables
  /-- The height and the time of each block, from the tip back. -/
  blocks : List (Int × Int)
  /-- The height of a coin in `pcoinsTip`, if it is unspent. -/
  coinHeight : COutPoint → Option Int
  getHashAtHeight : Int → UInt256
  /-- `CalculateScore` of the masternode with an output. -/
  calculateScore : UInt256 → COutPoint → UInt256
  /-- `GetCompact(false)` of the hash of `vin` and `sigTime`. -/
  compactHash : COutPoint → Int → Nat
  sort : List (Int × COutPoint) → List (Int × COutPoint)
  sort_perm : ∀ l, (sort l).Perm l

namespace QueueEnv

variable (env : QueueEnv) (mns : MasternodeList)

def level (mn : ListedMasternode) : Int := masternodeLevel mn.deposit env.chainHeight

def isEnabled (mn : ListedMasternode) : Bool :=
  mn.toCMasternode.isEnabled env.network env.adjustedTime

def find (o : COutPoint) : Option ListedMasternode := mns.nodes.find? fun mn => decide (mn.vin = o)

def countEnabled (protocolVersion : Int) : Nat :=
  let protocolVersion := if protocolVersion = -1 then env.activeProtocol else protocolVersion
  mns.nodes.countP fun mn => !(decide (mn.protocolVersion < protocolVersion) || !env.isEnabled mn)

/-- The body of the two loops of `IsScheduled`. -/
def scheduledAt (mn : ListedMasternode) (mnlevel nNotBlockHeight h : Int) : Bool :=
  decide (h ≠ nNotBlockHeight) && decide (env.tables.getBlockPayee h mnlevel = some mn.mnpayee)

def isScheduled (mn : ListedMasternode) (nSameLevelMNCount mnlevel nNotBlockHeight : Int) : Bool :=
  let ahead := min 10 (nSameLevelMNCount - 1)
  ((range 9).any fun i => env.scheduledAt mn mnlevel nNotBlockHeight (env.bestHeight + i)) ||
    (range ahead.toNat).any fun i =>
      env.scheduledAt mn mnlevel nNotBlockHeight (env.bestHeight + 10 - ahead + i)

/-- `HasPayeeWithVotes` for a height. -/
def hasPayeeWithVotes (h : Int) (payee : CScript) (nVotesReq : Int) : Bool :=
  (env.tables.payeesAt h).any fun p =>
    decide (nVotesReq ≤ p.nVotes) && decide (p.scriptPubKey = payee)

/-- The loop of `GetLastPaid` over at most `nMnCount` blocks. -/
def lastPaidFrom (mn : ListedMasternode) : Nat → List (Int × Int) → Int
  | 0, _ => 0
  | _ + 1, [] => 0
  | n + 1, (nHeight, nTime) :: rest =>
    if env.hasPayeeWithVotes nHeight mn.mnpayee 2 then
      nTime + (env.compactHash mn.vin mn.sigTime % 150 : Nat)
    else lastPaidFrom mn n (rest.takeWhile fun block => decide (0 < block.1))

def getLastPaid (mn : ListedMasternode) : Int :=
  env.lastPaidFrom mn (env.countEnabled mns (-1) * 5 / 4) env.blocks

def secondsSincePayment (mn : ListedMasternode) : Int :=
  let sec := env.adjustedTime - env.getLastPaid mns mn
  let month := 60 * 60 * 24 * 30
  if sec < month then sec else month + env.compactHash mn.vin mn.sigTime

/-- `GetCoinDepthAtHeight`. -/
def coinDepthAtHeight (o : COutPoint) (nHeight : Int) : Int :=
  (env.coinHeight o).elim (-1) fun h => nHeight - h + 1

/-- A masternode of the level is not skipped. `nMnCount * 2.6 * 60` is in whole seconds. -/
def canBePaid (nMnCount : Nat) (nBlockHeight mnlevel : Int) (fFilterSigTime : Bool)
    (mn : ListedMasternode) : Bool :=
  env.isEnabled mn && !decide (mn.protocolVersion < env.activeProtocol) &&
    !env.isScheduled mn nMnCount mnlevel nBlockHeight &&
    !(fFilterSigTime && decide (env.adjustedTime < mn.sigTime + nMnCount * 156)) &&
    !decide (env.coinDepthAtHeight mn.vin nBlockHeight < nMnCount)

/-- `vecMasternodeLastPaid`. -/
def lastPaid (nBlockHeight mnlevel : Int) (fFilterSigTime : Bool) : List (Int × COutPoint) :=
  ((mns.nodes.filter fun mn => decide (env.level mn = mnlevel)).filter
    (env.canBePaid (env.countEnabled mns mnlevel) nBlockHeight mnlevel fFilterSigTime)).map
      fun mn => (env.secondsSincePayment mns mn, mn.vin)

/-- The loop over the oldest tenth, after `nCountTenth` turns. -/
def bestOfTenth (hash : UInt256) (nTenthNetwork : Nat) : Nat → UInt256 → Option ListedMasternode →
    List (Int × COutPoint) → Option ListedMasternode
  | _, _, best, [] => best
  | nCountTenth, nHigh, best, s :: rest =>
    match find mns s.2 with
    | none => best
    | some pmn =>
      let n := env.calculateScore hash pmn.vin
      let best' := if nHigh < n then some pmn else best
      if nTenthNetwork ≤ nCountTenth + 1 then best'
      else
        bestOfTenth hash nTenthNetwork (nCountTenth + 1) (if nHigh < n then n else nHigh) best' rest

def payOldest (nBlockHeight mnlevel : Int) (fFilterSigTime : Bool) : Option ListedMasternode :=
  env.bestOfTenth mns (env.getHashAtHeight (nBlockHeight - 101))
    (env.countEnabled mns mnlevel / 10) 0 0 none
    (env.sort (env.lastPaid mns nBlockHeight mnlevel fFilterSigTime))

def getNextMasternodeInQueueForPayment (nBlockHeight mnlevel : Int) (fFilterSigTime : Bool) :
    Option ListedMasternode :=
  if env.blocks.isEmpty then none
  else if fFilterSigTime && decide ((env.lastPaid mns nBlockHeight mnlevel true).length <
      env.countEnabled mns mnlevel / 3) then
    env.payOldest mns nBlockHeight mnlevel false
  else env.payOldest mns nBlockHeight mnlevel fFilterSigTime

/-- A masternode that `GetCurrentMasterNode` does not skip. -/
def isCurrent (mnlevel minProtocol : Int) (mn : ListedMasternode) : Bool :=
  !(decide (mnlevel ≠ levelUnspecified) && decide (env.level mn ≠ mnlevel)) &&
    !(decide (mn.protocolVersion < minProtocol) || !env.isEnabled mn)

/-- The score by which `GetCurrentMasterNode` chooses. -/
def currentScore (nBlockHeight : Int) (mn : ListedMasternode) : Nat :=
  (env.calculateScore (env.getHashAtHeight (nBlockHeight - 1)) mn.vin).getCompact

/-- One turn of the loop of `GetCurrentMasterNode`. -/
def currentStep (mnlevel nBlockHeight minProtocol : Int) (s : Nat × Option ListedMasternode)
    (mn : ListedMasternode) : Nat × Option ListedMasternode :=
  if env.isCurrent mnlevel minProtocol mn = true ∧ s.1 < env.currentScore nBlockHeight mn then
    (env.currentScore nBlockHeight mn, some mn)
  else s

def getCurrentMasterNode (mnlevel nBlockHeight minProtocol : Int) : Option ListedMasternode :=
  (mns.nodes.foldl (env.currentStep mnlevel nBlockHeight minProtocol) (0, none)).2

/-! ## What the queue of a level reads -/

variable {env} {a b : MasternodeList} {mnlevel : Int}

def AgreeOn (env : QueueEnv) (mnlevel : Int) (a b : MasternodeList) : Prop :=
  ∀ mn, env.level mn = mnlevel → (mn ∈ a.nodes ↔ mn ∈ b.nodes)

theorem nodup_vins (mns : MasternodeList) : (mns.nodes.map (·.vin)).Nodup := by
  refine pairwise_map.mpr (mns.ordered.imp fun hbefore heq => ?_)
  rw [heq] at hbefore
  exact COutPoint.before_asymm hbefore hbefore

theorem find_of_mem {mns : MasternodeList} {mn : ListedMasternode} (h : mn ∈ mns.nodes) :
    find mns mn.vin = some mn := find?_of_nodup (nodup_vins mns) h

/-- The order of the map leaves one way to walk over the masternodes of a level. -/
theorem AgreeOn.filter_eq (h : AgreeOn env mnlevel a b) :
    (a.nodes.filter fun mn => decide (env.level mn = mnlevel)) =
      b.nodes.filter fun mn => decide (env.level mn = mnlevel) := by
  have hordered (mns : MasternodeList) : (mns.nodes.filter fun mn => decide (env.level mn =
      mnlevel)).Pairwise fun x y => x.vin.before y.vin := mns.ordered.filter _
  have hnodup (mns : MasternodeList) :
      (mns.nodes.filter fun mn => decide (env.level mn = mnlevel)).Nodup :=
    (nodup_vins mns).of_map.filter _
  refine Perm.eq_of_pairwise
    (fun x y _ _ hxy hyx => absurd hyx (COutPoint.before_asymm hxy)) (hordered a) (hordered b) ?_
  refine (perm_ext_iff_of_nodup (hnodup a) (hnodup b)).mpr fun mn => ?_
  simp only [mem_filter, decide_eq_true_eq]
  exact and_congr_left (h mn)

theorem bestOfTenth_congr {l : List (Int × COutPoint)} (h : ∀ s ∈ l, find a s.2 = find b s.2)
    (hash : UInt256) (nTenthNetwork nCountTenth : Nat) (nHigh : UInt256)
    (best : Option ListedMasternode) :
    env.bestOfTenth a hash nTenthNetwork nCountTenth nHigh best l =
      env.bestOfTenth b hash nTenthNetwork nCountTenth nHigh best l := by
  induction l generalizing nCountTenth nHigh best with
  | nil => rfl
  | cons s l ih =>
    rw [bestOfTenth, bestOfTenth, h s mem_cons_self]
    cases find b s.2 with
    | none => rfl
    | some pmn => simp only [ih fun s' hs' => h s' (mem_cons_of_mem s hs')]

/-- What the queue of a level depends on: the masternodes of the level and the two counts. -/
structure SameQueue (env : QueueEnv) (mnlevel : Int) (a b : MasternodeList) : Prop where
  agree : AgreeOn env mnlevel a b
  /-- The count to which the level is passed as a protocol version. -/
  count : env.countEnabled a mnlevel = env.countEnabled b mnlevel
  /-- The count of `GetLastPaid`. -/
  countAll : env.countEnabled a (-1) = env.countEnabled b (-1)

variable {nBlockHeight : Int} {fFilterSigTime : Bool}

theorem SameQueue.lastPaid_eq (h : SameQueue env mnlevel a b) :
    env.lastPaid a nBlockHeight mnlevel fFilterSigTime =
      env.lastPaid b nBlockHeight mnlevel fFilterSigTime := by
  have hseconds : env.secondsSincePayment a = env.secondsSincePayment b := by
    funext mn
    rw [secondsSincePayment, secondsSincePayment, getLastPaid, getLastPaid, h.countAll]
  rw [lastPaid, lastPaid, h.agree.filter_eq, h.count, hseconds]

theorem SameQueue.find_eq (h : SameQueue env mnlevel a b) {s : Int × COutPoint}
    (hs : s ∈ env.sort (env.lastPaid a nBlockHeight mnlevel fFilterSigTime)) :
    find a s.2 = find b s.2 := by
  obtain ⟨mn, hmn, rfl⟩ := mem_map.mp ((env.sort_perm _).mem_iff.mp hs)
  obtain ⟨hmem, hlevel⟩ := mem_filter.mp (mem_filter.mp hmn).1
  rw [find_of_mem hmem, find_of_mem ((h.agree mn (of_decide_eq_true hlevel)).mp hmem)]

theorem SameQueue.payOldest_eq (h : SameQueue env mnlevel a b) :
    env.payOldest a nBlockHeight mnlevel fFilterSigTime =
      env.payOldest b nBlockHeight mnlevel fFilterSigTime := by
  rw [payOldest, payOldest, ← h.lastPaid_eq, ← h.count]
  exact bestOfTenth_congr (fun s hs => h.find_eq hs) ..

/-- **Levels do not interfere but through the counts.** -/
theorem getNextMasternodeInQueueForPayment_congr (h : SameQueue env mnlevel a b)
    (nBlockHeight : Int) (fFilterSigTime : Bool) :
    env.getNextMasternodeInQueueForPayment a nBlockHeight mnlevel fFilterSigTime =
      env.getNextMasternodeInQueueForPayment b nBlockHeight mnlevel fFilterSigTime := by
  rw [getNextMasternodeInQueueForPayment, getNextMasternodeInQueueForPayment, h.lastPaid_eq,
    h.count, h.payOldest_eq, h.payOldest_eq]

end QueueEnv

/-! ### Two lists -/

namespace QueueSample

/-- The time of the last pings, a minute ago. -/
def pinged : Int := 1700000000

def payee (number : Nat) : CScript :=
  [0x76, 0xa9, 20] ++ replicate 20 (UInt8.ofNat number) ++ [0x88, 0xac]

def masternode (number : Nat) (deposit : CAmount) (age : Int) : ListedMasternode where
  vin := ⟨BitVec.ofNat 256 number, 0⟩
  protocolVersion := 70920
  sigTime := pinged + 60 - age
  fCollateralSpent := false
  lastPing := some pinged
  deposit := deposit
  mnpayee := payee number

/-- A mainnet node with a tip, without votes. The deposits are from height 50, and nobody was paid
yet. The score of a masternode is its number. -/
def env (tip : Nat) : QueueEnv where
  network := .main
  chainHeight := tip
  bestHeight := tip
  activeProtocol := 70920
  adjustedTime := pinged + 60
  tables := .empty
  blocks := (range (tip + 1)).reverse.map fun h => ((h : Int), pinged - 60 * (tip - h))
  coinHeight _ := some 50
  getHashAtHeight _ := 1
  calculateScore _ o := o.hash
  compactHash o _ := 0x207fffff - o.hash.toNat
  sort := insertionSort fun a b => b.1 ≤ a.1
  sort_perm := perm_insertionSort _

/-- Two masternodes of the first level. The first was started 700 seconds ago, the second, as all
others below, ten days ago. -/
def ours : List ListedMasternode :=
  [masternode 1 (1000 * COIN) 700, masternode 2 (1000 * COIN) 864000]

def other (number : Nat) : ListedMasternode := masternode number (5000 * COIN) 864000

def alone : MasternodeList := ⟨ours, by simp [ours, masternode, COutPoint.before]⟩

def withOthers : MasternodeList where
  nodes := ours ++ [other 3, other 4, other 5]
  ordered := by
    simp [ours, other, masternode, COutPoint.before]

def withAnother : MasternodeList where
  nodes := ours ++ [other 3, other 4, other 6]
  ordered := by
    simp [ours, other, masternode, COutPoint.before]

theorem agreeOn_of_others {a b : MasternodeList} {tip : Nat}
    {others others' : List ListedMasternode} (ha : a.nodes = ours ++ others)
    (hb : b.nodes = ours ++ others') (hothers : ∀ x ∈ others ++ others', (env tip).level x ≠ 1) :
    (env tip).AgreeOn 1 a b := by
  intro x hx
  have hnot : x ∉ others ∧ x ∉ others' :=
    ⟨fun h => hothers x (mem_append_left _ h) hx,
      fun h => hothers x (mem_append_right _ h) hx⟩
  simp [ha, hb, hnot]

theorem next_withAnother : (env 100).SameQueue 1 withOthers withAnother ∧
      (env 100).getNextMasternodeInQueueForPayment withOthers 120 1 true =
        (env 100).getNextMasternodeInQueueForPayment withAnother 120 1 true :=
  have hsame : (env 100).SameQueue 1 withOthers withAnother :=
    ⟨agreeOn_of_others rfl rfl (by decide), by decide, by decide⟩
  ⟨hsame, QueueEnv.getNextMasternodeInQueueForPayment_congr hsame 120 true⟩

/-- With the masternodes of the second level, one of the first level would have to be 780 seconds
old, so it is the turn of the other. -/
theorem others_interfere : (env 100).AgreeOn 1 alone withOthers ∧
      ((env 100).getNextMasternodeInQueueForPayment alone 120 1 true).map (·.vin) =
        some ⟨1, 0⟩ ∧
      ((env 100).getNextMasternodeInQueueForPayment withOthers 120 1 true).map (·.vin) =
        some ⟨2, 0⟩ :=
  ⟨agreeOn_of_others (append_nil ours).symm rfl (by decide), by decide +kernel, by decide +kernel⟩

end QueueSample

/-! ## The payments of `FillBlockPayee` -/

section

variable (env : PaymentEnv) (t : VoteTables) (h : Int)

def owedPayments (levels : List Int) : List CTxOut :=
  levels.filterMap fun l => (owedPayee env t h l).map fun payee =>
    ⟨env.masternodePayment l (env.blockValue h), payee⟩

def FlagStands : Bool → List Int → Prop
  | _, [] => True
  | flag, l :: ls =>
    ((t.getBlockPayee (h + 1) l).isSome = true → flag = true) ∧
      FlagStands (if (t.getBlockPayee (h + 1) l).isSome then flag
        else (env.currentMasterNode l).isSome) ls

variable {env t h} {levels : List Int} {flag : Bool}

theorem owedPayments_cons (l : Int) (ls : List Int) : owedPayments env t h (l :: ls) =
    ((owedPayee env t h l).map fun payee =>
      (⟨env.masternodePayment l (env.blockValue h), payee⟩ : CTxOut)).toList ++
        owedPayments env t h ls := by
  unfold owedPayments
  cases hdue : owedPayee env t h l <;> simp [hdue]

theorem length_levelPayments_le :
    (levelPayments env t h flag levels).length ≤ (owedPayments env t h levels).length := by
  induction levels generalizing flag with
  | nil => exact le_rfl
  | cons l ls ih =>
    rw [owedPayments_cons]
    cases hvote : t.getBlockPayee (h + 1) l with
    | some payee =>
      have hrest := @ih flag
      cases flag <;> simp only [levelPayments, owedPayee, hvote] <;> simp <;> omega
    | none =>
      cases hnode : env.currentMasterNode l <;>
        simpa [levelPayments, owedPayee, hvote, hnode] using ih

/-- The payments are those that are due iff the flag stands wherever there is a vote. -/
theorem levelPayments_eq_iff : levelPayments env t h flag levels = owedPayments env t h levels ↔
      FlagStands env t h flag levels := by
  induction levels generalizing flag with
  | nil => exact iff_of_true rfl trivial
  | cons l ls ih =>
    rw [owedPayments_cons]
    cases hvote : t.getBlockPayee (h + 1) l with
    | some payee =>
      cases flag with
      | true => simpa [levelPayments, owedPayee, FlagStands, hvote] using ih
      | false =>
        -- one payment is missing, and none can come in its place
        have hlen := @length_levelPayments_le env t h ls false
        refine iff_of_false (fun heq => ?_) (by simp [FlagStands, hvote])
        simp only [levelPayments, owedPayee, hvote, some_or, map_some,
          toList_some, singleton_append, Bool.false_eq_true, if_false,
          nil_append] at heq
        rw [heq, length_cons] at hlen
        omega
    | none =>
      cases hnode : env.currentMasterNode l <;>
        simpa [levelPayments, owedPayee, FlagStands, hvote, hnode] using ih

/-- The flag is down at a vote iff the level before has nobody to pay. -/
theorem flagStands_iff : FlagStands env t h true mnLevels ↔
    ∀ l ∈ mnLevels, l + 1 ∈ mnLevels → owedPayee env t h l = none →
      t.getBlockPayee (h + 1) (l + 1) = none := by
  have hpairs : (∀ l ∈ mnLevels, l + 1 ∈ mnLevels → owedPayee env t h l = none →
      t.getBlockPayee (h + 1) (l + 1) = none) ↔
      (owedPayee env t h 1 = none → t.getBlockPayee (h + 1) 2 = none) ∧
      (owedPayee env t h 2 = none → t.getBlockPayee (h + 1) 3 = none) ∧
      (owedPayee env t h 3 = none → t.getBlockPayee (h + 1) 4 = none) := by
    simp [mnLevels]
  rw [hpairs]
  simp only [mnLevels, FlagStands, owedPayee]
  cases t.getBlockPayee (h + 1) 1 <;> cases t.getBlockPayee (h + 1) 2 <;>
    cases t.getBlockPayee (h + 1) 3 <;> cases t.getBlockPayee (h + 1) 4 <;>
    simp [isSome_iff_ne_none]

end

namespace QueueEnv

variable (q : QueueEnv) (mns : MasternodeList)

/-- The environment of the payments, with the current masternodes as the list gives them. -/
def payments (env : PaymentEnv) : PaymentEnv :=
  { env with
    currentMasterNode := fun mnlevel => (q.getCurrentMasterNode mns mnlevel 0 0).map (·.mnpayee) }

variable {q mns}

theorem foldl_currentStep_ne_none {mnlevel nBlockHeight minProtocol : Int}
    {l : List ListedMasternode} {s : Nat × Option ListedMasternode} (hs : s.2 ≠ none) :
    (l.foldl (q.currentStep mnlevel nBlockHeight minProtocol) s).2 ≠ none := by
  induction l generalizing s with
  | nil => exact hs
  | cons mn l ih =>
    refine ih ?_
    unfold currentStep
    split_ifs
    · simp
    · exact hs

theorem getCurrentMasterNode_eq_none_iff {mnlevel nBlockHeight minProtocol : Int} :
    q.getCurrentMasterNode mns mnlevel nBlockHeight minProtocol = none ↔
      ∀ mn ∈ mns.nodes, q.isCurrent mnlevel minProtocol mn = true →
        q.currentScore nBlockHeight mn = 0 := by
  unfold getCurrentMasterNode
  generalize mns.nodes = nodes
  induction nodes with
  | nil => simp
  | cons mn nodes ih =>
    rw [foldl_cons, forall_mem_cons, ← ih]
    by_cases hmn : q.isCurrent mnlevel minProtocol mn = true ∧ 0 < q.currentScore nBlockHeight mn
    · rw [currentStep, if_pos hmn]
      refine iff_of_false (foldl_currentStep_ne_none (by simp)) fun hall => ?_
      have hzero := hall.1 hmn.1
      omega
    · rw [currentStep, if_neg hmn]
      refine (and_iff_right fun hcurrent => ?_).symm
      exact Nat.eq_zero_of_not_pos fun hpos => hmn ⟨hcurrent, hpos⟩

/-- **When every level is paid.** After filling, the outputs that the coinstake had are followed by
one payment for each level that has a recorded payee or a current masternode, and the fee, iff no
level without either comes right before a level with a recorded payee. At height zero, where the
function does nothing, nobody may be due. -/
theorem paid_levels_iff (env : PaymentEnv) (tx : CTransaction) (h : Int)
    (hvout : 2 ≤ tx.vout.length) :
    (fillBlockPayee (q.payments mns env) q.tables tx h true).vout.drop tx.vout.length =
        owedPayments (q.payments mns env) q.tables h mnLevels ++
          coinstakeFee (q.payments mns env) tx h ↔
      (h = 0 → owedPayments (q.payments mns env) q.tables h mnLevels = []) ∧
        ∀ l ∈ mnLevels, l + 1 ∈ mnLevels → q.tables.getBlockPayee (h + 1) l = none →
          (∀ mn ∈ mns.nodes, q.isCurrent l 0 mn = true → q.currentScore 0 mn = 0) →
          q.tables.getBlockPayee (h + 1) (l + 1) = none := by
  have hdue : ∀ l, owedPayee (q.payments mns env) q.tables h l = none ↔
      q.tables.getBlockPayee (h + 1) l = none ∧
        ∀ mn ∈ mns.nodes, q.isCurrent l 0 mn = true → q.currentScore 0 mn = 0 := by
    intro l
    rw [owedPayee, or_eq_none_iff, payments, map_eq_none_iff,
      getCurrentMasterNode_eq_none_iff]
  have hlen : (coinstakeStake (q.payments mns env) q.tables tx h).length = tx.vout.length := by
    unfold coinstakeStake
    split_ifs <;> simp [lessShares]
  rw [vout_fillBlockPayee _ _ _ _ hvout, drop_left' hlen, append_cancel_right_eq, coinstakePayments]
  by_cases h0 : h = 0
  · rw [if_pos h0, eq_comm, forall_prop_of_true h0, iff_self_and]
    intro hnone l _ hl _ _
    have hnext := filterMap_eq_nil_iff.mp hnone (l + 1) hl
    exact ((hdue (l + 1)).mp (map_eq_none_iff.mp hnext)).1
  · rw [if_neg h0, levelPayments_eq_iff, flagStands_iff]
    simp only [hdue, and_imp, h0, false_implies, true_and]

end QueueEnv

namespace QueueSample

/-- A masternode of the first level is paid, and the other levels have nobody to pay. -/
theorem paid_first_level :
    (fillBlockPayee ((env 100).payments alone (.sample [])) (env 100).tables .coinstake 100
      true).vout.drop 2 =
      owedPayments ((env 100).payments alone (.sample [])) (env 100).tables 100 mnLevels ++
        coinstakeFee ((env 100).payments alone (.sample [])) .coinstake 100 :=
  (QueueEnv.paid_levels_iff (.sample []) .coinstake 100 (by decide)).mpr
    ⟨by decide, fun _ _ _ _ _ => rfl⟩

def voted : QueueEnv :=
  { env 100 with tables := (VoteTables.empty.addWinningMasternode 2 100 ⟨101, [0x51], 2, 7⟩).2 }

/-- The payee of the second level gets nothing, as the first level has nobody to pay. -/
theorem second_level_unpaid :
    (fillBlockPayee (voted.payments ⟨[], .nil⟩ (.sample [])) voted.tables .coinstake 100
      true).vout.drop 2 = [] ∧
    owedPayments (voted.payments ⟨[], .nil⟩ (.sample [])) voted.tables 100 mnLevels =
      [⟨(PaymentEnv.sample []).masternodePayment 2 ((PaymentEnv.sample []).blockValue 100),
        [0x51]⟩] := by
  decide

end QueueSample

/-! ## The winners that a masternode signs -/

section

variable (hashWinner : CScript → Int → COutPoint → UInt256)

def signedLevel (env : SenderEnv) (nWinnerBlockHeight mnlevel : Int) : Option SignedWinner :=
  (env.nextPayee mnlevel).bind fun payee =>
    let newWinner : SignedWinner := ⟨env.vin, nWinnerBlockHeight, payee, mnlevel⟩
    if env.sign newWinner then some newWinner else none

/-- The winners that a call of `ProcessBlock` signs, whether or not they are new to the tables. -/
def signedBy (env : SenderEnv) (nLastBlockHeight nBlockHeight : Int) : List SignedWinner :=
  if env.rank = -1 ∨ mnPaymentsSignaturesTotal < env.rank ∨
      nBlockHeight + 10 ≤ nLastBlockHeight then []
  else mnLevels.filterMap (signedLevel env (nBlockHeight + 10))

/-- A masternode, with all that it has signed. -/
structure Signer where
  nLastBlockHeight : Int
  tables : VoteTables
  signed : List SignedWinner

/-- `ProcessBlock` at a masternode. -/
def Signer.processBlock (s : Signer) (env : SenderEnv) (nBlockHeight : Int) : Signer :=
  let result := Passion.processBlock hashWinner env s.tables s.nLastBlockHeight nBlockHeight
  { nLastBlockHeight := if result.1.isEmpty then s.nLastBlockHeight else nBlockHeight
    tables := result.2
    signed := s.signed ++ signedBy env s.nLastBlockHeight nBlockHeight }

def SenderEnv.Unranked (env : SenderEnv) : Prop :=
  env.rank = -1 ∨ mnPaymentsSignaturesTotal < env.rank

/-- The runs in which no height comes twice, but for calls of an unranked masternode and calls that
the guard stops. The list has the heights of the other calls. -/
inductive Signer.Runs : List Int → Signer → Prop
  | new : Runs [] ⟨0, .empty, []⟩
  | unranked {heights : List Int} {s : Signer} (env : SenderEnv) (nBlockHeight : Int) :
      Runs heights s → env.Unranked → Runs heights (s.processBlock hashWinner env nBlockHeight)
  | stopped {heights : List Int} {s : Signer} (env : SenderEnv) (nBlockHeight : Int) :
      Runs heights s → nBlockHeight + 10 ≤ s.nLastBlockHeight →
      Runs heights (s.processBlock hashWinner env nBlockHeight)
  | once {heights : List Int} {s : Signer} (env : SenderEnv) (nBlockHeight : Int) :
      Runs heights s → nBlockHeight ∉ heights →
      Runs (nBlockHeight :: heights) (s.processBlock hashWinner env nBlockHeight)

def OnePayee (ws : List SignedWinner) : Prop :=
  ∀ w ∈ ws, ∀ w' ∈ ws, w.nBlockHeight = w'.nBlockHeight → w.payeeLevel = w'.payeeLevel →
    w.payee = w'.payee

variable {hashWinner} {env : SenderEnv} {nLastBlockHeight nBlockHeight : Int} {w : SignedWinner}

theorem signedBy_of_unranked (h : env.Unranked) : signedBy env nLastBlockHeight nBlockHeight = [] :=
  if_pos (h.imp_right .inl)

theorem signedBy_of_stopped (h : nBlockHeight + 10 ≤ nLastBlockHeight) :
    signedBy env nLastBlockHeight nBlockHeight = [] := if_pos (.inr (.inr h))

theorem mem_signedBy (h : w ∈ signedBy env nLastBlockHeight nBlockHeight) :
    w.nBlockHeight = nBlockHeight + 10 ∧ env.nextPayee w.payeeLevel = some w.payee := by
  unfold signedBy at h
  split_ifs at h with hstop
  · cases h
  · obtain ⟨mnlevel, -, hw⟩ := mem_filterMap.mp h
    obtain ⟨payee, hpayee, hw⟩ := bind_eq_some_iff.mp hw
    dsimp only at hw
    split_ifs at hw with hsign
    cases hw
    exact ⟨rfl, hpayee⟩

/-- What is relayed was signed. -/
theorem mem_signedBy_of_relayed {t : VoteTables}
    (h : w ∈ (processBlock hashWinner env t nLastBlockHeight nBlockHeight).1) :
    w ∈ signedBy env nLastBlockHeight nBlockHeight := by
  have hloop : ∀ w ∈ (mnLevels.foldl (signLevel hashWinner env (nBlockHeight + 10)) ([], t)).1,
      w ∈ mnLevels.filterMap (signedLevel env (nBlockHeight + 10)) := by
    refine foldlRecOn (motive := fun s : _ × VoteTables => ∀ w ∈ s.1, w ∈ _) mnLevels _
      (fun _ hw => nomatch hw) fun s ih l hl w hw => ?_
    cases hpayee : env.nextPayee l with
    | none => exact ih w (by simpa [signLevel, hpayee] using hw)
    | some payee =>
      cases hsign : env.sign ⟨env.vin, nBlockHeight + 10, payee, l⟩ with
      | false => exact ih w (by simpa [signLevel, hpayee, hsign] using hw)
      | true =>
        simp only [signLevel, hpayee, hsign] at hw
        rcases hadd : s.2.addWinningMasternode (env.indeterminate l) env.bestHeight
          (SignedWinner.toWinner hashWinner ⟨env.vin, nBlockHeight + 10, payee, l⟩) with
          ⟨_ | _, t⟩
        · exact ih w (by simpa [hadd] using hw)
        · rw [hadd] at hw
          rcases mem_append.mp hw with hw | hw
          · exact ih w hw
          · refine mem_filterMap.mpr ⟨l, hl, ?_⟩
            simp [signedLevel, hpayee, hsign, mem_singleton.mp hw]
  unfold processBlock at h
  unfold signedBy
  dsimp only at h
  split_ifs at h with hunknown hlow hlast
  · cases h
  · cases h
  · cases h
  · rw [if_neg (by simp [hunknown, hlow, hlast])]
    exact hloop w h

theorem Signer.Runs.mem_heights {heights : List Int} {s : Signer}
    (h : Signer.Runs hashWinner heights s) : ∀ w ∈ s.signed, w.nBlockHeight - 10 ∈ heights := by
  induction h with
  | new => exact fun w hw => nomatch hw
  | unranked env nBlockHeight _ hrank ih =>
    simpa [Signer.processBlock, signedBy_of_unranked hrank] using ih
  | stopped env nBlockHeight _ hstop ih =>
    simpa [Signer.processBlock, signedBy_of_stopped hstop] using ih
  | once env nBlockHeight _ _ ih =>
    intro w hw
    rcases mem_append.mp hw with hw | hw
    · exact mem_cons_of_mem _ (ih w hw)
    · rw [(mem_signedBy hw).1, add_sub_cancel_right]
      exact mem_cons_self

/-- **A masternode signs one payee for a height and level**, in a run in which it is called once for
a height, but for calls at which it is not ranked or which the guard stops. -/
theorem one_payee_of_runs {heights : List Int} {s : Signer}
    (h : Signer.Runs hashWinner heights s) : OnePayee s.signed := by
  induction h with
  | new => simp [OnePayee]
  | unranked env nBlockHeight _ hrank ih =>
    simpa [Signer.processBlock, signedBy_of_unranked hrank] using ih
  | stopped env nBlockHeight _ hstop ih =>
    simpa [Signer.processBlock, signedBy_of_stopped hstop] using ih
  | @once heights s env nBlockHeight hs hnew ih =>
    -- a winner of this call and an earlier one are for different heights
    have hdiff : ∀ w ∈ s.signed, ∀ w' ∈ signedBy env s.nLastBlockHeight nBlockHeight,
        w.nBlockHeight ≠ w'.nBlockHeight := by
      intro w hw w' hw' heq
      have hmem := hs.mem_heights w hw
      rw [heq, (mem_signedBy hw').1, add_sub_cancel_right] at hmem
      exact hnew hmem
    intro w hw w' hw' hheight hlevel
    rcases mem_append.mp hw with hw | hw <;> rcases mem_append.mp hw' with hw' | hw'
    · exact ih w hw w' hw' hheight hlevel
    · exact absurd hheight (hdiff w hw w' hw')
    · exact absurd hheight.symm (hdiff w' hw' w hw)
    · have hpayee := (mem_signedBy hw).2
      rw [hlevel, (mem_signedBy hw').2] at hpayee
      exact (some.inj hpayee).symm

end

namespace QueueSample

/-- The second masternode at a rank, on a node whose tip is ten below the height. -/
def sender (mns : MasternodeList) (rank : Int) (nBlockHeight : Nat) : SenderEnv where
  vin := ⟨2, 0⟩
  rank := rank
  bestHeight := nBlockHeight - 10
  nextPayee level := ((env (nBlockHeight - 10)).getNextMasternodeInQueueForPayment mns
    (nBlockHeight + 10) level true).map (·.mnpayee)
  sign _ := true
  indeterminate level := level

def hashWinner (payee : CScript) (nHeight : Int) (_ : COutPoint) : UInt256 :=
  BitVec.ofInt 256 (nHeight * 256 + (payee.getD 3 0).toNat)

def replaced : MasternodeList := ⟨[masternode 2 (1000 * COIN) 864000], pairwise_singleton ..⟩

def call (mns : MasternodeList) (rank : Int) (nBlockHeight : Nat) (s : Signer) : Signer :=
  s.processBlock hashWinner (sender mns rank nBlockHeight) nBlockHeight

def winner (nBlockHeight : Int) (number : Nat) : SignedWinner :=
  ⟨⟨2, 0⟩, nBlockHeight, payee number, 1⟩

/-- Calls for 100 and 110, and after the list has changed again for 110, without a rank, for 100,
which the guard stops, and for 111. -/
def reorganised : Signer :=
  call replaced 1 111 (call replaced 1 100 (call replaced (-1) 110
    (call alone 1 110 (call alone 1 100 ⟨0, .empty, []⟩))))

theorem one_payee_reorganised :
    reorganised.signed = [winner 110 1, winner 120 1, winner 121 2] ∧
      OnePayee reorganised.signed := by
  have hruns : Signer.Runs hashWinner [111, 110, 100] reorganised := by
    refine .once _ 111 (.stopped _ 100 (.unranked _ 110
      (.once _ 110 (.once _ 100 .new ?_) ?_) (.inl rfl)) ?_) ?_ <;> decide +kernel
  exact ⟨by decide +kernel, one_payee_of_runs hruns⟩

/-- Two calls for one block, between which the list has changed. -/
def calledTwice : Signer := call replaced 1 110 (call alone 1 110 ⟨0, .empty, []⟩)

theorem two_payees_signed :
    calledTwice.signed = [winner 120 1, winner 120 2] ∧ ¬OnePayee calledTwice.signed := by
  have hsigned : calledTwice.signed = [winner 120 1, winner 120 2] := by decide +kernel
  refine ⟨hsigned, fun hone => ?_⟩
  rw [hsigned] at hone
  exact absurd (hone _ mem_cons_self _ (mem_cons_of_mem _ mem_cons_self) rfl rfl) (by decide)

end QueueSample

end Passion
