import Passion.Masternode.ColdStake
import Passion.Script.Standard

/-!
# Creating a coinstake

`CWallet::CreateCoinStake` of `wallet/wallet.cpp` and `CPivStake::CreateTxOuts` of `stakeinput.cpp`.

The wallet goes through its coins and looks for a kernel in each. The flag `fKernelFound` is that of
the coin that was looked at last, and a coin whose kernel is found ends the loop only if outputs can
be made for it. If they cannot, and no later coin is looked at, the loop ends with the flag set and
nothing in the transaction.

Main result: `createCoinStake_correct_iff`.
-/

namespace Passion

open List Option
open ColdStakeInput (setAmounts)

/-- A coin of the wallet: an output of one of its transactions. -/
structure CStakeableOutput where
  outPoint : COutPoint
  isNull_outPoint : outPoint.isNull = false

/-- A coin with what the wallet finds when its turn comes. -/
structure StakeTurn where
  coin : CStakeableOutput
  /-- A new block came in, the wallet is locked or a shutdown was requested. -/
  interrupted : Bool
  isSpent : Bool
  /-- The result of `Stake`. -/
  kernelFound : Bool

/-- What the wallet uses of the node, its settings and its keys. -/
structure StakeWallet where
  node : StakingNode
  /-- `tx->vout[i]`. -/
  txout : COutPoint → CTxOut
  nStakeSplitThreshold : CAmount
  /-- The public key of the private key that `GetKey` has for a key hash. -/
  getKey : Valtype → Option Valtype
  /-- `GetSerializeSize`. -/
  serializeSize : CTransaction → Nat
  /-- The `scriptSig` that `SignSignature` makes for an input. -/
  signSignature : CTransaction → Nat → Option CScript

/-- `DEFAULT_BLOCK_MAX_SIZE / 5`. -/
def coinstakeSizeLimit : Nat := 750000 / 5

/-- `IsZPASSION` of a `CPivStake`. -/
def CStakeableOutput.isZPassion (_ : CStakeableOutput) : Bool := false

namespace StakeWallet

variable (w : StakeWallet)

/-- The outputs of `CreateTxOuts` to a script, with values that are set later. -/
def splitOuts (nTotal : CAmount) (scriptPubKey : CScript) : List CTxOut :=
  replicate (ColdStakeInput.stakeOutputs w.nStakeSplitThreshold nTotal) ⟨0, scriptPubKey⟩

/-- The script that a stake of a coin goes to: `none` where `CreateTxOuts` returns `false`. -/
def stakeScript (scriptPubKeyKernel : CScript) (onlyP2PK : Bool) : Option CScript :=
  match CScript.solver scriptPubKeyKernel with
  | some (.pubkey, _) => some scriptPubKeyKernel
  | some (.pubkeyhash, keyID :: _) =>
    -- before v5 a block is signed with the key of a P2PK output only
    (w.getKey keyID).map fun pubKey =>
      if onlyP2PK then CScript.pushData pubKey ++ [CScript.OP_CHECKSIG] else scriptPubKeyKernel
  | some (.coldstake, keyID :: _) => (w.getKey keyID).map fun _ => scriptPubKeyKernel
  | _ => none

def createTxOuts (outputFrom : CTxOut) (nTotal : CAmount) (onlyP2PK : Bool) :
    Option (List CTxOut) :=
  (w.stakeScript outputFrom.scriptPubKey onlyP2PK).map (w.splitOuts nTotal)

/-- P2PKH block signatures were not accepted before v5. -/
def onlyP2PK (nHeight : Int) : Bool := !w.node.env.params.networkUpgradeActive nHeight .v5_0

/-- `CreateTxIn`, which does not fail. -/
def createTxIn (coin : CStakeableOutput) : CTxIn := ⟨coin.outPoint, [], 4294967295⟩

/-- The loop over the coins, with the flag `fKernelFound`: `none` where the function returns `false`
from inside. -/
def searchKernel (nHeight : Int) :
    List StakeTurn → Bool → CTransaction → Option (Bool × CTransaction)
  | [], fKernelFound, txNew => some (fKernelFound, txNew)
  | turn :: rest, fKernelFound, txNew =>
    if turn.interrupted then none
    else if turn.isSpent then searchKernel nHeight rest fKernelFound txNew
    else if turn.coin.isZPassion then searchKernel nHeight rest fKernelFound txNew
    else if !turn.kernelFound then searchKernel nHeight rest false txNew
    else
      let nCredit := (w.txout turn.coin.outPoint).nValue + w.node.env.blockValue nHeight
      match w.createTxOuts (w.txout turn.coin.outPoint) nCredit (w.onlyP2PK nHeight) with
      | none => searchKernel nHeight rest true txNew
      | some vout =>
        let txNew := { txNew with vout := setAmounts nCredit (txNew.vout ++ vout) }
        if coinstakeSizeLimit ≤ w.serializeSize txNew then none
        else
          let txNew := w.node.fillBlockPayee txNew nHeight true
          some (true, { txNew with vin := txNew.vin ++ [createTxIn turn.coin] })

/-- The loop that signs the inputs from `nIn` on. -/
def signInputs : Nat → Nat → CTransaction → Option CTransaction
  | 0, _, txNew => some txNew
  | left + 1, nIn, txNew =>
    match w.signSignature txNew nIn with
    | none => none
    | some scriptSig =>
      signInputs left (nIn + 1)
        { txNew with vin := txNew.vin.modify nIn fun txin => { txin with scriptSig := scriptSig } }

/-- `CreateCoinStake` on top of a block at height `nHeightPrev`: `none` where it returns `false`. -/
def createCoinStake (nHeightPrev : Nat) (availableCoins : List StakeTurn) (txNew : CTransaction) :
    Option CTransaction :=
  let txNew := { txNew with vin := [], vout := [⟨0, []⟩] }
  match w.searchKernel (nHeightPrev + 1) availableCoins false txNew with
  | none => none
  | some (fKernelFound, txNew) =>
    if !fKernelFound then none else w.signInputs txNew.vin.length 0 txNew

/-! ## What a coinstake should be -/

/-- `FillBlockPayee` pays a budget at the height. -/
def budgetDue (nHeight : Int) : Bool :=
  w.node.superblocksActive && (w.node.budgets.getPayeeAndAmount nHeight).isSome

/-- The transaction stakes a coin whose kernel was found: the coin is its only input, the first
output is empty, and where no budget is paid the outputs are worth the coin and the reward. -/
structure Stakes (nHeight : Int) (turn : StakeTurn) (tx : CTransaction) : Prop where
  kernel : turn.kernelFound = true
  unspent : turn.isSpent = false
  coinStake : tx.isCoinStake = true
  input : tx.vin.map (·.prevout) = [turn.coin.outPoint]
  empty : tx.vout.head? = some ⟨0, []⟩
  value : w.budgetDue nHeight = false →
    totalValue tx.vout = (w.txout turn.coin.outPoint).nValue + w.node.env.blockValue nHeight

def turnScript (nHeight : Int) (turn : StakeTurn) : Option CScript :=
  w.stakeScript (w.txout turn.coin.outPoint).scriptPubKey (w.onlyP2PK nHeight)

/-- The coin ends the search: its kernel is found and outputs are made for it. -/
def ends (nHeight : Int) (turn : StakeTurn) : Bool :=
  !turn.isSpent && turn.kernelFound && (w.turnScript nHeight turn).isSome

/-- The condition: one of the coins ends the search, and the first one that does is no zerocoin mint
by its first byte, unless the masternodes get nothing. -/
def CoinEnds (nHeight : Int) (turns : List StakeTurn) : Prop :=
  ∃ turn, turns.find? (w.ends nHeight) = some turn ∧
    (w.budgetDue nHeight = false →
      CScript.isZerocoinMint (w.txout turn.coin.outPoint).scriptPubKey = true →
        totalValue (coinstakePayments w.node.env w.node.votes nHeight) = 0)

/-! ## The search -/

def stakeTx (nHeight : Int) (turn : StakeTurn) (script : CScript) (txNew : CTransaction) :
    CTransaction :=
  let nCredit := (w.txout turn.coin.outPoint).nValue + w.node.env.blockValue nHeight
  let vout := setAmounts nCredit (txNew.vout ++ w.splitOuts nCredit script)
  let filled := w.node.fillBlockPayee { txNew with vout := vout } nHeight true
  { filled with vin := filled.vin ++ [createTxIn turn.coin] }

variable {w}

variable {tx txNew : CTransaction} {nHeight : Int}

theorem searchKernel_cons_of_not_ends {turn : StakeTurn} (hends : w.ends nHeight turn = false)
    (rest : List StakeTurn) (fKernelFound : Bool) (txNew : CTransaction) :
    w.searchKernel nHeight (turn :: rest) fKernelFound txNew = none ∨
      ∃ f, w.searchKernel nHeight (turn :: rest) fKernelFound txNew =
        w.searchKernel nHeight rest f txNew := by
  rw [searchKernel]
  split_ifs with hint hspent hz hfound
  · exact .inl rfl
  · exact .inr ⟨fKernelFound, rfl⟩
  · exact .inr ⟨fKernelFound, rfl⟩
  · exact .inr ⟨false, rfl⟩
  · -- the kernel was found, so that the outputs are what is missing
    rw [Bool.not_eq_true, Bool.not_eq_false'] at hfound
    have hscript : w.turnScript nHeight turn = none := by
      simpa [ends, hspent, hfound] using hends
    rw [turnScript] at hscript
    simp only [createTxOuts, hscript]
    exact .inr ⟨true, rfl⟩

theorem searchKernel_cons_of_ends {turn : StakeTurn} (hends : w.ends nHeight turn = true)
    (rest : List StakeTurn) (fKernelFound : Bool) (txNew : CTransaction) :
    w.searchKernel nHeight (turn :: rest) fKernelFound txNew = none ∨
      ∃ script, w.turnScript nHeight turn = some script ∧
        w.searchKernel nHeight (turn :: rest) fKernelFound txNew =
          some (true, w.stakeTx nHeight turn script txNew) := by
  simp only [ends, Bool.and_eq_true, Bool.not_eq_true'] at hends
  obtain ⟨⟨hspent, hfound⟩, hsome⟩ := hends
  obtain ⟨script, hscript⟩ := isSome_iff_exists.mp hsome
  have houts : w.stakeScript (w.txout turn.coin.outPoint).scriptPubKey (w.onlyP2PK nHeight) =
      some script := hscript
  rw [searchKernel, hspent, hfound]
  simp only [Bool.false_eq_true, if_false, Bool.not_true, CStakeableOutput.isZPassion,
    createTxOuts, houts, map_some]
  split_ifs
  · exact .inl rfl
  · exact .inl rfl
  · exact .inr ⟨script, hscript, rfl⟩

/-- **The search** ends with the first coin that ends it. Without one the transaction is what it
was, whatever the flag says. -/
theorem searchKernel_spec {turns : List StakeTurn} {fKernelFound found : Bool}
    (h : w.searchKernel nHeight turns fKernelFound txNew = some (found, tx)) :
    (turns.find? (w.ends nHeight) = none → tx = txNew) ∧
      ∀ turn, turns.find? (w.ends nHeight) = some turn →
        ∃ script, w.turnScript nHeight turn = some script ∧
          tx = w.stakeTx nHeight turn script txNew := by
  induction turns generalizing fKernelFound with
  | nil =>
    cases h
    simp
  | cons turn turns ih =>
    cases hends : w.ends nHeight turn with
    | false =>
      rw [find?_cons_of_neg (by simp [hends])]
      rcases searchKernel_cons_of_not_ends hends turns fKernelFound txNew with hnone | ⟨f, hrest⟩
      · rw [hnone] at h
        cases h
      · exact ih (hrest.symm.trans h)
    | true =>
      rw [find?_cons_of_pos hends]
      rcases searchKernel_cons_of_ends hends turns fKernelFound txNew with
        hnone | ⟨script, hscript, hstake⟩
      · rw [hnone] at h
        cases h
      · cases hstake.symm.trans h
        refine ⟨by simp, fun turn' hturn => ?_⟩
        cases hturn
        exact ⟨script, hscript, rfl⟩

theorem signInputs_spec {left nIn : Nat} (h : w.signInputs left nIn txNew = some tx) :
    tx.vout = txNew.vout ∧ tx.vin.map (·.prevout) = txNew.vin.map (·.prevout) := by
  induction left generalizing nIn txNew with
  | zero =>
    cases h
    exact ⟨rfl, rfl⟩
  | succ left ih =>
    unfold signInputs at h
    split at h
    · cases h
    · obtain ⟨hvout, hvin⟩ := ih h
      refine ⟨hvout, hvin.trans ?_⟩
      apply ext_getElem?
      intro i
      simp only [getElem?_map, getElem?_modify]
      split_ifs <;> simp [Function.comp_def]

/-! ## The payments of the block -/

def Marked (vout : List CTxOut) : Prop := ∃ first rest, vout = ⟨0, []⟩ :: first :: rest

theorem Marked.append {vout : List CTxOut} (h : Marked vout) (paid : List CTxOut) :
    Marked (vout ++ paid) := by
  obtain ⟨first, rest, rfl⟩ := h
  exact ⟨first, rest ++ paid, rfl⟩

theorem Marked.length {vout : List CTxOut} (h : Marked vout) : 2 ≤ vout.length := by
  obtain ⟨first, rest, rfl⟩ := h
  simp

section

variable {nHeight : Int} {txNew : CTransaction}

/-- The first output of a coinstake gives nothing for the payments. -/
theorem marked_coinstakeStake (env : PaymentEnv) (t : VoteTables) (hvout : Marked txNew.vout) :
    Marked (coinstakeStake env t txNew nHeight) := by
  cases hmint : stakesMint txNew with
  | true => simpa [coinstakeStake, hmint] using hvout
  | false =>
    obtain ⟨first, rest, heq⟩ := hvout
    rw [coinstakeStake_eq_mapIdx env t txNew nHeight hmint, heq, mapIdx_cons, mapIdx_cons]
    have hzero : coinstakeTaken env t txNew nHeight 0 = 0 := by simp [coinstakeTaken, stakeShare]
    rw [hzero]
    exact ⟨_, _, rfl⟩

/-- What `FillBlockPayee` makes of a coinstake: a budget payment is appended, or the masternodes are
paid. -/
theorem fillBlockPayee_cases (node : StakingNode) (txNew : CTransaction) (hheight : 0 < nHeight) :
    (∃ payee nAmount, node.superblocksActive = true ∧
      node.budgets.getPayeeAndAmount nHeight = some (payee, nAmount) ∧
      node.fillBlockPayee txNew nHeight true =
        { txNew with vout := txNew.vout ++ [⟨nAmount, payee⟩] }) ∨
    ((node.superblocksActive && (node.budgets.getPayeeAndAmount nHeight).isSome) = false ∧
      node.fillBlockPayee txNew nHeight true =
        fillBlockPayee node.env node.votes txNew nHeight true) := by
  unfold StakingNode.fillBlockPayee CBudgetManager.fillBlockPayee
  rw [if_neg hheight.ne', if_neg hheight.not_ge]
  cases node.superblocksActive with
  | false => simp
  | true =>
    cases hdue : node.budgets.getPayeeAndAmount nHeight with
    | none => simp
    | some payment => simp

theorem fillBlockPayee_marked (node : StakingNode) (hheight : 0 < nHeight)
    (hvout : Marked txNew.vout) :
    (node.fillBlockPayee txNew nHeight true).vin = txNew.vin ∧
      Marked (node.fillBlockPayee txNew nHeight true).vout := by
  rcases fillBlockPayee_cases node txNew hheight with ⟨payee, nAmount, -, -, hfill⟩ | ⟨-, hfill⟩
  · rw [hfill]
    exact ⟨rfl, hvout.append _⟩
  · rw [hfill, vout_fillBlockPayee _ _ _ _ hvout.length]
    refine ⟨?_, (marked_coinstakeStake _ _ hvout).append _⟩
    unfold fillBlockPayee
    split <;> rfl

/-- The masternodes are paid out of the stake, but for a stake that looks like a zerocoin mint: they
are paid on top of it then. -/
theorem totalValue_filled (env : PaymentEnv) (t : VoteTables) (hvout : Marked txNew.vout) :
    totalValue (fillBlockPayee env t txNew nHeight true).vout =
      totalValue txNew.vout +
        if stakesMint txNew then totalValue (coinstakePayments env t nHeight) else 0 := by
  cases hmint : stakesMint txNew with
  | false =>
    rw [totalValue_fillBlockPayee _ _ _ _ hvout.length hmint]
    simp
  | true =>
    rw [vout_fillBlockPayee _ _ _ _ hvout.length]
    simp [coinstakeStake, coinstakeFee, hmint]

end

/-! ## The stake -/

theorem isZerocoinMint_stakeScript {s script : CScript} {onlyP2PK : Bool}
    (h : w.stakeScript s onlyP2PK = some script) :
    CScript.isZerocoinMint script = CScript.isZerocoinMint s := by
  unfold stakeScript at h
  split at h
  · cases h
    rfl
  · rename_i hsolver
    obtain ⟨pubKey, -, rfl⟩ := map_eq_some_iff.mp h
    split_ifs
    · rw [CScript.isZerocoinMint_pushData,
        CScript.isZerocoinMint_of_solver hsolver (.inr rfl)]
    · rfl
  · obtain ⟨pubKey, -, rfl⟩ := map_eq_some_iff.mp h
    rfl
  · cases h

section

variable {nHeight : Int} {turn : StakeTurn} {script : CScript} {txNew : CTransaction}

theorem marked_setAmounts (w : StakeWallet) (script : CScript) (txNew : CTransaction)
    (nCredit : CAmount) (hvout : txNew.vout = [⟨0, []⟩]) :
    ∃ tx, tx = { txNew with
        vout := setAmounts nCredit (txNew.vout ++ w.splitOuts nCredit script) } ∧
      Marked tx.vout ∧ totalValue tx.vout = nCredit ∧
      stakesMint tx = CScript.isZerocoinMint script := by
  obtain ⟨stake, heq, hstake⟩ :=
    ColdStakeInput.setAmounts_replicate script w.nStakeSplitThreshold nCredit
  have hvout' : setAmounts nCredit (txNew.vout ++ w.splitOuts nCredit script) =
      ⟨0, []⟩ :: stake := by
    rw [hvout]
    exact heq
  obtain ⟨first, rest, rfl⟩ := exists_cons_of_ne_nil hstake.ne_nil
  rw [hvout']
  refine ⟨_, rfl, ⟨first, rest, rfl⟩, ?_, ?_⟩
  · rw [totalValue_cons, hstake.total]
    exact zero_add _
  · simp [stakesMint, CTxOut.isZerocoinMint, hstake.scripts first mem_cons_self]

theorem stakeTx_spec (w : StakeWallet) (turn : StakeTurn) (script : CScript)
    (txNew : CTransaction) (hheight : 0 < nHeight) (hvin : txNew.vin = [])
    (hvout : txNew.vout = [⟨0, []⟩]) :
    (w.stakeTx nHeight turn script txNew).vin = [createTxIn turn.coin] ∧
      Marked (w.stakeTx nHeight turn script txNew).vout ∧
      (w.budgetDue nHeight = false →
        totalValue (w.stakeTx nHeight turn script txNew).vout =
          (w.txout turn.coin.outPoint).nValue + w.node.env.blockValue nHeight +
            if CScript.isZerocoinMint script then
              totalValue (coinstakePayments w.node.env w.node.votes nHeight)
            else 0) := by
  obtain ⟨tx, htx, hmarked, htotal, hmint⟩ := marked_setAmounts w script txNew
    ((w.txout turn.coin.outPoint).nValue + w.node.env.blockValue nHeight) hvout
  have hvin' : tx.vin = [] := by rw [htx, hvin]
  obtain ⟨hfilledVin, hfilledVout⟩ := fillBlockPayee_marked w.node hheight hmarked
  unfold stakeTx
  simp only [← htx, hfilledVin, hvin', nil_append]
  refine ⟨trivial, hfilledVout, fun hdue => ?_⟩
  rcases fillBlockPayee_cases w.node tx hheight with ⟨payee, nAmount, hsuper, hpay, -⟩ | ⟨-, hfill⟩
  · simp [budgetDue, hsuper, hpay] at hdue
  · rw [hfill, totalValue_filled _ _ hmarked, htotal, hmint]

/-- For a delegated coin this is the cold stake. -/
theorem stakeTx_delegation (c : ColdStakeInput) (hheight : 0 < nHeight)
    (hin : createTxIn turn.coin = c.txin)
    (hout : w.txout turn.coin.outPoint = ⟨c.nValue, c.scriptPubKey⟩) :
    w.stakeTx nHeight turn c.scriptPubKey { txNew with vin := [], vout := [⟨0, []⟩] } =
      w.node.createCoinStake txNew c w.nStakeSplitThreshold nHeight := by
  obtain ⟨tx, htx, hmarked, -, -⟩ := marked_setAmounts w c.scriptPubKey
    { txNew with vin := [], vout := [⟨0, []⟩] } (c.nValue + w.node.env.blockValue nHeight) rfl
  have hvin : (w.node.fillBlockPayee tx nHeight true).vin = [] := by
    rw [(fillBlockPayee_marked w.node hheight hmarked).1, htx]
  unfold stakeTx StakingNode.createCoinStake
  simp only [hout, hin]
  rw [htx] at hvin
  simp only [hvin]
  rfl

end

theorem isCoinStake_of_marked {coin : CStakeableOutput}
    (hvin : tx.vin.map (·.prevout) = [coin.outPoint]) (hvout : Marked tx.vout) :
    tx.isCoinStake = true := by
  obtain ⟨txin, htxin, hprevout⟩ := map_eq_singleton_iff.mp hvin
  obtain ⟨first, rest, hrest⟩ := hvout
  simp [CTransaction.isCoinStake, htxin, hprevout, coin.isNull_outPoint, hrest, CTxOut.isEmpty]

/-- What `CreateCoinStake` returns: the signed stake of the first coin that ends the search, or the
marked transaction without an input. -/
theorem createCoinStake_cases {nHeightPrev : Nat} {turns : List StakeTurn}
    (h : w.createCoinStake nHeightPrev turns txNew = some tx) :
    (turns.find? (w.ends (nHeightPrev + 1)) = none ∧ tx.vin = []) ∨
      ∃ turn script, turns.find? (w.ends (nHeightPrev + 1)) = some turn ∧
        w.turnScript (nHeightPrev + 1) turn = some script ∧
        tx.vout = (w.stakeTx (nHeightPrev + 1) turn script
          { txNew with vin := [], vout := [⟨0, []⟩] }).vout ∧
        tx.vin.map (·.prevout) = [turn.coin.outPoint] := by
  unfold createCoinStake at h
  dsimp only at h
  split at h
  · cases h
  · rename_i found unsigned hsearch
    split_ifs at h
    obtain ⟨hnone, hsome⟩ := searchKernel_spec hsearch
    obtain ⟨hvout, hvin⟩ := signInputs_spec h
    cases hfind : turns.find? (w.ends (nHeightPrev + 1)) with
    | none =>
      rw [hnone hfind] at hvin
      exact .inl ⟨rfl, map_eq_nil_iff.mp hvin⟩
    | some turn =>
      obtain ⟨script, hscript, rfl⟩ := hsome turn hfind
      refine .inr ⟨turn, script, rfl, hscript, hvout, hvin.trans ?_⟩
      rw [(stakeTx_spec w turn script _ (by omega) rfl rfl).1]
      rfl

/-- **`CreateCoinStake` returns a coinstake** of a coin whose kernel was found just where one of the
coins ends the search. -/
theorem createCoinStake_correct_iff (w : StakeWallet) (nHeightPrev : Nat) (turns : List StakeTurn)
    (txNew tx : CTransaction) (h : w.createCoinStake nHeightPrev turns txNew = some tx) :
    (∃ turn ∈ turns, w.Stakes (nHeightPrev + 1) turn tx) ↔ w.CoinEnds (nHeightPrev + 1) turns := by
  rcases createCoinStake_cases h with ⟨hnone, hvin⟩ | ⟨turn, script, hfind, hscript, hvout, hvin⟩
  · refine iff_of_false ?_ ?_
    · rintro ⟨turn, -, hstakes⟩
      have hinput := hstakes.input
      rw [hvin] at hinput
      cases hinput
    · rintro ⟨turn, hfind, -⟩
      rw [hnone] at hfind
      cases hfind
  · have hheight : (0 : Int) < nHeightPrev + 1 := by omega
    obtain ⟨-, hmarked, hvalue⟩ := stakeTx_spec w turn script
      { txNew with vin := [], vout := [⟨0, []⟩] } hheight rfl rfl
    rw [← hvout] at hmarked hvalue
    rw [isZerocoinMint_stakeScript hscript] at hvalue
    constructor
    · rintro ⟨other, -, hstakes⟩
      have hcoin : other.coin.outPoint = turn.coin.outPoint :=
        singleton_inj.mp (hstakes.input.symm.trans hvin)
      refine ⟨turn, hfind, fun hdue hmint => ?_⟩
      have hsum := (hvalue hdue).symm.trans (hcoin ▸ hstakes.value hdue)
      rw [if_pos hmint] at hsum
      exact add_eq_left.mp hsum
    · rintro ⟨other, hother, hmint⟩
      cases hfind.symm.trans hother
      have hends := find?_some hfind
      simp only [ends, Bool.and_eq_true, Bool.not_eq_true'] at hends
      refine ⟨turn, mem_of_find?_eq_some hfind, hends.1.2, hends.1.1,
        isCoinStake_of_marked hvin hmarked, hvin, ?_, fun hdue => ?_⟩
      · obtain ⟨first, rest, hrest⟩ := hmarked
        rw [hrest]
        rfl
      · rw [hvalue hdue]
        split_ifs with hm
        · rw [hmint hdue hm, add_zero]
        · exact add_zero _

/-! ### A wallet with three coins -/

namespace CoinStakeSample

open ColdStakeSample (key payeeScript)

theorem isNull_coin (n : Nat) : (⟨100, n⟩ : COutPoint).isNull = false := by
  simp [COutPoint.isNull]

/-- Coin 0 pays to a key hash and coin 1 to a script hash. Coin 2 has the shape of a cold staking
script, with another first byte. -/
def wallet : StakeWallet where
  node := ColdStakeSample.node [.developmentFee] [1, 2]
  txout o :=
    if o.n = 0 then ⟨1000 * COIN, payeeScript 1⟩
    else if o.n = 1 then ⟨1000 * COIN, [CScript.OP_HASH160, 0x14] ++ (key 1).bytes ++
      [CScript.OP_EQUAL]⟩
    else ⟨1000 * COIN, CScript.OP_ZEROCOINMINT :: (getScriptForStakeDelegation (key 1)
      (key 2)).tail⟩
  nStakeSplitThreshold := 500 * COIN
  getKey _ := some (replicate 33 2)
  serializeSize _ := 300
  signSignature _ _ := some [0x00]

def found (n : Nat) : StakeTurn := ⟨⟨⟨100, n⟩, isNull_coin n⟩, false, false, true⟩

/-- `CreateCoinStake` on top of block 99. -/
def created (turns : List StakeTurn) : Option CTransaction :=
  wallet.createCoinStake 99 turns (.paying [])

end CoinStakeSample

open CoinStakeSample in
/-- No outputs can be made for coin 1, and coin 0 comes after it. -/
theorem createCoinStake_after_failure : ∃ tx, created [found 1, found 0] = some tx ∧
      ∃ turn ∈ [found 1, found 0], wallet.Stakes 100 turn tx := by
  have hsome : (created [found 1, found 0]).isSome = true := by decide +kernel
  obtain ⟨tx, htx⟩ := isSome_iff_exists.mp hsome
  refine ⟨tx, htx, (createCoinStake_correct_iff wallet 99 _ (.paying []) tx htx).mpr
    ⟨found 0, ?_, ?_⟩⟩
  · have hfirst : wallet.ends ((99 : Nat) + 1) (found 1) = false := by decide +kernel
    have hsecond : wallet.ends ((99 : Nat) + 1) (found 0) = true := by decide +kernel
    simp only [find?_cons, hfirst, hsecond]
  · intro _ hmint
    exact absurd hmint (by decide +kernel)

open CoinStakeSample in
/-- With coin 1 alone the result has no input and one output. The masternodes of coin 2 are paid on
top of its stake. -/
theorem createCoinStake_empty :
    (∃ tx, created [found 1] = some tx ∧ tx.vin = [] ∧ tx.vout = [⟨0, []⟩] ∧
      ¬ ∃ turn ∈ [found 1], wallet.Stakes 100 turn tx) ∧
    (∃ tx, created [found 2] = some tx ∧
      ¬ ∃ turn ∈ [found 2], wallet.Stakes 100 turn tx) := by
  constructor
  · have hempty : (created [found 1]).any
        (fun tx => tx.vin.isEmpty && decide (tx.vout = [⟨0, []⟩])) = true := by decide +kernel
    obtain ⟨tx, htx, hparts⟩ := (any_eq_true _ _).mp hempty
    simp only [Bool.and_eq_true, List.isEmpty_iff, decide_eq_true_eq] at hparts
    refine ⟨tx, htx, hparts.1, hparts.2, ?_⟩
    rintro ⟨turn, -, hstakes⟩
    have hinput := hstakes.input
    rw [hparts.1] at hinput
    cases hinput
  · have hvalue : (created [found 2]).any (fun tx =>
        decide (totalValue tx.vout ≠ 1000 * COIN + wallet.node.env.blockValue 100)) = true := by
      decide +kernel
    obtain ⟨tx, htx, hne⟩ := (any_eq_true _ _).mp hvalue
    refine ⟨tx, htx, ?_⟩
    rintro ⟨turn, hturn, hstakes⟩
    obtain rfl := mem_singleton.mp hturn
    have hcoin : (wallet.txout (found 2).coin.outPoint).nValue = 1000 * COIN := by decide +kernel
    exact of_decide_eq_true hne (hcoin ▸ hstakes.value (by decide +kernel))

end StakeWallet

end Passion
