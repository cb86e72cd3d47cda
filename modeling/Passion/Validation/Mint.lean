import Mathlib.Algebra.Notation.Lemmas
import Passion.Validation.BlockRoundTrip
import Passion.Validation.Values

/-!
# What a block may create

`ConnectBlock` adds up the values of the transactions of a block in the 64-bit variables `nValueIn`,
`nValueOut` and `nFees`, and compares what the block creates with what `IsBlockValueValid` allows.
Inside a transaction every sum is checked against the money range; these three are not.

A block is read here as the list of its `Account`s: each transaction with the outputs that it
spends, which are in the undo data of the block. `MintSound` says that the block creates no more
than it may and that no sum overflows. **`connectBlock_mintSound_iff`**: for an accepted block this
holds iff the totals are below `2 ^ 63`.
-/

namespace Passion

open Lib (Map Prog Handler bind_eq_ok forM_ok)
open List
open Lib.Prog
open ViewM

/-! ## Sums over accounts -/

namespace Account

def totalIn (accounts : List Account) : Int := (accounts.map valueIn).sum
def totalOut (accounts : List Account) : Int := (accounts.map valueOut).sum
def totalFees (accounts : List Account) : Int := (accounts.map fee).sum

def totalSupply (accounts : List Account) : Int := (accounts.map supplyChange).sum

theorem totalSupply_eq (accounts : List Account) :
    totalSupply accounts = totalOut accounts - totalIn accounts := by
  induction accounts with
  | nil => rfl
  | cons a l ih =>
    unfold totalSupply totalOut totalIn at ih ⊢
    rw [map_cons, map_cons, map_cons, sum_cons, sum_cons, sum_cons, supplyChange_eq]
    omega

theorem sum_nonneg_of_prefix {f : Account → Int} {pre accounts : List Account}
    (hf : ∀ a ∈ accounts, 0 ≤ f a) (hpre : pre <+: accounts) :
    0 ≤ (pre.map f).sum ∧ (pre.map f).sum ≤ (accounts.map f).sum := by
  obtain ⟨rest, rfl⟩ := hpre
  have hnonneg : ∀ l : List Account, (∀ a ∈ l, 0 ≤ f a) → 0 ≤ (l.map f).sum := fun l hl =>
    sum_nonneg (by simpa using hl)
  have hp := hnonneg pre fun a ha => hf a (mem_append_left _ ha)
  have hr := hnonneg rest fun a ha => hf a (mem_append_right _ ha)
  rw [map_append, sum_append]
  exact ⟨hp, by omega⟩

end Account

/-- The transactions of a block with the outputs that they spend: the first one spends none, and
there is a record for each other one in the undo data. -/
def CBlock.accounts (block : CBlock) (undo : DiskUndo) : List Account :=
  block.vtx.zipWith Account.mk ([] :: undo.map fun txundo => txundo.map (·.out))

/-! ## One turn of the loop -/

/-- The variables of the loop hold the sums over the accounts, up to overflow. -/
structure Tallied (accounts : List Account) (s : ConnectState) : Prop where
  nValueIn : s.nValueIn = wrap64 (Account.totalIn accounts)
  nValueOut : s.nValueOut = wrap64 (Account.totalOut accounts)
  nFees : s.nFees = wrap64 (Account.totalFees accounts)
  nonneg : ∀ a ∈ accounts, a.Nonneg

open Account

section

variable {S : Type} {h : Handler ViewCmd ViewCmd.Answer ChainError S} {Ok : S → Prop}
  {shown : S → COutPoint → Coin} {env : ValidationEnv} {block : CBlock} {tx : CTransaction}
  {s s' : ConnectState} {accounts : List Account} {t t' : S} {nHeight nSpendHeight : Nat}
  {fScriptChecks : Bool}

theorem Tallied.snoc {a : Account} (hs : Tallied accounts s) (ha : a.Nonneg)
    (hin : s'.nValueIn = wrap64 (s.nValueIn + a.valueIn))
    (hout : s'.nValueOut = wrap64 (s.nValueOut + a.valueOut))
    (hfees : s'.nFees = wrap64 (s.nFees + a.fee)) : Tallied (accounts ++ [a]) s' := by
  refine ⟨?_, ?_, ?_, ?_⟩
  · rw [hin, hs.nValueIn, wrap64_add_left]
    simp [totalIn]
  · rw [hout, hs.nValueOut, wrap64_add_left]
    simp [totalOut]
  · rw [hfees, hs.nFees, wrap64_add_left]
    simp [totalFees]
  · intro b hb
    rcases mem_append.mp hb with hb | hb
    · exact hs.nonneg b hb
    · rw [mem_singleton.mp hb]
      exact ha

/-- The checks of `CheckBlock` that a transaction has passed, at a height without zerocoins. -/
structure CTransaction.Passed (env : ValidationEnv) (tx : CTransaction) : Prop where
  checked : tx.Checked env.params
  values : tx.ValuesChecked env.params

theorem connectPrecheck_no_zerocoins {nSigOps : Nat}
    (h : connectPrecheck env block nHeight tx nSigOps = .ok ())
    (hv5 : env.upgradeActive nHeight .v5_0 = true) : tx.containsZerocoins = false := by
  obtain ⟨_, -, h1⟩ := bind_eq_ok.1 h
  have hv5check : ∀ {f : Unit → Except ChainError Unit},
      (require (!(env.upgradeActive nHeight .v5_0 && tx.containsZerocoins))
        "ConnectBlock : v5 upgrade enforced, zerocoin disabled" >>= f) = .ok () →
      tx.containsZerocoins = false := by
    intro f hf
    obtain ⟨_, hreq, -⟩ := bind_eq_ok.1 hf
    simpa [hv5] using hreq
  by_cases hibd : (!env.isInitialBlockDownload) = true
  · rw [if_pos hibd] at h1
    obtain ⟨_, -, h2⟩ := bind_eq_ok.1 h1
    obtain ⟨_, -, h3⟩ := bind_eq_ok.1 h2
    exact hv5check h3
  · rw [if_neg hibd] at h1
    exact hv5check h1

section

variable [MerkleHash UInt256] {i : Nat} {t₁ t₂ : S} {nValueIn : CAmount} {vprevout : List Coin}
  (hran : RanTx h env block nHeight nSpendHeight fScriptChecks tx i s s' t t₁ t₂ t' nValueIn
    vprevout)
include hran

theorem RanTx.no_zerocoinSpend (hv5 : env.upgradeActive nHeight .v5_0 = true) :
    tx.hasZerocoinSpendInputs = false := by
  have hzc := connectPrecheck_no_zerocoins hran.precheck hv5
  rw [CTransaction.containsZerocoins, Bool.or_eq_false_iff] at hzc
  exact hzc.1

theorem RanTx.nValueIn_eq (hv5 : env.upgradeActive nHeight .v5_0 = true) :
    nValueIn = s.nValueIn := by
  have hinputs := hran.inputs
  simp only [connectInputs, hran.no_zerocoinSpend hv5, Bool.false_eq_true, if_false] at hinputs
  cases hcb : tx.isCoinBase with
  | true =>
    simp only [hcb, if_true, run_pure, Except.ok.injEq, Prod.mk.injEq] at hinputs
    exact hinputs.1.1.symm
  | false =>
    simp only [hcb] at hinputs
    obtain ⟨_, _, -, h1⟩ := run_bind_ok.1 hinputs
    obtain ⟨_, _, -, h2⟩ := run_bind_ok.1 h1
    obtain ⟨_, _, -, h3⟩ := run_bind_ok.1 h2
    obtain ⟨_, _, -, h4⟩ := run_bind_ok.1 h3
    obtain ⟨_, _, -, h5⟩ := run_bind_ok.1 h4
    obtain ⟨_, _, -, h6⟩ := run_bind_ok.1 h5
    simp only [run_pure, Except.ok.injEq, Prod.mk.injEq] at h6
    exact h6.1.1.symm

variable (htx : tx.Passed env) (hmax : env.params.nMaxMoneyOut < 2305843009213693952)
include htx hmax

theorem RanTx.nValueOut_eq (spent : List CTxOut) :
    s'.nValueOut = wrap64 (s.nValueOut + (⟨tx, spent⟩ : Account).valueOut) := by
  obtain ⟨v, hv, heq⟩ := hran.valueOut
  rw [heq, getValueOut_eq htx.values (by grind) hv spent]

variable (hv5 : env.upgradeActive nHeight .v5_0 = true)
include hv5

theorem Tallied.coinBase (hcb : tx.isCoinBase = true) (hs : Tallied accounts s) :
    Tallied (accounts ++ [⟨tx, []⟩]) s' := by
  have hvalues := hran.values
  simp only [connectValues, hcb, if_true, run_pure, Except.ok.injEq, Prod.mk.injEq] at hvalues
  have hfees := hvalues.1.1
  have hin := hvalues.1.2.symm.trans (hran.nValueIn_eq hv5)
  -- shielded data is refused in a coinbase
  have hbalance : tx.valueBalance = 0 := by
    cases hd : tx.sapData with
    | none => simp [CTransaction.valueBalance, hd]
    | some d =>
      refine valueBalance_of_no_data (Bool.eq_false_iff.mpr fun hdata => ?_)
      have hspends := (htx.checked.shielded d hd hdata).2.1
      simp [CTransaction.spendsCoins, hcb] at hspends
  have hzeroIn : (⟨tx, []⟩ : Account).valueIn = 0 := by
    simp [valueIn, hbalance]
  have hzeroFee : (⟨tx, []⟩ : Account).fee = 0 := by simp [fee, hcb]
  have houtputs := totalValue_nonneg htx.values.outputs
  refine hs.snoc ⟨hzeroIn.ge, ?_, hzeroFee.ge⟩ ?_ (hran.nValueOut_eq htx hmax _) ?_
  · exact add_nonneg houtputs (le_max_left ..)
  · rw [hin, hzeroIn, add_zero, hs.nValueIn, wrap64_wrap64]
  · rw [← hfees, hzeroFee, add_zero, hs.nFees, wrap64_wrap64]

theorem Tallied.spend (hmax' : 0 ≤ env.params.nMaxMoneyOut) (laws : ShowsCoins h Ok shown)
    (ht : Ok t) (hcb : tx.isCoinBase = false) (hs : Tallied accounts s) :
    Tallied (accounts ++ [⟨tx, vprevout.map (·.out)⟩]) s' := by
  have hspends : tx.spendsCoins = true := by
    simp [CTransaction.spendsCoins, hcb, hran.no_zerocoinSpend hv5]
  obtain ⟨ht1, hshown1⟩ := laws.run_read (reads_connectInputs ..) ht hran.inputs
  obtain ⟨ht2, hshown2⟩ := laws.run_read (reads_connectValues ..) ht1 hran.values
  have hspent := laws.run_updateCoins htx.checked hspends ht2 hran.update
  rw [hshown2] at hspent
  obtain ⟨hnonneg, hfees, hin⟩ := laws.run_connectValues hmax' hmax htx.values hspends ht1
    hran.values
    ⟨tx, vprevout.map (·.out)⟩ (by rw [hspent])
  refine hs.snoc hnonneg ?_ (hran.nValueOut_eq htx hmax _) ?_
  · rw [← hran.nValueIn_eq hv5]
    exact hin
  · refine hfees.trans ?_
    split_ifs with hstake
    · have hzeroFee : (⟨tx, vprevout.map (·.out)⟩ : Account).fee = 0 := by
        simp [fee, hstake]
      rw [hzeroFee, add_zero, hs.nFees, wrap64_wrap64]
    · rfl

end

/-! ## The loop -/

variable [MerkleHash UInt256] (laws : ShowsCoins h Ok shown)
  (hmax : env.params.nMaxMoneyOut < 2305843009213693952) (hmax' : 0 ≤ env.params.nMaxMoneyOut)
  (hv5 : env.upgradeActive nHeight .v5_0 = true)
include laws hmax hmax' hv5

theorem tallied_connectTxs {l : List CTransaction} {k : Nat}
    (hl : ∀ tx ∈ l, tx.isCoinBase = false ∧ tx.Passed env) (ht : Ok t) (hs : Tallied accounts s)
    (hrun : ((l.zipIdx (k + 1)).foldlM (connectTx env block nHeight nSpendHeight fScriptChecks)
      s).run h t = .ok (s', t')) :
    ∃ coins : CBlockUndo, s'.vtxundo = s.vtxundo ++ coins ∧
      Tallied (accounts ++ l.zipWith mk (coins.map fun c => c.map (·.out))) s' := by
  induction l generalizing s t k accounts with
  | nil =>
    cases hrun
    exact ⟨[], by simp, by simpa using hs⟩
  | cons tx l ih =>
    obtain ⟨s1, t₁, hturn, hrest⟩ := run_bind_ok.1 hrun
    obtain ⟨_, _, _, vprevout, hran⟩ := run_connectTx_ok hturn
    obtain ⟨⟨hcb, htx⟩, hl⟩ := forall_mem_cons.mp hl
    have hs1 := hs.spend hran htx hmax hv5 hmax' laws ht hcb
    obtain ⟨coins, hundo, htallied⟩ := ih hl (laws.run_kept ht hturn) hs1 hrest
    refine ⟨vprevout :: coins, ?_, ?_⟩
    · rw [hundo, hran.vtxundo]
      simp
    · simpa using htallied

theorem tallied_connectLoop {first : CTransaction} {rest : List CTransaction}
    {tree : SaplingMerkleTree} (hfirst : first.isCoinBase = true ∧ first.Passed env)
    (hrest : ∀ tx ∈ rest, tx.isCoinBase = false ∧ tx.Passed env) (ht : Ok t)
    (hrun : ((first :: rest).zipIdx.foldlM (connectTx env block nHeight nSpendHeight fScriptChecks)
      ⟨0, 0, 0, 0, tree, []⟩).run h t = .ok (s', t')) :
    Tallied ((first :: rest).zipWith mk ([] :: s'.vtxundo.map fun c => c.map (·.out))) s' := by
  have hempty : Tallied [] ⟨0, 0, 0, 0, tree, []⟩ :=
    ⟨rfl, rfl, rfl, nofun⟩
  obtain ⟨s1, t₁, hturn, hloop⟩ := run_bind_ok.1 hrun
  obtain ⟨_, _, _, vprevout, hran⟩ := run_connectTx_ok hturn
  have hs1 := hempty.coinBase hran hfirst.2 hmax hv5 hfirst.1
  obtain ⟨coins, hundo, htallied⟩ :=
    tallied_connectTxs laws hmax hmax' hv5 hrest (laws.run_kept ht hturn) hs1 hloop
  have hnone : s1.vtxundo = [] := by
    rw [hran.vtxundo, if_pos rfl]
  rw [hundo, hnone]
  exact htallied

end

/-! ## The block -/

open CBlock

open CCoinsViewCache (handler showsCoins sample inv_sample simulates)

section

variable {env : ValidationEnv} {block : CBlock}

theorem CBlock.Checked.passed (hblock : block.Checked env) (hmax : 0 ≤ env.params.nMaxMoneyOut)
    {tx : CTransaction} (htx : tx ∈ block.vtx) : tx.Passed env := by
  obtain ⟨z, hz⟩ := hblock.checked tx htx
  exact ⟨checked_of_checkTransaction hz, valuesChecked_of_checkTransaction hz hmax⟩

/-- `GetBlockValue` and what `IsBlockValueValid` adds to it; on mainnet it always compares. -/
def mintBound (env : ValidationEnv) (nHeight : Nat) : Int :=
  getBlockValue env.params.network nHeight + (budgetAllowance env nHeight).getD 0

/-- A block with these accounts creates no more than it may, and no 64-bit sum of `ConnectBlock`
overflows. -/
structure MintSound (env : ValidationEnv) (nHeight : Nat) (isProofOfStake : Bool)
    (accounts : List Account) : Prop where
  bound : totalSupply accounts ≤ mintBound env nHeight
  boundPoS : isProofOfStake = true →
    totalSupply accounts ≤ mintBound env nHeight - totalFees accounts
  running : ∀ pre, pre <+: accounts → Fits64 (totalIn pre) ∧ Fits64 (totalOut pre) ∧
    Fits64 (totalFees pre)
  mint : Fits64 (totalOut accounts - totalIn accounts) ∧
    Fits64 (totalOut accounts - totalIn accounts + totalFees accounts)
  expected : isProofOfStake = false →
    Fits64 (getBlockValue env.params.network nHeight + totalFees accounts)

structure TotalsFit (env : ValidationEnv) (nHeight : Nat) (isProofOfStake : Bool)
    (accounts : List Account) : Prop where
  valueIn : totalIn accounts < 9223372036854775808
  valueOut : totalOut accounts < 9223372036854775808
  expected : isProofOfStake = false →
    getBlockValue env.params.network nHeight + totalFees accounts < 9223372036854775808

variable {nHeight : Nat} {accounts : List Account} {s : ConnectState}

theorem getBlockValue_main_nonneg (nHeight : Int) : 0 ≤ getBlockValue .main nHeight := by
  refine mul_nonneg ?_ (by decide)
  repeat' apply ite_nonneg
  all_goals decide

/-- On mainnet there is always an amount to compare with, and it is a 64-bit number or a budget. -/
theorem budgetAllowance_main (hmain : env.params = .main) (nHeight : Nat) :
    ∃ a, budgetAllowance env nHeight = some a ∧ -9223372036854775808 ≤ a := by
  have hbudget : 0 ≤ getTotalBudget env.params nHeight := by
    have hvalue := getBlockValue_main_nonneg nHeight
    rw [hmain]
    exact mul_nonneg (Int.tdiv_nonneg hvalue (by decide)) (by decide)
  unfold budgetAllowance
  split_ifs with hsynced hcycle hnet hsuper
  · rw [hmain] at hnet
    cases hnet
  · exact ⟨_, rfl, le_trans (by decide) hbudget⟩
  · exact ⟨0, rfl, by decide⟩
  · exact ⟨_, rfl, (fits_wrap64 _).1⟩
  · exact ⟨0, rfl, by decide⟩

/-- What the comparison says about the numbers themselves: wrapping the bound only lowers it. -/
theorem le_of_isBlockValueValid (hmain : env.params = .main) {expected minted : CAmount}
    (h : isBlockValueValid env nHeight expected minted = true) (hexp : 0 ≤ expected) :
    minted ≤ expected + (budgetAllowance env nHeight).getD 0 := by
  obtain ⟨a, ha, hge⟩ := budgetAllowance_main hmain nHeight
  unfold isBlockValueValid at h
  rw [ha] at h ⊢
  have hle : minted ≤ wrap64 (expected + a) := of_decide_eq_true h
  exact le_trans hle (wrap64_le (by grind))

/-- What `ConnectBlock` expects the block to create. -/
def expectedMint (env : ValidationEnv) (block : CBlock) (nHeight : Nat) (nFees : CAmount) :
    CAmount :=
  if block.isProofOfWork then wrap64 (getBlockValue env.params.network nHeight + nFees)
  else getBlockValue env.params.network nHeight

/-- **The comparison at the end is sound iff the totals fit.** -/
theorem mintSound_iff_totalsFit (hmain : env.params = .main) (hs : Tallied accounts s)
    (hvalid : isBlockValueValid env nHeight (expectedMint env block nHeight s.nFees)
      (wrap64 (wrap64 (s.nValueOut - s.nValueIn) + s.nFees)) = true) :
    MintSound env nHeight block.isProofOfStake accounts ↔
      TotalsFit env nHeight block.isProofOfStake accounts := by
  constructor
  · intro hsound
    obtain ⟨hin, hout, -⟩ := hsound.running accounts prefix_rfl
    exact ⟨hin.2, hout.2, fun hpow => (hsound.expected hpow).2⟩
  intro hfit
  have hin0 := fun pre (hpre : pre <+: accounts) =>
    sum_nonneg_of_prefix (fun a ha => (hs.nonneg a ha).valueIn) hpre
  have hout0 := fun pre (hpre : pre <+: accounts) =>
    sum_nonneg_of_prefix (fun a ha => (hs.nonneg a ha).valueOut) hpre
  have hfee0 := fun pre (hpre : pre <+: accounts) =>
    sum_nonneg_of_prefix (fun a ha => (hs.nonneg a ha).fee) hpre
  have hout : 0 ≤ totalOut accounts := (hout0 accounts prefix_rfl).1
  have hfees : 0 ≤ totalFees accounts := (hfee0 accounts prefix_rfl).1
  have hle : totalFees accounts ≤ totalIn accounts :=
    sum_le_sum fun a ha => (hs.nonneg a ha).fee_le
  have hfitIn := hfit.valueIn
  have hfitOut := hfit.valueOut
  have hvalue : 0 ≤ getBlockValue env.params.network nHeight := by
    rw [hmain]
    exact getBlockValue_main_nonneg nHeight
  -- with totals that fit, the variables are the sums
  have hnIn : s.nValueIn = totalIn accounts := by
    rw [hs.nValueIn, wrap64_of_fits ⟨by omega, by omega⟩]
  have hnOut : s.nValueOut = totalOut accounts := by
    rw [hs.nValueOut, wrap64_of_fits ⟨by omega, by omega⟩]
  have hnFees : s.nFees = totalFees accounts := by
    rw [hs.nFees, wrap64_of_fits ⟨by omega, by omega⟩]
  rw [hnIn, hnOut, hnFees, wrap64_add_left, wrap64_of_fits ⟨by omega, by omega⟩] at hvalid
  have hsupply := totalSupply_eq accounts
  have hbound : block.isProofOfStake = true →
      totalSupply accounts ≤ mintBound env nHeight - totalFees accounts := by
    intro hpos
    have hexpected : expectedMint env block nHeight (totalFees accounts) =
        getBlockValue env.params.network nHeight := by
      simp [expectedMint, isProofOfWork, hpos]
    rw [hexpected] at hvalid
    have hcmp := le_of_isBlockValueValid hmain hvalid hvalue
    unfold mintBound
    grind
  refine ⟨?_, hbound, ?_, ⟨⟨by omega, by omega⟩, by omega, by omega⟩, ?_⟩
  · cases hpos : block.isProofOfStake with
    | true =>
      have := hbound hpos
      omega
    | false =>
      have hfitMint := hfit.expected hpos
      have hexpected : expectedMint env block nHeight (totalFees accounts) =
          getBlockValue env.params.network nHeight + totalFees accounts := by
        rw [expectedMint, isProofOfWork, hpos, Bool.not_false, if_pos rfl,
          wrap64_of_fits ⟨by grind, hfitMint⟩]
      have hcmp := le_of_isBlockValueValid hmain hvalid (by grind)
      unfold mintBound
      grind
  · intro pre hpre
    have hi := hin0 pre hpre
    have ho := hout0 pre hpre
    have hf := hfee0 pre hpre
    unfold totalIn totalOut totalFees at *
    exact ⟨⟨by omega, by omega⟩, ⟨by omega, by omega⟩, by omega, by omega⟩
  · intro hpow
    exact ⟨by grind, hfit.expected hpow⟩

variable [MerkleHash UInt256] {pindex pprev : CBlockIndex} {undo : DiskUndo} {σ : Type}
  [CCoinsView σ] [LawfulCoinsView σ] [LawfulSaplingView σ] [LawfulView σ]

theorem tallied_connectBlock {view view' : CCoinsViewCache σ} (hmain : env.params = .main)
    (hv5 : env.upgradeActive pindex.nHeight .v5_0 = true) (hbase : LawfulView.Inv view.base)
    (hconnect : (connectBlock env block pindex pprev).run handler view = .ok (undo, view')) :
    ∃ s, Tallied (block.accounts undo) s ∧
      isBlockValueValid env pindex.nHeight (expectedMint env block pindex.nHeight s.nFees)
        (wrap64 (wrap64 (s.nValueOut - s.nValueIn) + s.nFees)) = true := by
  obtain ⟨t0, t₁, t₂, tree, s, hran⟩ := run_connectBlock_ok hconnect
  obtain ⟨_, -, hfooter⟩ := bind_eq_ok.1 hran.footer
  refine ⟨s, ?_, require_eq_ok.1 hfooter⟩
  have hblock := run_connectStart_checked hran.start
  have hmax : env.params.nMaxMoneyOut < 2305843009213693952 := by
    rw [hmain]
    decide
  have hmax' : 0 ≤ env.params.nMaxMoneyOut := by
    rw [hmain]
    decide
  have hOk := showsCoins.run_kept hbase hran.start
  have hloop := hran.loop
  have hfirst := hblock.first
  have hothers := hblock.others
  have hpassed : ∀ tx ∈ block.vtx, tx.Passed env := fun tx htx => hblock.passed hmax' htx
  have hspent : undo.map (fun txundo => txundo.map (·.out)) =
      s.vtxundo.map fun c => c.map (·.out) := by
    rw [hran.undo_eq, undoWriteToDisk]
    simp [TxInUndo.serialize]
  unfold accounts
  rw [hspent]
  cases hvtx : block.vtx with
  | nil =>
    rw [hvtx] at hfirst
    cases hfirst
  | cons first rest =>
    rw [hvtx] at hloop hfirst hothers hpassed
    exact tallied_connectLoop showsCoins hmax hmax' hv5 ⟨hfirst, hpassed first mem_cons_self⟩
      (fun tx htx => ⟨hothers tx htx, hpassed tx (mem_cons_of_mem _ htx)⟩) hOk hloop

/-- **An accepted block creates no more than it may, and no sum overflows, iff its totals are 64-bit
numbers.** -/
theorem connectBlock_mintSound_iff {view view' : CCoinsViewCache σ} (hmain : env.params = .main)
    (hv5 : env.upgradeActive pindex.nHeight .v5_0 = true) (hbase : LawfulView.Inv view.base)
    (hconnect : (connectBlock env block pindex pprev).run handler view = .ok (undo, view')) :
    MintSound env pindex.nHeight block.isProofOfStake (block.accounts undo) ↔
      TotalsFit env pindex.nHeight block.isProofOfStake (block.accounts undo) := by
  obtain ⟨s, hs, hvalid⟩ := tallied_connectBlock hmain hv5 hbase hconnect
  exact mintSound_iff_totalsFit hmain hs hvalid

end

/-! ## A block that is within its bound, and one that is not -/

section

attribute [local instance] unitHash

/-- The block of `CBlock.sample` at height 100. -/
theorem connectBlock_mintSound_sample : ∃ undo view',
      (connectBlock (.sample 99) .sample (.sample 100) (.sampleParent 99)).run
        handler (sample (.sampleAt 7)) = .ok (undo, view') ∧
      MintSound (.sample 99) 100 true (CBlock.sample.accounts undo) := by
  have hconnect : ∃ undo view', (connectBlock (.sample 99) .sample (.sample 100)
      (.sampleParent 99)).run handler (sample (.sampleAt 7)) =
        .ok (undo, view') ∧ totalIn (sample.accounts undo) = 700 ∧
          totalOut (sample.accounts undo) = 700 := ⟨_, _, rfl, rfl, rfl⟩
  obtain ⟨undo, view', hconnect, hin, hout⟩ := hconnect
  refine ⟨undo, view', hconnect, ?_⟩
  refine (connectBlock_mintSound_iff rfl (by decide) (inv_sample rfl).base
    hconnect).2 ⟨?_, ?_, nofun⟩
  · rw [hin]
    decide
  · rw [hout]
    decide

def Coin.worthless : Coin := ⟨false, false, ⟨0, [0x51]⟩, 3⟩

/-- The first `n` outputs of a transaction, all of them without value. -/
def worthlessCoins : Nat → Map COutPoint Coin
  | 0 => ∅
  | n + 1 => (worthlessCoins n).insert ⟨5, n⟩ .worthless

theorem lookup_worthlessCoins (n : Nat) (o : COutPoint) :
    (worthlessCoins n).lookup o = if o.hash = 5 ∧ o.n < n then some .worthless else none := by
  induction n with
  | zero => simp [worthlessCoins]
  | succ n ih =>
    rw [worthlessCoins, Map.lookup_insert', ih]
    obtain ⟨hash, k⟩ := o
    by_cases hk : hash = 5 ∧ k = n
    · obtain ⟨rfl, rfl⟩ := hk
      simp
    · have hiff : (hash = 5 ∧ k < n) ↔ (hash = 5 ∧ k < n + 1) := by grind
      have hne : (⟨hash, k⟩ : COutPoint) ≠ ⟨5, n⟩ := by simpa using hk
      simp only [hne, if_false, hiff]

/-- A transaction that spends the coin `k`: a coinstake that makes the largest amount out of it, or
one that moves it. -/
def CTransaction.spendWorthless (stake : Bool) (k : Nat) : CTransaction :=
  ⟨1, 0, [⟨⟨5, k⟩, [], 0⟩],
    if stake then [⟨0, []⟩, ⟨2100000000000000, [0x51]⟩] else [⟨0, [0x51]⟩], none, none,
    BitVec.ofNat 256 (200 + k)⟩

def greedyStakes : Nat → Nat → List CTransaction
  | _, 0 => []
  | k, m + 1 => .spendWorthless true k :: greedyStakes (k + 1) m

def CTransaction.emptyCoinBase : CTransaction :=
  ⟨1, 0, [⟨.null, [1, 1], 0⟩], [⟨0, []⟩], none, none, 101⟩

open CTransaction (spendWorthless emptyCoinBase)

/-- A proof-of-work block with coinstakes from the third transaction on. -/
def CBlock.greedy (m : Nat) : CBlock where
  vtx := .emptyCoinBase :: .spendWorthless false 0 :: greedyStakes 1 m
  hash := 12
  hashFinalSaplingRoot := 1
  nTime := 1600000000

section

variable {st : Chainstate} {k m : Nat} (block : CBlock) (tree : SaplingMerkleTree)

/-- The coins from `k` on are there, and the transactions that spend them are new. -/
structure Worthless (k m : Nat) (st : Chainstate) : Prop where
  coins : ∀ j, k ≤ j → j < k + m → st.coins ⟨5, j⟩ = some .worthless
  fresh : ∀ j, k ≤ j → j < k + m → ∀ i, st.coins ⟨BitVec.ofNat 256 (200 + j), i⟩ = none
  few : k + m ≤ 5000

theorem ofNat_ne {a b : Nat} (ha : a < 6000) (hb : b < 6000) (hab : a ≠ b) :
    BitVec.ofNat 256 a ≠ BitVec.ofNat 256 b := by
  intro he
  have := congrArg BitVec.toNat he
  simp only [BitVec.toNat_ofNat] at this
  omega

theorem Worthless.undoable (hst : Worthless k (m + 1) st) (stake : Bool) :
    Undoable (.spendWorthless stake k) st where
  nodup _ := nodup_singleton _
  coins _ txin ht := by
    rw [mem_singleton.mp ht]
    exact ⟨_, hst.coins k le_rfl (by omega), rfl, by decide, rfl⟩
  fresh i _ := hst.fresh k le_rfl (by omega) i
  notNull := by cases stake <;> simp [spendWorthless, CTxOut.isNull]
  unspent _ hnf := nomatch hnf
  noSpends _ := rfl

theorem Worthless.next (hst : Worthless k (m + 1) st) (stake : Bool) :
    Worthless (k + 1) m ((spendWorthless stake k).update 20 st) := by
  have hfew := hst.few
  refine ⟨fun j hj hlt => ?_, fun j hj hlt i => ?_, by omega⟩
  · have hold := hst.coins j (by omega) (by omega)
    have hne : BitVec.ofNat 256 5 ≠ BitVec.ofNat 256 (200 + k) :=
      ofNat_ne (by decide) (by omega) (by omega)
    refine (updatedCoins_of_ne hne).trans ?_
    rw [hold, if_neg]
    simp [spendWorthless]
    omega
  · have hold := hst.fresh j (by omega) (by omega) i
    refine (updatedCoins_of_ne (ofNat_ne (by omega) (by omega) (by omega))).trans ?_
    rw [hold, ite_self]

theorem Worthless.connectTx (hst : Worthless k (m + 1) st) (stake : Bool) (i : Nat) (v : Int)
    (undos : CBlockUndo) :
    plainRun (connectTx (.sample 19) block 20 20 true ⟨0, 0, wrap64 v, 0, tree, undos⟩
      (.spendWorthless stake k, i + 1)) st =
      .ok (⟨0, 0, wrap64 (v + if stake then 2100000000000000 else 0), 0, tree,
        undos ++ [[.worthless]]⟩, (spendWorthless stake k).update 20 st) := by
  have hcoin := hst.coins k le_rfl (by omega)
  have haccess : plainRun (accessCoin ⟨5, k⟩) st = .ok (.worthless, st) := by
    show Except.ok ((st.coins ⟨5, k⟩).getD Coin.empty, st) = _
    rw [hcoin]
    rfl
  have hhave : plainRun (haveInputs (.spendWorthless stake k)) st = .ok (true, st) := by
    show plainRun (haveCoins [⟨⟨5, k⟩, [], 0⟩]) st = _
    rw [plainRun_haveCoins, all_cons, hcoin]
    rfl
  have hinputs : plainRun (connectInputs (.sample 19) 20 (.spendWorthless stake k) 0
      (0 + getLegacySigOpCount (.sample 19) (.spendWorthless stake k))) st = .ok ((0, 0), st) := by
    have hsig : getLegacySigOpCount (.sample 19) (.spendWorthless stake k) = 0 := by
      cases stake <;> rfl
    rw [hsig]
    exact plainRun_bind_ok.2 ⟨true, st, hhave, rfl⟩
  have hvalueIn : plainRun (getValueIn (.spendWorthless stake k)) st = .ok (0, st) := by
    refine plainRun_bind_ok.2 ⟨0, st, plainRun_bind_ok.2 ⟨0, st, ?_, rfl⟩, rfl⟩
    exact plainRun_bind_ok.2 ⟨_, _, haccess, rfl⟩
  have hcheck : plainRun (checkInputs (.sample 19) (.spendWorthless stake k) 20 true) st =
      .ok ((), st) := by
    refine plainRun_bind_ok.2 ⟨(), st, ?_, ?_⟩
    · refine plainRun_bind_ok.2 ⟨true, st, hhave, plainRun_bind_ok.2 ⟨(), st, rfl, ?_⟩⟩
      refine plainRun_bind_ok.2 ⟨true, st, rfl, plainRun_bind_ok.2 ⟨(), st, rfl, ?_⟩⟩
      refine plainRun_bind_ok.2 ⟨0, st, plainRun_bind_ok.2 ⟨0, st, ?_, rfl⟩, by cases stake <;> rfl⟩
      exact plainRun_bind_ok.2 ⟨_, _, haccess, rfl⟩
    · refine plainRun_bind_ok.2 ⟨(), st, ?_, rfl⟩
      exact plainRun_bind_ok.2 ⟨_, _, haccess, rfl⟩
  have hvalues : plainRun (connectValues (.sample 19) 20 true (.spendWorthless stake k) 0 0) st =
      .ok ((0, 0), st) := by
    refine plainRun_bind_ok.2 ⟨0, st, hvalueIn, ?_⟩
    exact plainRun_bind_ok.2 ⟨0, st, by cases stake <;> rfl,
      plainRun_bind_ok.2 ⟨(), st, hcheck, rfl⟩⟩
  have hupdate : plainRun (updateCoins (.sample 19) (.spendWorthless stake k) 20
      (skipInvalidUTXOS (.sample 19) 20)) st =
        .ok ([.worthless], (spendWorthless stake k).update 20 st) := by
    rw [plainRun_updateCoins (hst.undoable stake) fun _ => rfl]
    show Except.ok ([(st.coins ⟨5, k⟩).getD Coin.empty], _) = _
    rw [hcoin]
    rfl
  refine plainRun_bind_ok.2 ⟨(), st, by cases stake <;> rfl, ?_⟩
  refine plainRun_bind_ok.2 ⟨(0, 0), st, hinputs, plainRun_bind_ok.2 ⟨(0, 0), st, hvalues, ?_⟩⟩
  refine plainRun_bind_ok.2 ⟨if stake then 2100000000000000 else 0, st, by cases stake <;> rfl, ?_⟩
  refine plainRun_bind_ok.2 ⟨_, _, hupdate, plainRun_bind_ok.2 ⟨tree, _, rfl, ?_⟩⟩
  rw [wrap64_add_left]
  rfl

theorem Worthless.connectTxs (hst : Worthless k m st) (i : Nat) (v : Int) (undos : CBlockUndo) :
    ∃ st', plainRun (((greedyStakes k m).zipIdx (i + 1)).foldlM
      (Passion.connectTx (.sample 19) block 20 20 true) ⟨0, 0, wrap64 v, 0, tree, undos⟩) st =
        .ok (⟨0, 0, wrap64 (v + m * 2100000000000000), 0, tree,
          undos ++ replicate m [.worthless]⟩, st') := by
  induction m generalizing k st i v undos with
  | zero => exact ⟨st, by simp [greedyStakes]⟩
  | succ m ih =>
    obtain ⟨st', hrest⟩ := ih (hst.next true) (i + 1) (v + 2100000000000000)
      (undos ++ [[.worthless]])
    refine ⟨st', plainRun_bind_ok.2 ⟨_, _, hst.connectTx block tree true i v undos, ?_⟩⟩
    rw [if_pos rfl, hrest]
    have hsum : v + 2100000000000000 + m * 2100000000000000 =
        v + ((m + 1)) * 2100000000000000 := by
      omega
    rw [hsum, append_assoc]
    rfl

theorem plainRun_emptyCoinBase (hfresh : st.coins ⟨101, 0⟩ = none) :
    plainRun
      (connectTx (.sample 19) block 20 20 true ⟨0, 0, 0, 0, tree, []⟩ (.emptyCoinBase, 0)) st =
      .ok (⟨0, 0, 0, 0, tree, []⟩, emptyCoinBase.update 20 st) := by
  have hundoable : Undoable .emptyCoinBase st := by
    refine ⟨nofun, nofun, fun i hi => ?_, by decide,
      nofun, fun _ => rfl⟩
    obtain rfl : i = 0 := Nat.lt_one_iff.mp hi
    exact hfresh
  refine plainRun_bind_ok.2 ⟨(), st, rfl, plainRun_bind_ok.2 ⟨(0, 0), st, rfl, ?_⟩⟩
  refine plainRun_bind_ok.2 ⟨(0, 0), st, rfl, plainRun_bind_ok.2 ⟨0, st, rfl, ?_⟩⟩
  refine plainRun_bind_ok.2 ⟨_, _, plainRun_updateCoins hundoable fun _ => rfl, ?_⟩
  exact plainRun_bind_ok.2 ⟨tree, _, rfl, rfl⟩

theorem mem_greedyStakes {tx : CTransaction} (h : tx ∈ greedyStakes k m) :
    ∃ j, tx = .spendWorthless true j := by
  induction m generalizing k with
  | zero => cases h
  | succ m ih =>
    rcases mem_cons.mp h with rfl | h
    · exact ⟨k, rfl⟩
    · exact ih h

theorem checkBlock_greedy (m : Nat) : checkBlock (.sample 19) (.greedy m) = .ok () := by
  have hothers : ((greedy m).vtx.drop 1).any CTransaction.isCoinBase = false := by
    rw [any_eq_false]
    intro tx htx
    rcases mem_cons.mp htx with rfl | htx
    · decide
    · obtain ⟨j, rfl⟩ := mem_greedyStakes htx
      exact Bool.false_ne_true
  refine bind_eq_ok.2 ⟨(), rfl, bind_eq_ok.2 ⟨(), rfl, bind_eq_ok.2 ⟨(), ?_, ?_⟩⟩⟩
  · rw [hothers]
    rfl
  · refine forM_ok fun tx htx => ?_
    rcases mem_cons.mp htx with rfl | htx
    · rfl
    rcases mem_cons.mp htx with rfl | htx
    · rfl
    · obtain ⟨j, rfl⟩ := mem_greedyStakes htx
      rfl

theorem Worthless.emptyCoinBase (hst : Worthless k m st) :
    Worthless k m (emptyCoinBase.update 20 st) := by
  have hfew := hst.few
  have hother : ∀ {o : COutPoint}, o.hash ≠ BitVec.ofNat 256 101 →
      (CTransaction.emptyCoinBase.update 20 st).coins o = st.coins o :=
    fun ho => (updatedCoins_of_ne ho).trans rfl
  refine ⟨fun j hj hlt => ?_, fun j hj hlt i => ?_, hfew⟩
  · rw [hother (ofNat_ne (by decide) (by decide) (by decide))]
    exact hst.coins j hj hlt
  · rw [hother (ofNat_ne (by omega) (by decide) (by omega))]
    exact hst.fresh j hj hlt i

theorem plainRun_greedyLoop (hst : Worthless 0 (m + 1) st) (hfresh : st.coins ⟨101, 0⟩ = none) :
    ∃ st', plainRun ((greedy m).vtx.zipIdx.foldlM
      (connectTx (.sample 19) block 20 20 true) ⟨0, 0, 0, 0, tree, []⟩) st =
        .ok (⟨0, 0, wrap64 (m * 2100000000000000), 0, tree,
          replicate (m + 1) [.worthless]⟩, st') := by
  have hbase := plainRun_emptyCoinBase block tree hfresh
  have hmove := hst.emptyCoinBase.connectTx block tree false 0 0 []
  obtain ⟨st', hstakes⟩ :=
    (hst.emptyCoinBase.next false).connectTxs block tree 1 0 [[.worthless]]
  simp only [zero_add] at hstakes
  refine ⟨st', ?_⟩
  refine plainRun_bind_ok.2 ⟨_, _, hbase, ?_⟩
  refine plainRun_bind_ok.2 ⟨_, _, hmove, ?_⟩
  exact hstakes

theorem plainRun_connectStart_greedy (hbest : st.bestBlock = 11)
    (htree : st.sapling.anchors st.sapling.bestAnchor = some tree) :
    plainRun (connectStart (.sample 19) (.greedy m) (.sample 20) (.sampleParent 19)) st =
      .ok (tree, st) := by
  have hcheck : plainRun (check (checkBlock (.sample 19) (.greedy m))) st = .ok ((), st) := by
    rw [checkBlock_greedy]
    rfl
  refine plainRun_bind_ok.2 ⟨(), st, hcheck, plainRun_bind_ok.2 ⟨st.bestBlock, st, rfl, ?_⟩⟩
  rw [if_neg (show ¬ st.bestBlock ≠ (CBlockIndex.sampleParent 19).hash from not_not.mpr hbest)]
  refine plainRun_bind_ok.2 ⟨(), st, rfl, plainRun_bind_ok.2 ⟨st.sapling.bestAnchor, st, rfl, ?_⟩⟩
  refine plainRun_bind_ok.2 ⟨some tree, st, ?_, rfl⟩
  rw [← htree]
  rfl

/-- The whole block, if the sum of the outputs wraps to a negative number. -/
theorem plainRun_greedy (hst : Worthless 0 (m + 1) st) (hfresh : st.coins ⟨101, 0⟩ = none)
    (hbest : st.bestBlock = 11) (htree : st.sapling.anchors st.sapling.bestAnchor = some tree)
    (hwrap : wrap64 (m * 2100000000000000) < 0) :
    ∃ st', plainRun (connectBlock (.sample 19) (.greedy m) (.sample 20) (.sampleParent 19)) st =
      .ok (undoWriteToDisk (replicate (m + 1) [.worthless]), st') := by
  obtain ⟨st1, hloop⟩ := plainRun_greedyLoop (.greedy m) tree hst hfresh
  have hfooter : connectFooter (.sample 19) (.greedy m) 20
      ⟨0, 0, wrap64 (m * 2100000000000000), 0, tree, replicate (m + 1) [.worthless]⟩ =
        .ok () := by
    refine bind_eq_ok.2 ⟨(), ?_, require_eq_ok.2 ?_⟩
    · simp [root_unitHash, greedy]
    · have hvalid : ∀ minted : CAmount, isBlockValueValid (.sample 19) 20
          (if (greedy m).isProofOfWork then wrap64 (getBlockValue .main 20 + 0)
            else getBlockValue .main 20) minted = decide (minted ≤ 100000000) := fun _ => rfl
      refine (hvalid _).trans ?_
      rw [sub_zero, add_zero, wrap64_wrap64, wrap64_wrap64, decide_eq_true_eq]
      exact le_trans hwrap.le (by decide)
  refine ⟨{ st1 with sapling := st1.sapling.push tree, bestBlock := (CBlockIndex.sample 20).hash },
    plainRun_bind_ok.2 ⟨tree, st, plainRun_connectStart_greedy tree hbest htree, ?_⟩⟩
  refine plainRun_bind_ok.2 ⟨_, st1, hloop, ?_⟩
  refine plainRun_bind_ok.2 ⟨(), _, plainRun_pushAnchor (by rw [root_unitHash]; decide) st1, ?_⟩
  refine plainRun_bind_ok.2 ⟨(), { st1 with sapling := st1.sapling.push tree }, ?_, ?_⟩
  · rw [show (CBlockIndex.sample 20).nHeight = 20 from rfl, hfooter]
    rfl
  · exact plainRun_bind_ok.2 ⟨(), _, plainRun_setBestBlock (CBlockIndex.sample 20).hash_ne_zero _,
      rfl⟩

theorem totalSupply_greedy (m : Nat) : totalSupply ((greedy m).accounts
      (undoWriteToDisk (replicate (m + 1) [.worthless]))) = m * 2100000000000000 := by
  have hstakes : ∀ m k, totalSupply ((greedyStakes k m).zipWith mk
      (replicate m [Coin.worthless.out])) = m * 2100000000000000 := by
    intro m
    induction m with
    | zero => exact fun k => rfl
    | succ m ih =>
      intro k
      have hrest := ih (k + 1)
      have hone : (⟨.spendWorthless true k, [Coin.worthless.out]⟩ : Account).supplyChange =
          2100000000000000 := rfl
      unfold totalSupply at hrest ⊢
      rw [greedyStakes, replicate_succ, zipWith_cons_cons, map_cons, sum_cons]
      omega
  have hundo : (undoWriteToDisk (replicate (m + 1) [Coin.worthless])).map
      (fun txundo => txundo.map (·.out)) =
        [Coin.worthless.out] :: replicate m [Coin.worthless.out] := by
    simp [undoWriteToDisk, replicate_succ, TxInUndo.serialize]
  have hfirst : (⟨.emptyCoinBase, []⟩ : Account).supplyChange = 0 := rfl
  have hsecond : (⟨.spendWorthless false 0, [Coin.worthless.out]⟩ : Account).supplyChange = 0 := rfl
  unfold accounts
  rw [hundo]
  show supplyChange _ + (supplyChange _ + totalSupply _) = _
  rw [hstakes m 1]
  omega

end

def CCoinsViewCache.worthless (n : Nat) : CCoinsViewCache CCoinsViewDB :=
  new { CCoinsViewDB.empty (fun _ => false) with
    coins := worthlessCoins n, bestBlock := some 11 }

theorem CCoinsViewCache.inv_worthless (n : Nat) : (worthless n).Inv := by
  refine inv_new fun o c hc => ?_
  rw [lookup_worthlessCoins] at hc
  split_ifs at hc
  cases hc
  rfl

open CCoinsViewCache (worthless inv_worthless)

/-- A proof-of-work block whose 4393 coinstakes create 21 million coins each is accepted at height
20, where it may create one coin: `nValueOut` has overflowed. -/
theorem connectBlock_mints_by_overflow : (worthless 4394).Inv ∧
    ∃ undo view',
      (connectBlock (.sample 19) (.greedy 4393) (.sample 20) (.sampleParent 19)).run
        handler (worthless 4394) = .ok (undo, view') ∧
      (ValidationEnv.sample 19).upgradeActive 20 .v5_0 = true ∧
      (CBlock.greedy 4393).isProofOfStake = false ∧
      Account.totalSupply ((CBlock.greedy 4393).accounts undo) = 4393 * (21000000 * COIN) ∧
      mintBound (.sample 19) 20 = COIN ∧
      ¬ MintSound (.sample 19) 20 false ((CBlock.greedy 4393).accounts undo) := by
  have hcoins : ∀ o, (worthless 4394).chainstate.coins o =
      if o.hash = 5 ∧ o.n < 4394 then some .worthless else none :=
    fun o => lookup_worthlessCoins 4394 o
  have hinv := inv_worthless 4394
  have hst : Worthless 0 (4393 + 1) (worthless 4394).chainstate := by
    refine ⟨fun j _ hj => ?_, fun j _ hj i => ?_, by decide⟩
    · rw [hcoins, if_pos ⟨rfl, by omega⟩]
    · have hne : BitVec.ofNat 256 (200 + j) ≠ BitVec.ofNat 256 5 :=
        ofNat_ne (by omega) (by decide) (by omega)
      rw [hcoins, if_neg fun h => hne h.1]
  have hfresh : (worthless 4394).chainstate.coins ⟨101, 0⟩ = none := by
    rw [hcoins, if_neg (by decide)]
  obtain ⟨st', hplain⟩ := plainRun_greedy .empty hst hfresh rfl rfl (by decide)
  obtain ⟨view', hrun, -⟩ := (simulates.run _ ⟨hinv, rfl⟩).2 _ _ hplain
  have hsupply := totalSupply_greedy 4393
  have hbound : mintBound (.sample 19) 20 = COIN := rfl
  refine ⟨hinv, _, view', hrun, rfl, rfl, hsupply, hbound, fun hsound => ?_⟩
  have hle := hsound.bound
  rw [hsupply] at hle
  exact absurd hle (by decide)

end

end Passion
