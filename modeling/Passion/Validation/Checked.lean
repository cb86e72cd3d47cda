import Passion.Validation.Readers

/-!
# What an accepted transaction has passed

`checkTransaction` looks at a transaction alone, `connectInputs` looks its inputs up. Both are
turned into facts here: `CTransaction.Checked`, and the answers of the view to `haveInputs` and
`haveShieldedRequirements`.
-/

namespace Passion

open Lib (Prog Handler bind_eq_ok forM_eq_ok)
open List
open Lib.Prog
open ViewM

/-- What `CheckTransaction` guarantees of a transaction: distinct inputs, outputs in range, and
shielded data only where coins are spent. `poolIn` is what goes into the shielded pool. -/
structure CTransaction.Checked (params : ConsensusParams) (tx : CTransaction) : Prop where
  nodup : tx.spendsCoins = true → (tx.vin.map (·.prevout)).Nodup
  values : ∀ out ∈ tx.vout, 0 ≤ out.nValue
  shielded : ∀ d, tx.sapData = some d → tx.hasSaplingData = true →
    tx.isShieldedTx = true ∧ tx.spendsCoins = true ∧ tx.isCoinStake = false

/-! ## CheckTransaction -/

theorem noDuplicateInputs_nodup {seen : List COutPoint} {vin : List CTxIn}
    (hvin : ∀ txin ∈ vin, txin.isZerocoinSpend = false) (h : noDuplicateInputs seen vin = true) :
    (vin.map (·.prevout)).Nodup ∧ ∀ txin ∈ vin, txin.prevout ∉ seen := by
  induction vin generalizing seen with
  | nil => exact ⟨nodup_nil, nofun⟩
  | cons txin vin ih =>
    obtain ⟨hzc, hvin⟩ := forall_mem_cons.mp hvin
    rw [noDuplicateInputs, Bool.and_eq_true] at h
    obtain ⟨hnew, hrest⟩ := h
    simp only [hzc] at hrest
    obtain ⟨hnodup, hout⟩ := ih hvin hrest
    constructor
    · rw [map_cons, nodup_cons]
      refine ⟨?_, hnodup⟩
      intro hmem
      obtain ⟨t, ht, he⟩ := mem_map.mp hmem
      exact hout t ht (he ▸ mem_cons_self ..)
    · intro t ht
      rcases mem_cons.mp ht with rfl | ht
      · simpa using hnew
      · exact fun hseen => hout t ht (mem_cons_of_mem _ hseen)

open CTransaction

theorem isZerocoinSpend_of_spendsCoins {tx : CTransaction} (hs : tx.spendsCoins = true) :
    ∀ txin ∈ tx.vin, txin.isZerocoinSpend = false := by
  intro txin ht
  have hno := (spendsCoins_iff.mp hs).2
  simp only [hasZerocoinSpendInputs, any_eq_false, Bool.or_eq_true, not_or,
    Bool.not_eq_true] at hno
  exact (hno txin ht).1

variable {env : ValidationEnv} {tx : CTransaction}

theorem checkOutput_ok {v v' : CAmount} {txout : CTxOut} (h : checkOutput env tx v txout = .ok v') :
    0 ≤ txout.nValue ∧ v' = v + txout.nValue ∧ env.params.moneyRange v' = true := by
  obtain ⟨_, -, h⟩ := bind_eq_ok.1 h
  obtain ⟨_, hneg, h⟩ := bind_eq_ok.1 h
  obtain ⟨_, -, h⟩ := bind_eq_ok.1 h
  obtain ⟨_, hrange, h⟩ := bind_eq_ok.1 h
  rw [require_eq_ok] at hneg hrange
  have hv : v + txout.nValue = v' := by
    split_ifs at h
    · obtain ⟨_, -, h⟩ := bind_eq_ok.1 h
      obtain ⟨_, -, h⟩ := bind_eq_ok.1 h
      exact Except.ok.inj h
    · exact Except.ok.inj h
  exact ⟨of_decide_eq_true hneg, hv.symm, hv ▸ hrange⟩

/-- The output loop: the total is the sum, and it never leaves the range. -/
theorem checkOutputs_ok {l : List CTxOut} {v v' : CAmount}
    (h : l.foldlM (checkOutput env tx) v = .ok v') :
    (∀ out ∈ l, 0 ≤ out.nValue) ∧ v' = v + (l.map (·.nValue)).sum ∧
      (l ≠ [] → env.params.moneyRange v' = true) := by
  induction l generalizing v with
  | nil =>
    cases h
    exact ⟨nofun, by simp, fun hne => absurd rfl hne⟩
  | cons out l ih =>
    obtain ⟨w, hw, h⟩ := bind_eq_ok.1 h
    obtain ⟨hpos, hsum, hrange⟩ := checkOutput_ok hw
    obtain ⟨hall, htotal, hlast⟩ := ih h
    refine ⟨?_, ?_, ?_⟩
    · intro o ho
      rcases mem_cons.mp ho with rfl | ho
      · exact hpos
      · exact hall o ho
    · rw [htotal, hsum, map_cons, sum_cons, add_assoc]
    · intro _
      by_cases hl : l = []
      · subst hl
        cases h
        exact hrange
      · exact hlast hl

variable {fSaplingActive : Bool}

theorem checkTransaction_ok {fZerocoinActive : Bool}
    (h : checkTransaction env tx fZerocoinActive fSaplingActive = .ok ()) :
    ∃ poolIn nValueOut, checkSapling env.params tx fSaplingActive = .ok poolIn ∧
      tx.vout.foldlM (checkOutput env tx) poolIn = .ok nValueOut ∧
      noDuplicateInputs [] tx.vin = true := by
  iterate 4 obtain ⟨_, -, h⟩ := bind_eq_ok.1 h
  obtain ⟨poolIn, hsapling, h⟩ := bind_eq_ok.1 h
  obtain ⟨_, -, h⟩ := bind_eq_ok.1 h
  obtain ⟨nValueOut, hout, h⟩ := bind_eq_ok.1 h
  obtain ⟨_, hdup, -⟩ := bind_eq_ok.1 h
  exact ⟨poolIn, nValueOut, hsapling, hout, by simpa using hdup⟩

theorem checkSapling_ok {params : ConsensusParams} {poolIn : CAmount}
    (h : checkSapling params tx fSaplingActive = .ok poolIn) :
    (tx.hasSaplingData = false → poolIn = 0) ∧
    (tx.hasSaplingData = true → fSaplingActive = true ∧ tx.isSaplingVersion = true ∧
      tx.spendsCoins = true ∧ tx.isCoinStake = false ∧
      ∀ d, tx.sapData = some d → checkShieldedData params d = .ok poolIn) := by
  obtain ⟨_, hversion, h⟩ := bind_eq_ok.1 h
  cases hdata : tx.hasSaplingData with
  | false =>
    simp only [hdata] at h
    exact ⟨fun _ => (Except.ok.inj h).symm, nofun⟩
  | true =>
    simp only [hdata] at h
    obtain ⟨_, hkind, h⟩ := bind_eq_ok.1 h
    obtain ⟨_, hactive, h⟩ := bind_eq_ok.1 h
    rw [require_eq_ok] at hversion hkind hactive
    refine ⟨nofun, fun _ => ⟨hactive, by simpa [hdata] using hversion, ?_, ?_, ?_⟩⟩
    · simp_all [spendsCoins]
    · simp_all
    · intro d hd
      simpa [hd] using h

theorem checked_of_checkTransaction {fZerocoinActive : Bool}
    (h : checkTransaction env tx fZerocoinActive fSaplingActive = .ok ()) :
    tx.Checked env.params := by
  obtain ⟨poolIn, nValueOut, hsapling, hout, hdup⟩ := checkTransaction_ok h
  obtain ⟨-, hdata⟩ := checkSapling_ok hsapling
  refine ⟨fun hs => ?_, (checkOutputs_ok hout).1, fun d _ hd => ?_⟩
  · exact (noDuplicateInputs_nodup (isZerocoinSpend_of_spendsCoins hs) hdup).1
  · obtain ⟨-, hversion, hspends, hstake, -⟩ := hdata hd
    exact ⟨by simp [isShieldedTx, hversion, hd], hspends, hstake⟩

/-! ## CheckBlock -/

/-- What `CheckBlock` guarantees: one coinbase, which is the first transaction, transactions that
pass `CheckTransaction`, and for proof of stake an empty coinbase and one coinstake. -/
structure CBlock.Checked (env : ValidationEnv) (block : CBlock) : Prop where
  first : (block.vtx[0]?).any isCoinBase = true
  others : ∀ tx ∈ block.vtx.drop 1, tx.isCoinBase = false
  checked : ∀ tx ∈ block.vtx, ∃ fZerocoinActive,
    checkTransaction env tx fZerocoinActive (env.upgradeActive (env.chainHeight + 1) .v5_0) = .ok ()
  emptyCoinBase : block.isProofOfStake = true → (block.vtx[0]?).any (fun tx =>
    match tx.vout with
    | [out] => out.isEmpty
    | _ => false) = true
  oneCoinStake : block.isProofOfStake = true → ∀ tx ∈ block.vtx.drop 2, tx.isCoinStake = false

theorem checked_of_checkBlock {block : CBlock} (h : checkBlock env block = .ok ()) :
    block.Checked env := by
  obtain ⟨_, -, h⟩ := bind_eq_ok.1 h
  obtain ⟨_, hfirst, h⟩ := bind_eq_ok.1 h
  obtain ⟨_, hothers, h⟩ := bind_eq_ok.1 h
  rw [require_eq_ok] at hfirst hothers
  have hothers : ∀ tx ∈ block.vtx.drop 1, tx.isCoinBase = false := by
    simpa using hothers
  -- the loop over the transactions comes last, whatever the kind of the block
  have hloop {u : Unit} (hl : (block.vtx.forM fun tx => do
      checkTransaction env tx (decide (env.params.zcTimeStart < block.nTime))
        (env.upgradeActive (env.chainHeight + 1) .v5_0)
      require (!(env.upgradeActive (env.chainHeight + 1) .v5_0 && tx.containsZerocoins))
        "CheckBlock : v5 upgrade enforced, zerocoin disabled") = .ok u) :
      ∀ tx ∈ block.vtx, ∃ z, checkTransaction env tx z
        (env.upgradeActive (env.chainHeight + 1) .v5_0) = .ok () := by
    intro tx htx
    obtain ⟨_, hc, -⟩ := bind_eq_ok.1 (forM_eq_ok hl tx htx)
    exact ⟨_, hc⟩
  split_ifs at h with hpos
  · obtain ⟨_, hempty, h⟩ := bind_eq_ok.1 h
    obtain ⟨_, hstake, h⟩ := bind_eq_ok.1 h
    rw [require_eq_ok] at hempty hstake
    exact ⟨hfirst, hothers, hloop h, fun _ => hempty, fun _ => by simpa using hstake⟩
  · exact ⟨hfirst, hothers, hloop h, fun hc => absurd hc hpos, fun hc => absurd hc hpos⟩

/-! ## Inputs and nullifiers -/

theorem check_bind_ok {α β S : Type} {h : Handler ViewCmd ViewCmd.Answer ChainError S} {s s' : S}
    {x : Except ChainError α} {f : α → ViewM β} {b : β} :
    (check x >>= f).run h s = .ok (b, s') ↔ ∃ a, x = .ok a ∧ (f a).run h s = .ok (b, s') := by
  cases x with
  | error e => simp [check, run]
  | ok a => simp [check]

section

variable [MerkleHash UInt256] {st st' : Chainstate}

theorem plainRun_haveCoins (vin : List CTxIn) (st : Chainstate) : plainRun (haveCoins vin) st =
      .ok (vin.all fun txin => (st.coins txin.prevout).isSome, st) := by
  induction vin with
  | nil => rfl
  | cons txin vin ih =>
    simp only [plainRun] at ih ⊢
    rw [haveCoins, run_bind]
    simp only [haveCoin, run_call, Chainstate.handler]
    cases hc : (st.coins txin.prevout).isSome with
    | true => simp [ih, hc]
    | false => simp [hc]

theorem plainRun_haveSpendRequirements (spends : List SpendDescription) (st : Chainstate) :
    plainRun (haveSpendRequirements spends) st =
      .ok (spends.all fun s => (st.sapling.nullifiers s.nullifier).isNone &&
        (st.sapling.anchors s.anchor).isSome, st) := by
  induction spends with
  | nil => rfl
  | cons s spends ih =>
    simp only [plainRun] at ih ⊢
    rw [haveSpendRequirements, run_bind]
    simp only [getNullifier, getSaplingAnchorAt, run_call, Chainstate.handler]
    cases hn : st.sapling.nullifiers s.nullifier with
    | some u => simp [hn]
    | none =>
      cases ha : st.sapling.anchors s.anchor with
      | none => simp [Chainstate.handler, ha]
      | some tree => simp [Chainstate.handler, ih, hn, ha]

theorem connectInputs_ok {nHeight nSigOps : Nat} {nValueIn : CAmount} {r : CAmount × Nat}
    (h : plainRun (connectInputs env nHeight tx nValueIn nSigOps) st = .ok (r, st'))
    (hs : tx.spendsCoins = true) :
    (∀ txin ∈ tx.vin, (st.coins txin.prevout).isSome = true) ∧
      ∀ d, tx.sapData = some d → tx.isShieldedTx = true →
        ∀ s ∈ d.vShieldedSpend, st.sapling.nullifiers s.nullifier = none := by
  have hkind := spendsCoins_iff.mp hs
  unfold connectInputs at h
  simp only [hkind.1, hkind.2] at h
  obtain ⟨found, st1, hinputs, h1⟩ := plainRun_bind_ok.1 h
  rw [haveInputs, if_pos hs, plainRun_haveCoins] at hinputs
  cases hinputs
  obtain ⟨_, hhave, h2⟩ := check_bind_ok.1 h1
  obtain ⟨met, st2, hshielded, h3⟩ := plainRun_bind_ok.1 h2
  obtain ⟨_, hmet, -⟩ := check_bind_ok.1 h3
  rw [require_eq_ok] at hhave hmet
  refine ⟨by simpa using hhave, fun d hd hsh s hmem => ?_⟩
  simp only [haveShieldedRequirements, hd, hsh, if_true] at hshielded
  rw [plainRun_haveSpendRequirements] at hshielded
  cases hshielded
  have hall := all_eq_true.mp hmet s hmem
  rw [Bool.and_eq_true] at hall
  exact Option.isNone_iff_eq_none.mp hall.1

end

/-! ## ConnectBlock -/

section

variable [MerkleHash UInt256] {S : Type}

/-- The parts of an accepted turn of the loop of `connectBlock`, on any kind of view. -/
structure RanTx (h : Handler ViewCmd ViewCmd.Answer ChainError S) (env : ValidationEnv)
    (block : CBlock) (nHeight nSpendHeight : Nat) (fScriptChecks : Bool) (tx : CTransaction)
    (i : Nat) (s s' : ConnectState) (t t₁ t₂ t' : S) (nValueIn : CAmount)
    (vprevout : List Coin) : Prop where
  precheck : connectPrecheck env block nHeight tx (s.nSigOps + getLegacySigOpCount env tx) = .ok ()
  inputs :
    (connectInputs env nHeight tx s.nValueIn (s.nSigOps + getLegacySigOpCount env tx)).run h t =
    .ok ((nValueIn, s'.nSigOps), t₁)
  values : (connectValues env nSpendHeight fScriptChecks tx s.nFees nValueIn).run h t₁ =
    .ok ((s'.nFees, s'.nValueIn), t₂)
  valueOut : ∃ v, tx.getValueOut = .ok v ∧ s'.nValueOut = wrap64 (s.nValueOut + v)
  update : (updateCoins env tx nHeight (skipInvalidUTXOS env nHeight)).run h t₂ = .ok (vprevout, t')
  vtxundo : s'.vtxundo = if i = 0 then s.vtxundo else s.vtxundo ++ [vprevout]
  tree : appendCommitments tx s.saplingTree = .ok s'.saplingTree

omit [MerkleHash UInt256] in
theorem liftValue_eq_ok {α : Type} {x : Except ValueError α} {a : α}
    (h : liftValue x = .ok a) : x = .ok a := by
  cases x with
  | error e => cases h
  | ok b => exact congrArg Except.ok (Except.ok.inj h)

variable {t' t : S} {h : Handler ViewCmd ViewCmd.Answer ChainError S} {block : CBlock}

theorem run_connectTx_ok {nHeight nSpendHeight i : Nat} {fScriptChecks : Bool} {s s' : ConnectState}
    (hrun : (connectTx env block nHeight nSpendHeight fScriptChecks s (tx, i)).run h t =
      .ok (s', t')) :
    ∃ t₁ t₂ nValueIn vprevout,
      RanTx h env block nHeight nSpendHeight fScriptChecks tx i s s' t t₁ t₂
      t' nValueIn vprevout := by
  obtain ⟨_, hprecheck, h1⟩ := check_bind_ok.1 hrun
  obtain ⟨⟨nValueIn, nSigOps⟩, t₁, hinputs, h2⟩ := run_bind_ok.1 h1
  obtain ⟨⟨nFees, nValueIn'⟩, t₂, hvalues, h3⟩ := run_bind_ok.1 h2
  obtain ⟨v, hv, h4⟩ := check_bind_ok.1 h3
  obtain ⟨vprevout, t₃, hupdate, h5⟩ := run_bind_ok.1 h4
  obtain ⟨tree, happend, h6⟩ := check_bind_ok.1 h5
  cases h6
  exact ⟨t₁, t₂, nValueIn, vprevout, hprecheck, hinputs, hvalues, ⟨v, liftValue_eq_ok hv, rfl⟩,
    hupdate, rfl, happend⟩

/-- The parts of an accepted block, on any kind of view. -/
structure RanBlock (h : Handler ViewCmd ViewCmd.Answer ChainError S) (env : ValidationEnv)
    (block : CBlock) (pindex pprev : CBlockIndex) (undo : DiskUndo) (t t₀ t₁ t₂ t' : S)
    (tree : SaplingMerkleTree) (s : ConnectState) : Prop where
  start : (connectStart env block pindex pprev).run h t = .ok (tree, t₀)
  loop : (block.vtx.zipIdx.foldlM (connectTx env block pindex.nHeight (pprev.nHeight + 1)
    (decide (env.totalBlocksEstimate ≤ pindex.nHeight))) ⟨0, 0, 0, 0, tree, []⟩).run h t₀ =
      .ok (s, t₁)
  push : (pushAnchor s.saplingTree).run h t₁ = .ok ((), t₂)
  footer : connectFooter env block pindex.nHeight s = .ok ()
  set : (setBestBlock pindex.hash).run h t₂ = .ok ((), t')
  undo_eq : undo = undoWriteToDisk s.vtxundo

theorem run_connectBlock_ok {pindex pprev : CBlockIndex} {undo : DiskUndo}
    (hrun : (connectBlock env block pindex pprev).run h t = .ok (undo, t')) :
    ∃ t₀ t₁ t₂ tree s, RanBlock h env block pindex pprev undo t t₀ t₁ t₂ t' tree s := by
  obtain ⟨tree, t₀, hstart, h1⟩ := run_bind_ok.1 hrun
  obtain ⟨s, t₁, hloop, h2⟩ := run_bind_ok.1 h1
  obtain ⟨_, t₂, hpush, h3⟩ := run_bind_ok.1 h2
  obtain ⟨_, hfooter, h4⟩ := check_bind_ok.1 h3
  obtain ⟨_, t₃, hset, h5⟩ := run_bind_ok.1 h4
  cases h5
  exact ⟨t₀, t₁, t₂, tree, s, hstart, hloop, hpush, hfooter, hset, rfl⟩

omit [MerkleHash UInt256] in
theorem run_connectStart_checked {pindex pprev : CBlockIndex} {tree : SaplingMerkleTree}
    (hrun : (connectStart env block pindex pprev).run h t = .ok (tree, t')) :
    block.Checked env := by
  obtain ⟨_, hcheck, -⟩ := check_bind_ok.1 hrun
  exact checked_of_checkBlock hcheck

end

end Passion
