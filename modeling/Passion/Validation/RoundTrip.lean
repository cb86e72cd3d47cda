import Passion.Validation.Effects

/-!
# Disconnecting undoes connecting

Transaction by transaction, `disconnectTx` takes the chainstate after `updateCoins` back to the one
before (`plainRun_disconnectTx`). What this needs of the transaction and the chainstate is
`Undoable`; the checks of `connectTx` and the premises about the block give it.
-/

namespace Passion

open Lib (Prog)
open CCoinsViewCache (setNullifiersSpec)
open List
open Lib.Prog
open ViewM

def CTransaction.nullifiers (tx : CTransaction) : List UInt256 :=
  match tx.sapData with
  | none => []
  | some d => d.vShieldedSpend.map (·.nullifier)

open CTransaction

/-- What makes a transaction undoable on a chainstate. -/
structure Undoable (tx : CTransaction) (st : Chainstate) : Prop where
  nodup : tx.spendsCoins = true → (tx.vin.map (·.prevout)).Nodup
  coins : tx.spendsCoins = true → ∀ txin ∈ tx.vin,
    ∃ c, st.coins txin.prevout = some c ∧ c.Restorable
  fresh : ∀ i, i < tx.vout.length → st.coins ⟨tx.hash, i⟩ = none
  notNull : ∀ out ∈ tx.vout, out.isNull = false
  unspent : ∀ nf ∈ tx.nullifiers, st.sapling.nullifiers nf = none
  noSpends : tx.spendsCoins = false → tx.nullifiers = []

def CTransaction.updatedCoins (tx : CTransaction) (nHeight : Nat) (m : CoinMap) : CoinMap :=
  tx.addOutputs nHeight (if tx.spendsCoins then tx.spendInputs m else m)

def CTransaction.update (tx : CTransaction) (nHeight : Nat) (st : Chainstate) : Chainstate where
  coins := tx.updatedCoins nHeight st.coins
  sapling := setNullifiersSpec st.sapling tx true
  bestBlock := st.bestBlock

variable {env : ValidationEnv} {tx : CTransaction} {nHeight : Nat} {st : Chainstate}

def CTransaction.undo (tx : CTransaction) (m : CoinMap) : List Coin :=
  if tx.spendsCoins then tx.vin.map fun txin => (m txin.prevout).getD Coin.empty else []

theorem isSome_outputCoin (tx : CTransaction) (n n' : Nat) (o : COutPoint) :
    (tx.outputCoin n o).isSome = (tx.outputCoin n' o).isSome := by
  unfold outputCoin
  split_ifs with h
  · cases tx.vout[o.n]? with
    | none => rfl
    | some out => cases hout : out.entersCoins <;> simp [hout]
  · rfl

/-- Removing the outputs gives the coins before they were added, where there were none. -/
theorem dropOutputs_addOutputs {m : CoinMap}
    (hfresh : ∀ i, i < tx.vout.length → m ⟨tx.hash, i⟩ = none) :
    tx.dropOutputs (tx.addOutputs nHeight m) = m := by
  funext o
  unfold dropOutputs addOutputs
  rw [isSome_outputCoin tx 0 nHeight]
  cases hout : tx.outputCoin nHeight o with
  | none => simp
  | some c =>
    obtain ⟨hash, n⟩ := o
    unfold outputCoin at hout
    split_ifs at hout with hh
    obtain ⟨out, hget, -⟩ := Option.bind_eq_some_iff.mp hout
    have hn : n < tx.vout.length := (List.getElem?_eq_some_iff.mp hget).1
    rw [show hash = tx.hash from hh]
    exact (hfresh n hn).symm

/-- Putting coins of a map back at the inputs makes the two maps agree there. -/
theorem restoreAll_undo {m : CoinMap} (vin : List CTxIn)
    (hcoins : ∀ txin ∈ vin, ∃ c, m txin.prevout = some c) (m' : CoinMap) (o : COutPoint) :
    restoreAll ((vin.map fun txin => (m txin.prevout).getD Coin.empty).zip vin) m' o =
      if o ∈ vin.map (·.prevout) then m o else m' o := by
  induction vin with
  | nil => rfl
  | cons txin vin ih =>
    obtain ⟨⟨c, hc⟩, hcoins⟩ := forall_mem_cons.mp hcoins
    rw [map_cons, zip_cons_cons, restoreAll]
    by_cases ho : o = txin.prevout
    · subst ho
      simp [hc]
    · rw [Function.update_of_ne ho, ih hcoins]
      simp [ho]

/-! ## Nullifiers -/

theorem foldl_setNullifier (spent : Bool) (l : List SpendDescription) (st : SaplingState) :
    l.foldl (fun st s => st.setNullifier spent s.nullifier) st =
      { st with nullifiers := fun nf => if nf ∈ l.map (·.nullifier) then
          (if spent then some () else none) else st.nullifiers nf } := by
  induction l generalizing st with
  | nil => rfl
  | cons s l ih =>
    rw [foldl_cons, ih]
    refine SaplingState.ext rfl (funext fun nf => ?_) rfl
    by_cases hnf : nf = s.nullifier
    · subst hnf
      simp [SaplingState.setNullifier]
    · simp [SaplingState.setNullifier, hnf]

theorem setNullifiersSpec_eq (st : SaplingState) (tx : CTransaction) (spent : Bool) :
    setNullifiersSpec st tx spent =
      { st with nullifiers := fun nf => if nf ∈ tx.nullifiers then
          (if spent then some () else none) else st.nullifiers nf } := by
  unfold setNullifiersSpec nullifiers
  cases tx.sapData with
  | none => rfl
  | some d => exact foldl_setNullifier spent d.vShieldedSpend st

/-- Marking nullifiers that are unspent as spent, and then as unspent, changes nothing. -/
theorem setNullifiersSpec_undo (st : SaplingState) (tx : CTransaction)
    (hunspent : ∀ nf ∈ tx.nullifiers, st.nullifiers nf = none) :
    setNullifiersSpec (setNullifiersSpec st tx true) tx false =
      st := by
  rw [setNullifiersSpec_eq, setNullifiersSpec_eq]
  refine SaplingState.ext rfl (funext fun nf => ?_) rfl
  dsimp only
  by_cases hnf : nf ∈ tx.nullifiers
  · rw [if_pos hnf, hunspent nf hnf]
    rfl
  · rw [if_neg hnf, if_neg hnf]

theorem map_zip_self {α β : Type} (f : α → β) (l : List α) :
    (l.map f).zip l = l.map fun a => (f a, a) := by
  simpa using zip_map' (g := id)

/-! ## One transaction -/

variable [MerkleHash UInt256] (htx : Undoable tx st)

include htx

theorem plainRun_updateCoins {fSkipInvalid : Bool}
    (hskip : ∀ i, (fSkipInvalid && env.containsOutPoint ⟨tx.hash, i⟩) = false) :
    plainRun (updateCoins env tx nHeight fSkipInvalid) st =
      .ok (tx.undo st.coins, tx.update nHeight st) := by
  -- the inputs first
  have hspend : plainRun (spendInputCoins tx) st = .ok (tx.undo st.coins,
      { st with coins := if tx.spendsCoins then tx.spendInputs st.coins else st.coins }) := by
    unfold spendInputCoins undo
    cases hs : tx.spendsCoins with
    | true =>
      simp only [if_true]
      rw [plainRun_spendInputs, spentCoins_of_nodup (htx.nodup hs)]
      rfl
    | false => rfl
  have hfresh : ∀ i, 0 ≤ i → i < 0 + tx.vout.length →
      (if tx.spendsCoins then tx.spendInputs st.coins else st.coins) ⟨tx.hash, i⟩ = none := by
    intro i _ hi
    have hnone := htx.fresh i (by omega)
    split_ifs
    · simp [spendInputs, hnone]
    · exact hnone
  have hadd := plainRun_addCoins_from env tx nHeight tx.vout 0 { st with
      coins := if tx.spendsCoins then tx.spendInputs st.coins else st.coins
      sapling := setNullifiersSpec st.sapling tx true } hfresh htx.notNull hskip
  unfold updateCoins addCoins
  simp only [plainRun] at hspend hadd ⊢
  rw [run_bind, hspend]
  dsimp only
  rw [run_bind]
  simp only [setNullifiers, run_call, Chainstate.handler]
  rw [run_bind, hadd]
  refine ok_ext (fun o => ?_) rfl rfl
  dsimp only
  rw [coinFrom_zero]
  rfl

theorem plainRun_removeOutputs : plainRun (removeOutputs tx) (tx.update nHeight st) =
      .ok (true, { tx.update nHeight st with
        coins := if tx.spendsCoins then tx.spendInputs st.coins else st.coins }) := by
  obtain ⟨b, hrun, hclean⟩ := plainRun_removeOutputs_from tx tx.vout 0 true (tx.update nHeight st)
  have hb : b = true := by
    refine hclean fun i out hi henter => ⟨tx.coinOf nHeight out, ?_, rfl⟩
    simp [update, updatedCoins, addOutputs,
      outputCoin, hi, henter]
  have hfresh : ∀ i, i < tx.vout.length →
      (if tx.spendsCoins then tx.spendInputs st.coins else st.coins) ⟨tx.hash, i⟩ = none := by
    intro i hi
    split_ifs
    · simp [spendInputs, htx.fresh i hi]
    · exact htx.fresh i hi
  subst hb
  refine hrun.trans (congrArg Except.ok (Prod.ext rfl (Chainstate.ext ?_ rfl rfl)))
  simp only [coinFrom_zero]
  exact dropOutputs_addOutputs hfresh

theorem plainRun_restore_undo (hs : tx.spendsCoins = true)
    {st' : Chainstate} (hst' : st'.coins = tx.spendInputs st.coins) :
    plainRun (restoreInputs ((tx.undo st.coins).zip tx.vin)) st' =
      .ok (some true, { st' with coins := st.coins }) := by
  have hu : tx.undo st.coins = tx.vin.map fun txin => (st.coins txin.prevout).getD Coin.empty :=
    if_pos hs
  rw [hu]
  have hrestorable : ∀ p ∈ (tx.vin.map fun txin =>
      (st.coins txin.prevout).getD Coin.empty).zip tx.vin, p.1.Restorable := by
    intro p hp
    rw [map_zip_self] at hp
    obtain ⟨txin, hmem, rfl⟩ := mem_map.mp hp
    obtain ⟨c, hc, hrest⟩ := htx.coins hs txin hmem
    rw [hc]
    exact hrest
  obtain ⟨b, hrun, hclean⟩ := plainRun_restoreInputs hrestorable st'
  have hb : b = true := by
    rw [map_zip_self, map_map] at hclean
    refine hclean (htx.nodup hs) fun p hp => ?_
    obtain ⟨txin, hmem, rfl⟩ := mem_map.mp hp
    rw [hst']
    exact if_pos (mem_map_of_mem hmem)
  subst hb
  refine hrun.trans (ok_ext (fun o => ?_) rfl rfl)
  dsimp only
  rw [restoreAll_undo tx.vin fun txin h => (htx.coins hs txin h).imp fun _ hc => hc.1, hst']
  unfold spendInputs
  split_ifs <;> rfl

/-- **Disconnecting a transaction undoes it.** -/
theorem plainRun_disconnectTx (hzc : disconnectZerocoinTx env tx = true)
    {undo : Option (List Coin)} (hundo : tx.spendsCoins = true → undo = some (tx.undo st.coins)) :
    plainRun (disconnectTx env tx undo) (tx.update nHeight st) = .ok (some true, st) := by
  have hremove : plainRun (removeOutputs tx) (tx.update nHeight st) = _ :=
    plainRun_removeOutputs htx
  have hkind : (tx.isCoinBase || tx.hasZerocoinSpendInputs) = !tx.spendsCoins := by
    simp [spendsCoins]
  unfold disconnectTx
  simp only [plainRun] at hremove ⊢
  simp only [hzc, Bool.not_true, Bool.false_eq_true, if_false]
  rw [run_bind, hremove]
  rw [hkind]
  cases hs : tx.spendsCoins with
  | false =>
    -- nothing shielded is spent, so the Sapling state is the old one
    refine congrArg Except.ok (Prod.ext rfl (Chainstate.ext rfl ?_ rfl))
    show setNullifiersSpec st.sapling tx true = st.sapling
    rw [setNullifiersSpec_eq, htx.noSpends hs]
    rfl
  | true =>
    have hlen : ¬ (tx.undo st.coins).length ≠ tx.vin.length := by simp [CTransaction.undo, hs]
    have hrestore : plainRun (restoreInputs ((tx.undo st.coins).zip tx.vin))
        ⟨tx.spendInputs st.coins, setNullifiersSpec (tx.update nHeight st).sapling
          tx false, (tx.update nHeight st).bestBlock⟩ = _ := plainRun_restore_undo htx hs rfl
    simp only [plainRun] at hrestore
    simp only [Bool.not_true, Bool.false_eq_true, if_false, if_true]
    rw [run_bind]
    simp only [setNullifiers, run_call, Chainstate.handler]
    rw [hundo hs]
    dsimp only
    rw [if_neg hlen, run_bind, hrestore]
    exact congrArg Except.ok (Prod.ext rfl (Chainstate.ext rfl
      (setNullifiersSpec_undo st.sapling tx htx.unspent) rfl))

end Passion
