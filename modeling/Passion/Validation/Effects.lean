import Passion.Validation.Checked

/-!
# What a transaction does to the chainstate

The loops over the inputs and outputs of one transaction on a plain chainstate, in closed form.
Connecting removes the coins of the inputs and adds those of the outputs; disconnecting removes the
coins of the outputs and puts those of the inputs back.
-/

namespace Passion

open Lib (Prog)
open CCoinsViewCache (plainAdd)
open Chainstate (handler)
open List
open Lib.Prog
open ViewM

abbrev CoinMap := COutPoint → Option Coin

/-- The output gets a coin: it can be spent and is no zerocoin mint. -/
def CTxOut.entersCoins (out : CTxOut) : Bool :=
  !CScript.isUnspendable out.scriptPubKey && !out.isZerocoinMint

namespace CTransaction

variable (tx : CTransaction)

def outputCoin (nHeight : Nat) (o : COutPoint) : Option Coin :=
  if o.hash = tx.hash then
    (tx.vout[o.n]?).bind fun out => if out.entersCoins then some (tx.coinOf nHeight out) else none
  else none

def spendInputs (m : CoinMap) : CoinMap := fun o =>
  if o ∈ tx.vin.map (·.prevout) then none else m o

def addOutputs (nHeight : Nat) (m : CoinMap) : CoinMap :=
  fun o => (tx.outputCoin nHeight o).or (m o)

def dropOutputs (m : CoinMap) : CoinMap := fun o =>
  if (tx.outputCoin 0 o).isSome then none else m o

end CTransaction

theorem ok_ext {α : Type} {a : α} {st st' : Chainstate} (hcoins : ∀ o, st.coins o = st'.coins o)
    (hsapling : st.sapling = st'.sapling) (hbest : st.bestBlock = st'.bestBlock) :
    (.ok (a, st) : Except ChainError (α × Chainstate)) = .ok (a, st') :=
  congrArg Except.ok (Prod.ext rfl (Chainstate.ext (funext hcoins) hsapling hbest))

section

variable [MerkleHash UInt256]

/-! ## Anchors and the best block -/

theorem plainRun_pushAnchor {tree : SaplingMerkleTree} (hroot : SaplingMerkleTree.root tree ≠ 0)
    (st : Chainstate) :
    plainRun (pushAnchor tree) st = .ok ((), { st with sapling := st.sapling.push tree }) := by
  simp only [pushAnchor, run_call, handler]
  rw [if_neg hroot]

theorem plainRun_popAnchor {rt : UInt256} (hrt : rt ≠ 0) {st : Chainstate} {sapling : SaplingState}
    (hpop : st.sapling.pop rt = some sapling) :
    plainRun (popAnchor rt) st = .ok ((), { st with sapling }) := by
  simp only [popAnchor, run_call, handler]
  rw [if_neg hrt, hpop]

theorem plainRun_setBestBlock {hash : UInt256} (hhash : hash ≠ 0) (st : Chainstate) :
    plainRun (setBestBlock hash) st = .ok ((), { st with bestBlock := hash }) := by
  simp only [setBestBlock, run_call, handler]
  rw [if_neg hhash]

/-! ## Inputs -/

def spentCoins : List CTxIn → CoinMap → List Coin
  | [], _ => []
  | txin :: vin, m =>
    (m txin.prevout).getD Coin.empty :: spentCoins vin (Function.update m txin.prevout none)

theorem plainRun_spendInputs (vin : List CTxIn) (st : Chainstate) :
    plainRun (vin.mapM fun txin => spendCoin txin.prevout) st =
      .ok (spentCoins vin st.coins, { st with
        coins := fun o => if o ∈ vin.map (·.prevout) then none else st.coins o }) := by
  induction vin generalizing st with
  | nil => simp [spentCoins]
  | cons txin vin ih =>
    have hspend : plainRun (spendCoin txin.prevout) st =
        .ok ((st.coins txin.prevout).getD Coin.empty,
          { st with coins := Function.update st.coins txin.prevout none }) := by
      simp [spendCoin, handler]
    rw [mapM_cons]
    simp only [run_bind, ih]
    refine ok_ext (fun o => ?_) rfl rfl
    by_cases ho : o = txin.prevout
    · subst ho
      simp
    · simp [ho]

omit [MerkleHash UInt256] in
/-- Distinct inputs spend the coins that were there at the start. -/
theorem spentCoins_of_nodup {vin : List CTxIn} (hvin : (vin.map (·.prevout)).Nodup) (m : CoinMap) :
    spentCoins vin m = vin.map fun txin => (m txin.prevout).getD Coin.empty := by
  induction vin generalizing m with
  | nil => rfl
  | cons txin vin ih =>
    rw [map_cons, nodup_cons] at hvin
    rw [spentCoins, ih hvin.2]
    congr 1
    refine map_congr_left fun t ht => ?_
    have hne : t.prevout ≠ txin.prevout := fun he => hvin.1 (he ▸ mem_map_of_mem ht)
    rw [Function.update_of_ne hne]

/-! ## Outputs -/

/-- The coin at `o` of the outputs `l`, which stand at the indices from `k` on. -/
def coinFrom (tx : CTransaction) (nHeight : Nat) (l : List CTxOut) (k : Nat) (o : COutPoint) :
    Option Coin :=
  if o.hash = tx.hash ∧ k ≤ o.n then
    (l[o.n - k]?).bind fun out => if out.entersCoins then some (tx.coinOf nHeight out) else none
  else none

omit [MerkleHash UInt256] in
theorem coinFrom_zero (tx : CTransaction) (nHeight : Nat) (o : COutPoint) :
    coinFrom tx nHeight tx.vout 0 o = tx.outputCoin nHeight o := by
  simp [coinFrom, CTransaction.outputCoin]

omit [MerkleHash UInt256] in
theorem coinFrom_cons (tx : CTransaction) (nHeight : Nat) (out : CTxOut) (l : List CTxOut) (k : Nat)
    (o : COutPoint) :
    coinFrom tx nHeight (out :: l) k o =
      if o = ⟨tx.hash, k⟩ then if out.entersCoins then some (tx.coinOf nHeight out) else none
      else coinFrom tx nHeight l (k + 1) o := by
  obtain ⟨hash, n⟩ := o
  unfold coinFrom
  by_cases hh : hash = tx.hash
  · subst hh
    rcases lt_trichotomy n k with hn | rfl | hn
    · simp [show ¬ k ≤ n by omega, show ¬ k + 1 ≤ n by omega, show n ≠ k by omega]
    · simp
    · obtain ⟨j, rfl⟩ : ∃ j, n = k + 1 + j := ⟨n - (k + 1), by omega⟩
      simp [show k ≤ k + 1 + j by omega, show k + 1 + j - k = j + 1 by omega,
        show k + 1 + j ≠ k by omega]
  · simp [hh]

omit [MerkleHash UInt256] in
theorem plainAdd_coinOf (m : CoinMap) (tx : CTransaction) (nHeight : Nat) (out : CTxOut)
    (o o' : COutPoint) :
    plainAdd m o (tx.coinOf nHeight out) o' =
      if o' = o ∧ out.entersCoins = true then some (tx.coinOf nHeight out) else m o' := by
  have henter : out.entersCoins =
      !(CScript.isUnspendable (tx.coinOf nHeight out).out.scriptPubKey ||
        (tx.coinOf nHeight out).out.isZerocoinMint) := by
    simp [CTxOut.entersCoins, CTransaction.coinOf]
  unfold plainAdd
  rw [henter]
  cases (CScript.isUnspendable (tx.coinOf nHeight out).out.scriptPubKey ||
    (tx.coinOf nHeight out).out.isZerocoinMint) with
  | true => simp
  | false =>
    by_cases ho : o' = o
    · subst ho
      simp
    · simp [ho]

theorem plainRun_addOutput (env : ValidationEnv) (tx : CTransaction) (nHeight : Nat)
    {fSkipInvalid : Bool} {out : CTxOut} {i : Nat} {st : Chainstate}
    (hnew : st.coins ⟨tx.hash, i⟩ = none) (hnull : out.isNull = false)
    (hskip : (fSkipInvalid && env.containsOutPoint ⟨tx.hash, i⟩) = false) :
    plainRun (addOutput env tx nHeight false fSkipInvalid out i) st =
      .ok ((), { st with
        coins := plainAdd st.coins ⟨tx.hash, i⟩ (tx.coinOf nHeight out) }) := by
  have hspent : (tx.coinOf nHeight out).isSpent = false := hnull
  simp [addOutput, hskip, addCoin, handler, Chainstate.addCoin, hspent, hnew, Except.map]

/-- `AddCoins` without overwriting, where no output has a coin yet and none is skipped. -/
theorem plainRun_addCoins_from (env : ValidationEnv) (tx : CTransaction) (nHeight : Nat)
    {fSkipInvalid : Bool} (l : List CTxOut) (k : Nat) (st : Chainstate)
    (hnew : ∀ i, k ≤ i → i < k + l.length → st.coins ⟨tx.hash, i⟩ = none)
    (hnull : ∀ out ∈ l, out.isNull = false)
    (hskip : ∀ i, (fSkipInvalid && env.containsOutPoint ⟨tx.hash, i⟩) = false) :
    plainRun ((l.zipIdx k).forM fun p => addOutput env tx nHeight false fSkipInvalid p.1 p.2) st =
      .ok ((), { st with coins := fun o => (coinFrom tx nHeight l k o).or (st.coins o) }) := by
  induction l generalizing k st with
  | nil =>
    simp [coinFrom]
  | cons out l ih =>
    have hnone : st.coins ⟨tx.hash, k⟩ = none := hnew k (le_refl k) (by simp)
    have hstep := plainRun_addOutput env tx nHeight hnone (hnull out mem_cons_self) (hskip k)
    have hnext := ih (k + 1) { st with
        coins := plainAdd st.coins ⟨tx.hash, k⟩ (tx.coinOf nHeight out) } (by
      intro i hki hi
      dsimp only
      rw [plainAdd_coinOf, if_neg (by simp; omega)]
      exact hnew i (by omega) (by simp; omega)) fun o ho => hnull o (mem_cons_of_mem _ ho)
    simp only [plainRun] at hstep hnext ⊢
    refine (run_bind _ _ _ _).trans ?_
    rw [hstep]
    refine hnext.trans (ok_ext (fun o => ?_) rfl rfl)
    dsimp only
    rw [coinFrom_cons, plainAdd_coinOf]
    by_cases ho : o = ⟨tx.hash, k⟩
    · subst ho
      have hrest : coinFrom tx nHeight l (k + 1) ⟨tx.hash, k⟩ = none :=
        if_neg fun hc => Nat.not_succ_le_self k hc.2
      cases out.entersCoins <;> simp [hrest]
    · simp [ho]

/-- One output of `DisconnectBlock`: its coin goes, and a coin that matches leaves the flag. -/
theorem plainRun_removeOutput (tx : CTransaction) (fClean : Bool) (out : CTxOut) (i : Nat)
    (st : Chainstate) :
    ∃ b, plainRun (removeOutput tx fClean out i) st = .ok (b, { st with coins := fun o =>
        if o = ⟨tx.hash, i⟩ ∧ out.entersCoins = true then none else st.coins o }) ∧
      ((out.entersCoins = true → ∃ c, st.coins ⟨tx.hash, i⟩ = some c ∧ c.out = out) →
        b = fClean) := by
  unfold removeOutput
  by_cases henter : out.entersCoins = true
  · have hcond : (!CScript.isUnspendable out.scriptPubKey && !out.isZerocoinMint) = true := henter
    rw [if_pos hcond]
    refine ⟨fClean && decide (out = ((st.coins ⟨tx.hash, i⟩).getD Coin.empty).out), ?_, ?_⟩
    · have hcoins : (fun o => if o = ⟨tx.hash, i⟩ ∧ out.entersCoins = true then none
          else st.coins o) = Function.update st.coins ⟨tx.hash, i⟩ none := by
        funext o
        by_cases ho : o = ⟨tx.hash, i⟩
        · subst ho
          simp [henter]
        · simp [ho]
      rw [hcoins]
      simp [spendCoin, handler]
    · intro hmatch
      obtain ⟨c, hc, hout⟩ := hmatch henter
      simp [hc, hout]
  · have hcond : ¬ (!CScript.isUnspendable out.scriptPubKey && !out.isZerocoinMint) = true := henter
    rw [if_neg hcond]
    exact ⟨fClean, by simp [henter], fun _ => rfl⟩

theorem plainRun_removeOutputs_from (tx : CTransaction) (l : List CTxOut) (k : Nat) (fClean : Bool)
    (st : Chainstate) :
    ∃ b, plainRun ((l.zipIdx k).foldlM (fun fClean p => removeOutput tx fClean p.1 p.2) fClean) st =
        .ok (b, { st with coins := fun o =>
          if (coinFrom tx 0 l k o).isSome then none else st.coins o }) ∧
      ((∀ i out, l[i]? = some out → out.entersCoins = true →
        ∃ c, st.coins ⟨tx.hash, k + i⟩ = some c ∧ c.out = out) → b = fClean) := by
  induction l generalizing k fClean st with
  | nil =>
    refine ⟨fClean, ok_ext (fun o => ?_) rfl rfl, fun _ => rfl⟩
    simp [coinFrom]
  | cons out l ih =>
    obtain ⟨b1, hstep, hclean1⟩ := plainRun_removeOutput tx fClean out k st
    obtain ⟨b2, hnext, hclean2⟩ := ih (k + 1) b1 { st with coins := fun o =>
      if o = ⟨tx.hash, k⟩ ∧ out.entersCoins = true then none else st.coins o }
    refine ⟨b2, ?_, ?_⟩
    · rw [zipIdx_cons, foldlM_cons]
      simp only [plainRun] at hstep hnext ⊢
      rw [run_bind, hstep]
      refine hnext.trans (ok_ext (fun o => ?_) rfl rfl)
      dsimp only
      rw [coinFrom_cons]
      by_cases ho : o = ⟨tx.hash, k⟩
      · subst ho
        have hrest : coinFrom tx 0 l (k + 1) ⟨tx.hash, k⟩ = none :=
          if_neg fun hc => Nat.not_succ_le_self k hc.2
        cases out.entersCoins <;> simp [hrest]
      · simp [ho]
    · intro hmatch
      have h1 : b1 = fClean := hclean1 fun henter => hmatch 0 out rfl henter
      rw [← h1]
      refine hclean2 fun i out' hi henter => ?_
      obtain ⟨c, hc, hout⟩ := hmatch (i + 1) out' hi henter
      refine ⟨c, ?_, hout⟩
      dsimp only
      rw [if_neg (by simp; omega), show k + 1 + i = k + (i + 1) by omega]
      exact hc

/-! ## Restoring the inputs -/

/-- A coin that can be put back: it is unspent, has the height of a block, and is of a kind that
the view holds. -/
def Coin.Restorable (c : Coin) : Prop :=
  c.isSpent = false ∧ c.nHeight ≠ 0 ∧ c.out.entersCoins = true

theorem plainRun_applyTxInUndo {undo : Coin} (hundo : undo.Restorable) (out : COutPoint)
    (st : Chainstate) :
    plainRun (applyTxInUndo undo out) st =
      .ok (if st.coins out = none then .ok else .unclean,
        { st with coins := Function.update st.coins out (some undo) }) := by
  obtain ⟨hspent, hheight, henter⟩ := hundo
  have hadd : (CScript.isUnspendable undo.out.scriptPubKey || undo.out.isZerocoinMint) = false := by
    simpa [CTxOut.entersCoins] using henter
  cases hold : st.coins out <;>
    simp [applyTxInUndo, haveCoin, addCoin, handler, Chainstate.addCoin, hold,
      hheight, hspent, plainAdd, hadd, Except.map]

/-- Put the coins back at their outpoints; the first of two for one outpoint is written last. -/
def restoreAll : List (Coin × CTxIn) → CoinMap → CoinMap
  | [], m => m
  | (undo, txin) :: rest, m => Function.update (restoreAll rest m) txin.prevout (some undo)

omit [MerkleHash UInt256] in
theorem restoreAll_of_not_mem {l : List (Coin × CTxIn)} {o : COutPoint}
    (ho : ∀ p ∈ l, p.2.prevout ≠ o) (m : CoinMap) : restoreAll l m o = m o := by
  induction l with
  | nil => rfl
  | cons p l ih =>
    obtain ⟨undo, txin⟩ := p
    obtain ⟨hne, hl⟩ := forall_mem_cons.mp ho
    rw [restoreAll, Function.update_of_ne hne.symm, ih hl]

/-- The inputs of `DisconnectBlock`, whatever is at their outpoints; the flag stays if there is
nothing. -/
theorem plainRun_restoreInputs {l : List (Coin × CTxIn)} (hl : ∀ p ∈ l, p.1.Restorable)
    (st : Chainstate) :
    ∃ b, plainRun (restoreInputs l) st = .ok (some b, { st with coins := restoreAll l st.coins }) ∧
      ((l.map (·.2.prevout)).Nodup → (∀ p ∈ l, st.coins p.2.prevout = none) → b = true) := by
  induction l with
  | nil => exact ⟨true, rfl, fun _ _ => rfl⟩
  | cons p l ih =>
    obtain ⟨undo, txin⟩ := p
    obtain ⟨hundo, hl⟩ := forall_mem_cons.mp hl
    obtain ⟨b, hrest, hclean⟩ := ih hl
    have hstep := plainRun_applyTxInUndo hundo txin.prevout
    refine ⟨if restoreAll l st.coins txin.prevout = none then b else false, ?_, ?_⟩
    · simp only [plainRun] at hrest hstep ⊢
      rw [restoreInputs, run_bind, hrest]
      dsimp only
      rw [run_bind, hstep]
      by_cases hold : restoreAll l st.coins txin.prevout = none
      · simp [hold, restoreAll]
      · simp [hold, restoreAll]
    · intro hnodup hnone
      rw [map_cons, nodup_cons] at hnodup
      obtain ⟨hown, hnone⟩ := forall_mem_cons.mp hnone
      have hother : ∀ p ∈ l, p.2.prevout ≠ txin.prevout := by
        intro p hp he
        apply hnodup.1
        rw [← he]
        exact mem_map_of_mem hp
      have hfree : restoreAll l st.coins txin.prevout = none := by
        rw [restoreAll_of_not_mem hother]
        exact hown
      rw [if_pos hfree]
      exact hclean hnodup.2 hnone

end

end Passion
