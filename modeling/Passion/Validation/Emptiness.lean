import Passion.Primitives.Serialize
import Passion.Validation.Checked

/-!
# Transactions without inputs or outputs

`CheckTransaction` is meant to refuse a transaction that spends nothing or creates nothing. Both
tests read `vin.empty() && (sapData && sapData->vShieldedSpend.empty())`: where the optional Sapling
data is absent they pass. The wire format can leave it out from version 3 on.

**Theorem (`checkTransaction_nonempty_iff`).** A decoded transaction that `CheckTransaction` accepts
has an input and an output exactly if its Sapling data is present or neither of its transparent
lists is empty.
-/

namespace Passion

open Lib (bind_eq_ok)
open CMutableTransaction
open Reader (unserializeTransaction)

namespace CTransaction

variable (tx : CTransaction)

def HasInput : Prop := tx.vin ≠ [] ∨ ∃ d, tx.sapData = some d ∧ d.vShieldedSpend ≠ []

def HasOutput : Prop := tx.vout ≠ [] ∨ ∃ d, tx.sapData = some d ∧ d.vShieldedOutput ≠ []

end CTransaction

variable {env : ValidationEnv} {tx : CTransaction} {fZerocoinActive fSaplingActive : Bool}

theorem hasInput_hasOutput_of_sapData {d : SaplingTxData}
    (h : checkTransaction env tx fZerocoinActive fSaplingActive = .ok ())
    (hd : tx.sapData = some d) : tx.HasInput ∧ tx.HasOutput := by
  obtain ⟨_, hvin, h⟩ := bind_eq_ok.1 h
  obtain ⟨_, hvout, -⟩ := bind_eq_ok.1 h
  rw [hd] at hvin hvout
  constructor
  · by_cases hempty : tx.vin = []
    · refine .inr ⟨d, hd, ?_⟩
      simpa [hempty] using hvin
    · exact .inl hempty
  · by_cases hempty : tx.vout = []
    · refine .inr ⟨d, hd, ?_⟩
      simpa [hempty] using hvout
    · exact .inl hempty

/-- **When an accepted transaction has inputs and outputs.** -/
theorem checkTransaction_nonempty_iff (env : ValidationEnv)
    (computeHash : CMutableTransaction → UInt256) (fZerocoinActive fSaplingActive : Bool)
    (bytes rest : List UInt8) (tx : CMutableTransaction)
    (hdecode : unserializeTransaction bytes = .ok (tx, rest))
    (haccept : checkTransaction env (tx.toTransaction computeHash) fZerocoinActive fSaplingActive =
      .ok ()) :
    (tx.toTransaction computeHash).HasInput ∧ (tx.toTransaction computeHash).HasOutput ↔
      (tx.nVersion < CTransaction.versionSapling ∨ tx.sapData ≠ none) ∨
        tx.vin ≠ [] ∧ tx.vout ≠ [] := by
  cases hdata : tx.sapData with
  | some d =>
    have hd : (tx.toTransaction computeHash).sapData = some d.toSaplingTxData := by
      simp [toTransaction, hdata]
    simp [hasInput_hasOutput_of_sapData haccept hd]
  | none =>
    have hversion := Reader.saplingVersion_of_absent hdecode hdata
    have hnone : (tx.toTransaction computeHash).sapData = none := by
      simp [toTransaction, hdata]
    simp only [CTransaction.HasInput, CTransaction.HasOutput, hnone, not_lt.mpr hversion, ne_eq,
      not_true_eq_false, reduceCtorEq, false_and, exists_false, or_false, false_or]
    rfl

namespace CTransaction

/-- `MAX_TX_SIZE_AFTER_SAPLING` (consensus.h) and `MAX_ZEROCOIN_TX_SIZE` (validation.h). -/
def withinMaxSize (tx : CTransaction) : Bool :=
  decide (tx.getTotalSize ≤ if tx.isShieldedTx then 400000 else 150000)

end CTransaction

/-- Eleven bytes: version 3, type 0, no inputs, no outputs, lock time 0, discriminant `0x00`. -/
def emptyTransactionBytes : List UInt8 := [3, 0, 0, 0, 0, 0, 0, 0, 0, 0, 0]

/-- These bytes decode to a transaction without anything, which `CheckTransaction` accepts. -/
theorem checkTransaction_accepts_empty :
    ∃ tx, unserializeTransaction emptyTransactionBytes = .ok (tx, []) ∧
      (∀ zerocoin sapling computeHash,
        checkTransaction { ValidationEnv.sample 0 with checkSize := CTransaction.withinMaxSize }
          (tx.toTransaction computeHash) zerocoin sapling = .ok ()) ∧
      ∀ computeHash, ¬ (tx.toTransaction computeHash).HasInput ∧
        ¬ (tx.toTransaction computeHash).HasOutput := by
  refine ⟨⟨3, 0, [], [], 0, none, none⟩, rfl, ?_, ?_⟩
  · intro zerocoin sapling computeHash
    cases zerocoin <;> cases sapling <;> rfl
  · intro computeHash
    simp [CTransaction.HasInput, CTransaction.HasOutput, toTransaction]

def legacyTransactionBytes : List UInt8 :=
  [1, 0, 0, 0] ++ (1 :: List.replicate 32 7 ++ [0, 0, 0, 0] ++ [0] ++ [255, 255, 255, 255]) ++
    [1, 5, 0, 0, 0, 0, 0, 0, 0, 1, 0x51] ++ [0, 0, 0, 0]

theorem checkTransaction_nonempty_legacy :
    ∃ tx, unserializeTransaction legacyTransactionBytes = .ok (tx, []) ∧
      checkTransaction (.sample 0) (tx.toTransaction fun _ => 1) false true = .ok () ∧
      ((tx.toTransaction fun _ => 1).HasInput ∧ (tx.toTransaction fun _ => 1).HasOutput) := by
  refine ⟨⟨1, 0, [⟨⟨BitVec.ofNat 256 (Reader.leNat (List.replicate 32 7)), 0⟩, [], 4294967295⟩],
    [⟨5, [0x51]⟩], 0, some .default, none⟩, by rfl, by rfl, ?_⟩
  exact (checkTransaction_nonempty_iff (.sample 0) (fun _ => 1) false true legacyTransactionBytes []
    _ (by rfl) (by rfl)).mpr (.inl (.inl (by decide)))

end Passion
