import Passion.Consensus.Params

/-!
# Compressed amounts

`CompressAmount` and `DecompressAmount` of `compressor.cpp`, over `uint64_t`. An amount is divided
by ten while it ends in a zero, at most nine times; the number of divisions, the last digit and the
rest are packed into one number. A failed assertion or a step that leaves 64 bits is `none`.

Main result: `decompressAmount_compressAmount`.
-/

namespace Passion.CTxOutCompressor

/-- A `uint64_t` result. -/
def u64 (x : Nat) : Option Nat := if x < 18446744073709551616 then some x else none

/-- The loop of `CompressAmount`, by what is left of its nine rounds: `n` and `e`. -/
def stripZeros : Nat → Nat → Nat → Nat × Nat
  | 0, n, e => (n, e)
  | rounds + 1, n, e => if n % 10 = 0 then stripZeros rounds (n / 10) (e + 1) else (n, e)

/-- `CompressAmount` after its loop. -/
def pack (n e : Nat) : Option Nat :=
  if e < 9 then
    let d := n % 10
    if d < 1 then none
    else do
      let y ← u64 (n / 10 * 9)
      let y ← u64 (y + d)
      let y ← u64 ((y - 1) * 10)
      u64 (1 + y + e)
  else do
    let y ← u64 ((n - 1) * 10)
    u64 (1 + y + 9)

def compressAmount (n : Nat) : Option Nat :=
  if n = 0 then some 0
  else
    let stripped := stripZeros 9 n 0
    pack stripped.1 stripped.2

/-- `DecompressAmount` before its loop: `n` and `e`. -/
def unpack (x : Nat) : Option (Nat × Nat) :=
  let e := x % 10
  let x := x / 10
  if e < 9 then do
    let n ← u64 (x / 9 * 10)
    let n ← u64 (n + (x % 9 + 1))
    return (n, e)
  else do
    let n ← u64 (x + 1)
    return (n, e)

/-- The loop of `DecompressAmount`. -/
def restoreZeros : Nat → Nat → Option Nat
  | 0, n => some n
  | e + 1, n => do restoreZeros e (← u64 (n * 10))

def decompressAmount (x : Nat) : Option Nat :=
  if x = 0 then some 0
  else do
    let (n, e) ← unpack (x - 1)
    restoreZeros e n

theorem u64_eq {x : Nat} (h : x < 18446744073709551616) : u64 x = some x := if_pos h

/-- The loop takes out powers of ten, and stops at another digit or after nine rounds. -/
theorem stripZeros_spec (rounds n e : Nat) :
    ∃ k i, stripZeros rounds n e = (k, e + i) ∧ k * 10 ^ i = n ∧
      (i = rounds ∨ i < rounds ∧ k % 10 ≠ 0) := by
  induction rounds generalizing n e with
  | zero => exact ⟨n, 0, rfl, by simp, .inl rfl⟩
  | succ rounds ih =>
    by_cases hn : n % 10 = 0
    · obtain ⟨k, i, heq, hk, hi⟩ := ih (n / 10) (e + 1)
      refine ⟨k, i + 1, ?_, ?_, by omega⟩
      · rw [stripZeros, if_pos hn, heq, add_right_comm, add_assoc]
      · rw [pow_succ, ← mul_assoc]
        omega
    · exact ⟨n, 0, if_neg hn, by simp, .inr ⟨Nat.succ_pos _, hn⟩⟩

theorem unpack_pack {k e : Nat} (hmax : k ≤ 4319950000000000) (hpos : k ≠ 0)
    (h : e = 9 ∨ e < 9 ∧ k % 10 ≠ 0) :
    ∃ x, pack k e = some (x + 1) ∧ unpack x = some (k, e) := by
  rcases h with rfl | ⟨he, hdigit⟩
  · refine ⟨(k - 1) * 10 + 9, ?_, ?_⟩
    · simp (disch := omega) [pack, u64_eq]
      omega
    · have hdiv : ((k - 1) * 10 + 9) / 10 + 1 = k := by omega
      simp (disch := omega) [unpack, hdiv, u64_eq]
  · refine ⟨(k / 10 * 9 + k % 10 - 1) * 10 + e, ?_, ?_⟩
    · simp (disch := omega) [pack, u64_eq, he]
      omega
    · have he' : ((k / 10 * 9 + k % 10 - 1) * 10 + e) % 10 = e := by omega
      have hdiv : ((k / 10 * 9 + k % 10 - 1) * 10 + e) / 10 = k / 10 * 9 + (k % 10 - 1) := by omega
      simp (disch := omega) [unpack, he', he, hdiv, u64_eq]
      omega

theorem restoreZeros_eq {e n : Nat} (h : n * 10 ^ e < 18446744073709551616) :
    restoreZeros e n = some (n * 10 ^ e) := by
  induction e generalizing n with
  | zero => simp [restoreZeros]
  | succ e ih =>
    rw [pow_succ', ← mul_assoc] at h ⊢
    have hn := (Nat.le_mul_of_pos_right _ (Nat.pow_pos (by decide))).trans_lt h
    rw [restoreZeros, u64_eq hn]
    exact ih h

/-- **Amounts survive compression**, up to the largest amount of the three networks, and no step on
the way overflows or fails an assertion. -/
theorem decompressAmount_compressAmount (nDevFee : Int) (n : Nat)
    (hn : (n : Int) ≤ (ConsensusParams.regtest nDevFee).nMaxMoneyOut) :
    ∃ x, compressAmount n = some x ∧ decompressAmount x = some n ∧
      (decompressAmount x).bind compressAmount = some x := by
  have hmax : n ≤ 4319950000000000 := Int.ofNat_le.mp hn
  suffices h : ∃ x, compressAmount n = some x ∧ decompressAmount x = some n by
    obtain ⟨x, hc, hd⟩ := h
    refine ⟨x, hc, hd, ?_⟩
    rw [hd]
    exact hc
  by_cases hzero : n = 0
  · exact ⟨0, if_pos hzero, by rw [hzero]; rfl⟩
  obtain ⟨k, e, hstrip, hk, he⟩ := stripZeros_spec 9 n 0
  rw [zero_add] at hstrip
  have hpos : k ≠ 0 := by
    rintro rfl
    omega
  have hle : k ≤ n := hk ▸ Nat.le_mul_of_pos_right k (Nat.pow_pos (by decide))
  obtain ⟨x, hpack, hunpack⟩ := unpack_pack (by omega) hpos he
  refine ⟨x + 1, ?_, ?_⟩
  · rw [compressAmount, if_neg hzero, hstrip]
    exact hpack
  · rw [decompressAmount, Nat.add_sub_cancel, hunpack]
    exact (restoreZeros_eq (by omega)).trans (congrArg some hk)

theorem decompressAmount_compressAmount_coin :
    (100000000 : Int) ≤ (ConsensusParams.regtest 0).nMaxMoneyOut ∧
      ∃ x, compressAmount 100000000 = some x ∧ decompressAmount x = some 100000000 ∧
        (decompressAmount x).bind compressAmount = some x :=
  ⟨by decide, decompressAmount_compressAmount 0 100000000 (by decide)⟩

end Passion.CTxOutCompressor
