import Mathlib.Tactic.IntervalCases
import Passion.Sapling.IncrementalWitness

/-!
# The number of leaves

`size` and `position` of `sapling/incrementalmerkletree.h`. The parents are the binary digits of
the number of leaves, but the constant that `size` shifts is an `int`. Its sign bit is the digit of
level 31, so the size is right up to `2 ^ 31` leaves and wrong from there on
(`size_position_iff`).
-/

namespace Passion

open Lib.Merkle IncrementalMerkleTree MerkleHash

/-- `1 << n` for the `int` constant `1`, as a number. -/
def shiftedOne (n : Nat) : Int := (BitVec.ofNat 32 (2 ^ n)).toInt

namespace IncrementalMerkleTree

variable {H : Type}

/-- The loop of `size` from parent `i` on. -/
def sizeParents : Nat → List (Option H) → Int
  | _, [] => 0
  | i, parent :: parents =>
    (if parent.isSome then shiftedOne (i + 1) else 0) + sizeParents (i + 1) parents

/-- `size`, a `size_t`. -/
def size (t : IncrementalMerkleTree H) : BitVec 64 :=
  BitVec.ofInt 64 ((if t.left.isSome then 1 else 0) + (if t.right.isSome then 1 else 0) +
    sizeParents 0 t.parents)

end IncrementalMerkleTree

/-- `position`, a `uint64_t`. -/
def IncrementalWitness.position {H : Type} (w : IncrementalWitness H) : BitVec 64 := w.tree.size - 1

/-- The lowest digit of an `int` that has higher ones, too, is not its sign. -/
theorem shiftedOne_add {d p : Nat} (h : (2 * p + 1) * 2 ^ d < 2 ^ 32) :
    shiftedOne d + (BitVec.ofNat 32 (p * 2 ^ (d + 1))).toInt =
      (BitVec.ofNat 32 ((2 * p + 1) * 2 ^ d)).toInt := by
  have hd : d < 32 := (Nat.pow_lt_pow_iff_right (show 1 < 2 by decide)).mp
    ((Nat.le_mul_of_pos_left (2 ^ d) (Nat.succ_pos _)).trans_lt h)
  simp only [shiftedOne, BitVec.toInt_eq_toNat_cond, BitVec.toNat_ofNat]
  interval_cases d <;> omega

variable {H : Type} [MerkleHash H] {f : Nat → H}

namespace IncrementalMerkleTree

/-- **The parents are binary digits**, and the loop reads them as an `int`. -/
theorem Collapsed.sizeParents_eq {i p : Nat} {parents : List (Option H)}
    (h : Collapsed f (i + 1) p parents) (hp : p * 2 ^ (i + 1) < 2 ^ 32) :
    sizeParents i parents = (BitVec.ofNat 32 (p * 2 ^ (i + 1))).toInt := by
  induction parents generalizing i p with
  | nil =>
    obtain rfl : p = 0 := h
    simp [sizeParents]
  | cons x parents ih =>
    obtain ⟨-, rfl, hrest⟩ := h
    obtain ⟨k, rfl | rfl⟩ := Nat.even_or_odd' p
    · have heq : k * 2 ^ (i + 1 + 1) = 2 * k * 2 ^ (i + 1) := by
        ring
      rw [show 2 * k / 2 = k by omega] at hrest
      rw [sizeParents, ih hrest (heq ▸ hp), heq]
      simp
    · have hlt : k * 2 ^ (i + 1 + 1) < 2 ^ 32 := by
        rw [pow_succ, ← mul_assoc, mul_right_comm]
        exact (Nat.mul_le_mul_right _ (by omega)).trans_lt hp
      rw [show (2 * k + 1) / 2 = k by omega] at hrest
      rw [sizeParents, ih hrest hlt, ← shiftedOne_add hp]
      simp

theorem Holds.size_eq {n : Nat} {t : IncrementalMerkleTree H} (h : Holds f n t) (hn : n ≤ 2 ^ 32) :
    t.size = BitVec.ofInt 64 (if n ≤ 2 ^ 31 then (n : Int) else n - 2 ^ 32) := by
  cases n with
  | zero =>
    rw [show t = empty from h]
    rfl
  | succ i =>
    obtain ⟨hleft, hright, hparents⟩ := h
    have hlt : i / 2 * 2 ^ (0 + 1) < 2 ^ 32 := by omega
    rw [size, hparents.sizeParents_eq hlt, BitVec.toInt_eq_toNat_cond]
    congr 1
    split_ifs <;> simp_all <;> omega

end IncrementalMerkleTree

theorem exists_size {D : Nat} (hD : 1 ≤ D) (hmax : D ≤ saplingTreeDepth) (leaves : List H)
    (hfit : leaves.length ≤ 2 ^ D) :
    ∃ t : IncrementalMerkleTree H, appendAll D empty leaves = .ok t ∧
      t.size = BitVec.ofInt 64
        (if leaves.length ≤ 2 ^ 31 then leaves.length else leaves.length - 2 ^ 32) := by
  obtain ⟨t, hall, ht⟩ := exists_holds hD leaves le_rfl hfit
  rw [List.take_length] at hall
  exact ⟨t, hall, ht.size_eq (hfit.trans (Nat.pow_le_pow_right (by decide) hmax))⟩

/-- **Size and position** are those of the last leaf up to `2 ^ 31` leaves, and no further. -/
theorem size_position_iff (D : Nat) (hD : 1 ≤ D) (hmax : D ≤ saplingTreeDepth) (leaves : List H)
    (hfit : leaves.length ≤ 2 ^ D) :
    ∃ t : IncrementalMerkleTree H, appendAll D empty leaves = .ok t ∧
      ((t.size.toNat = leaves.length ∧
          (leaves ≠ [] → t.witness.position.toNat = leaves.length - 1)) ↔
        leaves.length ≤ 2 ^ 31) := by
  obtain ⟨t, hall, hsize⟩ := exists_size hD hmax leaves hfit
  refine ⟨t, hall, ?_⟩
  rw [IncrementalWitness.position, show t.witness.tree = t from rfl, hsize, ← List.length_pos_iff]
  split_ifs with h
  · simp
    omega
  · simp
    omega

theorem size_position_two :
    ∃ t : IncrementalMerkleTree UInt256, @appendAll UInt256 orHash 32 empty [2, 4] = .ok t ∧
      t.size.toNat = 2 ∧ t.witness.position.toNat = 1 := by
  obtain ⟨t, hall, hiff⟩ :=
    @size_position_iff UInt256 orHash 32 (by decide) (by decide) [2, 4] (by decide)
  obtain ⟨hsize, hposition⟩ := hiff.mpr (by decide)
  exact ⟨t, hall, hsize, hposition (by decide)⟩

/-- One leaf more than `2 ^ 31`. -/
theorem size_of_many_leaves : ∃ t : IncrementalMerkleTree UInt256,
    @appendAll UInt256 orHash 32 empty (List.replicate (2 ^ 31 + 1) 2) = .ok t ∧
      t.size.toNat ≠ 2 ^ 31 + 1 := by
  obtain ⟨t, hall, hsize⟩ := @exists_size UInt256 orHash 32 (by decide) (by decide)
    (List.replicate (2 ^ 31 + 1) 2) (by rw [List.length_replicate]; decide)
  refine ⟨t, hall, ?_⟩
  rw [hsize, List.length_replicate]
  decide

end Passion
