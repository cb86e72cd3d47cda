import Passion.Primitives.Serialize

/-!
# Integers of variable length

`WriteVarInt`, `ReadVarInt` and `GetSizeOfVarInt` of `serialize.h`. A number is written in digits
of seven bits, the highest first, and one is taken off it before each further digit: so no number
has two forms. The numbers are those of an unsigned type of `size` bytes.
-/

namespace Passion

/-- `std::numeric_limits<I>::max()`. -/
def varIntMax (size : Nat) : Nat := 256 ^ size - 1

def getSizeOfVarInt (n : Nat) : Nat :=
  if n ≤ 0x7f then 1 else getSizeOfVarInt (n / 128 - 1) + 1
termination_by n
decreasing_by omega

/-- A byte of `tmp`; `more` for those after the first. -/
def varIntDigit (more : Bool) (n : Nat) : UInt8 :=
  UInt8.ofNat (n % 128 + if more then 0x80 else 0)

/-- The loop that fills `tmp`, the lowest digit first. -/
def varIntDigits (more : Bool) (n : Nat) : List UInt8 :=
  if n ≤ 0x7f then [varIntDigit more n]
  else varIntDigit more n :: varIntDigits true (n / 128 - 1)
termination_by n
decreasing_by omega

def writeVarInt (n : Nat) : List UInt8 := (varIntDigits false n).reverse

/-- `ReadVarInt`, with the number read so far. After the first check the shift cuts nothing off
(`varInt_le_max`). -/
def readVarInt (size : Nat) : Nat → List UInt8 → Except String (Nat × List UInt8)
  | _, [] => .error "CDataStream::read(): end of data"
  | n, chData :: is =>
    if varIntMax size / 128 < n then .error "ReadVarInt(): size too large"
    else
      let n := n * 128 + chData.toNat % 128
      if 128 ≤ chData.toNat then
        if n = varIntMax size then .error "ReadVarInt(): size too large"
        else readVarInt size (n + 1) is
      else .ok (n, is)

theorem toNat_varIntDigit (more : Bool) (n : Nat) :
    (varIntDigit more n).toNat = n % 128 + if more then 128 else 0 := by
  apply Nat.mod_eq_of_lt
  split_ifs <;> omega

theorem varIntDigit_toNat (chData : UInt8) (k : Nat) :
    varIntDigit (decide (128 ≤ chData.toNat)) (k * 128 + chData.toNat % 128) = chData := by
  have hlt := chData.toNat_lt
  apply UInt8.toNat_inj.mp
  rw [toNat_varIntDigit]
  by_cases h : 128 ≤ chData.toNat <;> simp [h] <;> omega

/-- The bytes before a reader that has `n`: the number below it, in digits that all go on. -/
def varIntRead (n : Nat) : List UInt8 := if n = 0 then [] else (varIntDigits true (n - 1)).reverse

theorem reverse_varIntDigits (more : Bool) (n : Nat) :
    (varIntDigits more n).reverse = varIntRead (n / 128) ++ [varIntDigit more n] := by
  rw [varIntDigits, varIntRead]
  by_cases h : n ≤ 0x7f
  · simp [h, show n / 128 = 0 by omega]
  · simp [h, show n / 128 ≠ 0 by omega]

theorem varIntRead_succ (n : Nat) :
    varIntRead (n + 1) = varIntRead (n / 128) ++ [varIntDigit true n] := by
  rw [← reverse_varIntDigits]
  rfl

theorem length_varIntDigits (more : Bool) (n : Nat) :
    (varIntDigits more n).length = getSizeOfVarInt n := by
  induction n using Nat.strongRecOn generalizing more with
  | ind n ih =>
    rw [varIntDigits, getSizeOfVarInt]
    by_cases h : n ≤ 0x7f
    · simp [h]
    · simp [h, ih (n / 128 - 1) (by omega)]

theorem getSizeOfVarInt_le {k n : Nat} (hn : n < 128 ^ (k + 1)) : getSizeOfVarInt n ≤ k + 1 := by
  induction k generalizing n with
  | zero =>
    rw [getSizeOfVarInt, if_pos (by omega)]
  | succ k ih =>
    rw [getSizeOfVarInt]
    split_ifs with h
    · omega
    · exact Nat.succ_le_succ (ih (by omega))

section

variable {size k n : Nat} {is rest : List UInt8}

theorem varInt_le_max (hsize : 0 < size) (hk : k ≤ varIntMax size / 128) (r : Nat) :
    k * 128 + r % 128 ≤ varIntMax size := by
  obtain ⟨j, rfl⟩ : ∃ j, size = j + 1 := ⟨size - 1, by omega⟩
  have hpos : 0 < 256 ^ j := Nat.pow_pos (by decide)
  simp only [varIntMax] at hk ⊢
  omega

theorem readVarInt_varIntRead (hn : n ≤ varIntMax size) :
    readVarInt size 0 (varIntRead n ++ is) = readVarInt size n is := by
  induction n using Nat.strongRecOn generalizing is with
  | ind n ih =>
    cases n with
    | zero => rfl
    | succ n =>
      rw [varIntRead_succ, List.append_assoc, ih (n / 128) (by omega) (by omega),
        List.singleton_append, readVarInt, if_neg (by omega), toNat_varIntDigit]
      simp [Nat.div_add_mod', Nat.ne_of_lt hn]

theorem varIntRead_append (hsize : 0 < size) (h : readVarInt size k is = .ok (n, rest)) :
    n ≤ varIntMax size ∧ varIntRead k ++ is = writeVarInt n ++ rest := by
  induction is generalizing k with
  | nil => cases h
  | cons chData is ih =>
    have hdiv : (k * 128 + chData.toNat % 128) / 128 = k := by omega
    have hdigit := varIntDigit_toNat chData k
    simp only [readVarInt] at h
    split_ifs at h with hk hmore hmax
    · obtain ⟨hn, hread⟩ := ih h
      rw [varIntRead_succ] at hread
      simp_all
    · cases h
      refine ⟨varInt_le_max hsize (not_lt.mp hk) _, ?_⟩
      rw [writeVarInt, reverse_varIntDigits]
      simp_all

end

/-- **Integers of variable length have one form.** What is written is read back, by a writer that
stays in its buffer of `(sizeof(n)*8+6)/7` bytes; what is read is what is written for the number. -/
theorem readVarInt_writeVarInt {size : Nat} (hsize : 0 < size) :
    (∀ n ≤ varIntMax size, (varIntDigits false n).length ≤ (size * 8 + 6) / 7 ∧
      (writeVarInt n).length = getSizeOfVarInt n ∧
      ∀ rest, readVarInt size 0 (writeVarInt n ++ rest) = .ok (n, rest)) ∧
    ∀ is n rest, readVarInt size 0 is = .ok (n, rest) →
      n ≤ varIntMax size ∧ is = writeVarInt n ++ rest := by
  refine ⟨fun n hn => ⟨?_, ?_, fun rest => ?_⟩, fun is n rest h => varIntRead_append hsize h⟩
  · obtain ⟨k, hk⟩ : ∃ k, (size * 8 + 6) / 7 = k + 1 := ⟨(size * 8 - 1) / 7, by omega⟩
    have hlt : n < (2 ^ 8) ^ size := Nat.lt_of_le_pred (Nat.pow_pos (by decide)) hn
    rw [length_varIntDigits, hk]
    refine getSizeOfVarInt_le (lt_of_lt_of_le hlt ?_)
    rw [show 128 = 2 ^ 7 from rfl, ← pow_mul, ← pow_mul]
    exact Nat.pow_le_pow_right (by decide) (by omega)
  · rw [writeVarInt, List.length_reverse, length_varIntDigits]
  · rw [writeVarInt, reverse_varIntDigits, List.append_assoc,
      readVarInt_varIntRead (by omega), List.singleton_append, readVarInt, if_neg (by omega),
      toNat_varIntDigit]
    have hlast : ¬128 ≤ n % 128 := by omega
    simp [Nat.div_add_mod', hlast]

theorem readVarInt_writeVarInt_uint64 :
    readVarInt 8 0 (writeVarInt 16512) = .ok (16512, []) := by
  have h := ((@readVarInt_writeVarInt 8 (by decide)).1 16512 (by decide)).2.2 []
  rwa [List.append_nil] at h

end Passion
