import Mathlib.Data.Nat.Digits.Lemmas

/-!
# Numbers in limbs

A number is a list of limbs in base `B`, least significant first, of a fixed length; its value is
`Nat.ofDigits`. Two algorithms of the schoolbook:

* the product (`Limbs.mul`), row by row, with a carry in each row. What goes beyond the length is
  dropped, so the result is the product modulo `B ^ length` (`ofDigits_mul`). The sums of a row are
  made in words of size `W`, which must hold the square of the base;
* the quotient by shifts and subtractions (`divLoop`), which is that of the numbers (`divLoop_eq`).
-/

namespace Passion.Lib.Limbs

open Nat (ofDigits)
open List

/-! ## Taking a number apart -/

/-- The `count` limbs of a number, the least significant first. -/
def limbs (B : Nat) : Nat → Nat → List Nat
  | 0, _ => []
  | count + 1, x => x % B :: limbs B count (x / B)

theorem length_limbs (B count x : Nat) : (limbs B count x).length = count := by
  induction count generalizing x with
  | zero => rfl
  | succ count ih => simp [limbs, ih]

theorem limbs_lt {B : Nat} (hB : 0 < B) (count x : Nat) : ∀ p ∈ limbs B count x, p < B := by
  induction count generalizing x with
  | zero => simp [limbs]
  | succ count ih =>
    simp only [limbs, forall_mem_cons]
    exact ⟨Nat.mod_lt x hB, ih (x / B)⟩

theorem ofDigits_limbs (B count x : Nat) : ofDigits B (limbs B count x) = x % B ^ count := by
  induction count generalizing x with
  | zero => simp [limbs, Nat.mod_one]
  | succ count ih => rw [limbs, Nat.ofDigits_cons, ih, pow_succ', Nat.mod_mul]

/-! ## The product -/

section

variable (B W : Nat)

/-- Add `a * b` to `pn`, limb by limb; the carry out of the last limb is lost. -/
def mulAddRow (a : Nat) : Nat → List Nat → List Nat → List Nat
  | _, [], _ => []
  | _, p :: ps, [] => p :: ps
  | carry, p :: ps, b :: bs =>
    let n := (carry + p + a * b) % W
    n % B :: mulAddRow a (n / B) ps bs

/-- One row for each limb of the first factor. Row `j` starts at limb `j`, and the limb before it is
final. -/
def mulRows (b : List Nat) : List Nat → List Nat → List Nat
  | [], pn => pn
  | a :: as, pn =>
    match mulAddRow B W a 0 pn b with
    | [] => []
    | p :: ps => p :: mulRows b as ps

def mul (a b : List Nat) : List Nat := mulRows B W b a (replicate a.length 0)

variable {B W}

theorem length_mulAddRow (a carry : Nat) (pn b : List Nat) :
    (mulAddRow B W a carry pn b).length = pn.length := by
  induction pn generalizing carry b with
  | nil => rfl
  | cons p ps ih =>
    cases b with
    | nil => rfl
    | cons b bs => simp [mulAddRow, ih]

theorem row_sum_lt {carry p a b : Nat} (hc : carry < B) (hp : p < B) (ha : a < B) (hb : b < B) :
    carry + p + a * b < B * B := by
  have hab : a * b ≤ (B - 1) * (B - 1) := Nat.mul_le_mul (by omega) (by omega)
  obtain ⟨C, rfl⟩ : ∃ C, B = C + 1 := ⟨B - 1, by omega⟩
  simp only [Nat.add_sub_cancel] at hab
  calc carry + p + a * b ≤ C + C + C * C := by omega
    _ < (C + 1) * (C + 1) := by ring_nf; omega

variable {pn b a : List Nat}

theorem mulAddRow_lt (hB : 0 < B) (a carry : Nat) (b : List Nat) (hpn : ∀ p ∈ pn, p < B) :
    ∀ p ∈ mulAddRow B W a carry pn b, p < B := by
  induction pn generalizing carry b with
  | nil => simp [mulAddRow]
  | cons p ps ih =>
    obtain ⟨hp, hps⟩ := forall_mem_cons.1 hpn
    cases b with
    | nil => simpa [mulAddRow] using ⟨hp, hps⟩
    | cons b bs =>
      simp only [mulAddRow, forall_mem_cons]
      exact ⟨Nat.mod_lt _ hB, ih _ _ hps⟩

theorem ofDigits_mulAddRow (hW : B * B ≤ W) {a carry : Nat} (hlen : pn.length ≤ b.length)
    (ha : a < B) (hcarry : carry < B) (hpn : ∀ p ∈ pn, p < B) (hb : ∀ q ∈ b, q < B) :
    ofDigits B (mulAddRow B W a carry pn b) ≡
      carry + ofDigits B pn + a * ofDigits B b [MOD B ^ pn.length] := by
  induction pn generalizing carry b with
  | nil => simp [Nat.modEq_one]
  | cons p ps ih =>
    cases b with
    | nil => simp at hlen
    | cons q bs =>
      obtain ⟨hp, hps⟩ := forall_mem_cons.1 hpn
      obtain ⟨hq, hbs⟩ := forall_mem_cons.1 hb
      have hlt := row_sum_lt hcarry hp ha hq
      have hn : (carry + p + a * q) % W = carry + p + a * q := Nat.mod_eq_of_lt (by omega)
      have hnext : (carry + p + a * q) / B < B := Nat.div_lt_of_lt_mul hlt
      have hrest := ih (by simpa using hlen) hnext hps hbs
      have hdiv := Nat.mod_add_div (carry + p + a * q) B
      simp only [mulAddRow, hn, length_cons, pow_succ']
      calc (carry + p + a * q) % B + B * ofDigits B (mulAddRow B W a _ ps bs)
          ≡ (carry + p + a * q) % B +
              B * ((carry + p + a * q) / B + ofDigits B ps + a * ofDigits B bs)
            [MOD B * B ^ ps.length] := (hrest.mul_left' B).add_left _
        _ = ((carry + p + a * q) % B + B * ((carry + p + a * q) / B)) +
              B * ofDigits B ps + a * (B * ofDigits B bs) := by ring
        _ = carry + (p + B * ofDigits B ps) + a * (q + B * ofDigits B bs) := by
            rw [hdiv]
            ring

theorem length_mulRows (b a pn : List Nat) : (mulRows B W b a pn).length = pn.length := by
  induction a generalizing pn with
  | nil => rfl
  | cons a as ih =>
    have hrow := length_mulAddRow (B := B) (W := W) a 0 pn b
    cases h : mulAddRow B W a 0 pn b with
    | nil => simpa [mulRows, h] using hrow
    | cons p ps => simpa [mulRows, h, ih] using hrow

theorem mulRows_lt (hB : 0 < B) (hpn : ∀ p ∈ pn, p < B) : ∀ p ∈ mulRows B W b a pn, p < B := by
  induction a generalizing pn with
  | nil => exact hpn
  | cons a as ih =>
    have hrow := mulAddRow_lt (W := W) hB a 0 b hpn
    cases h : mulAddRow B W a 0 pn b with
    | nil => simp [mulRows, h]
    | cons p ps =>
      rw [h, forall_mem_cons] at hrow
      simp only [mulRows, h, forall_mem_cons]
      exact ⟨hrow.1, ih hrow.2⟩

theorem ofDigits_mulRows (hB : 0 < B) (hW : B * B ≤ W) (hlen : pn.length ≤ b.length)
    (ha : ∀ q ∈ a, q < B) (hb : ∀ q ∈ b, q < B) (hpn : ∀ p ∈ pn, p < B) :
    ofDigits B (mulRows B W b a pn) ≡
      ofDigits B pn + ofDigits B a * ofDigits B b [MOD B ^ pn.length] := by
  induction a generalizing pn with
  | nil => simpa [mulRows] using Nat.ModEq.refl _
  | cons a as ih =>
    obtain ⟨ha, has⟩ := forall_mem_cons.1 ha
    have hrow := ofDigits_mulAddRow hW hlen ha hB hpn hb
    have hlt := mulAddRow_lt (W := W) hB a 0 b hpn
    have hlength := length_mulAddRow (B := B) (W := W) a 0 pn b
    cases h : mulAddRow B W a 0 pn b with
    | nil =>
      have hnil : pn.length = 0 := by simpa [h] using hlength.symm
      simp [hnil, Nat.modEq_one]
    | cons p ps =>
      rw [h] at hrow hlt hlength
      obtain ⟨-, hps⟩ := forall_mem_cons.1 hlt
      have hpslen : pn.length = ps.length + 1 := by simpa using hlength.symm
      have hrest := ih (by omega) has hps
      simp only [mulRows, h, hpslen, pow_succ', zero_add] at hrow ⊢
      calc p + B * ofDigits B (mulRows B W b as ps)
          ≡ p + B * (ofDigits B ps + ofDigits B as * ofDigits B b) [MOD B * B ^ ps.length] :=
            (hrest.mul_left' B).add_left p
        _ = (p + B * ofDigits B ps) + B * ofDigits B as * ofDigits B b := by ring
        _ ≡ (ofDigits B pn + a * ofDigits B b) + B * ofDigits B as * ofDigits B b
            [MOD B * B ^ ps.length] := hrow.add_right _
        _ = ofDigits B pn + (a + B * ofDigits B as) * ofDigits B b := by ring

/-- **The product of limbs** is the product of the numbers, modulo the size of the first factor. -/
theorem ofDigits_mul (hB : 1 < B) (hW : B * B ≤ W) (hlen : a.length ≤ b.length)
    (ha : ∀ q ∈ a, q < B) (hb : ∀ q ∈ b, q < B) :
    ofDigits B (mul B W a b) = ofDigits B a * ofDigits B b % B ^ a.length := by
  have hzero : ∀ p ∈ replicate a.length 0, p < B := by
    intro p hp
    rw [eq_of_mem_replicate hp]
    omega
  have hmod := ofDigits_mulRows (by omega) hW (by simpa using hlen) ha hb hzero
  have hlt : ofDigits B (mul B W a b) < B ^ a.length := by
    have hdigits := Nat.ofDigits_lt_base_pow_length hB
      (mulRows_lt (W := W) (b := b) (a := a) (by omega) hzero)
    rwa [length_mulRows, length_replicate] at hdigits
  rw [Nat.ofDigits_replicate_zero, zero_add, length_replicate] at hmod
  exact (Nat.mod_eq_of_lt hlt).symm.trans hmod

end

/-! ## The quotient -/

/-- Subtract the divisor where it fits, set the bit of the quotient, and halve the divisor; the bits
`shift` down to `0` of the quotient are set in `shift + 1` rounds. -/
def divLoop : Nat → Nat → Nat → Nat
  | 0, _, _ => 0
  | shift + 1, num, div =>
    if div ≤ num then 2 ^ shift + divLoop shift (num - div) (div / 2)
    else divLoop shift num (div / 2)

/-- **The loop divides**, from a divisor that is shifted far enough. -/
theorem divLoop_eq {d : Nat} (hd : 0 < d) (shift : Nat) {num : Nat}
    (hnum : num < d * 2 ^ (shift + 1)) : divLoop (shift + 1) num (d * 2 ^ shift) = num / d := by
  induction shift generalizing num with
  | zero =>
    simp only [divLoop] at hnum ⊢
    split_ifs with h
    · exact (Nat.div_eq_of_lt_le (by omega) (by omega)).symm
    · exact (Nat.div_eq_of_lt (by omega)).symm
  | succ shift ih =>
    have hhalf : d * 2 ^ (shift + 1) / 2 = d * 2 ^ shift := by
      rw [pow_succ, ← mul_assoc, Nat.mul_div_cancel _ (by decide)]
    rw [divLoop, hhalf]
    split_ifs with h
    · have hrest : num - d * 2 ^ (shift + 1) < d * 2 ^ (shift + 1) := by
        have : d * 2 ^ (shift + 1 + 1) = d * 2 ^ (shift + 1) + d * 2 ^ (shift + 1) := by ring
        omega
      have hsplit : num = d * 2 ^ (shift + 1) + (num - d * 2 ^ (shift + 1)) := by omega
      rw [ih hrest]
      conv_rhs => rw [hsplit]
      rw [Nat.mul_add_div hd]
    · exact ih (by omega)

end Passion.Lib.Limbs
