import Passion.Chain.BlockIndex
import Passion.Lib.Limbs
import Passion.Script.Script
import Passion.Validation.Values

/-!
# The stake kernel

`CStakeKernel::CheckKernelHash` of `kernel.cpp`, with `operator*=` and `operator/=` of
`arith_uint256.cpp`.

The target of a block is weighted by the value that is staked: the kernel hash must be below the
product of the target and the value, in units of 100. The product is made in 256 bits, and nothing
asks whether it fits.

Main results: `toNat_mulAssign` and `toNat_divAssign`, that the limb algorithms are the product
modulo `2 ^ 256` and the quotient; `checkKernelHash_mono_iff`, for which targets more value is never
worse.
-/

namespace Passion

open Lib
open Chain (setCompact)

/-! ## 256-bit arithmetic -/

namespace UInt256

/-- A limb of `base_uint`, a `uint32_t`. -/
def limbBase : Nat := 4294967296

/-- The sums of a row are `uint64_t`s. -/
def wordBase : Nat := 18446744073709551616

def pn (x : UInt256) : List Nat := Limbs.limbs limbBase 8 x.toNat

/-- `operator*=`. -/
def mulAssign (a b : UInt256) : UInt256 :=
  BitVec.ofNat 256 (Nat.ofDigits limbBase (Limbs.mul limbBase wordBase a.pn b.pn))

/-- `bits()`: the position of the highest bit that is set, counted from one. -/
def bits (x : UInt256) : Nat := if x = 0 then 0 else x.toNat.log2 + 1

/-- `operator/=`; `none` is the exception for a divisor of zero. No bit of the divisor is lost where
it is shifted (`toNat_shiftLeft_align`). -/
def divAssign (num div : UInt256) : Option UInt256 :=
  if div.bits = 0 then none
  else if num.bits < div.bits then some 0
  else
    let shift := num.bits - div.bits
    some (BitVec.ofNat 256 (Limbs.divLoop (shift + 1) num.toNat (div.toNat * 2 ^ shift)))

theorem ofDigits_pn (x : UInt256) : Nat.ofDigits limbBase x.pn = x.toNat := by
  rw [pn, Limbs.ofDigits_limbs]
  exact Nat.mod_eq_of_lt x.isLt

theorem toNat_mulAssign (a b : UInt256) : (mulAssign a b).toNat = a.toNat * b.toNat % 2 ^ 256 := by
  have hlt : ∀ x : UInt256, ∀ p ∈ x.pn, p < limbBase :=
    fun x => Limbs.limbs_lt (by decide) 8 x.toNat
  have hlen : ∀ x : UInt256, x.pn.length = 8 := fun x => Limbs.length_limbs limbBase 8 x.toNat
  have hmul := Limbs.ofDigits_mul (W := wordBase) (by decide) (by decide)
    (by simp [hlen]) (hlt a) (hlt b)
  rw [hlen, ofDigits_pn, ofDigits_pn] at hmul
  rw [mulAssign, hmul]
  exact Nat.mod_mod _ _

theorem bits_pos {x : UInt256} (hx : x ≠ 0) :
    2 ^ (x.bits - 1) ≤ x.toNat ∧ x.toNat < 2 ^ x.bits := by
  have hne : x.toNat ≠ 0 := fun h => hx (BitVec.eq_of_toNat_eq (by simpa using h))
  rw [bits, if_neg hx]
  exact ⟨Nat.log2_self_le hne, Nat.lt_log2_self⟩

theorem toNat_lt_two_pow_bits (x : UInt256) : x.toNat < 2 ^ x.bits := by
  by_cases hx : x = 0
  · simp [hx]
  · exact (bits_pos hx).2

/-- The shifted divisor has as many bits as the numerator. -/
theorem toNat_shiftLeft_align {num div : UInt256} (hle : div.bits ≤ num.bits) :
    (div <<< (num.bits - div.bits)).toNat = div.toNat * 2 ^ (num.bits - div.bits) := by
  have hfits : num.bits ≤ 256 := by
    unfold bits
    split_ifs
    · omega
    · exact (Nat.log2_lt (by simpa [← BitVec.toNat_inj] using ‹¬ num = 0›)).2 num.isLt
  have hlt : div.toNat * 2 ^ (num.bits - div.bits) < 2 ^ 256 :=
    calc div.toNat * 2 ^ (num.bits - div.bits)
        < 2 ^ div.bits * 2 ^ (num.bits - div.bits) :=
          Nat.mul_lt_mul_of_pos_right (toNat_lt_two_pow_bits div) (Nat.two_pow_pos _)
      _ = 2 ^ num.bits := by rw [← pow_add, Nat.add_sub_cancel' hle]
      _ ≤ 2 ^ 256 := Nat.pow_le_pow_right (by decide) hfits
  rw [BitVec.toNat_shiftLeft, Nat.shiftLeft_eq, Nat.mod_eq_of_lt hlt]

theorem toNat_divAssign (num : UInt256) {div : UInt256} (hdiv : div ≠ 0) :
    ∃ q, divAssign num div = some q ∧ q.toNat = num.toNat / div.toNat := by
  have hbits : div.bits ≠ 0 := by
    rw [bits, if_neg hdiv]
    omega
  obtain ⟨hlo, hhi⟩ := bits_pos hdiv
  have hpos : 0 < div.toNat := lt_of_lt_of_le (Nat.two_pow_pos _) hlo
  have hnum := toNat_lt_two_pow_bits num
  simp only [divAssign, if_neg hbits]
  split_ifs with hlt
  · -- the numerator has fewer bits than the divisor
    have hsmall : num.toNat < div.toNat :=
      calc num.toNat < 2 ^ num.bits := hnum
        _ ≤ 2 ^ (div.bits - 1) := Nat.pow_le_pow_right (by decide) (by omega)
        _ ≤ div.toNat := hlo
    exact ⟨0, rfl, (Nat.div_eq_of_lt hsmall).symm⟩
  · have haligned : num.toNat < div.toNat * 2 ^ (num.bits - div.bits + 1) :=
      calc num.toNat < 2 ^ num.bits := hnum
        _ = 2 ^ (div.bits - 1) * 2 ^ (num.bits - div.bits + 1) := by
          rw [← pow_add]
          congr 1
          omega
        _ ≤ div.toNat * 2 ^ (num.bits - div.bits + 1) := Nat.mul_le_mul_right _ hlo
    refine ⟨_, rfl, ?_⟩
    rw [Limbs.divLoop_eq hpos _ haligned]
    exact Nat.mod_eq_of_lt (lt_of_le_of_lt (Nat.div_le_self _ _) num.isLt)

/-- **The limb algorithms are division and multiplication.** -/
theorem divAssign_mulAssign {a b : UInt256} (hb : b ≠ 0) :
    (∃ q, divAssign a b = some q ∧ q.toNat = a.toNat / b.toNat) ∧
    (mulAssign a b).toNat = a.toNat * b.toNat % 2 ^ 256 :=
  ⟨toNat_divAssign a hb, toNat_mulAssign a b⟩

theorem divAssign_mulAssign_seven_two :
    ∃ q, divAssign 7 2 = some q ∧ q.toNat = 3 ∧ (mulAssign 7 2).toNat = 14 := by
  obtain ⟨⟨q, hq, hquot⟩, hmul⟩ := divAssign_mulAssign (a := 7) (b := 2) (by decide)
  exact ⟨q, hq, hquot, hmul⟩

end UInt256

/-! ## The kernel -/

structure CStakeKernel where
  stakeModifier : List UInt8
  nTimeBlockFrom : Nat
  stakeUniqueness : List UInt8
  nTime : Nat
  nBits : Nat
  stakeValue : CAmount
  deriving DecidableEq, Repr

/-- `uint256(nValue)`: an amount is converted to `uint64_t`. -/
def UInt256.ofAmount (nValue : CAmount) : UInt256 :=
  BitVec.ofNat 256 (nValue % 18446744073709551616).toNat

/-- `bnTarget` of `CheckKernelHash`. -/
def weightedTarget (nBits : Nat) (stakeValue : CAmount) : UInt256 :=
  UInt256.mulAssign (setCompact nBits).1
    ((UInt256.divAssign (UInt256.ofAmount stakeValue) 100).getD 0)

namespace CStakeKernel

/-- `GetHash`, for the hash function of the bytes. -/
def getHash (hash : List UInt8 → UInt256) (k : CStakeKernel) : UInt256 :=
  hash (k.stakeModifier ++ CScript.writeLE 4 k.nTimeBlockFrom ++ k.stakeUniqueness ++
    CScript.writeLE 4 k.nTime)

def checkKernelHash (hash : List UInt8 → UInt256) (k : CStakeKernel) : Bool :=
  decide (k.getHash hash < weightedTarget k.nBits k.stakeValue)

end CStakeKernel

theorem toNat_weightedTarget (nBits : Nat) {v : CAmount} (hv : 0 ≤ v) (hfits : Fits64 v) :
    (weightedTarget nBits v).toNat =
      (setCompact nBits).1.toNat * (v.toNat / 100) % 2 ^ 256 := by
  obtain ⟨q, hq, hquot⟩ := UInt256.toNat_divAssign (UInt256.ofAmount v)
    (show 100 ≠ 0 by decide)
  have hmod : v % 18446744073709551616 = v := Int.emod_eq_of_lt hv (by have := hfits.2; omega)
  have hamount : (UInt256.ofAmount v).toNat = v.toNat := by
    have hlt : v.toNat < 2 ^ 256 := by have := hfits.2; omega
    rw [UInt256.ofAmount, hmod, BitVec.toNat_ofNat, Nat.mod_eq_of_lt hlt]
  rw [weightedTarget, hq, Option.getD_some, UInt256.toNat_mulAssign, hquot, hamount]
  rfl

theorem mul_mod_mono {t m n N : Nat} (hmn : m ≤ n) (hnN : n ≤ N) (hN : t * N < 2 ^ 256) :
    t * m % 2 ^ 256 ≤ t * n % 2 ^ 256 := by
  have hn : t * n ≤ t * N := Nat.mul_le_mul_left t hnN
  have hm : t * m ≤ t * n := Nat.mul_le_mul_left t hmn
  rw [Nat.mod_eq_of_lt (lt_of_le_of_lt (hm.trans hn) hN), Nat.mod_eq_of_lt (lt_of_le_of_lt hn hN)]
  exact hm

/-- The first factor for which the product wraps around makes it smaller than the one before. -/
theorem exists_wrap {t N : Nat} (ht : t < 2 ^ 256) (hN : 2 ^ 256 ≤ t * N) :
    ∃ n < N, t * (n + 1) % 2 ^ 256 < t * n % 2 ^ 256 := by
  have hpos : 0 < t := Nat.pos_of_mul_pos_right (lt_of_lt_of_le (by decide) hN)
  have hle : t * ((2 ^ 256 - 1) / t) ≤ 2 ^ 256 - 1 := Nat.mul_div_le _ _
  have hgt : 2 ^ 256 - 1 < t * ((2 ^ 256 - 1) / t + 1) := Nat.lt_mul_div_succ _ hpos
  generalize (2 ^ 256 - 1) / t = n at hle hgt
  refine ⟨n, ?_, ?_⟩
  · by_contra! hNn
    have := Nat.mul_le_mul_left t hNn
    omega
  · have hsplit : t * (n + 1) = t * n + t := Nat.mul_succ t n
    omega

theorem Fits64.of_le {v M : Int} (hM : Fits64 M) (hv : 0 ≤ v) (hle : v ≤ M) : Fits64 v := by
  obtain ⟨-, hM⟩ := hM
  exact ⟨by omega, by omega⟩

theorem toNat_weightedTarget_mul (nBits n : Nat) (hfits : Fits64 ((n : Int) * 100)) :
    (weightedTarget nBits ((n : Int) * 100)).toNat = (setCompact nBits).1.toNat * n % 2 ^ 256 := by
  have hweight : ((n : Int) * 100).toNat / 100 = n := by omega
  rw [toNat_weightedTarget nBits (mul_nonneg (Int.natCast_nonneg n) (by decide)) hfits, hweight]

/-- **More value is never worse**, for every kernel and all amounts in the money range, if and only
if the target times the greatest weight fits into 256 bits. -/
theorem checkKernelHash_mono_iff {params : ConsensusParams} (hmax : Fits64 params.nMaxMoneyOut)
    (nBits : Nat) :
    (∀ (hash : List UInt8 → UInt256) (k : CStakeKernel) (v w : CAmount), k.nBits = nBits →
        v ≤ w → params.moneyRange v = true → params.moneyRange w = true →
        { k with stakeValue := v }.checkKernelHash hash = true →
        { k with stakeValue := w }.checkKernelHash hash = true) ↔
      (setCompact nBits).1.toNat * (params.nMaxMoneyOut.toNat / 100) < 2 ^ 256 := by
  simp only [ConsensusParams.moneyRange, CStakeKernel.checkKernelHash, Bool.and_eq_true,
    decide_eq_true_eq, BitVec.lt_def]
  constructor
  · intro hmono
    by_contra! hover
    obtain ⟨n, hn, hwrap⟩ := exists_wrap (setCompact nBits).1.isLt hover
    -- the amounts just before and just after are in the money range
    obtain ⟨hv, hvw, hw⟩ : 0 ≤ (n : Int) * 100 ∧ (n : Int) * 100 ≤ (n + 1) * 100 ∧
        ((n + 1) : Int) * 100 ≤ params.nMaxMoneyOut := by omega
    have hbefore := toNat_weightedTarget_mul nBits n (hmax.of_le hv (hvw.trans hw))
    have hafter := toNat_weightedTarget_mul nBits (n + 1) (hmax.of_le (hv.trans hvw) hw)
    -- a kernel whose hash is the target just after the product wraps around
    have hbad := hmono (fun _ => weightedTarget nBits ((n + 1 : Nat) * 100))
      ⟨[], 0, [], 0, nBits, 0⟩ (n * 100) ((n + 1 : Nat) * 100) rfl hvw ⟨hv, hvw.trans hw⟩
      ⟨hv.trans hvw, hw⟩
    simp only [CStakeKernel.getHash, hbefore, hafter] at hbad
    exact absurd (hbad hwrap) (lt_irrefl _)
  · intro hfit hash k v w hbits hvw hv hw hcheck
    have hmono : (weightedTarget nBits v).toNat ≤ (weightedTarget nBits w).toNat := by
      rw [toNat_weightedTarget nBits hv.1 (hmax.of_le hv.1 hv.2),
        toNat_weightedTarget nBits hw.1 (hmax.of_le hw.1 hw.2)]
      exact mul_mod_mono (Nat.div_le_div_right (Int.toNat_le_toNat hvw))
        (Nat.div_le_div_right (Int.toNat_le_toNat hw.2)) hfit
    rw [hbits] at hcheck ⊢
    exact lt_of_lt_of_le hcheck hmono

/-- `posLimitV2` of the main network: the easiest target. -/
def posLimitV2 : UInt256 := ~~~(0 : UInt256) >>> 20

namespace KernelSample

def hash (_ : List UInt8) : UInt256 := 1 <<< 236

def kernel (nBits : Nat) (stakeValue : CAmount) : CStakeKernel := ⟨[], 0, [], 0, nBits, stakeValue⟩

end KernelSample

open KernelSample in
theorem checkKernelHash_mono_iff_main :
    (kernel 0x1b00ffff (1000 * COIN)).checkKernelHash hash = true ∧
      (kernel 0x1b00ffff (2000 * COIN)).checkKernelHash hash = true := by
  have hlight : (kernel 0x1b00ffff (1000 * COIN)).checkKernelHash hash = true := by decide +kernel
  have hmax : Fits64 ConsensusParams.main.nMaxMoneyOut := by decide
  exact ⟨hlight, (checkKernelHash_mono_iff hmax 0x1b00ffff).2 (by decide +kernel) hash
    (kernel 0x1b00ffff 0) (1000 * COIN) (2000 * COIN) rfl (by decide) (by decide) (by decide)
    hlight⟩

open KernelSample in
/-- At the easiest target, a stake of 1.048578 coins fails where one of 1.048577 coins is enough. -/
theorem heavier_stake_fails :
    0 < (setCompact 0x1e0fffff).1 ∧ (setCompact 0x1e0fffff).1 ≤ posLimitV2 ∧
      ConsensusParams.main.moneyRange 104857800 = true ∧
      (kernel 0x1e0fffff 104857700).checkKernelHash hash = true ∧
      (kernel 0x1e0fffff 104857800).checkKernelHash hash = false := by
  decide +kernel

end Passion
