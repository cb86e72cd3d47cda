import Mathlib.Data.Nat.Bitwise
import Passion.Stake.Kernel

/-!
# Compact targets

A target is kept as a mantissa of 23 bits and a size in bytes. `GetCompact` takes the highest bytes
of a number, one byte fewer where the highest bit would be that of the sign, and `SetCompact` puts
them back in their place: what is lost are the low bytes, as many as the size is above three
(`setCompact_getCompact`).

`GetBlockProof` turns the target into the work of a block. It stays within 256 bits, where the
quotient of `2 ^ 256` that is meant does not.
-/

namespace Passion

open Chain

namespace UInt256

variable {x : UInt256}

/-- `GetCompact(false)`. -/
def getCompact (x : UInt256) : Nat :=
  let nSize := (x.bits + 7) / 8
  let nCompact :=
    if nSize ≤ 3 then x.toNat <<< (8 * (3 - nSize)) else x.toNat >>> (8 * (nSize - 3))
  -- the bit of the sign is not part of the mantissa
  if nCompact &&& 0x00800000 ≠ 0 then (nCompact >>> 8) ||| ((nSize + 1) <<< 24)
  else nCompact ||| (nSize <<< 24)

def lowBits (x : UInt256) : Nat := 8 * (x.bits / 8 - 2)

theorem mantissa_eq (n nSize : Nat) :
    (if nSize ≤ 3 then n <<< (8 * (3 - nSize)) else n >>> (8 * (nSize - 3))) =
      n * 2 ^ 24 / 2 ^ (8 * nSize) := by
  split_ifs with h
  · have hpow : 2 ^ 24 = 2 ^ (8 * (3 - nSize)) * 2 ^ (8 * nSize) := by
      rw [← pow_add]
      congr 1
      omega
    rw [Nat.shiftLeft_eq, hpow, ← mul_assoc, Nat.mul_div_cancel _ (Nat.two_pow_pos _)]
  · have hpow : 2 ^ (8 * nSize) = 2 ^ (8 * (nSize - 3)) * 2 ^ 24 := by
      rw [← pow_add]
      congr 1
      omega
    rw [Nat.shiftRight_eq_div_pow, hpow, Nat.mul_div_mul_right _ _ (Nat.two_pow_pos _)]

theorem sign_iff {n : Nat} (hn : n < 2 ^ 24) : n &&& 0x00800000 ≠ 0 ↔ 2 ^ 23 ≤ n := by
  rw [show 0x00800000 = 2 ^ 23 from rfl, Nat.and_two_pow, Nat.testBit_eq_decide_div_mod_eq]
  simp
  omega

/-- The mantissa of the compact form: the highest bytes, with no bit in the place of the sign. -/
def mantissa (x : UInt256) : Nat := x.toNat * 2 ^ 24 / 2 ^ (8 * (x.bits / 8 + 1))

/-- The size is one byte more than there are whole ones, and the mantissa has no sign bit. -/
theorem getCompact_eq (hx : x ≠ 0) :
    x.mantissa < 2 ^ 23 ∧ x.getCompact = 2 ^ 24 * (x.bits / 8 + 1) + x.mantissa := by
  obtain ⟨hlo, hhi⟩ := bits_pos hx
  have hpos : x.bits ≠ 0 := by
    rw [bits, if_neg hx]
    omega
  have hlt : x.mantissa < 2 ^ 23 := by
    have hpow := Nat.pow_le_pow_right (show 0 < 2 by decide)
      (show x.bits + 1 ≤ 8 * (x.bits / 8 + 1) by omega)
    rw [mantissa, Nat.div_lt_iff_lt_mul (Nat.two_pow_pos _)]
    omega
  have hor : x.mantissa ||| (x.bits / 8 + 1) <<< 24 =
      2 ^ 24 * (x.bits / 8 + 1) + x.mantissa := by
    rw [Nat.or_comm, ← Nat.shiftLeft_add_eq_or_of_lt (by omega), Nat.shiftLeft_eq, mul_comm]
  refine ⟨hlt, ?_⟩
  unfold getCompact
  simp only [mantissa_eq]
  by_cases hwhole : x.bits % 8 = 0
  · -- the highest bit is that of a byte
    have hsize : (x.bits + 7) / 8 = x.bits / 8 := by omega
    have hbits : 8 * (x.bits / 8) = x.bits := by omega
    have hpow : 2 ^ x.bits = 2 * 2 ^ (x.bits - 1) := by
      rw [← pow_succ']
      congr 1
      omega
    have hlow : 2 ^ 23 ≤ x.toNat * 2 ^ 24 / 2 ^ x.bits := by
      rw [Nat.le_div_iff_mul_le (Nat.two_pow_pos _)]
      omega
    have hhigh : x.toNat * 2 ^ 24 / 2 ^ x.bits < 2 ^ 24 := by
      rw [Nat.div_lt_iff_lt_mul (Nat.two_pow_pos _)]
      omega
    have hnext : x.toNat * 2 ^ 24 / 2 ^ x.bits / 2 ^ 8 = x.mantissa := by
      rw [Nat.div_div_eq_div_mul, ← pow_add, mantissa, mul_add_one, hbits]
    rw [hsize, hbits, if_pos ((sign_iff hhigh).mpr hlow), Nat.shiftRight_eq_div_pow, hnext, hor]
  · have hsize : (x.bits + 7) / 8 = x.bits / 8 + 1 := by omega
    have hsign := (sign_iff (by omega)).not.mpr (not_le.mpr hlt)
    rw [hsize, ← mantissa, if_neg hsign, hor]

theorem bits_le (x : UInt256) : x.bits ≤ 256 := by
  by_cases hx : x = 0
  · simp [bits, hx]
  · have hlt := lt_of_le_of_lt (bits_pos hx).1 x.isLt
    have := (Nat.pow_lt_pow_iff_right (by decide)).mp hlt
    omega

/-- What comes back is the number without its low bits. -/
theorem setCompact_getCompact (hx : x ≠ 0) :
    setCompact x.getCompact =
      (BitVec.ofNat 256 (x.toNat / 2 ^ x.lowBits * 2 ^ x.lowBits), false, false) := by
  obtain ⟨hlt, hcompact⟩ := getCompact_eq hx
  have hbits := x.bits_le
  rw [hcompact]
  unfold mantissa at *
  generalize hq : x.bits / 8 = q at *
  have hmantissa := mantissa_eq x.toNat (q + 1)
  generalize x.toNat * 2 ^ 24 / 2 ^ (8 * (q + 1)) = m at *
  have hsize : (2 ^ 24 * (q + 1) + m) / 16777216 = q + 1 := by omega
  have hword : (2 ^ 24 * (q + 1) + m) % 8388608 = m := by omega
  have hsign : (2 ^ 24 * (q + 1) + m) / 8388608 % 2 = 0 := by omega
  simp only [setCompact, hsize, hword, hsign, lowBits, hq]
  by_cases hsmall : q + 1 ≤ 3
  · -- all bytes are there
    rw [if_pos hsmall, Nat.shiftLeft_eq] at hmantissa
    have hback : m / 2 ^ (8 * (3 - (q + 1))) = x.toNat := by
      rw [← hmantissa, Nat.mul_div_cancel _ (Nat.two_pow_pos _)]
    have hlow : 8 * (q - 2) = 0 := by omega
    simp only [if_pos hsmall, hback, hlow]
    simp
    omega
  · rw [if_neg hsmall, Nat.shiftRight_eq_div_pow, show q + 1 - 3 = q - 2 by omega] at hmantissa
    have hwide : q = 32 → m < 2 ^ 16 := by
      intro hmax
      rw [← hmantissa, Nat.div_lt_iff_lt_mul (Nat.two_pow_pos _), hmax]
      exact x.isLt
    simp only [if_neg hsmall, hmantissa]
    simp
    exact ⟨BitVec.eq_of_toNat_eq (by simp [Nat.shiftLeft_eq]), by omega⟩

end UInt256

open UInt256

theorem exists_mantissa {nCompact : Nat} {v : UInt256}
    (h : setCompact nCompact = (v, false, false)) :
    ∃ word k, word < 2 ^ 23 ∧ v.toNat = word * 2 ^ (8 * k) := by
  have hword : nCompact % 8388608 < 2 ^ 23 := Nat.mod_lt _ (by decide)
  simp only [setCompact, Prod.mk.injEq] at h
  generalize nCompact / 16777216 = nSize, nCompact % 8388608 = nWord at h hword
  obtain ⟨rfl, -, hfits⟩ := h
  by_cases hsmall : nSize ≤ 3
  · have hle := Nat.div_le_self nWord (2 ^ (8 * (3 - nSize)))
    refine ⟨nWord / 2 ^ (8 * (3 - nSize)), 0, by omega, ?_⟩
    simp only [if_pos hsmall, BitVec.toNat_ofNat]
    rw [Nat.mod_eq_of_lt (by omega)]
    simp
  · refine ⟨nWord, nSize - 3, hword, ?_⟩
    simp only [if_neg hsmall] at hfits ⊢
    simp at hfits
    have hlt : nWord * 2 ^ (8 * (nSize - 3)) < 2 ^ 256 := by
      -- a mantissa of `w` bytes fits up to size `35 - w`
      have fits (w) (hsize : nSize ≤ 35 - w) (hw : w ≤ 3) (hle : nWord < 2 ^ (8 * w)) :
          nWord * 2 ^ (8 * (nSize - 3)) < 2 ^ 256 := by
        refine lt_of_lt_of_le (mul_lt_mul_of_pos_right hle (Nat.two_pow_pos _)) ?_
        rw [← pow_add]
        exact Nat.pow_le_pow_right (by decide) (by omega)
      by_cases hone : nWord ≤ 255
      · by_cases hzero : nWord = 0
        · simp [hzero]
        · exact fits 1 (hfits hzero).1.1 (by decide) (by omega)
      · have hbound := hfits (by omega)
        by_cases htwo : nWord ≤ 65535
        · exact fits 2 (hbound.1.2 (by omega)) (by decide) (by omega)
        · exact fits 3 (hbound.2 (by omega)) (by decide) (by omega)
    rw [BitVec.toNat_shiftLeft, BitVec.toNat_ofNat, Nat.shiftLeft_eq, Nat.mod_mul_mod]
    exact Nat.mod_eq_of_lt hlt

/-- **Compact targets round down, by less than one part in `2 ^ 15`, and only once.** -/
theorem compact_roundTrip :
    (∀ x : UInt256, ∃ v, setCompact x.getCompact = (v, false, false) ∧ v.toNat ≤ x.toNat ∧
      x.toNat - v.toNat ≤ x.toNat / 2 ^ 15) ∧
    ∀ nCompact v, setCompact nCompact = (v, false, false) → v ≠ 0 →
      setCompact v.getCompact = (v, false, false) := by
  refine ⟨fun x => ?_, fun nCompact v h hv => ?_⟩
  · by_cases hx : x = 0
    · subst hx
      exact ⟨0, rfl, by simp⟩
    · have hle := Nat.div_mul_le_self x.toNat (2 ^ x.lowBits)
      refine ⟨_, setCompact_getCompact hx, ?_⟩
      rw [BitVec.toNat_ofNat, Nat.mod_eq_of_lt (lt_of_le_of_lt hle x.isLt)]
      refine ⟨hle, ?_⟩
      rw [← Nat.mod_eq_sub_div_mul, Nat.le_div_iff_mul_le (by decide)]
      by_cases hlow : x.bits / 8 ≤ 2
      · have hzero : x.lowBits = 0 := by
          unfold lowBits
          omega
        simp [hzero, Nat.mod_one]
      · have htop : x.lowBits + 15 ≤ x.bits - 1 := by
          unfold lowBits
          omega
        calc x.toNat % 2 ^ x.lowBits * 2 ^ 15
          _ ≤ 2 ^ x.lowBits * 2 ^ 15 :=
            Nat.mul_le_mul_right _ (Nat.mod_lt _ (Nat.two_pow_pos _)).le
          _ = 2 ^ (x.lowBits + 15) := (pow_add ..).symm
          _ ≤ 2 ^ (x.bits - 1) := Nat.pow_le_pow_right (by decide) htop
          _ ≤ x.toNat := (bits_pos hx).1
  · obtain ⟨word, k, hword, hvalue⟩ := exists_mantissa h
    have hlt : 2 ^ (v.bits - 1) < 2 ^ (23 + 8 * k) := by
      refine lt_of_le_of_lt (bits_pos hv).1 ?_
      rw [hvalue, pow_add]
      exact (Nat.mul_lt_mul_right (Nat.two_pow_pos _)).mpr hword
    have hbits := (Nat.pow_lt_pow_iff_right (by decide)).mp hlt
    have hdvd : 2 ^ v.lowBits ∣ v.toNat := by
      rw [hvalue]
      refine Nat.dvd_mul_left_of_dvd (pow_dvd_pow 2 ?_) word
      unfold lowBits
      omega
    rw [setCompact_getCompact hv, Nat.div_mul_cancel hdvd, BitVec.ofNat_toNat, BitVec.setWidth_eq]

theorem compact_roundTrip_mainnet :
    setCompact (getCompact (0xffff <<< 208)) = ((0xffff <<< 208 : UInt256), false, false) :=
  compact_roundTrip.2 0x1d00ffff _ (by decide +kernel) (by decide +kernel)

/-! ## Work -/

variable {m : BlockMap} {e : Chain.CBlockIndex} {t : UInt256}

/-- No target is `2 ^ 256 - 1`: one more than a target is not zero. -/
theorem toNat_target_add_one {nCompact : Nat} (h : setCompact nCompact = (t, false, false)) :
    (t + 1).toNat = t.toNat + 1 := by
  obtain ⟨word, k, hword, hvalue⟩ := exists_mantissa h
  have hne : t.toNat ≠ 2 ^ 256 - 1 := by
    cases k with
    | zero => omega
    | succ k =>
      -- the number of a size above three is even
      have hmod : word * 2 ^ (8 * (k + 1)) % 2 = 0 := by
        rw [show 8 * (k + 1) = 8 * k + 7 + 1 by omega, pow_succ, ← mul_assoc]
        exact Nat.mul_mod_left ..
      omega
  rw [BitVec.toNat_add, Nat.mod_eq_of_lt]
  · rfl
  · change t.toNat + 1 < 2 ^ 256
    omega

/-- **The work of a block** is the quotient of `2 ^ 256` by its target and one, at least one, and
an entry has more work than its parent unless the total goes beyond 256 bits. -/
theorem getBlockProof_eq (h : setCompact e.nBits = (t, false, false)) (ht : t ≠ 0) :
    (∃ q, UInt256.divAssign (~~~t) (t + 1) = some q ∧ getBlockProof e.nBits = q + 1) ∧
    (getBlockProof e.nBits).toNat = 2 ^ 256 / (t.toNat + 1) ∧
    1 ≤ (getBlockProof e.nBits).toNat ∧
    ∀ prev, e.prev m = some prev →
      prev.nChainWork.toNat + (getBlockProof e.nBits).toNat < 2 ^ 256 →
      prev.nChainWork < (accumulate m e).nChainWork := by
  have hsucc := toNat_target_add_one h
  have hlt := t.isLt
  have hnot : (~~~t).toNat = 2 ^ 256 - (t.toNat + 1) := by
    rw [BitVec.toNat_not]
    omega
  have hpos : 1 ≤ 2 ^ 256 / (t.toNat + 1) := (Nat.one_le_div_iff (Nat.succ_pos _)).mpr hlt
  have hsmall : 2 ^ 256 / (t.toNat + 1) < 2 ^ 256 := by
    refine Nat.div_lt_self (by decide) ?_
    have : t.toNat ≠ 0 := fun hzero => ht (BitVec.eq_of_toNat_eq (by simpa using hzero))
    omega
  have hne : t + 1 ≠ 0 := by
    intro hzero
    rw [hzero] at hsucc
    cases hsucc
  obtain ⟨q, hq, hquot⟩ := toNat_divAssign (~~~t) hne
  have hproof : getBlockProof e.nBits = q + 1 := by
    have hudiv : BitVec.udiv (~~~t) (t + 1) = q :=
      BitVec.eq_of_toNat_eq (BitVec.toNat_udiv.trans hquot.symm)
    have hnz : (t == 0) = false := beq_false_of_ne ht
    simp only [getBlockProof, h, hnz, Bool.or_self, Bool.false_eq_true, if_false, hudiv]
  have hvalue : (getBlockProof e.nBits).toNat = 2 ^ 256 / (t.toNat + 1) := by
    have hstep : 2 ^ 256 / (t.toNat + 1) = q.toNat + 1 := by
      rw [hquot, hnot, hsucc, Nat.div_eq_sub_div (Nat.succ_pos _) hlt]
    rw [hstep] at hsmall ⊢
    rw [hproof]
    exact Nat.mod_eq_of_lt hsmall
  refine ⟨⟨q, hq, hproof⟩, hvalue, hvalue ▸ hpos, fun prev hprev hfits => ?_⟩
  rw [BitVec.lt_def, accumulate, hprev, Option.elim_some, BitVec.toNat_add,
    Nat.mod_eq_of_lt hfits]
  omega

theorem getBlockProof_child :
    5 < (accumulate (.insert 1 { hash := 1, nChainWork := 5 } ∅)
      { hash := 2, pprev := some 1, nBits := 0x1d00ffff }).nChainWork :=
  (getBlockProof_eq (t := 0xffff <<< 208) (by decide +kernel) (by decide +kernel)).2.2.2
    { hash := 1, nChainWork := 5 } (by decide +kernel) (by decide +kernel)

end Passion
