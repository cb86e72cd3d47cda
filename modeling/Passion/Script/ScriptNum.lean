import Mathlib.Data.List.Basic
import Mathlib.Tactic.Ring
import Passion.Script.Script

/-!
# Script numbers

`CScriptNum` of `script/script.h`: the encoding of a number as an element of the stack, and its
decoding, which may throw. A number read from the stack has at most five bytes, so nothing that is
computed from it leaves the range of an `int64_t`; numbers are integers here. Every number has one
form that passes the check for minimal encodings (`serialize_setVch`).
-/

namespace Passion

namespace CScriptNum

open CScript (readLE)

/-- The loop of `serialize`: the bytes of a `uint64_t`, without leading zeros. -/
def bytesLE : Nat → Nat → Valtype
  | 0, _ => []
  | width + 1, absvalue =>
    if absvalue = 0 then [] else UInt8.ofNat absvalue :: bytesLE width (absvalue / 256)

def signBit (vch : Valtype) : Bool := vch.getLast?.any fun b => b &&& 0x80 != 0

def serialize (value : Int) : Valtype :=
  let result := bytesLE 8 value.natAbs
  if signBit result then result ++ [if value < 0 then 0x80 else 0]
  else if value < 0 then
    match result.getLast? with
    | none => []
    | some b => result.dropLast ++ [b ||| 0x80]
  else result

def setVch (vch : Valtype) : Int :=
  let result : Int := readLE vch
  if signBit vch then -(result - 0x80 * 256 ^ (vch.length - 1)) else result

/-- The number is not encoded with the fewest bytes. -/
def nonMinimal (vch : Valtype) : Bool :=
  vch.getLast?.any fun b => b &&& 0x7f == 0 &&
    (decide (vch.length ≤ 1) || !(vch.dropLast.getLast?.any fun b => b &&& 0x80 != 0))

/-- The constructor from an element of the stack; the text is that of the exception. -/
def ofVch (vch : Valtype) (fRequireMinimal : Bool) (nMaxNumSize : Nat) : Except String Int :=
  if nMaxNumSize < vch.length then .error "script number overflow"
  else if fRequireMinimal && nonMinimal vch then .error "non-minimally encoded script number"
  else .ok (setVch vch)

/-- `nDefaultMaxNumSize`. -/
def defaultMaxNumSize : Nat := 4

def getint (n : Int) : Int := max (-2147483648) (min n 2147483647)

theorem length_bytesLE (width n : Nat) : (bytesLE width n).length ≤ width := by
  induction width generalizing n with
  | zero => simp [bytesLE]
  | succ width ih =>
    unfold bytesLE
    split
    · simp
    · simpa using ih (n / 256)

theorem byte_masks (b : UInt8) : (b &&& 0x80 != 0) = decide (128 ≤ b.toNat) ∧
    (b &&& 0x7f == 0) = decide (b.toNat % 128 = 0) ∧
    b.toNat ||| 0x80 = b.toNat % 128 + 128 := by
  have h : ∀ n < 256, (UInt8.ofNat n &&& 0x80 != 0) = decide (128 ≤ n) ∧
      (UInt8.ofNat n &&& 0x7f == 0) = decide (n % 128 = 0) ∧
      n ||| 0x80 = n % 128 + 128 := by decide +kernel
  simpa using h b.toNat b.toNat_lt

variable {n width : Nat} {l : Valtype} {v : Int} {b x : UInt8}

theorem readLE_concat : readLE (l ++ [x]) = readLE l + 256 ^ l.length * x.toNat := by
  induction l with
  | nil => simp [readLE]
  | cons c l ih =>
    simp [readLE, ih]
    ring

theorem signBit_concat : signBit (l ++ [x]) = decide (128 ≤ x.toNat) := by
  simp [signBit, byte_masks]

theorem nonMinimal_concat : nonMinimal (l ++ [x]) = (decide (x.toNat % 128 = 0) && !signBit l) := by
  rcases l.eq_nil_or_concat' with rfl | ⟨l, b, rfl⟩ <;> simp [nonMinimal, signBit, byte_masks]

theorem setVch_concat (hn : n = readLE l + 256 ^ l.length * (x.toNat % 128)) :
    setVch (l ++ [x]) = if 128 ≤ x.toNat then -(n : Int) else n := by
  have hx := x.toNat_lt
  rw [hn, setVch, signBit_concat, readLE_concat]
  simp only [List.length_append, List.length_singleton, decide_eq_true_eq]
  split_ifs with h
  · push_cast
    rw [show (x.toNat : Int) % 128 = x.toNat - 128 by omega]
    ring
  · rw [Nat.mod_eq_of_lt (by omega)]

theorem serialize_concat (h : bytesLE 8 v.natAbs = l ++ [b]) :
    serialize v = if 128 ≤ b.toNat then l ++ [b] ++ [if v < 0 then 0x80 else 0]
      else l ++ [if v < 0 then b ||| 0x80 else b] := by
  simp only [serialize, h, signBit_concat, List.getLast?_concat, decide_eq_true_eq,
    List.dropLast_concat]
  split_ifs <;> rfl

theorem length_serialize (value : Int) : (serialize value).length ≤ 9 := by
  have hlen := length_bytesLE 8 value.natAbs
  rcases (bytesLE 8 value.natAbs).eq_nil_or_concat' with h | ⟨l, b, h⟩
  · simp [serialize, h, signBit]
  · rw [h] at hlen
    rw [serialize_concat h]
    split_ifs <;> simp at hlen ⊢ <;> omega

theorem readLE_lt (vch : Valtype) : readLE vch < 256 ^ vch.length := by
  induction vch with
  | nil => simp [readLE]
  | cons b vch ih =>
    have hb : b.toNat < 256 := b.toNat_lt
    rw [readLE, List.length_cons]
    omega

theorem natAbs_setVch_lt (vch : Valtype) : (setVch vch).natAbs < 256 ^ vch.length := by
  have hlt := readLE_lt vch
  unfold setVch
  split
  · cases vch with
    | nil => contradiction
    | cons b vch =>
      simp only [List.length_cons, Nat.add_sub_cancel] at hlt ⊢
      have hcast : 256 ^ vch.length = ((256 ^ vch.length : Nat) : Int) := by simp
      omega
  · simpa using hlt

theorem natAbs_ofVch_lt {vch : Valtype} {fRequireMinimal : Bool} {nMaxNumSize : Nat} {n : Int}
    (h : ofVch vch fRequireMinimal nMaxNumSize = .ok n) : n.natAbs < 256 ^ nMaxNumSize := by
  unfold ofVch at h
  split at h
  · cases h
  · rename_i hlen
    split at h
    · cases h
    · cases h
      refine lt_of_lt_of_le (natAbs_setVch_lt vch) ?_
      exact Nat.pow_le_pow_right (by omega) (by omega)

/-! ## One form for each number -/

theorem bytesLE_eq_nil (hn : n < 256 ^ width) : bytesLE width n = [] ↔ n = 0 := by
  cases width <;> simp_all [bytesLE]

theorem bytesLE_eq_concat (hn : n < 256 ^ width) :
    bytesLE width n = l ++ [b] ↔ readLE (l ++ [b]) = n ∧ b.toNat ≠ 0 := by
  have hb := b.toNat_lt
  induction width generalizing n l with
  | zero => simp_all [bytesLE, readLE_concat]
  | succ width ih =>
    by_cases hzero : n = 0
    · simp [bytesLE, hzero, readLE_concat]
    · have hdiv : n / 256 < 256 ^ width := by omega
      cases l with
      | nil =>
        simp [bytesLE, hzero, bytesLE_eq_nil hdiv, readLE, ← UInt8.toNat_inj]
        omega
      | cons c l =>
        have hc := c.toNat_lt
        simp [bytesLE, hzero, readLE, ih hdiv, ← UInt8.toNat_inj]
        omega

section

variable (hv : v.natAbs = readLE l + 256 ^ l.length * (x.toNat % 128))
include hv

theorem decode_concat (hx : v < 0 ↔ 128 ≤ x.toNat) (hl : x.toNat % 128 = 0 → signBit l = true) :
    nonMinimal (l ++ [x]) = false ∧ setVch (l ++ [x]) = v := by
  rw [nonMinimal_concat, setVch_concat hv]
  refine ⟨?_, by split_ifs <;> omega⟩
  by_cases h : x.toNat % 128 = 0 <;> simp [h, hl]

/-- The sign of an element is that of its number, when the loop of `serialize` makes bytes. -/
theorem sign_iff {l' : Valtype} (hx : setVch (l ++ [x]) = v) (h : bytesLE 8 v.natAbs = l' ++ [b]) :
    v < 0 ↔ 128 ≤ x.toNat := by
  have hpos : v.natAbs ≠ 0 := by
    intro hzero
    simp [hzero, bytesLE] at h
  rw [setVch_concat hv] at hx
  split_ifs at hx <;> omega

theorem serialize_decode (hlt : v.natAbs < 256 ^ 8) (hx : setVch (l ++ [x]) = v)
    (hmin : nonMinimal (l ++ [x]) = false) : serialize v = l ++ [x] := by
  have hbyte := x.toNat_lt
  rw [nonMinimal_concat] at hmin
  by_cases hlow : x.toNat % 128 = 0
  · rcases l.eq_nil_or_concat' with rfl | ⟨l, b, rfl⟩
    · simp [hlow, signBit] at hmin
    · have hhigh : 128 ≤ b.toNat := by simpa [hlow, signBit_concat] using hmin
      have hbytes := (bytesLE_eq_concat hlt).mpr ⟨by rw [hv, hlow]; rfl, by omega⟩
      simp only [serialize_concat hbytes, if_pos hhigh, sign_iff hv hx hbytes]
      congr 2
      apply UInt8.toNat_inj.mp
      split_ifs <;> simp <;> omega
  · have hmod : x.toNat % 128 % 256 = x.toNat % 128 := by omega
    have hbytes := (bytesLE_eq_concat hlt (l := l) (b := .ofNat (x.toNat % 128))).mpr
      ⟨by simp [readLE_concat, hmod, hv], by simpa [hmod] using hlow⟩
    have hor := (byte_masks (.ofNat (x.toNat % 128))).2.2
    rw [serialize_concat hbytes, if_neg (by simp; omega)]
    simp only [sign_iff hv hx hbytes]
    congr 2
    apply UInt8.toNat_inj.mp
    split_ifs
    · simp_all
      omega
    · simp_all

end

theorem setVch_serialize (hv : v.natAbs < 256 ^ 8) :
    nonMinimal (serialize v) = false ∧ setVch (serialize v) = v := by
  rcases (bytesLE 8 v.natAbs).eq_nil_or_concat' with h | ⟨l, b, h⟩
  · obtain rfl := Int.natAbs_eq_zero.mp ((bytesLE_eq_nil hv).mp h)
    decide
  · obtain ⟨hread, hb⟩ := (bytesLE_eq_concat hv).mp h
    rw [serialize_concat h]
    split_ifs with hhigh hneg hneg
    · exact decode_concat (by simp [hread]) (by simp [hneg]) (by simp [signBit_concat, hhigh])
    · exact decode_concat (by simp [hread]) (by simp [hneg]) (by simp [signBit_concat, hhigh])
    · exact decode_concat (by simp [← hread, readLE_concat, byte_masks]; omega)
        (by simp [byte_masks, hneg]) (by simp [byte_masks]; omega)
    · exact decode_concat (by rw [← hread, readLE_concat, Nat.mod_eq_of_lt (by omega)])
        (by simp [hneg, hhigh]) (by omega)

/-- **Script numbers have one form.** A number is decoded from what `serialize` makes of it, and
the elements that pass the check are those that it makes. -/
theorem serialize_setVch : (∀ v : Int, v.natAbs < 2 ^ 63 → ∀ nMaxNumSize ≥ (serialize v).length,
      ofVch (serialize v) true nMaxNumSize = .ok v) ∧
    ∀ vch : Valtype, vch.length ≤ 8 → (nonMinimal vch = false ↔ serialize (setVch vch) = vch) := by
  refine ⟨fun v hv nMaxNumSize hsize => ?_, fun vch hlen => ?_⟩
  · have h := setVch_serialize (v := v) (by omega)
    simp [ofVch, h, hsize.not_gt]
  · have hlt := (natAbs_setVch_lt vch).trans_le (Nat.pow_le_pow_right (by decide) hlen)
    refine ⟨fun hmin => ?_, fun h => h ▸ (setVch_serialize hlt).1⟩
    rcases vch.eq_nil_or_concat' with rfl | ⟨l, x, rfl⟩
    · rfl
    · refine serialize_decode ?_ hlt rfl hmin
      rw [setVch_concat rfl]
      split_ifs <;> omega

end CScriptNum

/-- `CScript() << n`. -/
def CScript.pushInt64 (n : Int) : CScript :=
  if n = -1 ∨ (1 ≤ n ∧ n ≤ 16) then [UInt8.ofNat (n + 0x50).toNat]
  else if n = 0 then [OP_0]
  else pushData (CScriptNum.serialize n)

example : [-255, -1, 0, 127, 128, 251, 65536].map CScriptNum.serialize =
    [[0xff, 0x80], [0x81], [], [0x7f], [0x80, 0], [0xfb, 0], [0, 0, 1]] := by decide

end Passion
