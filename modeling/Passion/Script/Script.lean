import Mathlib.Algebra.Ring.Nat
import Passion.Primitives.Transaction

/-!
# Scripts

The opcodes of `script/script.h` that the interpreter or the standard scripts name, the reading of
a script one instruction at a time, and the scripts and tests of `script.cpp` and `standard.cpp`
that cold staking uses.

A position in a script is the rest of the script from there, so `GetOp` returns that rest. The
loops of the source that call it take the length of the script as a bound: each call reads at
least one byte (`length_getOp`).
-/

namespace Passion

/-- `valtype`: an element of the stack. -/
abbrev Valtype := List UInt8

/-- `CKeyID`, a `uint160`. -/
structure CKeyID where
  bytes : List UInt8
  length_bytes : bytes.length = 20
  deriving DecidableEq

namespace CScript

/-! ## Opcodes -/

def OP_0 : UInt8 := 0x00
def OP_PUSHDATA1 : UInt8 := 0x4c
def OP_PUSHDATA2 : UInt8 := 0x4d
def OP_PUSHDATA4 : UInt8 := 0x4e
def OP_1NEGATE : UInt8 := 0x4f
def OP_1 : UInt8 := 0x51
def OP_16 : UInt8 := 0x60

-- control
def OP_NOP : UInt8 := 0x61
def OP_IF : UInt8 := 0x63
def OP_NOTIF : UInt8 := 0x64
def OP_ELSE : UInt8 := 0x67
def OP_ENDIF : UInt8 := 0x68
def OP_VERIFY : UInt8 := 0x69

-- stack ops
def OP_TOALTSTACK : UInt8 := 0x6b
def OP_FROMALTSTACK : UInt8 := 0x6c
def OP_2DROP : UInt8 := 0x6d
def OP_2DUP : UInt8 := 0x6e
def OP_3DUP : UInt8 := 0x6f
def OP_2OVER : UInt8 := 0x70
def OP_2ROT : UInt8 := 0x71
def OP_2SWAP : UInt8 := 0x72
def OP_IFDUP : UInt8 := 0x73
def OP_DEPTH : UInt8 := 0x74
def OP_DROP : UInt8 := 0x75
def OP_DUP : UInt8 := 0x76
def OP_NIP : UInt8 := 0x77
def OP_OVER : UInt8 := 0x78
def OP_PICK : UInt8 := 0x79
def OP_ROLL : UInt8 := 0x7a
def OP_ROT : UInt8 := 0x7b
def OP_SWAP : UInt8 := 0x7c
def OP_TUCK : UInt8 := 0x7d

-- splice ops
def OP_CAT : UInt8 := 0x7e
def OP_SUBSTR : UInt8 := 0x7f
def OP_LEFT : UInt8 := 0x80
def OP_RIGHT : UInt8 := 0x81
def OP_SIZE : UInt8 := 0x82

-- bit logic
def OP_INVERT : UInt8 := 0x83
def OP_AND : UInt8 := 0x84
def OP_OR : UInt8 := 0x85
def OP_XOR : UInt8 := 0x86
def OP_EQUAL : UInt8 := 0x87
def OP_EQUALVERIFY : UInt8 := 0x88

-- numeric
def OP_1ADD : UInt8 := 0x8b
def OP_1SUB : UInt8 := 0x8c
def OP_2MUL : UInt8 := 0x8d
def OP_2DIV : UInt8 := 0x8e
def OP_NEGATE : UInt8 := 0x8f
def OP_ABS : UInt8 := 0x90
def OP_NOT : UInt8 := 0x91
def OP_0NOTEQUAL : UInt8 := 0x92
def OP_ADD : UInt8 := 0x93
def OP_SUB : UInt8 := 0x94
def OP_MUL : UInt8 := 0x95
def OP_DIV : UInt8 := 0x96
def OP_MOD : UInt8 := 0x97
def OP_LSHIFT : UInt8 := 0x98
def OP_RSHIFT : UInt8 := 0x99
def OP_BOOLAND : UInt8 := 0x9a
def OP_BOOLOR : UInt8 := 0x9b
def OP_NUMEQUAL : UInt8 := 0x9c
def OP_NUMEQUALVERIFY : UInt8 := 0x9d
def OP_NUMNOTEQUAL : UInt8 := 0x9e
def OP_LESSTHAN : UInt8 := 0x9f
def OP_GREATERTHAN : UInt8 := 0xa0
def OP_LESSTHANOREQUAL : UInt8 := 0xa1
def OP_GREATERTHANOREQUAL : UInt8 := 0xa2
def OP_MIN : UInt8 := 0xa3
def OP_MAX : UInt8 := 0xa4
def OP_WITHIN : UInt8 := 0xa5

-- crypto
def OP_RIPEMD160 : UInt8 := 0xa6
def OP_SHA1 : UInt8 := 0xa7
def OP_SHA256 : UInt8 := 0xa8
def OP_HASH160 : UInt8 := 0xa9
def OP_HASH256 : UInt8 := 0xaa
def OP_CODESEPARATOR : UInt8 := 0xab
def OP_CHECKSIG : UInt8 := 0xac
def OP_CHECKSIGVERIFY : UInt8 := 0xad
def OP_CHECKMULTISIG : UInt8 := 0xae
def OP_CHECKMULTISIGVERIFY : UInt8 := 0xaf

-- expansion
def OP_NOP1 : UInt8 := 0xb0
def OP_CHECKLOCKTIMEVERIFY : UInt8 := 0xb1
def OP_NOP3 : UInt8 := 0xb2
def OP_NOP10 : UInt8 := 0xb9

-- cold staking
def OP_CHECKCOLDSTAKEVERIFY : UInt8 := 0xd1

def maxScriptElementSize : Nat := 520

def maxPubkeysPerMultisig : Nat := 20

/-! ## Reading a script -/

/-- `ReadLE16` and `ReadLE32`. -/
def readLE : List UInt8 → Nat
  | [] => 0
  | b :: bs => b.toNat + 256 * readLE bs

/-- `WriteLE16` and `WriteLE32`, in `width` bytes. -/
def writeLE : Nat → Nat → List UInt8
  | 0, _ => []
  | width + 1, n => UInt8.ofNat n :: writeLE width (n / 256)

/-- The operand that follows an opcode: `width` bytes of size and then the data. -/
def getOperand (width : Nat) (pc : CScript) : Option (Valtype × CScript) :=
  if pc.length < width then none
  else
    let nSize := readLE (pc.take width)
    let pc := pc.drop width
    if pc.length < nSize then none else some (pc.take nSize, pc.drop nSize)

/-- `GetOp2`: the opcode, its data and the rest of the script. -/
def getOp : CScript → Option (UInt8 × Valtype × CScript)
  | [] => none
  | opcode :: pc =>
    let operand :=
      if opcode < OP_PUSHDATA1 then
        if pc.length < opcode.toNat then none
        else some (pc.take opcode.toNat, pc.drop opcode.toNat)
      else if opcode = OP_PUSHDATA1 then getOperand 1 pc
      else if opcode = OP_PUSHDATA2 then getOperand 2 pc
      else if opcode = OP_PUSHDATA4 then getOperand 4 pc
      else some ([], pc)
    operand.map fun (data, pc) => (opcode, data, pc)

theorem length_getOperand {width : Nat} {pc rest : CScript} {data : Valtype}
    (h : getOperand width pc = some (data, rest)) : rest.length ≤ pc.length := by
  unfold getOperand at h
  dsimp only at h
  split_ifs at h
  cases h
  simp only [List.length_drop]
  omega

theorem length_getOp {pc rest : CScript} {opcode : UInt8} {data : Valtype}
    (h : getOp pc = some (opcode, data, rest)) : rest.length < pc.length := by
  cases pc with
  | nil => cases h
  | cons b pc =>
    obtain ⟨operand, hop, hret⟩ := Option.map_eq_some_iff.mp h
    cases hret
    refine Nat.lt_succ_of_le ?_
    split_ifs at hop
    · cases hop
      simp
    · exact length_getOperand hop
    · exact length_getOperand hop
    · exact length_getOperand hop
    · cases hop
      exact le_refl _

/-- `IsPushOnly(pc)`. `OP_RESERVED`, between the pushes, counts as one. -/
def isPushOnlyFrom : Nat → CScript → Bool
  | 0, pc => pc.isEmpty
  | bound + 1, pc =>
    if pc.isEmpty then true
    else
      match getOp pc with
      | none => false
      | some (opcode, _, rest) => if OP_16 < opcode then false else isPushOnlyFrom bound rest

def isPushOnly (s : CScript) : Bool := isPushOnlyFrom s.length s

/-- Skip the copies of `b` at the start: the inner loop of `FindAndDelete`. -/
def skipCopies (b : CScript) : Nat → CScript → CScript
  | 0, pc => pc
  | bound + 1, pc => if b.isPrefixOf pc then skipCopies b bound (pc.drop b.length) else pc

/-- The outer loop of `FindAndDelete`. -/
def deleteCopies (b : CScript) : Nat → CScript → CScript
  | 0, pc => skipCopies b pc.length pc
  | bound + 1, pc =>
    let pc2 := skipCopies b pc.length pc
    match getOp pc2 with
    | none => pc2
    | some (_, _, rest) => pc2.take (pc2.length - rest.length) ++ deleteCopies b bound rest

def findAndDelete (s b : CScript) : CScript :=
  if b.isEmpty then s else deleteCopies b s.length s

/-! ## Standard scripts -/

/-- `CScript() << b`. -/
def pushData (b : Valtype) : CScript :=
  if b.length < OP_PUSHDATA1.toNat then UInt8.ofNat b.length :: b
  else if b.length ≤ 0xff then OP_PUSHDATA1 :: UInt8.ofNat b.length :: b
  else if b.length ≤ 0xffff then OP_PUSHDATA2 :: writeLE 2 b.length ++ b
  else OP_PUSHDATA4 :: writeLE 4 b.length ++ b

def isPayToScriptHash (s : CScript) : Bool :=
  decide (s.length = 23) && s[0]? == some OP_HASH160 && s[1]? == some 0x14 &&
    s[22]? == some OP_EQUAL

def isPayToColdStaking (s : CScript) : Bool :=
  decide (s.length = 51) && s[2]? == some OP_ROT && s[4]? == some OP_CHECKCOLDSTAKEVERIFY &&
    s[5]? == some 0x14 && s[27]? == some 0x14 && s[49]? == some OP_EQUALVERIFY &&
    s[50]? == some OP_CHECKSIG

end CScript

open CScript in
def getScriptForStakeDelegation (stakingKey spendingKey : CKeyID) : CScript :=
  [OP_DUP, OP_HASH160, OP_ROT, OP_IF, OP_CHECKCOLDSTAKEVERIFY] ++ pushData stakingKey.bytes ++
    [OP_ELSE] ++ pushData spendingKey.bytes ++ [OP_ENDIF, OP_EQUALVERIFY, OP_CHECKSIG]

open CScript

namespace CKeyID

variable (stakingKey spendingKey : CKeyID)

theorem pushData_bytes (key : CKeyID) : pushData key.bytes = 0x14 :: key.bytes := by
  simp [pushData, key.length_bytes, OP_PUSHDATA1]

theorem length_delegation : (getScriptForStakeDelegation stakingKey spendingKey).length = 51 := by
  simp [getScriptForStakeDelegation, pushData_bytes, length_bytes]

theorem isPayToColdStaking_delegation :
    isPayToColdStaking (getScriptForStakeDelegation stakingKey spendingKey) = true := by
  unfold isPayToColdStaking
  simp [getScriptForStakeDelegation, pushData_bytes, length_bytes]

theorem isZerocoinMint_delegation :
    isZerocoinMint (getScriptForStakeDelegation stakingKey spendingKey) = false := rfl

end CKeyID

/-! ## Numbers of fixed width -/

theorem readLE_writeLE {width n : Nat} (h : n < 256 ^ width) : readLE (writeLE width n) = n := by
  induction width generalizing n with
  | zero => simp_all [readLE, writeLE]
  | succ width ih =>
    rw [writeLE, readLE, ih (by omega), UInt8.toNat_ofNat']
    omega

@[simp] theorem length_writeLE (width n : Nat) : (writeLE width n).length = width := by
  induction width generalizing n with
  | zero => rfl
  | succ width ih => rw [writeLE, List.length_cons, ih]

end Passion
