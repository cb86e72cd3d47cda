import Passion.Script.Machine

/-!
# The script interpreter

`EvalScript` and `VerifyScript` of `script/interpreter.cpp`, with every opcode. An opcode byte is
decoded into an operation (`decode`), and each operation is the program of its `case`, in the
order in which the source reads, checks, pops and pushes. The signature check, the hash functions
and the test for a low `S` are parameters.

The loop of `EvalScript` has the length of the script as its bound, since each round reads at
least one byte.
-/

namespace Passion

open CScript ScriptM
open CScriptNum (defaultMaxNumSize getint)

/-! ## Flags -/

/-- The `flags` of a verification, an `unsigned int`. -/
abbrev ScriptFlags := UInt32

def SCRIPT_VERIFY_P2SH : ScriptFlags := (1 : UInt32) <<< 0
def SCRIPT_VERIFY_STRICTENC : ScriptFlags := (1 : UInt32) <<< 1
def SCRIPT_VERIFY_DERSIG : ScriptFlags := (1 : UInt32) <<< 2
def SCRIPT_VERIFY_LOW_S : ScriptFlags := (1 : UInt32) <<< 3
def SCRIPT_VERIFY_NULLDUMMY : ScriptFlags := (1 : UInt32) <<< 4
def SCRIPT_VERIFY_SIGPUSHONLY : ScriptFlags := (1 : UInt32) <<< 5
def SCRIPT_VERIFY_MINIMALDATA : ScriptFlags := (1 : UInt32) <<< 6
def SCRIPT_VERIFY_DISCOURAGE_UPGRADABLE_NOPS : ScriptFlags := (1 : UInt32) <<< 7
def SCRIPT_VERIFY_CHECKLOCKTIMEVERIFY : ScriptFlags := (1 : UInt32) <<< 9

/-- `(flags & mask) != 0`. -/
def ScriptFlags.has (flags mask : ScriptFlags) : Bool := flags &&& mask != 0

inductive SigVersion where
  | base
  | sapling
  deriving DecidableEq

/-! ## Parameters -/

/-- The hash functions, and `CPubKey::CheckLowS`. -/
structure ScriptCrypto where
  ripemd160 : Valtype → Valtype
  sha1 : Valtype → Valtype
  sha256 : Valtype → Valtype
  checkLowS : Valtype → Bool
  length_ripemd160 : ∀ vch, (ripemd160 vch).length = 20
  length_sha1 : ∀ vch, (sha1 vch).length = 20
  length_sha256 : ∀ vch, (sha256 vch).length = 32

namespace ScriptCrypto

variable (crypto : ScriptCrypto)

/-- `CHash160`. -/
def hash160 (vch : Valtype) : Valtype := crypto.ripemd160 (crypto.sha256 vch)

/-- `CHash256`. -/
def hash256 (vch : Valtype) : Valtype := crypto.sha256 (crypto.sha256 vch)

end ScriptCrypto

structure BaseSignatureChecker where
  checkSig : Valtype → Valtype → CScript → SigVersion → Bool
  checkLockTime : Int → Bool
  checkColdStake : CScript → Bool

/-! ## Elements of the stack -/

def castToBool : Valtype → Bool
  | [] => false
  -- can be negative zero
  | [b] => b != 0 && b != 0x80
  | b :: vch => b != 0 || castToBool vch

def publicKeySize : Nat := 65

def compressedPublicKeySize : Nat := 33

def isCompressedOrUncompressedPubKey (vchPubKey : Valtype) : Bool :=
  if vchPubKey.length < compressedPublicKeySize then false
  else if vchPubKey.getD 0 0 = 0x04 then decide (vchPubKey.length = publicKeySize)
  else if vchPubKey.getD 0 0 = 0x02 ∨ vchPubKey.getD 0 0 = 0x03 then
    decide (vchPubKey.length = compressedPublicKeySize)
  else false

def highBit (b : UInt8) : Bool := b &&& 0x80 != 0

def isValidSignatureEncoding (sig : Valtype) : Bool :=
  let byte (i : Nat) : UInt8 := sig.getD i 0
  let lenR := (byte 3).toNat
  let lenS := (byte (5 + lenR)).toNat
  if sig.length < 9 then false
  else if 73 < sig.length then false
  else if byte 0 ≠ 0x30 then false
  else if (byte 1).toNat ≠ sig.length - 3 then false
  else if sig.length ≤ 5 + lenR then false
  else if lenR + lenS + 7 ≠ sig.length then false
  else if byte 2 ≠ 0x02 then false
  else if lenR = 0 then false
  else if highBit (byte 4) then false
  else if 1 < lenR ∧ byte 4 = 0 ∧ !highBit (byte 5) then false
  else if byte (lenR + 4) ≠ 0x02 then false
  else if lenS = 0 then false
  else if highBit (byte (lenR + 6)) then false
  else if 1 < lenS ∧ byte (lenR + 6) = 0 ∧ !highBit (byte (lenR + 7)) then false
  else true

def checkUnder {ε : Type} (flag : Bool) (check : Except ε Unit) : Except ε Unit :=
  if flag then check else .ok ()

@[simp] theorem checkUnder_eq_ok {ε : Type} {flag : Bool} {check : Except ε Unit} :
    checkUnder flag check = .ok () ↔ (flag = true → check = .ok ()) := by
  cases flag with
  | false => simp [checkUnder]
  | true => simp [checkUnder]

/-- `if (!c) return set_error(serror, e)`. -/
def checkThat (c : Bool) (e : ScriptError) : Except ScriptError Unit :=
  if c then .ok () else .error e

def isLowDERSignature (crypto : ScriptCrypto) (vchSig : Valtype) : Except ScriptError Unit := do
  checkThat (isValidSignatureEncoding vchSig) .sigDer
  -- without the hash type
  checkThat (crypto.checkLowS vchSig.dropLast) .sigHighS

def isDefinedHashtypeSignature (vchSig : Valtype) : Bool :=
  vchSig.getLast?.any fun b => 1 ≤ b &&& 0x7f && b &&& 0x7f ≤ 3

def checkSignatureEncoding (crypto : ScriptCrypto) (flags : ScriptFlags) (vchSig : Valtype) :
    Except ScriptError Unit :=
  -- an empty signature is a compact way to give an invalid one
  if vchSig.isEmpty then .ok ()
  else do
    checkUnder
      (flags.has (SCRIPT_VERIFY_DERSIG ||| SCRIPT_VERIFY_LOW_S ||| SCRIPT_VERIFY_STRICTENC))
      (checkThat (isValidSignatureEncoding vchSig) .sigDer)
    checkUnder (flags.has SCRIPT_VERIFY_LOW_S) (isLowDERSignature crypto vchSig)
    checkUnder (flags.has SCRIPT_VERIFY_STRICTENC)
      (checkThat (isDefinedHashtypeSignature vchSig) .sigHashtype)

def checkPubKeyEncoding (flags : ScriptFlags) (vchPubKey : Valtype) : Except ScriptError Unit :=
  checkUnder (flags.has SCRIPT_VERIFY_STRICTENC)
    (checkThat (isCompressedOrUncompressedPubKey vchPubKey) .pubkeyType)

def checkMinimalPush (data : Valtype) (opcode : UInt8) : Bool :=
  if data.length = 0 then opcode = OP_0
  else if data.length = 1 ∧ 1 ≤ data.getD 0 0 ∧ data.getD 0 0 ≤ 16 then
    opcode = OP_1 + (data.getD 0 0 - 1)
  else if data.length = 1 ∧ data.getD 0 0 = 0x81 then opcode = OP_1NEGATE
  else if data.length ≤ 75 then opcode.toNat = data.length
  else if data.length ≤ 255 then opcode = OP_PUSHDATA1
  else if data.length ≤ 65535 then opcode = OP_PUSHDATA2
  else true

/-! ## Operations -/

/-- Opcodes that move, copy or count elements of the stack. -/
inductive StackOp where
  | twoDrop
  | twoDup
  | threeDup
  | twoOver
  | twoRot
  | twoSwap
  | ifDup
  | depth
  | drop
  | dup
  | nip
  | over
  | rot
  | swap
  | tuck
  | size
  deriving DecidableEq

inductive UnaryOp where
  | oneAdd
  | oneSub
  | negate
  | abs
  | not
  | zeroNotEqual
  deriving DecidableEq

inductive BinaryOp where
  | add
  | sub
  | boolAnd
  | boolOr
  | numEqual
  | numEqualVerify
  | numNotEqual
  | lessThan
  | greaterThan
  | lessThanOrEqual
  | greaterThanOrEqual
  | min
  | max
  deriving DecidableEq

inductive HashOp where
  | ripemd160
  | sha1
  | sha256
  | hash160
  | hash256
  deriving DecidableEq

/-- The cases of the `switch` over the opcode. The flag of a case that serves two opcodes says
which of them it is. -/
inductive Op where
  | number (n : Int)
  | nop
  | checkLockTimeVerify
  | upgradableNop
  | cond (notIf : Bool)
  | else
  | endIf
  | verify
  | return
  | toAltStack
  | fromAltStack
  | stack (op : StackOp)
  | pick (roll : Bool)
  | equal (verify : Bool)
  | unary (op : UnaryOp)
  | binary (op : BinaryOp)
  | within
  | hash (op : HashOp)
  | codeSeparator
  | checkSig (verify : Bool)
  | checkMultiSig (verify : Bool)
  | checkColdStakeVerify
  | unknown
  deriving DecidableEq

/-- The opcodes with a `case` of their own. -/
def opcodes : List (UInt8 × Op) :=
  [(OP_NOP, .nop), (OP_CHECKLOCKTIMEVERIFY, .checkLockTimeVerify), (OP_IF, .cond false),
    (OP_NOTIF, .cond true), (OP_ELSE, .else), (OP_ENDIF, .endIf), (OP_VERIFY, .verify),
    (OP_RETURN, .return), (OP_TOALTSTACK, .toAltStack), (OP_FROMALTSTACK, .fromAltStack),
    (OP_2DROP, .stack .twoDrop), (OP_2DUP, .stack .twoDup), (OP_3DUP, .stack .threeDup),
    (OP_2OVER, .stack .twoOver), (OP_2ROT, .stack .twoRot), (OP_2SWAP, .stack .twoSwap),
    (OP_IFDUP, .stack .ifDup), (OP_DEPTH, .stack .depth), (OP_DROP, .stack .drop),
    (OP_DUP, .stack .dup), (OP_NIP, .stack .nip), (OP_OVER, .stack .over),
    (OP_PICK, .pick false), (OP_ROLL, .pick true), (OP_ROT, .stack .rot),
    (OP_SWAP, .stack .swap), (OP_TUCK, .stack .tuck), (OP_SIZE, .stack .size),
    (OP_EQUAL, .equal false), (OP_EQUALVERIFY, .equal true), (OP_1ADD, .unary .oneAdd),
    (OP_1SUB, .unary .oneSub), (OP_NEGATE, .unary .negate), (OP_ABS, .unary .abs),
    (OP_NOT, .unary .not), (OP_0NOTEQUAL, .unary .zeroNotEqual), (OP_ADD, .binary .add),
    (OP_SUB, .binary .sub), (OP_BOOLAND, .binary .boolAnd), (OP_BOOLOR, .binary .boolOr),
    (OP_NUMEQUAL, .binary .numEqual), (OP_NUMEQUALVERIFY, .binary .numEqualVerify),
    (OP_NUMNOTEQUAL, .binary .numNotEqual), (OP_LESSTHAN, .binary .lessThan),
    (OP_GREATERTHAN, .binary .greaterThan), (OP_LESSTHANOREQUAL, .binary .lessThanOrEqual),
    (OP_GREATERTHANOREQUAL, .binary .greaterThanOrEqual), (OP_MIN, .binary .min),
    (OP_MAX, .binary .max), (OP_WITHIN, .within), (OP_RIPEMD160, .hash .ripemd160),
    (OP_SHA1, .hash .sha1), (OP_SHA256, .hash .sha256), (OP_HASH160, .hash .hash160),
    (OP_HASH256, .hash .hash256), (OP_CODESEPARATOR, .codeSeparator),
    (OP_CHECKSIG, .checkSig false), (OP_CHECKSIGVERIFY, .checkSig true),
    (OP_CHECKMULTISIG, .checkMultiSig false), (OP_CHECKMULTISIGVERIFY, .checkMultiSig true),
    (OP_CHECKCOLDSTAKEVERIFY, .checkColdStakeVerify)]

/-- The case of the `switch` that an opcode takes. -/
def decode (opcode : UInt8) : Op :=
  if opcode = OP_1NEGATE ∨ (OP_1 ≤ opcode ∧ opcode ≤ OP_16) then
    .number ((opcode.toNat : Int) - (OP_1.toNat - 1 : Nat))
  else if opcode = OP_NOP1 ∨ (OP_NOP3 ≤ opcode ∧ opcode ≤ OP_NOP10) then .upgradableNop
  else (opcodes.lookup opcode).getD .unknown

/-- The opcodes that fail even where they are not executed. -/
def disabledOpcodes : List UInt8 :=
  [OP_CAT, OP_SUBSTR, OP_LEFT, OP_RIGHT, OP_INVERT, OP_AND, OP_OR, OP_XOR, OP_2MUL, OP_2DIV,
    OP_MUL, OP_DIV, OP_MOD, OP_LSHIFT, OP_RSHIFT]

namespace UnaryOp

/-- `-bn`, with its assertion. -/
def neg (n : Int) : Option Int := if n ≠ -0x8000000000000000 then some (-n) else none

/-- What the opcode computes; `none` is a failed assertion. -/
def apply : UnaryOp → Int → Option Int
  | .oneAdd, n => if n ≤ 0x7fffffffffffffff - 1 then some (n + 1) else none
  | .oneSub, n => if -0x8000000000000000 + 1 ≤ n then some (n - 1) else none
  | .negate, n => neg n
  | .abs, n => if n < 0 then neg n else some n
  | .not, n => some (if n = 0 then 1 else 0)
  | .zeroNotEqual, n => some (if n ≠ 0 then 1 else 0)

end UnaryOp

def ofBool (b : Bool) : Int := if b then 1 else 0

namespace BinaryOp

def apply : BinaryOp → Int → Int → Int
  | .add, n1, n2 => n1 + n2
  | .sub, n1, n2 => n1 - n2
  | .boolAnd, n1, n2 => ofBool (n1 ≠ 0 ∧ n2 ≠ 0)
  | .boolOr, n1, n2 => ofBool (n1 ≠ 0 ∨ n2 ≠ 0)
  | .numEqual, n1, n2 => ofBool (n1 = n2)
  | .numEqualVerify, n1, n2 => ofBool (n1 = n2)
  | .numNotEqual, n1, n2 => ofBool (n1 ≠ n2)
  | .lessThan, n1, n2 => ofBool (n1 < n2)
  | .greaterThan, n1, n2 => ofBool (n2 < n1)
  | .lessThanOrEqual, n1, n2 => ofBool (n1 ≤ n2)
  | .greaterThanOrEqual, n1, n2 => ofBool (n2 ≤ n1)
  | .min, n1, n2 => if n1 < n2 then n1 else n2
  | .max, n1, n2 => if n2 < n1 then n1 else n2

end BinaryOp

def HashOp.apply (crypto : ScriptCrypto) : HashOp → Valtype → Valtype
  | .ripemd160 => crypto.ripemd160
  | .sha1 => crypto.sha1
  | .sha256 => crypto.sha256
  | .hash160 => crypto.hash160
  | .hash256 => crypto.hash256

/-! ## The cases of the switch -/

namespace ScriptM

/-- `if (stack.size() < n) return set_error(serror, SCRIPT_ERR_INVALID_STACK_OPERATION)`. -/
def need (n : Nat) : ScriptM Unit := requireStack n .invalidStackOperation

/-- The end of an opcode with a verifying variant: with `verify`, pop the result if it is a success
and fail otherwise. -/
def verifyResult (verify fSuccess : Bool) (e : ScriptError) : ScriptM Unit :=
  if verify then if fSuccess then popstack else setError e else pure ()

/-- `if (!check) return false`, for a check that sets the error itself. -/
def requireOk (check : Except ScriptError Unit) : ScriptM Unit :=
  match check with
  | .ok _ => pure ()
  | .error e => setError e

@[simp] theorem wp_requireOk {check : Except ScriptError Unit} {Q : Unit → Machine → Prop}
    {E : Failure → Machine → Prop} {m : Machine} :
    Lib.wp (requireOk check) Q E m ↔
      (check = .ok () → Q () m) ∧ ∀ e, check = .error e → E (.script e) m := by
  cases check with
  | ok u => simp [requireOk]
  | error e => simp [requireOk]

/-! ### Control -/

/-- The `fValue` of `OP_IF` and `OP_NOTIF`. -/
def condValue (fExec notIf : Bool) : ScriptM Bool :=
  if fExec then do
    requireStack 1 .unbalancedConditional
    let vch ← stacktop 1
    popstack
    pure (castToBool vch != notIf)
  else pure false

def cond (fExec notIf : Bool) : ScriptM Unit := do
  let fValue ← condValue fExec notIf
  modify fun m => { m with vfExec := fValue :: m.vfExec }

def else_ : ScriptM Unit := do
  let m ← get
  match m.vfExec with
  | [] => setError .unbalancedConditional
  | fValue :: vfExec => set { m with vfExec := (!fValue) :: vfExec }

def endIf : ScriptM Unit := do
  let m ← get
  match m.vfExec with
  | [] => setError .unbalancedConditional
  | _ :: vfExec => set { m with vfExec := vfExec }

def verify : ScriptM Unit := do
  need 1
  let vch ← stacktop 1
  if castToBool vch then popstack else setError .verify

/-! ### Stack -/

def toAltStack : ScriptM Unit := do
  need 1
  let vch ← stacktop 1
  pushAltstack vch
  popstack

def fromAltStack : ScriptM Unit := do
  let m ← get
  require (1 ≤ m.altstack.length) .invalidAltstackOperation
  let vch ← altstacktop
  push vch
  popAltstack

def stackOp : StackOp → ScriptM Unit
  | .twoDrop => do
    need 2
    popstack
    popstack
  | .twoDup => do
    need 2
    let vch1 ← stacktop 2
    let vch2 ← stacktop 1
    push vch1
    push vch2
  | .threeDup => do
    need 3
    let vch1 ← stacktop 3
    let vch2 ← stacktop 2
    let vch3 ← stacktop 1
    push vch1
    push vch2
    push vch3
  | .twoOver => do
    need 4
    let vch1 ← stacktop 4
    let vch2 ← stacktop 3
    push vch1
    push vch2
  | .twoRot => do
    need 6
    let vch1 ← stacktop 6
    let vch2 ← stacktop 5
    eraseTop 6 4
    push vch1
    push vch2
  | .twoSwap => do
    need 4
    swapTop 4 2
    swapTop 3 1
  | .ifDup => do
    need 1
    let vch ← stacktop 1
    if castToBool vch then push vch else pure ()
  | .depth => do
    let m ← get
    pushNum m.stack.length
  | .drop => do
    need 1
    popstack
  | .dup => do
    need 1
    let vch ← stacktop 1
    push vch
  | .nip => do
    need 2
    eraseTop 2 1
  | .over => do
    need 2
    let vch ← stacktop 2
    push vch
  | .rot => do
    need 3
    swapTop 3 2
    swapTop 2 1
  | .swap => do
    need 2
    swapTop 2 1
  | .tuck => do
    need 2
    let vch ← stacktop 1
    insertTop 2 vch
  | .size => do
    need 1
    let vch ← stacktop 1
    pushNum vch.length

/-- `OP_PICK` and `OP_ROLL`. -/
def pick (fRequireMinimal roll : Bool) : ScriptM Unit := do
  need 2
  let vch ← stacktop 1
  let bn ← scriptNum fRequireMinimal vch defaultMaxNumSize
  popstack
  let n ← requireIndex (getint bn) .invalidStackOperation
  let vch ← stacktop (n + 1)
  if roll then do
    eraseTop (n + 1) n
    push vch
  else push vch

def equal (verify : Bool) : ScriptM Unit := do
  need 2
  let vch1 ← stacktop 2
  let vch2 ← stacktop 1
  popstack
  popstack
  pushBool (vch1 == vch2)
  verifyResult verify (vch1 == vch2) .equalVerify

/-! ### Numeric -/

def unary (fRequireMinimal : Bool) (op : UnaryOp) : ScriptM Unit := do
  need 1
  let vch ← stacktop 1
  let bn ← scriptNum fRequireMinimal vch defaultMaxNumSize
  match op.apply bn with
  | none => throw .assertion
  | some bn => do
    popstack
    pushNum bn

def binary (fRequireMinimal : Bool) (op : BinaryOp) : ScriptM Unit := do
  need 2
  let vch1 ← stacktop 2
  let bn1 ← scriptNum fRequireMinimal vch1 defaultMaxNumSize
  let vch2 ← stacktop 1
  let bn2 ← scriptNum fRequireMinimal vch2 defaultMaxNumSize
  popstack
  popstack
  pushNum (op.apply bn1 bn2)
  if op = .numEqualVerify then do
    let vch ← stacktop 1
    if castToBool vch then popstack else setError .numEqualVerify
  else pure ()

def within (fRequireMinimal : Bool) : ScriptM Unit := do
  need 3
  let vch1 ← stacktop 3
  let bn1 ← scriptNum fRequireMinimal vch1 defaultMaxNumSize
  let vch2 ← stacktop 2
  let bn2 ← scriptNum fRequireMinimal vch2 defaultMaxNumSize
  let vch3 ← stacktop 1
  let bn3 ← scriptNum fRequireMinimal vch3 defaultMaxNumSize
  popstack
  popstack
  popstack
  pushBool (bn2 ≤ bn1 ∧ bn1 < bn3)

end ScriptM

/-! ### Crypto -/

/-- The arguments of an evaluation that do not change during it, the flags apart. -/
structure ScriptContext where
  crypto : ScriptCrypto
  checker : BaseSignatureChecker
  sigversion : SigVersion
  script : CScript

namespace ScriptContext

variable (ctx : ScriptContext) (flags : ScriptFlags)

def hash (op : HashOp) : ScriptM Unit := do
  need 1
  let vch ← stacktop 1
  popstack
  push (op.apply ctx.crypto vch)

def checkEncodings (vchSig vchPubKey : Valtype) : ScriptM Unit := do
  requireOk (checkSignatureEncoding ctx.crypto flags vchSig)
  requireOk (checkPubKeyEncoding flags vchPubKey)

/-- Record that `CheckSig` is called. -/
def noteCheck : ScriptM Unit := modify fun m => { m with checks := m.checks + 1 }

def checkSig (verify : Bool) : ScriptM Unit := do
  need 2
  let vchSig ← stacktop 2
  let vchPubKey ← stacktop 1
  let m ← get
  let scriptCode := findAndDelete m.codehash (pushData vchSig)
  ctx.checkEncodings flags vchSig vchPubKey
  noteCheck
  let fSuccess := ctx.checker.checkSig vchSig vchPubKey scriptCode ctx.sigversion
  popstack
  popstack
  pushBool fSuccess
  verifyResult verify fSuccess .checkSigVerify

/-- The loop of `OP_CHECKMULTISIG` that drops the signatures from the script code. -/
def dropSignatures : Nat → Nat → CScript → ScriptM CScript
  | 0, _, scriptCode => pure scriptCode
  | nSigsCount + 1, isig, scriptCode => do
    let vchSig ← stacktop isig
    dropSignatures nSigsCount (isig + 1) (findAndDelete scriptCode (pushData vchSig))

/-- The loop of `OP_CHECKMULTISIG` that checks the signatures, one key a round. It ends before the
keys do, since it stops when more signatures than keys are left. -/
def checkSignatures (scriptCode : CScript) : Nat → Nat → Nat → Nat → ScriptM Bool
  | 0, nSigsCount, _, _ => pure (nSigsCount = 0)
  | nKeysCount + 1, nSigsCount, ikey, isig =>
    if nSigsCount = 0 then pure true
    else do
      let vchSig ← stacktop isig
      let vchPubKey ← stacktop ikey
      ctx.checkEncodings flags vchSig vchPubKey
      noteCheck
      let fOk := ctx.checker.checkSig vchSig vchPubKey scriptCode ctx.sigversion
      let left := if fOk then nSigsCount - 1 else nSigsCount
      let next := if fOk then isig + 1 else isig
      if nKeysCount < left then pure false
      else checkSignatures scriptCode nKeysCount left (ikey + 1) next

/-- `if (nOpCount > 201) return set_error(serror, SCRIPT_ERR_OP_COUNT)`, after adding `n`. -/
def countOps (n : Nat) : ScriptM Unit := do
  modify fun m => { m with nOpCount := m.nOpCount + n }
  let m ← get
  require (m.nOpCount ≤ 201) .opCount

/-- The number of keys, or of signatures, at `stacktop(-i)`. -/
def readCount (i bound : Nat) (e : ScriptError) : ScriptM Nat := do
  requireStackInt i .invalidStackOperation
  let vch ← stacktop i
  let bn ← scriptNum (flags.has SCRIPT_VERIFY_MINIMALDATA) vch defaultMaxNumSize
  require (0 ≤ getint bn ∧ getint bn ≤ bound) e
  pure (getint bn).toNat

def checkMultiSig (verify : Bool) : ScriptM Unit := do
  let nKeysCount ← readCount flags 1 maxPubkeysPerMultisig .pubkeyCount
  countOps nKeysCount
  -- the keys begin at 2
  let nSigsCount ← readCount flags (2 + nKeysCount) nKeysCount .sigCount
  let isig := 3 + nKeysCount
  requireStackInt (isig + nSigsCount) .invalidStackOperation
  let m ← get
  let scriptCode ← dropSignatures nSigsCount isig m.codehash
  let fSuccess ← ctx.checkSignatures flags scriptCode nKeysCount nSigsCount 2 isig
  popstacks (isig + nSigsCount - 1)
  -- one more element than the arguments
  need 1
  let dummy ← stacktop 1
  require (¬(flags.has SCRIPT_VERIFY_NULLDUMMY ∧ dummy ≠ [])) .sigNullDummy
  popstack
  pushBool fSuccess
  verifyResult verify fSuccess .checkMultiSigVerify

def checkLockTimeVerify : ScriptM Unit :=
  if flags.has SCRIPT_VERIFY_CHECKLOCKTIMEVERIFY then do
    need 1
    let vch ← stacktop 1
    let nLockTime ← scriptNum (flags.has SCRIPT_VERIFY_MINIMALDATA) vch 5
    require (0 ≤ nLockTime) .negativeLocktime
    require (ctx.checker.checkLockTime nLockTime) .unsatisfiedLocktime
  else require (!flags.has SCRIPT_VERIFY_DISCOURAGE_UPGRADABLE_NOPS) .discourageUpgradableNops

/-- The `switch`. -/
def exec (fExec : Bool) : Op → ScriptM Unit
  | .number n => pushNum n
  | .nop => pure ()
  | .checkLockTimeVerify => ctx.checkLockTimeVerify flags
  | .upgradableNop =>
    require (!flags.has SCRIPT_VERIFY_DISCOURAGE_UPGRADABLE_NOPS) .discourageUpgradableNops
  | .cond notIf => cond fExec notIf
  | .else => else_
  | .endIf => endIf
  | .verify => verify
  | .return => setError .opReturn
  | .toAltStack => toAltStack
  | .fromAltStack => fromAltStack
  | .stack op => stackOp op
  | .pick roll => pick (flags.has SCRIPT_VERIFY_MINIMALDATA) roll
  | .equal verify => equal verify
  | .unary op => unary (flags.has SCRIPT_VERIFY_MINIMALDATA) op
  | .binary op => binary (flags.has SCRIPT_VERIFY_MINIMALDATA) op
  | .within => within (flags.has SCRIPT_VERIFY_MINIMALDATA)
  | .hash op => ctx.hash op
  | .codeSeparator => modify fun m => { m with codehash := m.pc }
  | .checkSig verify => ctx.checkSig flags verify
  | .checkMultiSig verify => ctx.checkMultiSig flags verify
  | .checkColdStakeVerify => require (ctx.checker.checkColdStake ctx.script) .checkColdStakeVerify
  | .unknown => setError .badOpcode

/-! ## The loop -/

/-- `script.GetOp(pc, opcode, vchPushValue)`. -/
def fetch : ScriptM (UInt8 × Valtype) := do
  let m ← get
  match getOp m.pc with
  | none => setError .badOpcode
  | some (opcode, vchPushValue, pc) => do
    set { m with pc := pc }
    pure (opcode, vchPushValue)

/-- `if (opcode > OP_16 && ++nOpCount > 201) return set_error(serror, SCRIPT_ERR_OP_COUNT)`: the
pushes do not count, and `OP_RESERVED` neither. -/
def countOp (opcode : UInt8) : ScriptM Unit :=
  if OP_16 < opcode then countOps 1 else pure ()

def noteExecuted (opcode : UInt8) : ScriptM Unit :=
  modify fun m => { m with executed := opcode :: m.executed }

/-- The push of a value, or the `switch` over the opcode. -/
def dispatch (opcode : UInt8) (vchPushValue : Valtype) : ScriptM Unit := do
  let m ← get
  if m.fExec ∧ opcode ≤ OP_PUSHDATA4 then do
    noteExecuted opcode
    require (!flags.has SCRIPT_VERIFY_MINIMALDATA ∨ checkMinimalPush vchPushValue opcode)
      .minimalData
    push vchPushValue
  else if m.fExec ∨ (OP_IF ≤ opcode ∧ opcode ≤ OP_ENDIF) then do
    noteExecuted opcode
    ctx.exec flags m.fExec (decode opcode)
  else pure ()

/-- The size limit after an opcode, with a record of the size. -/
def limitDepth : ScriptM Unit := do
  modify fun m => { m with depths := m.depth :: m.depths }
  let m ← get
  require (m.depth ≤ 1000) .stackSize

def step : ScriptM Unit := do
  let (opcode, vchPushValue) ← fetch
  require (vchPushValue.length ≤ maxScriptElementSize) .pushSize
  countOp opcode
  require (opcode ∉ disabledOpcodes) .disabledOpcode
  ctx.dispatch flags opcode vchPushValue
  limitDepth

def evaluate : ScriptM Unit := do
  require (ctx.script.length ≤ maxScriptSize) .scriptSize
  Lib.whileLoop (fun m => !m.pc.isEmpty) (ctx.step flags) .unfinished ctx.script.length
  let m ← get
  require (m.vfExec = []) .unbalancedConditional

/-- `EvalScript`: the stack that a successful evaluation leaves. Every exception becomes an unknown
error. -/
def evalScript (stack : List Valtype) : Except Failure (List Valtype) :=
  match ctx.evaluate flags (Machine.start stack ctx.script) with
  | .ok _ m => .ok m.stack
  | .error .assertion _ => .error .assertion
  | .error .unfinished _ => .error .unfinished
  | .error (.script e) _ => .error (.script e)
  | .error _ _ => .error (.script .unknownError)

theorem evalScript_eq_ok {ctx : ScriptContext} {flags : ScriptFlags} {stack result : List Valtype} :
    ctx.evalScript flags stack = .ok result ↔
      ∃ m, ctx.evaluate flags (Machine.start stack ctx.script) = .ok () m ∧ m.stack = result := by
  unfold evalScript
  cases hrun : ctx.evaluate flags (Machine.start stack ctx.script) with
  | ok u m => simp
  | error e m => cases e with
    | script e => simp
    | outOfRange => simp
    | popstackEmpty => simp
    | scriptnumError what => simp
    | assertion => simp
    | unfinished => simp

end ScriptContext

/-! ## Verification -/

def checkTop : List Valtype → Except Failure Unit
  | [] => .error (.script .evalFalse)
  | vch :: _ => if castToBool vch then .ok () else .error (.script .evalFalse)

section

variable (crypto : ScriptCrypto) (checker : BaseSignatureChecker) (sigversion : SigVersion)
  (flags : ScriptFlags)

/-- The evaluation of the script that a script hash stands for. -/
def verifyRedeemScript : List Valtype → Except Failure Unit
  | [] => .error .assertion
  | pubKey2 :: stackCopy => do
    let stack ← ScriptContext.evalScript ⟨crypto, checker, sigversion, pubKey2⟩ flags stackCopy
    checkTop stack

def requirePushOnly (scriptSig : CScript) : Except Failure Unit :=
  if isPushOnly scriptSig then .ok () else .error (.script .sigPushOnly)

def verifyScript (scriptSig scriptPubKey : CScript) : Except Failure Unit := do
  checkUnder (flags.has SCRIPT_VERIFY_SIGPUSHONLY) (requirePushOnly scriptSig)
  let stackCopy ← ScriptContext.evalScript ⟨crypto, checker, sigversion, scriptSig⟩ flags []
  let stack ← ScriptContext.evalScript ⟨crypto, checker, sigversion, scriptPubKey⟩ flags stackCopy
  checkTop stack
  -- spends of a script hash
  checkUnder (flags.has SCRIPT_VERIFY_P2SH && isPayToScriptHash scriptPubKey) do
    requirePushOnly scriptSig
    verifyRedeemScript crypto checker sigversion flags stackCopy

end

/-- Hash functions for samples: every hash is zero. -/
def ScriptCrypto.sample : ScriptCrypto where
  ripemd160 _ := List.replicate 20 0
  sha1 _ := List.replicate 20 0
  sha256 _ := List.replicate 32 0
  checkLowS _ := true
  length_ripemd160 _ := List.length_replicate
  length_sha1 _ := List.length_replicate
  length_sha256 _ := List.length_replicate

end Passion
