import Passion.Lib.Hoare
import Passion.Script.ScriptNum

/-!
# The machine of an evaluation

The local variables of `EvalScript` and the accesses to them that the opcodes are made of. The
first element of a list is the top of the stack, so `stacktop(-i)` is its element `i - 1`.

An access outside the stack is a failure of its own (`Failure.outOfRange`, `popstackEmpty`): the
guards of the opcodes are what keeps it from happening, and nothing here assumes them.

Beside the variables of the source the machine keeps a history of the evaluation: the elements
that were pushed, the opcodes that were executed, the number of elements after each opcode, and the
number of signatures that were checked.
-/

namespace Passion

/-- `ScriptError`, with the `SCRIPT_ERR_` of each name left out. -/
inductive ScriptError where
  | unknownError
  | evalFalse
  | opReturn
  | scriptSize
  | pushSize
  | opCount
  | stackSize
  | sigCount
  | pubkeyCount
  | verify
  | equalVerify
  | checkColdStakeVerify
  | checkMultiSigVerify
  | checkSigVerify
  | numEqualVerify
  | badOpcode
  | disabledOpcode
  | invalidStackOperation
  | invalidAltstackOperation
  | unbalancedConditional
  | negativeLocktime
  | unsatisfiedLocktime
  | sigHashtype
  | sigDer
  | minimalData
  | sigPushOnly
  | sigHighS
  | sigNullDummy
  | pubkeyType
  | discourageUpgradableNops
  deriving DecidableEq, Repr

/-- What ends an evaluation before the end of its script. -/
inductive Failure where
  /-- `return set_error(serror, e)`. -/
  | script (e : ScriptError)
  /-- The exception of `vector::at`; also an iterator that leaves its vector. -/
  | outOfRange
  /-- The exception of `popstack`. -/
  | popstackEmpty
  /-- `scriptnum_error`. -/
  | scriptnumError (what : String)
  /-- A failed `assert`, which ends the program. -/
  | assertion
  /-- The loop over the opcodes needs more rounds than the script has bytes; see
  `evaluate_withinLimits`. -/
  | unfinished
  deriving DecidableEq, Repr

/-- The variables of `EvalScript`, and the history of the evaluation, latest first. -/
structure Machine where
  stack : List Valtype
  altstack : List Valtype
  vfExec : List Bool
  nOpCount : Nat
  /-- `pc .. pend`. -/
  pc : CScript
  /-- `pbegincodehash .. pend`. -/
  codehash : CScript
  pushed : List Valtype
  executed : List UInt8
  depths : List Nat
  /-- The calls of `CheckSig`. -/
  checks : Nat
  deriving DecidableEq

abbrev ScriptM := EStateM Failure Machine

namespace Machine

/-- The machine before the first opcode. -/
def start (stack : List Valtype) (script : CScript) : Machine where
  stack := stack
  altstack := []
  vfExec := []
  nOpCount := 0
  pc := script
  codehash := script
  pushed := []
  executed := []
  depths := []
  checks := 0

/-- `!count(vfExec.begin(), vfExec.end(), false)`. -/
def fExec (m : Machine) : Bool := m.vfExec.all id

/-- `stack.size() + altstack.size()`. -/
def depth (m : Machine) : Nat := m.stack.length + m.altstack.length

end Machine

/-- The cast of a size to `int`. -/
@[irreducible] def toInt (n : Nat) : Int := Int.bmod n 0x100000000

theorem toInt_le (n : Nat) : toInt n ≤ n := by
  have hdef := @Int.bmod_def n 0x100000000
  unfold toInt
  omega

namespace ScriptM

/-- `return set_error(serror, e)`. -/
def setError {α : Type} (e : ScriptError) : ScriptM α := throw (.script e)

/-- `if (!c) return set_error(serror, e)`. -/
def require (c : Prop) [Decidable c] (e : ScriptError) : ScriptM Unit := Lib.ensure c (.script e)

/-- `if (stack.size() < n) return set_error(serror, e)`. -/
def requireStack (n : Nat) (e : ScriptError) : ScriptM Unit := do
  let m ← get
  require (n ≤ m.stack.length) e

/-- `if (n < 0 || n >= (int)stack.size()) return set_error(serror, e)`, and the index `n`. -/
def requireIndex (n : Int) (e : ScriptError) : ScriptM Nat := do
  let m ← get
  require (0 ≤ n ∧ n < toInt m.stack.length) e
  pure n.toNat

/-- `if ((int)stack.size() < n) return set_error(serror, e)`. -/
def requireStackInt (n : Nat) (e : ScriptError) : ScriptM Unit := do
  let m ← get
  require ((n : Int) ≤ toInt m.stack.length) e

/-! ## Stack -/

/-- `stacktop(-i)`. -/
def stacktop (i : Nat) : ScriptM Valtype := do
  let m ← get
  match (if i = 0 then none else m.stack[i - 1]?) with
  | some vch => pure vch
  | none => throw .outOfRange

/-- `popstack(stack)`. -/
def popstack : ScriptM Unit := do
  let m ← get
  match m.stack with
  | [] => throw .popstackEmpty
  | _ :: rest => set { m with stack := rest }

/-- `stack.push_back(vch)`. -/
def push (vch : Valtype) : ScriptM Unit :=
  modify fun m => { m with stack := vch :: m.stack, pushed := vch :: m.pushed }

/-- `swap(stacktop(-i), stacktop(-j))`. -/
def swapTop (i j : Nat) : ScriptM Unit := do
  let vch1 ← stacktop i
  let vch2 ← stacktop j
  modify fun m => { m with stack := (m.stack.set (i - 1) vch2).set (j - 1) vch1 }

/-- `stack.erase(stack.end() - i, stack.end() - j)`. -/
def eraseTop (i j : Nat) : ScriptM Unit := do
  let m ← get
  Lib.ensure (j ≤ i ∧ i ≤ m.stack.length) .outOfRange
  set { m with stack := m.stack.take j ++ m.stack.drop i }

/-- `stack.insert(stack.end() - i, vch)`. -/
def insertTop (i : Nat) (vch : Valtype) : ScriptM Unit := do
  let m ← get
  Lib.ensure (i ≤ m.stack.length) .outOfRange
  set { m with stack := m.stack.take i ++ vch :: m.stack.drop i, pushed := vch :: m.pushed }

/-- `n` calls of `popstack(stack)`. -/
def popstacks : Nat → ScriptM Unit
  | 0 => pure ()
  | n + 1 => do
    popstack
    popstacks n

/-- `altstacktop(-1)`. -/
def altstacktop : ScriptM Valtype := do
  let m ← get
  match m.altstack with
  | [] => throw .outOfRange
  | vch :: _ => pure vch

/-- `popstack(altstack)`. -/
def popAltstack : ScriptM Unit := do
  let m ← get
  match m.altstack with
  | [] => throw .popstackEmpty
  | _ :: rest => set { m with altstack := rest }

/-- `altstack.push_back(vch)`. -/
def pushAltstack (vch : Valtype) : ScriptM Unit :=
  modify fun m => { m with altstack := vch :: m.altstack, pushed := vch :: m.pushed }

/-! ## Numbers -/

/-- `CScriptNum(vch, fRequireMinimal, nMaxNumSize)`. -/
def scriptNum (fRequireMinimal : Bool) (vch : Valtype) (nMaxNumSize : Nat) : ScriptM Int :=
  match CScriptNum.ofVch vch fRequireMinimal nMaxNumSize with
  | .ok n => pure n
  | .error what => throw (.scriptnumError what)

/-- `stack.push_back(bn.getvch())`. -/
def pushNum (n : Int) : ScriptM Unit := push (CScriptNum.serialize n)

/-- `stack.push_back(b ? vchTrue : vchFalse)`. -/
def pushBool (b : Bool) : ScriptM Unit := push (if b then [1] else [])

/-! ## Postconditions of the accesses -/

section

variable {Q : Unit → Machine → Prop} {E : Failure → Machine → Prop} {m : Machine}

variable {e : ScriptError}

@[simp] theorem wp_setError {α : Type} {Q : α → Machine → Prop} :
    Lib.wp (setError e : ScriptM α) Q E m ↔ E (.script e) m := Iff.rfl

@[simp] theorem wp_require {c : Prop} [Decidable c] :
    Lib.wp (require c e) Q E m ↔ (c → Q () m) ∧ (¬c → E (.script e) m) := Lib.wp_ensure

@[simp] theorem wp_requireStack {n : Nat} : Lib.wp (requireStack n e) Q E m ↔
      (n ≤ m.stack.length → Q () m) ∧ (¬n ≤ m.stack.length → E (.script e) m) := by
  simp only [requireStack, Lib.wp_bind, Lib.wp_get, wp_require]

theorem wp_stacktop {Q : Valtype → Machine → Prop} {i : Nat} {vch : Valtype}
    (h : m.stack[i]? = some vch) : Lib.wp (stacktop (i + 1)) Q E m ↔ Q vch m := by
  simp [stacktop, h]

@[simp] theorem wp_popstack :
    Lib.wp popstack Q E m ↔ (∀ vch rest, m.stack = vch :: rest → Q () { m with stack := rest }) ∧
      (m.stack = [] → E .popstackEmpty m) := by
  cases h : m.stack with
  | nil => simp [popstack, h]
  | cons vch rest => simp [popstack, h]

@[simp] theorem wp_push {vch : Valtype} :
    Lib.wp (push vch) Q E m ↔ Q () { m with stack := vch :: m.stack, pushed := vch :: m.pushed } :=
  Iff.rfl

end

end ScriptM

end Passion
