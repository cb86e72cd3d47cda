import Mathlib.Algebra.Ring.Int.Defs

/-!
# Transactions and coins

The data of `primitives/transaction.h`, `script/script.h`, `sapling/sapling_transaction.h` and
of the class `Coin` in `coins.h`, with the predicates that validation reads.

A transaction carries its id in the field `hash`, as the source's class does (there it is
computed once from the serialization); nothing in this development inverts it. Amounts are
unbounded integers, and `wrap64` is written where a C++ `int64_t` sum could leave its range.
-/

namespace Passion

/-- `uint256`: hashes, ids, roots and nullifiers. -/
abbrev UInt256 := BitVec 256

abbrev CAmount := Int

/-- `COIN` (amount.h). -/
def COIN : CAmount := 100000000

/-- The value an `int64_t` holds after a computation whose exact result is `x`. -/
def wrap64 (x : Int) : Int := Int.bmod x 18446744073709551616

/-! ## Scripts -/

abbrev CScript := List UInt8

namespace CScript

def OP_RETURN : UInt8 := 0x6a
def OP_ZEROCOINMINT : UInt8 := 0xc1
def OP_ZEROCOINSPEND : UInt8 := 0xc2
def OP_ZEROCOINPUBLICSPEND : UInt8 := 0xc3

/-- `MAX_SCRIPT_SIZE` (script.h). -/
def maxScriptSize : Nat := 10000

def startsWithOpcode (s : CScript) (opcode : UInt8) : Bool :=
  match s with
  | [] => false
  | b :: _ => b == opcode

def isZerocoinMint (s : CScript) : Bool := startsWithOpcode s OP_ZEROCOINMINT
def isZerocoinSpend (s : CScript) : Bool := startsWithOpcode s OP_ZEROCOINSPEND
def isZerocoinPublicSpend (s : CScript) : Bool := startsWithOpcode s OP_ZEROCOINPUBLICSPEND

/-- A script that fails for every stack; its output never enters the coin set. -/
def isUnspendable (s : CScript) : Bool :=
  startsWithOpcode s OP_RETURN || decide (maxScriptSize < s.length)

end CScript

/-! ## Inputs and outputs -/

structure COutPoint where
  hash : UInt256
  n : Nat
  deriving DecidableEq, Repr

namespace COutPoint

/-- `(uint32_t) -1`, the index of a null outpoint. -/
def nullIndex : Nat := 4294967295

def null : COutPoint := ⟨0, nullIndex⟩

def isNull (o : COutPoint) : Bool := o.hash == 0 && o.n == nullIndex

end COutPoint

structure CTxIn where
  prevout : COutPoint
  scriptSig : CScript
  nSequence : Nat
  deriving DecidableEq, Repr

namespace CTxIn

def isZerocoinSpend (txin : CTxIn) : Bool :=
  txin.prevout.hash == 0 && CScript.isZerocoinSpend txin.scriptSig

def isZerocoinPublicSpend (txin : CTxIn) : Bool :=
  CScript.isZerocoinPublicSpend txin.scriptSig

end CTxIn

structure CTxOut where
  nValue : CAmount
  scriptPubKey : CScript
  deriving DecidableEq, Repr

namespace CTxOut

/-- `SetNull`: the value `-1` marks an output that is not there. -/
def null : CTxOut := ⟨-1, []⟩

def isNull (out : CTxOut) : Bool := out.nValue == -1

def isEmpty (out : CTxOut) : Bool := out.nValue == 0 && out.scriptPubKey.isEmpty

def isZerocoinMint (out : CTxOut) : Bool := CScript.isZerocoinMint out.scriptPubKey

end CTxOut

def totalValue (vout : List CTxOut) : CAmount := (vout.map (·.nValue)).sum

@[simp] theorem totalValue_nil : totalValue [] = 0 := rfl

theorem totalValue_cons (out : CTxOut) (l : List CTxOut) :
    totalValue (out :: l) = out.nValue + totalValue l := List.sum_cons

@[simp] theorem totalValue_append (xs ys : List CTxOut) :
    totalValue (xs ++ ys) = totalValue xs + totalValue ys := by
  simp [totalValue]

/-! ## Sapling data -/

structure SpendDescription where
  anchor : UInt256
  nullifier : UInt256
  deriving DecidableEq, Repr

structure OutputDescription where
  cmu : UInt256
  deriving DecidableEq, Repr

structure SaplingTxData where
  valueBalance : CAmount
  vShieldedSpend : List SpendDescription
  vShieldedOutput : List OutputDescription
  bindingSig : List UInt8
  deriving DecidableEq, Repr

def SaplingTxData.hasBindingSig (d : SaplingTxData) : Bool := d.bindingSig.any (· != 0)

/-! ## Transactions -/

structure CTransaction where
  nVersion : Int
  nType : Int
  vin : List CTxIn
  vout : List CTxOut
  sapData : Option SaplingTxData
  extraPayload : Option (List UInt8)
  hash : UInt256
  deriving DecidableEq, Repr

namespace CTransaction

/-- `TxVersion::SAPLING`. -/
def versionSapling : Int := 3

/-- `TxType::NORMAL`. -/
def typeNormal : Int := 0

variable (tx : CTransaction)

def hasSaplingData : Bool :=
  match tx.sapData with
  | none => false
  | some d => !d.vShieldedOutput.isEmpty || !d.vShieldedSpend.isEmpty || d.valueBalance != 0 ||
      d.hasBindingSig

def isSaplingVersion : Bool := decide (versionSapling ≤ tx.nVersion)

def isShieldedTx : Bool := tx.isSaplingVersion && tx.hasSaplingData

def hasExtraPayload : Bool :=
  match tx.extraPayload with
  | none => false
  | some p => !p.isEmpty

def hasZerocoinSpendInputs : Bool :=
  tx.vin.any fun txin => txin.isZerocoinSpend || txin.isZerocoinPublicSpend

def hasZerocoinPublicSpendInputs : Bool := tx.vin.any CTxIn.isZerocoinPublicSpend

def hasZerocoinMintOutputs : Bool := tx.vout.any CTxOut.isZerocoinMint

def containsZerocoins : Bool := tx.hasZerocoinSpendInputs || tx.hasZerocoinMintOutputs

def isCoinBase : Bool :=
  match tx.vin with
  | [txin] => txin.prevout.isNull && !tx.containsZerocoins
  | _ => false

def isCoinStake : Bool :=
  match tx.vin with
  | [] => false
  | txin :: _ =>
    -- only a zerocoin spend may stake with a null first prevout
    if txin.prevout.isNull && !txin.isZerocoinSpend then false
    else
      match tx.vout with
      | out :: _ :: _ => out.isEmpty
      | _ => false

/-- The exceptions of `GetValueOut` and `GetShieldedValueIn`. -/
inductive ValueError where
  | lessThanZero
  | wrapsBoundary
  | invalidTxVersion
  deriving DecidableEq, Repr

def ValueError.what : ValueError → String
  | lessThanZero => "CTransaction::GetValueOut() : value out of range : less than 0"
  | wrapsBoundary =>
    "CTransaction::GetValueOut() : value out of range : wraps the int64_t boundary"
  | invalidTxVersion => "GetValueOut(): invalid tx version"

/-- One turn of the output loop of `GetValueOut`. -/
def addValueOut (nValueOut : CAmount) (out : CTxOut) : Except ValueError CAmount :=
  if out.nValue < 0 then .error .lessThanZero
  else if wrap64 (nValueOut + out.nValue) < nValueOut then .error .wrapsBoundary
  else .ok (wrap64 (nValueOut + out.nValue))

/-- Transparent outputs, and what a negative value balance moves into the shielded pool. -/
def getValueOut : Except ValueError CAmount := do
  let nValueOut ← tx.vout.foldlM addValueOut 0
  match tx.sapData with
  | none => .ok nValueOut
  | some d =>
    if tx.hasSaplingData && decide (d.valueBalance < 0) then
      if !tx.isSaplingVersion then .error .invalidTxVersion
      else .ok (wrap64 (nValueOut + -d.valueBalance))
    else .ok nValueOut

/-- What a positive value balance moves out of the shielded pool. -/
def getShieldedValueIn : Except ValueError CAmount :=
  match tx.sapData with
  | none => .ok 0
  | some d =>
    if tx.hasSaplingData && decide (0 < d.valueBalance) then
      if !tx.isSaplingVersion then .error .invalidTxVersion
      else .ok d.valueBalance
    else .ok 0

def getZerocoinSpent : CAmount :=
  tx.vin.foldl (fun nValueOut txin =>
    if !txin.isZerocoinSpend then nValueOut
    else wrap64 (nValueOut + txin.nSequence * COIN)) 0

end CTransaction

/-! ## Coins -/

/-- An unspent output with where it was created (coins.h). -/
structure Coin where
  fCoinBase : Bool
  fCoinStake : Bool
  out : CTxOut
  nHeight : Nat
  deriving DecidableEq, Repr

namespace Coin

/-- `Coin()` and the result of `Clear()`. -/
def empty : Coin := ⟨false, false, CTxOut.null, 0⟩

def isSpent (c : Coin) : Bool := c.out.isNull

@[simp] theorem isSpent_empty : empty.isSpent = true := rfl

/-- The coin as a map would hold it: nothing when it is spent. -/
def unspent? (c : Coin) : Option Coin := if c.isSpent then none else some c

@[simp] theorem unspent?_empty : empty.unspent? = none := rfl

theorem isSome_unspent? (c : Coin) : c.unspent?.isSome = !c.isSpent := by
  unfold unspent?
  cases c.isSpent <;> rfl

variable {c : Coin}

theorem unspent?_eq_some {d : Coin} : c.unspent? = some d ↔ c.isSpent = false ∧ c = d := by
  unfold unspent?
  cases c.isSpent <;> simp

theorem unspent?_eq_none : c.unspent? = none ↔ c.isSpent = true := by
  unfold unspent?
  cases c.isSpent <;> simp

theorem unspent?_of_not_isSpent (h : c.isSpent = false) : c.unspent? = some c := by
  simp [unspent?, h]

theorem unspent?_of_isSpent (h : c.isSpent = true) : c.unspent? = none := by
  simp [unspent?, h]

/-- A coin of value `v` for closed examples. -/
def sample (v : CAmount) : Coin := ⟨false, false, ⟨v, [0x51]⟩, 1⟩

end Coin

def COutPoint.sample (i : Nat) : COutPoint := ⟨BitVec.ofNat 256 i, 0⟩

end Passion
