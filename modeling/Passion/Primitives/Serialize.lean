import Mathlib.Algebra.Ring.Nat
import Passion.Primitives.Transaction

/-!
# The wire format of transactions

`UnserializeTransaction` of `primitives/transaction.h` with the readers of `serialize.h` that it
uses. A reader takes bytes from a stream or throws.

The wire form has fields that validation never looks at (proofs, signatures, ciphertexts, the lock
time). They are read here with the rest; `CMutableTransaction.toTransaction` leaves them out.
-/

namespace Passion

/-- A reader of a `CDataStream`: it throws, or gives a value and the bytes that are left. -/
abbrev Reader := StateT (List UInt8) (Except String)

namespace Reader

def read (nSize : Nat) : Reader (List UInt8) := fun s =>
  if s.length < nSize then .error "CDataStream::read(): end of data"
  else .ok (s.take nSize, s.drop nSize)

def leNat (bytes : List UInt8) : Nat := bytes.foldr (fun b n => b.toNat + 256 * n) 0

/-- `ser_readdata8` up to `ser_readdata64`, by the number of bytes. -/
def serReadData (nBytes : Nat) : Reader Nat := do return leNat (← read nBytes)

def serReadInt (nBytes : Nat) : Reader Int := do
  return (BitVec.ofNat (8 * nBytes) (← serReadData nBytes)).toInt

def uint256 : Reader UInt256 := do return BitVec.ofNat 256 (← serReadData 32)

/-- `MAX_SIZE` (serialize.h). -/
def maxSize : Nat := 0x02000000

/-- The size after its first byte, and the smallest size that may be written this way. -/
def compactSizeOf (chSize : Nat) : Reader (Nat × Nat) :=
  if chSize < 253 then return (chSize, 0)
  else if chSize = 253 then return (← serReadData 2, 253)
  else if chSize = 254 then return (← serReadData 4, 0x10000)
  else return (← serReadData 8, 0x100000000)

def readCompactSize : Reader Nat := do
  let (nSizeRet, smallest) ← compactSizeOf (← serReadData 1)
  if nSizeRet < smallest then throw "non-canonical ReadCompactSize()"
  if maxSize < nSizeRet then throw "ReadCompactSize() : size too large"
  return nSizeRet

variable {α : Type}

def times (item : Reader α) : Nat → Reader (List α)
  | 0 => return []
  | n + 1 => do return (← item) :: (← times item n)

def vector (item : Reader α) : Reader (List α) := do times item (← readCompactSize)

def byteVector : Reader (List UInt8) := do read (← readCompactSize)

/-- An `Optional`: nothing after the discriminant `0x00`, a value after any other. -/
def optional (object : Reader α) : Reader (Option α) := do
  if (← serReadData 1) = 0 then return none
  else return some (← object)

theorem bind_ok {β : Type} {m : Reader α} {f : α → Reader β} {s : List UInt8} {r : β × List UInt8}
    (h : (m >>= f) s = .ok r) : ∃ a s', m s = .ok (a, s') ∧ f a s' = .ok r := by
  change (m s >>= fun p => f p.1 p.2) = .ok r at h
  cases hm : m s with
  | error e =>
    rw [hm] at h
    cases h
  | ok p =>
    rw [hm] at h
    exact ⟨p.1, p.2, rfl, h⟩

theorem pure_ok {a : α} {s : List UInt8} {r : α × List UInt8} (h : (pure a : Reader α) s = .ok r) :
    r = (a, s) :=
  (Except.ok.inj h).symm

end Reader

/-! ## The wire data -/

structure WireSpendDescription extends SpendDescription where
  cv : UInt256
  rk : UInt256
  zkproof : List UInt8
  spendAuthSig : List UInt8
  deriving DecidableEq, Repr

structure WireOutputDescription extends OutputDescription where
  cv : UInt256
  ephemeralKey : UInt256
  encCiphertext : List UInt8
  outCiphertext : List UInt8
  zkproof : List UInt8
  deriving DecidableEq, Repr

structure WireSaplingTxData where
  valueBalance : CAmount
  vShieldedSpend : List WireSpendDescription
  vShieldedOutput : List WireOutputDescription
  bindingSig : List UInt8
  deriving DecidableEq, Repr

/-- `SaplingTxData()`. -/
def WireSaplingTxData.default : WireSaplingTxData := ⟨0, [], [], List.replicate 64 0⟩

structure CMutableTransaction where
  nVersion : Int
  nType : Int
  vin : List CTxIn
  vout : List CTxOut
  nLockTime : Nat
  sapData : Option WireSaplingTxData
  extraPayload : Option (List UInt8)
  deriving DecidableEq, Repr

namespace WireSaplingTxData

def toSaplingTxData (d : WireSaplingTxData) : SaplingTxData :=
  ⟨d.valueBalance, d.vShieldedSpend.map (·.toSpendDescription),
    d.vShieldedOutput.map (·.toOutputDescription), d.bindingSig⟩

end WireSaplingTxData

/-- `CTransaction(const CMutableTransaction&)`; the id is `ComputeHash`. -/
def CMutableTransaction.toTransaction (computeHash : CMutableTransaction → UInt256)
    (tx : CMutableTransaction) : CTransaction where
  nVersion := tx.nVersion
  nType := tx.nType
  vin := tx.vin
  vout := tx.vout
  sapData := tx.sapData.map WireSaplingTxData.toSaplingTxData
  extraPayload := tx.extraPayload
  hash := computeHash tx

namespace Reader

def outPoint : Reader COutPoint := do return ⟨← uint256, ← serReadData 4⟩

def txIn : Reader CTxIn := do return ⟨← outPoint, ← byteVector, ← serReadData 4⟩

def txOut : Reader CTxOut := do return ⟨← serReadInt 8, ← byteVector⟩

def grothProofSize : Nat := 48 + 96 + 48

def spendDescription : Reader WireSpendDescription := do
  let cv ← uint256
  let anchor ← uint256
  let nullifier ← uint256
  let rk ← uint256
  let zkproof ← read grothProofSize
  let spendAuthSig ← read 64
  return { anchor, nullifier, cv, rk, zkproof, spendAuthSig }

def outputDescription : Reader WireOutputDescription := do
  let cv ← uint256
  let cmu ← uint256
  let ephemeralKey ← uint256
  -- ZC_SAPLING_ENCCIPHERTEXT_SIZE and ZC_SAPLING_OUTCIPHERTEXT_SIZE
  let encCiphertext ← read (1 + 11 + 8 + 32 + 512 + 16)
  let outCiphertext ← read (32 + 32 + 16)
  let zkproof ← read grothProofSize
  return { cmu, cv, ephemeralKey, encCiphertext, outCiphertext, zkproof }

def saplingTxData : Reader WireSaplingTxData := do
  return ⟨← serReadInt 8, ← vector spendDescription, ← vector outputDescription, ← read 64⟩

/-- The Sapling fields of `UnserializeTransaction`. A transaction of an older version keeps the
default of its constructor, which has Sapling data without anything in it. -/
def saplingFields (nVersion nType : Int) :
    Reader (Option WireSaplingTxData × Option (List UInt8)) := do
  if nVersion < CTransaction.versionSapling then return (some .default, none)
  else
    let sapData ← optional saplingTxData
    if nType = CTransaction.typeNormal then return (sapData, none)
    else return (sapData, ← optional byteVector)

def unserializeTransaction : Reader CMutableTransaction := do
  let nVersion ← serReadInt 2
  let nType ← serReadInt 2
  let vin ← vector txIn
  let vout ← vector txOut
  let nLockTime ← serReadData 4
  let (sapData, extraPayload) ← saplingFields nVersion nType
  return { nVersion, nType, vin, vout, nLockTime, sapData, extraPayload }

/-- Sapling data can be absent from version 3 on only. -/
theorem saplingVersion_of_absent {s rest : List UInt8} {tx : CMutableTransaction}
    (h : unserializeTransaction s = .ok (tx, rest)) (habsent : tx.sapData = none) :
    CTransaction.versionSapling ≤ tx.nVersion := by
  obtain ⟨nVersion, s1, -, h⟩ := bind_ok h
  obtain ⟨nType, s2, -, h⟩ := bind_ok h
  obtain ⟨vin, s3, -, h⟩ := bind_ok h
  obtain ⟨vout, s4, -, h⟩ := bind_ok h
  obtain ⟨nLockTime, s5, -, h⟩ := bind_ok h
  obtain ⟨⟨sapData, extraPayload⟩, s6, hfields, h⟩ := bind_ok h
  obtain ⟨rfl, -⟩ := Prod.mk.inj (pure_ok h)
  unfold saplingFields at hfields
  split_ifs at hfields with hversion
  · obtain ⟨hdefault, -⟩ := Prod.mk.inj (pure_ok hfields)
    rw [(Prod.mk.inj hdefault).1] at habsent
    cases habsent
  · exact Int.not_lt.mp hversion
  · exact Int.not_lt.mp hversion

end Reader

/-! ## The size of a transaction -/

def getSizeOfCompactSize (nSize : Nat) : Nat :=
  if nSize < 253 then 1 else if nSize ≤ 0xffff then 3 else if nSize ≤ 0xffffffff then 5 else 9

namespace CTransaction

def byteVectorSize (bytes : List UInt8) : Nat := getSizeOfCompactSize bytes.length + bytes.length

/-- The Sapling fields: a spend has 384 bytes, an output 948. -/
def saplingSize (tx : CTransaction) : Nat :=
  let sapData := match tx.sapData with
    | none => 1
    | some d => 1 + 8 +
        (getSizeOfCompactSize d.vShieldedSpend.length + 384 * d.vShieldedSpend.length) +
        (getSizeOfCompactSize d.vShieldedOutput.length + 948 * d.vShieldedOutput.length) + 64
  let extraPayload := match tx.extraPayload with
    | none => 1
    | some payload => 1 + byteVectorSize payload
  sapData + if tx.nType = typeNormal then 0 else extraPayload

def getTotalSize (tx : CTransaction) : Nat :=
  2 + 2 +
    (getSizeOfCompactSize tx.vin.length +
      (tx.vin.map fun i => 36 + byteVectorSize i.scriptSig + 4).sum) +
    (getSizeOfCompactSize tx.vout.length +
      (tx.vout.map fun o => 8 + byteVectorSize o.scriptPubKey).sum) +
    4 + if tx.isSaplingVersion then tx.saplingSize else 0

end CTransaction

end Passion
