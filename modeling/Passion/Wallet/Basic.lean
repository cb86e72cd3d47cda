import Mathlib.Data.List.Nodup
import Passion.Script.Script

/-!
# Wallet coins and coin control

The data that coin selection and transaction building read: the wallet's transactions and the
outputs it may spend (wallet/wallet.h), destinations (script/standard.h), fee rates
(policy/feerate.h) and the coin control settings (coincontrol.h).

`IsFromMe` depends on the wallet's keys, so a wallet transaction carries the answer. The flag
`fSolvable` of an output and `fAllowWatchOnly` of coin control only decide what `AvailableCoins`
lists, and are left out.
-/

namespace Passion

/-- `CENT` (amount.h). -/
def CENT : CAmount := 1000000

/-! ## Destinations -/

/-- `uint160`, the hash of a key or of a script. -/
abbrev UInt160 := Vector UInt8 20

inductive CTxDestination where
  | noDestination
  | keyID (id : UInt160)
  | scriptID (id : UInt160)
  deriving DecidableEq

namespace CTxDestination

def isValidDestination : CTxDestination → Bool
  | noDestination => false
  | _ => true

open CScript in
/-- The script paying to a destination; a pushed hash is its length and then its bytes. -/
def getScriptForDestination : CTxDestination → CScript
  | noDestination => []
  | keyID id => [OP_DUP, OP_HASH160, 20] ++ id.toList ++ [OP_EQUALVERIFY, OP_CHECKSIG]
  | scriptID id => [OP_HASH160, 20] ++ id.toList ++ [OP_EQUAL]

end CTxDestination

/-! ## Fee rates -/

structure CFeeRate where
  nSatoshisPerK : CAmount
  deriving DecidableEq, Repr

/-- The product of an `int64_t` and a `size_t` is taken modulo `2 ^ 64`. -/
def CFeeRate.getFee (rate : CFeeRate) (nSize : Nat) : CAmount :=
  let nFee := rate.nSatoshisPerK * nSize % 18446744073709551616 / 1000
  if nFee = 0 ∧ 0 < rate.nSatoshisPerK then rate.nSatoshisPerK else nFee

/-! ## Coins of the wallet -/

structure CWalletTx where
  tx : CTransaction
  isFromMe : Bool
  deriving DecidableEq, Repr

/-- `std::pair<const CWalletTx*, unsigned int>`: an output of a wallet transaction. -/
abbrev WalletCoin := CWalletTx × Nat

namespace WalletCoin

def value (coin : WalletCoin) : CAmount := ((coin.1.tx.vout[coin.2]?).map (·.nValue)).getD 0

def outPoint (coin : WalletCoin) : COutPoint := ⟨coin.1.tx.hash, coin.2⟩

def total (coins : List WalletCoin) : CAmount := (coins.map value).sum

end WalletCoin

/-- An output that `AvailableCoins` lists. -/
structure COutput where
  tx : CWalletTx
  i : Nat
  nDepth : Int
  fSpendable : Bool
  inRange : i < tx.tx.vout.length
  deriving DecidableEq

namespace COutput

def coin (out : COutput) : WalletCoin := (out.tx, out.i)

def value (out : COutput) : CAmount := out.coin.value

@[simp] theorem value_coin (out : COutput) : out.coin.value = out.value := rfl

end COutput

/-- `mapWallet`: every transaction stands under its own hash. -/
structure CWallet where
  mapWallet : UInt256 → Option CWalletTx
  hash_eq : ∀ {hash wtx}, mapWallet hash = some wtx → wtx.tx.hash = hash

/-- The set of selected outpoints is a list without repetitions, in the order a traversal of the
source's unordered set gives. -/
structure CCoinControl where
  destChange : CTxDestination
  fAllowOtherInputs : Bool
  nMinimumTotalFee : CAmount
  fOverrideFeeRate : Bool
  nFeeRate : CFeeRate
  setSelected : List COutPoint
  nodup : setSelected.Nodup

namespace CCoinControl

/-- The constructor's `SetNull`. -/
def null : CCoinControl := ⟨.noDestination, false, 0, false, ⟨0⟩, [], List.nodup_nil⟩

def hasSelected (control : CCoinControl) : Bool := !control.setSelected.isEmpty

def isSelected (control : CCoinControl) (output : COutPoint) : Bool :=
  control.setSelected.elem output

def select (control : CCoinControl) (output : COutPoint) : CCoinControl :=
  { control with
    setSelected := control.setSelected.insert output
    nodup := control.nodup.insert }

end CCoinControl

end Passion
