import Passion.Lib.KeyedMerge
import Passion.Primitives.Transaction

/-!
# Masternode winner votes

The vote tables of `masternode-payments.h`: the payees of one height with their votes
(`CMasternodeBlockPayees`), and the tables of all heights, which grow by `AddWinningMasternode`
and shrink by `CleanPaymentList`.
-/

namespace Passion

open Lib

def mnPaymentsSignaturesRequired : Nat := 6

structure CMasternodePayee where
  scriptPubKey : CScript
  mnlevel : Int
  nVotes : Int
  deriving DecidableEq, Repr

/-- `CMasternodePayee(mnlevel, payee, nVotesIn)`. Its body assigns the parameter `mnlevel` to
itself, so the member keeps `indeterminate`, whatever the memory held. -/
def CMasternodePayee.new (indeterminate : Int) (_mnlevel : Int) (payee : CScript) (nVotesIn : Int) :
    CMasternodePayee :=
  { scriptPubKey := payee, mnlevel := indeterminate, nVotes := nVotesIn }

structure CMasternodeBlockPayees where
  nBlockHeight : Int
  vecPayments : List CMasternodePayee
  deriving DecidableEq, Repr

namespace CMasternodeBlockPayees

/-- Add to the first element that satisfies the test, if there is one. -/
def addVotes (payeeIn : CScript) (nIncrement : Int) :
    List CMasternodePayee → Option (List CMasternodePayee)
  | [] => none
  | p :: ps =>
    if p.scriptPubKey = payeeIn then some ({ p with nVotes := p.nVotes + nIncrement } :: ps)
    else (addVotes payeeIn nIncrement ps).map (p :: ·)

def addPayee (indeterminate : Int) (b : CMasternodeBlockPayees) (payeeIn : CScript)
    (mnlevel : Int) (nIncrement : Int) : CMasternodeBlockPayees :=
  { b with
    vecPayments := (addVotes payeeIn nIncrement b.vecPayments).getD
      (b.vecPayments ++ [CMasternodePayee.new indeterminate mnlevel payeeIn nIncrement]) }

theorem getD_addVotes_cons {p : CMasternodePayee} {payeeIn : CScript}
    (hp : p.scriptPubKey ≠ payeeIn) (nIncrement : Int) (ps : List CMasternodePayee)
    (new : CMasternodePayee) :
    (addVotes payeeIn nIncrement (p :: ps)).getD (p :: ps ++ [new]) =
      p :: (addVotes payeeIn nIncrement ps).getD (ps ++ [new]) := by
  simp only [addVotes, hp]
  cases addVotes payeeIn nIncrement ps <;> rfl

/-- The loop of `GetPayee`: `payment` is the best payee so far. -/
def bestPayee (mnlevel : Int) (payment : Option CMasternodePayee) (p : CMasternodePayee) :
    Option CMasternodePayee :=
  if p.mnlevel ≠ mnlevel then payment
  else
    match payment with
    | none => some p
    | some best => if best.nVotes < p.nVotes then some p else payment

def getPayee (b : CMasternodeBlockPayees) (mnlevel : Int) : Option CScript :=
  (b.vecPayments.foldl (bestPayee mnlevel) none).map (·.scriptPubKey)

end CMasternodeBlockPayees

/-- The fields of `CMasternodePaymentWinner` that the tables read. -/
structure CMasternodePaymentWinner where
  nBlockHeight : Int
  payee : CScript
  payeeLevel : Int
  hash : UInt256
  deriving DecidableEq, Repr

/-- `mapMasternodePayeeVotes` and `mapMasternodeBlocks` of `CMasternodePayments`. -/
structure VoteTables where
  mapMasternodePayeeVotes : Map UInt256 CMasternodePaymentWinner
  mapMasternodeBlocks : Map Int CMasternodeBlockPayees

namespace VoteTables

def empty : VoteTables := ⟨∅, ∅⟩

/-- `AddWinningMasternode` at best height `bestHeight`. -/
def addWinningMasternode (indeterminate bestHeight : Int) (t : VoteTables)
    (winnerIn : CMasternodePaymentWinner) : Bool × VoteTables :=
  if bestHeight + 1 < winnerIn.nBlockHeight - 100 then (false, t)
  else if (t.mapMasternodePayeeVotes.lookup winnerIn.hash).isSome then (false, t)
  else
    let block := (t.mapMasternodeBlocks.lookup winnerIn.nBlockHeight).getD
      ⟨winnerIn.nBlockHeight, []⟩
    (true,
      { mapMasternodePayeeVotes := t.mapMasternodePayeeVotes.insert winnerIn.hash winnerIn
        mapMasternodeBlocks := t.mapMasternodeBlocks.insert winnerIn.nBlockHeight
          (block.addPayee indeterminate winnerIn.payee winnerIn.payeeLevel 1) })

/-- One round of the loop of `CleanPaymentList`, at the vote stored under `hash`. -/
def cleanVote (nLimit nHeight : Int) (t : VoteTables) (hash : UInt256) : VoteTables :=
  match t.mapMasternodePayeeVotes.lookup hash with
  | none => t
  | some winner =>
    if nLimit < nHeight - winner.nBlockHeight then
      { mapMasternodePayeeVotes := t.mapMasternodePayeeVotes.erase hash
        mapMasternodeBlocks := t.mapMasternodeBlocks.erase winner.nBlockHeight }
    else t

/-- `CleanPaymentList`, with `nLimit` already computed from the masternode count. -/
def cleanPaymentList (nLimit nHeight : Int) (t : VoteTables) : VoteTables :=
  t.mapMasternodePayeeVotes.keys.foldl (cleanVote nLimit nHeight) t

/-- The tables that the two operations build from empty ones. -/
inductive Reach : VoteTables → Prop
  | init : Reach empty
  | vote {t : VoteTables} (indeterminate bestHeight : Int) (w : CMasternodePaymentWinner) :
      Reach t → Reach (t.addWinningMasternode indeterminate bestHeight w).2
  | clean {t : VoteTables} (nLimit nHeight : Int) :
      Reach t → Reach (t.cleanPaymentList nLimit nHeight)

end VoteTables

end Passion
