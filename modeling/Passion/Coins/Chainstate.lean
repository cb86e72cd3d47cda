import Passion.Lib.Prog
import Passion.Coins.SaplingDb

/-!
# The chainstate, and the commands that validation calls on a view

`Chainstate` is what a whole view stands for: the unspent coins, the Sapling state and the best
block. Validation is written as programs over `ViewCmd`, the functions of `CCoinsViewCache` it
calls, so that the same program runs on a cache (`CCoinsViewCache.handler`) and on a plain
chainstate (`Chainstate.handler`).

The plain handler refuses a call that breaks the contract of the function: `AddCoin` without
`possible_overwrite` where there is a coin, and a null hash as best block or best anchor, which
the cache reads as "not loaded".

**`CCoinsViewCache.simulates`**: a cache over a lawful view simulates the plain chainstate.
-/

namespace Passion

open Lib (Map Prog Handler Simulates)
open CCoinsView (getCoin getBestBlock getSaplingAnchorAt getNullifier getBestAnchor)
open LawfulSaplingView (sapling)
open LawfulCoinsView (coins)
open Coin
open Lib.WriteBack

@[ext] structure Chainstate where
  coins : COutPoint → Option Coin
  sapling : SaplingState
  bestBlock : UInt256

/-- How validation stops. `contract` is the refusal of the plain handler and is never the result
of a run on a cache. -/
inductive ChainError where
  | coins (e : CoinsError)
  | assertion (what : String)
  | exception (what : String)
  | invalid (reason : String)
  | contract
  deriving DecidableEq, Repr

inductive ViewCmd where
  | accessCoin (outpoint : COutPoint)
  | haveCoin (outpoint : COutPoint)
  | spendCoin (outpoint : COutPoint)
  | addCoin (outpoint : COutPoint) (coin : Coin) (possibleOverwrite : Bool)
  | getBestBlock
  | setBestBlock (hash : UInt256)
  | getBestAnchor
  | getSaplingAnchorAt (rt : UInt256)
  | getNullifier (nf : UInt256)
  | setNullifiers (tx : CTransaction) (spent : Bool)
  | pushAnchor (tree : SaplingMerkleTree)
  | popAnchor (rt : UInt256)

/-- The answer of a command. `SpendCoin` answers with what is in `moveout` afterwards, for a
`moveout` that is `Coin()` before. -/
@[reducible] def ViewCmd.Answer : ViewCmd → Type
  | accessCoin _ | spendCoin _ => Coin
  | haveCoin _ | getNullifier _ => Bool
  | getBestBlock | getBestAnchor => UInt256
  | getSaplingAnchorAt _ => Option SaplingMerkleTree
  | addCoin .. | setBestBlock _ | setNullifiers .. | pushAnchor _ | popAnchor _ => Unit

def ViewCmd.IsRead : ViewCmd → Prop
  | accessCoin _ | haveCoin _ | getBestBlock | getBestAnchor | getSaplingAnchorAt _
  | getNullifier _ =>
    True
  | _ => False

abbrev ViewM := Prog ViewCmd ViewCmd.Answer ChainError

section

variable [MerkleHash UInt256]

def CCoinsViewCache.handler {σ : Type} [CCoinsView σ] :
    Handler ViewCmd ViewCmd.Answer ChainError (CCoinsViewCache σ)
  | .accessCoin o, view => .ok (view.accessCoin o)
  | .haveCoin o, view => .ok (view.haveCoin o)
  | .spendCoin o, view => .ok ((view.spendCoin o).1.getD empty, (view.spendCoin o).2)
  | .addCoin o coin ow, view =>
    match view.addCoin o coin ow with
    | .error e => .error (.coins e)
    | .ok view => .ok ((), view)
  | .getBestBlock, view => .ok view.getBestBlock
  | .setBestBlock hash, view => .ok ((), view.setBestBlock hash)
  | .getBestAnchor, view => .ok view.getBestAnchor
  | .getSaplingAnchorAt rt, view => .ok (view.getSaplingAnchorAt rt)
  | .getNullifier nf, view => .ok (view.getNullifier nf)
  | .setNullifiers tx spent, view => .ok ((), view.setNullifiers tx spent)
  | .pushAnchor tree, view => .ok ((), view.pushAnchor tree)
  | .popAnchor rt, view =>
    match view.popAnchor rt with
    | .error e => .error (.coins e)
    | .ok view => .ok ((), view)

/-- `AddCoin` on a plain map of coins, with its contract. -/
def Chainstate.addCoin (st : Chainstate) (o : COutPoint) (coin : Coin) (ow : Bool) :
    Except ChainError Chainstate :=
  if coin.isSpent then .error (.coins .addSpentCoin)
  else if !ow && (st.coins o).isSome then .error .contract
  else .ok { st with coins := CCoinsViewCache.plainAdd st.coins o coin }

def Chainstate.handler : Handler ViewCmd ViewCmd.Answer ChainError Chainstate
  | .accessCoin o, st => .ok ((st.coins o).getD empty, st)
  | .haveCoin o, st => .ok ((st.coins o).isSome, st)
  | .spendCoin o, st =>
    .ok ((st.coins o).getD empty, { st with coins := Function.update st.coins o none })
  | .addCoin o coin ow, st => (st.addCoin o coin ow).map fun st => ((), st)
  | .getBestBlock, st => .ok (st.bestBlock, st)
  | .setBestBlock hash, st =>
    if hash = 0 then .error .contract else .ok ((), { st with bestBlock := hash })
  | .getBestAnchor, st => .ok (st.sapling.bestAnchor, st)
  | .getSaplingAnchorAt rt, st => .ok (st.sapling.anchors rt, st)
  | .getNullifier nf, st => .ok ((st.sapling.nullifiers nf).isSome, st)
  | .setNullifiers tx spent, st =>
    .ok ((), { st with sapling := CCoinsViewCache.setNullifiersSpec st.sapling tx spent })
  | .pushAnchor tree, st =>
    if SaplingMerkleTree.root tree = 0 then .error .contract
    else .ok ((), { st with sapling := st.sapling.push tree })
  | .popAnchor rt, st =>
    if rt = 0 then .error .contract
    else
      match st.sapling.pop rt with
      | none => .error (.coins .anchorNotFound)
      | some sapling => .ok ((), { st with sapling })

end

/-! ## Views whose parts do not disturb each other -/

/-- A view that stands for a chainstate: a query for one part leaves the other parts alone, and a
spent coin that `GetCoin` finds is the cleared one. -/
class LawfulView (σ : Type) [CCoinsView σ] [LawfulCoinsView σ] [LawfulSaplingView σ] where
  Inv : σ → Prop
  bestBlock : σ → UInt256
  inv_good : ∀ {s : σ}, Inv s → LawfulCoinsView.Good s ∧ LawfulSaplingView.Good s
  getCoin_kept : ∀ {s : σ} (o : COutPoint), Inv s → Inv (getCoin s o).2 ∧
    sapling (getCoin s o).2 = sapling s ∧
    bestBlock (getCoin s o).2 = bestBlock s
  getCoin_cleared : ∀ {s : σ} {o : COutPoint} {c : Coin}, Inv s →
    (getCoin s o).1 = some c → c.isSpent = true → c = empty
  getBestBlock_spec : ∀ {s : σ}, Inv s → Inv (getBestBlock s).2 ∧
    coins (getBestBlock s).2 = coins s ∧
    sapling (getBestBlock s).2 = sapling s ∧
    bestBlock (getBestBlock s).2 = bestBlock s ∧
    (getBestBlock s).1 = bestBlock s
  getSaplingAnchorAt_kept : ∀ {s : σ} (rt : UInt256), Inv s →
    Inv (getSaplingAnchorAt s rt).2 ∧
    coins (getSaplingAnchorAt s rt).2 = coins s ∧
    bestBlock (getSaplingAnchorAt s rt).2 = bestBlock s
  getNullifier_kept : ∀ {s : σ} (nf : UInt256), Inv s →
    Inv (getNullifier s nf).2 ∧
    coins (getNullifier s nf).2 = coins s ∧
    bestBlock (getNullifier s nf).2 = bestBlock s
  getBestAnchor_kept : ∀ {s : σ}, Inv s → Inv (getBestAnchor s).2 ∧
    coins (getBestAnchor s).2 = coins s ∧
    bestBlock (getBestAnchor s).2 = bestBlock s

open LawfulView

open CCoinsViewCache

namespace CCoinsViewCache

variable {σ : Type} [CCoinsView σ] [LawfulCoinsView σ] [LawfulSaplingView σ] [LawfulView σ]

def Cleared (m : CCoinsMap) : Prop :=
  ∀ o e, m.lookup o = some e → e.coin.isSpent = true → e.coin = empty

/-- What every function of a cache keeps: the flags of its three maps tell the truth about the
base, and its spent coins are cleared. -/
structure Inv (view : CCoinsViewCache σ) : Prop where
  base : LawfulView.Inv view.base
  coins : Sound view.cacheCoins (LawfulCoinsView.coins view.base)
  sapling : view.toBatch.SaplingSound (LawfulSaplingView.sapling view.base)
  cleared : Cleared view.cacheCoins

def bestBlock (view : CCoinsViewCache σ) : UInt256 :=
  if view.hashBlock = 0 then LawfulView.bestBlock view.base else view.hashBlock

def chainstate (view : CCoinsViewCache σ) : Chainstate :=
  ⟨view.coins, view.sapling, view.bestBlock⟩

theorem cleared_put {m : CCoinsMap} {o : COutPoint} {p : Option CCoinsCacheEntry}
    (hm : Cleared m) (hp : ∀ e, p = some e → e.coin.isSpent = true → e.coin = empty) :
    Cleared (Map.put m o p) := by
  intro o' e he hspent
  by_cases ho : o' = o
  · subst ho
    exact hp e ((Map.lookup_put_self _ _ _).symm.trans he) hspent
  · exact hm o' e ((Map.lookup_put_ne _ _ ho).symm.trans he) hspent

variable {view : CCoinsViewCache σ}

theorem Inv.good (hview : view.Inv) : view.Good :=
  ⟨(inv_good hview.base).1, hview.coins⟩

theorem Inv.saplingGood (hview : view.Inv) : view.SaplingGood :=
  ⟨(inv_good hview.base).2, hview.sapling⟩

theorem inv_new {b : σ} (hb : LawfulView.Inv b) : (new b).Inv where
  base := hb
  coins := sound_empty _
  sapling := ⟨sound_empty _, sound_empty _⟩
  cleared := by
    intro o e he
    simp [new] at he

theorem eq_getD_of_unspent? {c : Coin} {r : Option Coin}
    (hcleared : c.isSpent = true → c = empty) (hc : c.unspent? = r) :
    c = r.getD empty := by
  subst hc
  cases hs : c.isSpent with
  | true => rw [hcleared hs]; rfl
  | false => rw [unspent?_of_not_isSpent hs]; rfl

section

variable (hview : view.Inv)

include hview

theorem inv_base {b : σ} (hb : LawfulView.Inv b)
    (hcoins : LawfulCoinsView.coins b = LawfulCoinsView.coins view.base)
    (hsapling : LawfulSaplingView.sapling b = LawfulSaplingView.sapling view.base)
    (hblock : LawfulView.bestBlock b = LawfulView.bestBlock view.base) :
    Inv { view with base := b } ∧ chainstate { view with base := b } = view.chainstate := by
  refine ⟨⟨hb, ?_, ?_, hview.cleared⟩, Chainstate.ext ?_ ?_ ?_⟩
  · show Sound view.cacheCoins (LawfulCoinsView.coins b)
    rw [hcoins]
    exact hview.coins
  · show view.toBatch.SaplingSound (LawfulSaplingView.sapling b)
    rw [hsapling]
    exact hview.sapling
  · show overlay view.cacheCoins (LawfulCoinsView.coins b) = _
    rw [hcoins]
    rfl
  · show (LawfulSaplingView.sapling b).write view.toBatch = _
    rw [hsapling]
    rfl
  · show (if view.hashBlock = 0 then LawfulView.bestBlock b else view.hashBlock) = _
    rw [hblock]
    rfl

theorem inv_putCoin {o : COutPoint} {p : Option CCoinsCacheEntry}
    (hp : Faithful p (LawfulCoinsView.coins view.base o))
    (hcleared : ∀ e, p = some e → e.coin.isSpent = true → e.coin = empty) :
    Inv { view with cacheCoins := Map.put view.cacheCoins o p } where
  base := hview.base
  coins := sound_put hview.coins hp
  sapling := hview.sapling
  cleared := cleared_put hview.cleared hcleared

/-! ## Coins -/

/-- `FetchCoin` keeps the chainstate, and a spent coin that it finds is cleared. -/
theorem fetchCoin_inv (o : COutPoint) :
    (view.fetchCoin o).2.Inv ∧ (view.fetchCoin o).2.chainstate = view.chainstate ∧
      ∀ e, (view.fetchCoin o).1 = some e → e.coin.isSpent = true → e.coin = empty := by
  have hcoins := (fetchCoin_spec hview.good o).2.1
  unfold fetchCoin at hcoins ⊢
  cases hit : view.cacheCoins.lookup o with
  | some it =>
    refine ⟨hview, rfl, ?_⟩
    rintro e he
    cases he
    exact hview.cleared o it hit
  | none =>
    obtain ⟨hinv, hsapling, hblock⟩ := getCoin_kept o hview.base
    obtain ⟨-, hbcoins, hshown⟩ := LawfulCoinsView.getCoin_spec o (inv_good hview.base).1
    have hempty : ∀ c, (CCoinsView.getCoin view.base o).1 = some c → c.isSpent = true →
        c = empty := fun c hc => getCoin_cleared hview.base hc
    rw [hit] at hcoins
    cases hget : CCoinsView.getCoin view.base o with
    | mk r b =>
      rw [hget] at hinv hsapling hblock hbcoins hshown hempty hcoins
      obtain ⟨hinv', hstate⟩ := inv_base hview hinv hbcoins hsapling hblock
      cases r with
      | none => exact ⟨hinv', hstate, nofun⟩
      | some tmp =>
        have htmp : tmp.unspent? = LawfulCoinsView.coins b o := by
          rw [show LawfulCoinsView.coins b = _ from hbcoins]
          simpa using hshown
        refine ⟨inv_putCoin hinv' (faithful_coin.2
          ⟨fun h => htmp.symm.trans (unspent?_of_isSpent h), fun _ => htmp⟩) ?_, ?_, ?_⟩
        · rintro e he
          cases he
          exact hempty tmp rfl
        · have hs := congrArg Chainstate.sapling hstate
          have hb := congrArg Chainstate.bestBlock hstate
          exact Chainstate.ext hcoins hs hb
        · rintro e he
          cases he
          exact hempty tmp rfl

theorem accessCoin_inv (o : COutPoint) :
    (view.accessCoin o).2.Inv ∧ (view.accessCoin o).2.chainstate = view.chainstate ∧
      (view.accessCoin o).1 = (view.coins o).getD empty := by
  obtain ⟨hinv, hstate, hcleared⟩ := fetchCoin_inv hview o
  have hanswer := (accessCoin_spec hview.good o).2.2
  unfold accessCoin at hanswer ⊢
  rcases hf : view.fetchCoin o with ⟨_ | it, view'⟩ <;> rw [hf] at hinv hstate hcleared hanswer
  · exact ⟨hinv, hstate, eq_getD_of_unspent? (fun _ => rfl) hanswer⟩
  · exact ⟨hinv, hstate, eq_getD_of_unspent? (hcleared it rfl) hanswer⟩

theorem haveCoin_inv (o : COutPoint) :
    (view.haveCoin o).2.Inv ∧ (view.haveCoin o).2.chainstate = view.chainstate := by
  obtain ⟨hinv, hstate, -⟩ := fetchCoin_inv hview o
  unfold haveCoin
  rcases hf : view.fetchCoin o with ⟨_ | it, view'⟩ <;> rw [hf] at hinv hstate <;>
    exact ⟨hinv, hstate⟩

theorem spendCoin_inv (o : COutPoint) : (view.spendCoin o).2.Inv ∧
      (view.spendCoin o).2.chainstate =
        { view.chainstate with coins := Function.update view.coins o none } ∧
      (view.spendCoin o).1.getD empty = (view.coins o).getD empty := by
  obtain ⟨hinv, hstate, hcleared⟩ := fetchCoin_inv hview o
  obtain ⟨-, hcoins, hanswer⟩ := spendCoin_spec hview.good o
  have hlookup := (fetchCoin_spec hview.good o).2.2.1
  have hs := congrArg Chainstate.sapling hstate
  have hb := congrArg Chainstate.bestBlock hstate
  unfold spendCoin at hcoins hanswer ⊢
  rcases hf : view.fetchCoin o with ⟨_ | it, view'⟩ <;>
    rw [hf] at hinv hs hb hcleared hcoins hanswer hlookup
  · refine ⟨hinv, Chainstate.ext hcoins hs hb, ?_⟩
    rw [← show none = view.coins o from hanswer]
  · obtain ⟨hfr, -⟩ := faithful_coin.1 (hlookup ▸ hinv.coins o)
    have hit : it.coin = (view.coins o).getD empty := by
      refine eq_getD_of_unspent? (hcleared it rfl) ?_
      cases hfresh : it.fresh <;> simpa [hfresh] using hanswer
    cases hfresh : it.fresh with
    | true =>
      simp only [hfresh] at hcoins ⊢
      exact ⟨inv_putCoin hinv (faithful_none _) nofun,
        Chainstate.ext hcoins hs hb, hit⟩
    | false =>
      simp only [hfresh] at hcoins ⊢
      refine ⟨inv_putCoin hinv (faithful_coin.2 ⟨?_, ?_⟩) ?_,
        Chainstate.ext hcoins hs hb, hit⟩
      · simp
      · simp
      · rintro e he -
        cases he
        rfl

theorem addCoin_inv {o : COutPoint} {coin : Coin} {ow : Bool} {st : Chainstate}
    (hadd : view.chainstate.addCoin o coin ow = .ok st) :
    ∃ view', view.addCoin o coin ow = .ok view' ∧ view'.Inv ∧ view'.chainstate = st := by
  unfold Chainstate.addCoin at hadd
  cases hspent : coin.isSpent with
  | true => simp [hspent] at hadd
  | false =>
    simp only [hspent, Bool.false_eq_true, if_false] at hadd
    split_ifs at hadd with hold
    cases hadd
    have hnew : ow = false → view.coins o = none := by
      intro how
      simpa [how, chainstate] using hold
    obtain ⟨view', hok, hgood, hcoins, m, rfl⟩ := addCoin_spec hview.good hspent hnew
    refine ⟨_, hok, ⟨hview.base, hgood.2, hview.sapling, ?_⟩, Chainstate.ext hcoins rfl rfl⟩
    -- the map is the old one, or has the new coin, which is unspent
    unfold addCoin at hok
    simp only [hspent, Bool.false_eq_true, if_false] at hok
    split_ifs at hok with hun hmint hbad
    · have hm : view.cacheCoins = m := congrArg cacheCoins (Except.ok.inj hok)
      exact hm ▸ hview.cleared
    · have hm : view.cacheCoins = m := congrArg cacheCoins (Except.ok.inj hok)
      exact hm ▸ hview.cleared
    · have hm : Map.put view.cacheCoins o (some _) = m :=
        congrArg cacheCoins (Except.ok.inj hok)
      refine hm ▸ cleared_put hview.cleared ?_
      rintro e he hs
      cases he
      exact absurd hs (by simp [hspent])

/-! ## The best block -/

theorem getBestBlock_inv :
    view.getBestBlock.2.Inv ∧ view.getBestBlock.2.chainstate = view.chainstate ∧
      view.getBestBlock.1 = view.bestBlock := by
  unfold getBestBlock
  split_ifs with hnull
  · obtain ⟨hinv, hcoins, hsapling, hblock, hanswer⟩ := getBestBlock_spec hview.base
    cases hget : CCoinsView.getBestBlock view.base with
    | mk hash b =>
      rw [hget] at hinv hcoins hsapling hblock hanswer
      obtain ⟨hinv', hstate⟩ := inv_base hview hinv hcoins hsapling hblock
      have hshown : view.bestBlock = LawfulView.bestBlock view.base := if_pos hnull
      have hc := congrArg Chainstate.coins hstate
      have hs := congrArg Chainstate.sapling hstate
      refine ⟨{ hinv' with }, Chainstate.ext hc hs ?_, hanswer.trans hshown.symm⟩
      -- loading the hash shows what was shown through the null hash
      show (if hash = 0 then LawfulView.bestBlock b else hash) = view.bestBlock
      rw [hshown, show LawfulView.bestBlock b = _ from hblock, show hash = _ from hanswer]
      exact ite_self _
  · exact ⟨hview, rfl, (if_neg hnull).symm⟩

theorem setBestBlock_inv {hash : UInt256} (hhash : hash ≠ 0) : (view.setBestBlock hash).Inv ∧
      (view.setBestBlock hash).chainstate = { view.chainstate with bestBlock := hash } :=
  ⟨{ hview with }, Chainstate.ext rfl rfl (if_neg hhash)⟩

end

/-! ## Anchors and nullifiers -/

/-- From `view` to `view'` only the Sapling part was touched. -/
structure SaplingOnly (view view' : CCoinsViewCache σ) : Prop where
  hashBlock : view'.hashBlock = view.hashBlock
  cacheCoins : view'.cacheCoins = view.cacheCoins
  inv : LawfulView.Inv view'.base
  coins : LawfulCoinsView.coins view'.base = LawfulCoinsView.coins view.base
  bestBlock : LawfulView.bestBlock view'.base = LawfulView.bestBlock view.base

theorem SaplingOnly.refl (hbase : LawfulView.Inv view.base) : SaplingOnly view view :=
  ⟨rfl, rfl, hbase, rfl, rfl⟩

variable {view' : CCoinsViewCache σ}

theorem SaplingOnly.trans {view'' : CCoinsViewCache σ} (h : SaplingOnly view view')
    (h' : SaplingOnly view' view'') : SaplingOnly view view'' where
  hashBlock := h'.hashBlock.trans h.hashBlock
  cacheCoins := h'.cacheCoins.trans h.cacheCoins
  inv := h'.inv
  coins := h'.coins.trans h.coins
  bestBlock := h'.bestBlock.trans h.bestBlock

/-- The invariant and the chainstate after such a step, from what the Sapling part says. -/
theorem SaplingOnly.spec (hview : view.Inv) {st : SaplingState} (h : SaplingOnly view view')
    (hgood : view'.SaplingGood) (hst : view'.sapling = st) :
    view'.Inv ∧ view'.chainstate = { view.chainstate with sapling := st } := by
  refine ⟨⟨h.inv, ?_, hgood.2, ?_⟩, Chainstate.ext ?_ hst ?_⟩
  · rw [h.cacheCoins, h.coins]
    exact hview.coins
  · rw [h.cacheCoins]
    exact hview.cleared
  · show overlay view'.cacheCoins (LawfulCoinsView.coins view'.base) = _
    rw [h.cacheCoins, h.coins]
    rfl
  · show (if view'.hashBlock = 0 then LawfulView.bestBlock view'.base else view'.hashBlock) = _
    rw [h.hashBlock, h.bestBlock]
    rfl

theorem SaplingOnly.kept (hview : view.Inv) (h : SaplingOnly view view')
    (hgood : view'.SaplingGood) (hsame : view'.sapling = view.sapling) :
    view'.Inv ∧ view'.coins = view.coins ∧ view'.bestBlock = view.bestBlock := by
  obtain ⟨hinv, hstate⟩ := h.spec hview hgood hsame
  exact ⟨hinv, congrArg Chainstate.coins hstate, congrArg Chainstate.bestBlock hstate⟩

open SaplingOnly

section

variable (hbase : LawfulView.Inv view.base)

include hbase

theorem saplingOnly_getBestAnchor : SaplingOnly view view.getBestAnchor.2 := by
  unfold getBestAnchor
  split_ifs with hnull
  · obtain ⟨hinv, hcoins, hblock⟩ := getBestAnchor_kept hbase
    exact ⟨rfl, rfl, hinv, hcoins, hblock⟩
  · exact refl hbase

theorem saplingOnly_getSaplingAnchorAt (rt : UInt256) :
    SaplingOnly view (view.getSaplingAnchorAt rt).2 := by
  unfold getSaplingAnchorAt
  cases view.cacheSaplingAnchors.lookup rt with
  | some it => exact refl hbase
  | none =>
    obtain ⟨hinv, hcoins, hblock⟩ := getSaplingAnchorAt_kept rt hbase
    cases hget : CCoinsView.getSaplingAnchorAt view.base rt with
    | mk r b =>
      rw [hget] at hinv hcoins hblock
      cases r <;> exact ⟨rfl, rfl, hinv, hcoins, hblock⟩

theorem saplingOnly_getNullifier (nf : UInt256) : SaplingOnly view (view.getNullifier nf).2 := by
  unfold getNullifier
  cases view.cacheSaplingNullifiers.lookup nf with
  | some it => exact refl hbase
  | none =>
    obtain ⟨hinv, hcoins, hblock⟩ := getNullifier_kept nf hbase
    exact ⟨rfl, rfl, hinv, hcoins, hblock⟩

theorem saplingOnly_setNullifiers (tx : CTransaction) (spent : Bool) :
    SaplingOnly view (view.setNullifiers tx spent) := by
  unfold setNullifiers
  cases tx.sapData with
  | none => exact refl hbase
  | some d =>
    -- each round only writes an entry
    have hloop : ∀ (l : List SpendDescription) v, SaplingOnly view v →
        SaplingOnly view (l.foldl (fun v s => v.setNullifier spent s.nullifier) v) := by
      intro l
      induction l with
      | nil => exact fun v hv => hv
      | cons s l ih =>
        exact fun v hv => ih _ { hv with }
    exact hloop d.vShieldedSpend view (refl hbase)

theorem saplingOnly_popAnchor {rt : UInt256} (hpop : view.popAnchor rt = .ok view') :
    SaplingOnly view view' := by
  have hbest := saplingOnly_getBestAnchor hbase
  unfold popAnchor at hpop
  cases hget : view.getBestAnchor with
  | mk currentRoot view1 =>
    rw [hget] at hbest hpop
    dsimp only at hpop
    split_ifs at hpop with hcur
    · have hat := saplingOnly_getSaplingAnchorAt hbest.inv currentRoot
      cases hr : view1.getSaplingAnchorAt currentRoot with
      | mk r view2 =>
        rw [show (currentRoot, view1).2.getSaplingAnchorAt currentRoot = _ from hr] at hat
        rw [hr] at hpop
        cases r with
        | none => cases hpop
        | some tree =>
          cases hpop
          exact { hbest.trans hat with }
    · cases hpop
      exact hbest

theorem saplingOnly_pushAnchor [MerkleHash UInt256] (tree : SaplingMerkleTree) :
    SaplingOnly view (view.pushAnchor tree) := by
  have hbest := saplingOnly_getBestAnchor hbase
  unfold pushAnchor
  cases hget : view.getBestAnchor with
  | mk currentRoot view' =>
    rw [hget] at hbest
    dsimp only
    split_ifs
    · exact { hbest with }
    · exact hbest

end

variable [MerkleHash UInt256]

/-! ## The simulation -/

def Represents (view : CCoinsViewCache σ) (st : Chainstate) : Prop :=
  view.Inv ∧ view.chainstate = st

open Lib.Simulates in
/-- **A cache over a lawful view simulates a plain chainstate**, as long as no contract is
broken. -/
theorem simulates : Simulates (Represents : CCoinsViewCache σ → Chainstate → Prop) (· = .contract)
      handler Chainstate.handler := by
  rintro c view st ⟨hview, rfl⟩
  change Follows Represents (· = ChainError.contract) (handler c view) _
  cases c with
  | accessCoin o =>
    obtain ⟨hinv, hstate, hanswer⟩ := accessCoin_inv hview o
    exact follows_answer hanswer ⟨hinv, hstate⟩
  | haveCoin o =>
    obtain ⟨hinv, hstate⟩ := haveCoin_inv hview o
    exact follows_answer (haveCoin_spec hview.good o).2.2 ⟨hinv, hstate⟩
  | spendCoin o =>
    obtain ⟨hinv, hstate, hanswer⟩ := spendCoin_inv hview o
    exact follows_answer hanswer ⟨hinv, hstate⟩
  | addCoin o coin ow =>
    simp only [Chainstate.handler, handler]
    cases hadd : view.chainstate.addCoin o coin ow with
    | error e =>
      refine follows_error fun hgood => ?_
      unfold Chainstate.addCoin at hadd
      split_ifs at hadd with hspent hold
      · cases hadd
        simp [addCoin, hspent]
      · cases hadd
        exact absurd rfl hgood
    | ok st =>
      obtain ⟨view', hok, hinv, hstate⟩ := addCoin_inv hview hadd
      exact follows_ok (by rw [hok]) ⟨hinv, hstate⟩
  | getBestBlock =>
    obtain ⟨hinv, hstate, hanswer⟩ := getBestBlock_inv hview
    exact follows_answer hanswer ⟨hinv, hstate⟩
  | setBestBlock hash =>
    simp only [Chainstate.handler]
    split_ifs with hnull
    · exact follows_error fun hgood => absurd rfl hgood
    · exact follows_ok rfl (setBestBlock_inv hview hnull)
  | getBestAnchor =>
    obtain ⟨hgood, hsame, hanswer⟩ := getBestAnchor_spec hview.saplingGood
    exact follows_answer hanswer ((saplingOnly_getBestAnchor hview.base).spec hview hgood hsame)
  | getSaplingAnchorAt rt =>
    obtain ⟨hgood, hsame, hanswer⟩ := getSaplingAnchorAt_spec hview.saplingGood rt
    exact follows_answer hanswer
      ((saplingOnly_getSaplingAnchorAt hview.base rt).spec hview hgood hsame)
  | getNullifier nf =>
    obtain ⟨hgood, hsame, hanswer⟩ := getNullifier_spec hview.saplingGood nf
    exact follows_answer hanswer ((saplingOnly_getNullifier hview.base nf).spec hview hgood hsame)
  | setNullifiers tx spent =>
    obtain ⟨hgood, hst⟩ := setNullifiers_spec hview.saplingGood tx spent
    exact follows_ok rfl ((saplingOnly_setNullifiers hview.base tx spent).spec hview hgood hst)
  | pushAnchor tree =>
    simp only [Chainstate.handler]
    split_ifs with hnull
    · exact follows_error fun hgood => absurd rfl hgood
    · obtain ⟨hgood, hst⟩ := pushAnchor_spec hview.saplingGood tree
      exact follows_ok rfl ((saplingOnly_pushAnchor hview.base tree).spec hview hgood (hst hnull))
  | popAnchor rt =>
    simp only [Chainstate.handler, handler]
    obtain ⟨hnone, hsome⟩ := popAnchor_spec hview.saplingGood rt
    split_ifs with hnull
    · exact follows_error fun hgood => absurd rfl hgood
    · cases hpop : view.chainstate.sapling.pop rt with
      | none =>
        refine follows_error fun _ => ?_
        rw [hnone hpop]
      | some sapling =>
        obtain ⟨view', hok, hgood, hst⟩ := hsome sapling hpop
        exact follows_ok (by rw [hok])
          ((saplingOnly_popAnchor hview.base hok).spec hview hgood (hst hnull))

/-- A cache over a lawful view is one again. -/
instance : LawfulView (CCoinsViewCache σ) where
  Inv := Inv
  bestBlock := bestBlock
  inv_good hs := ⟨hs.good, hs.saplingGood⟩
  getCoin_kept := by
    intro view o hview
    obtain ⟨hinv, hstate, -⟩ := fetchCoin_inv hview o
    have hs := congrArg Chainstate.sapling hstate
    have hb := congrArg Chainstate.bestBlock hstate
    show Inv (view.getCoin o).2 ∧ (view.getCoin o).2.sapling = _ ∧ (view.getCoin o).2.bestBlock = _
    unfold getCoin
    rcases hf : view.fetchCoin o with ⟨_ | it, view'⟩ <;> rw [hf] at hinv hs hb <;>
      exact ⟨hinv, hs, hb⟩
  getCoin_cleared := by
    intro view o c hview hc
    have hcleared := (fetchCoin_inv hview o).2.2
    change (view.getCoin o).1 = some c at hc
    unfold getCoin at hc
    rcases hf : view.fetchCoin o with ⟨_ | it, view'⟩ <;> rw [hf] at hc hcleared
    · cases hc
    · cases hc
      exact hcleared it rfl
  getBestBlock_spec := by
    intro view hview
    obtain ⟨hinv, hstate, hanswer⟩ := getBestBlock_inv hview
    exact ⟨hinv, congrArg Chainstate.coins hstate, congrArg Chainstate.sapling hstate,
      congrArg Chainstate.bestBlock hstate, hanswer⟩
  getSaplingAnchorAt_kept := by
    intro view rt hview
    obtain ⟨hgood, hsame, -⟩ := getSaplingAnchorAt_spec hview.saplingGood rt
    exact (saplingOnly_getSaplingAnchorAt hview.base rt).kept hview hgood hsame
  getNullifier_kept := by
    intro view nf hview
    obtain ⟨hgood, hsame, -⟩ := getNullifier_spec hview.saplingGood nf
    exact (saplingOnly_getNullifier hview.base nf).kept hview hgood hsame
  getBestAnchor_kept := by
    intro view hview
    obtain ⟨hgood, hsame, -⟩ := getBestAnchor_spec hview.saplingGood
    exact (saplingOnly_getBestAnchor hview.base).kept hview hgood hsame

end CCoinsViewCache

/-- The database: its queries change nothing, and it stores no spent coin. -/
instance [MerkleHash UInt256] : LawfulView CCoinsViewDB where
  Inv := LawfulCoinsView.Good
  bestBlock := CCoinsViewDB.getBestBlock
  inv_good hs := ⟨hs, trivial⟩
  getCoin_kept _ hs := ⟨hs, rfl, rfl⟩
  getCoin_cleared := by
    intro db o c hdb hc hspent
    exact absurd (hdb o c hc) (by simp [hspent])
  getBestBlock_spec hs := ⟨hs, rfl, rfl, rfl, rfl⟩
  getSaplingAnchorAt_kept _ hs := ⟨hs, rfl, rfl⟩
  getNullifier_kept _ hs := ⟨hs, rfl, rfl⟩
  getBestAnchor_kept hs := ⟨hs, rfl, rfl⟩

end Passion
