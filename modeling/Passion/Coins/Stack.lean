import Passion.Coins.Db

/-!
# Operations on any layer of a stack of caches

`CoinsStack σ n` is a stack of `n` caches over a view of type `σ`. A `LayerOp` calls one of the
functions of `CCoinsViewCache` on one of its layers. The contract of the callers is `Legal`:
`AddCoin` gets an unspent coin and passes `possible_overwrite = false` only where the layer's
view has no coin, and a layer is changed only while the caches above it are empty, that is, after
they were flushed.

**`coinsStack_refines_plain_map`**: along every legal run the stack answers as one plain map
does.
-/

namespace Passion

open Lib (Map)
open LawfulCoinsView
open Lib.WriteBack

/-- `n` caches over a view of type `σ`. -/
def CoinsStack (σ : Type) : Nat → Type
  | 0 => σ
  | n + 1 => CCoinsViewCache (CoinsStack σ n)

namespace CoinsStack

variable {σ : Type}

instance instCCoinsView [CCoinsView σ] : (n : Nat) → CCoinsView (CoinsStack σ n)
  | 0 => inferInstanceAs (CCoinsView σ)
  | n + 1 =>
    letI := instCCoinsView n
    inferInstanceAs (CCoinsView (CCoinsViewCache (CoinsStack σ n)))

instance instLawful [CCoinsView σ] [LawfulCoinsView σ] :
    (n : Nat) → LawfulCoinsView (CoinsStack σ n)
  | 0 => inferInstanceAs (LawfulCoinsView σ)
  | n + 1 =>
    letI := instLawful n
    inferInstanceAs (LawfulCoinsView (CCoinsViewCache (CoinsStack σ n)))

def new (b : σ) : (n : Nat) → CoinsStack σ n
  | 0 => b
  | n + 1 => CCoinsViewCache.new (new b n)

end CoinsStack

/-! ## Operations -/

inductive CoinsOp where
  | addCoin (outpoint : COutPoint) (coin : Coin) (possibleOverwrite : Bool)
  | spendCoin (outpoint : COutPoint)
  | getCoin (outpoint : COutPoint)
  | accessCoin (outpoint : COutPoint)
  | haveCoin (outpoint : COutPoint)
  | uncache (outpoint : COutPoint)
  | flush

/-- What an operation returns, through its result or its out-parameter. -/
inductive CoinsAnswer where
  | none
  | found (coin : Option Coin)
  | coin (coin : Coin)
  | bool (b : Bool)
  deriving DecidableEq

namespace CoinsOp

/-- `AddCoin` and `SpendCoin` change the coins; the others only move them around. -/
def modifies : CoinsOp → Bool
  | addCoin .. | spendCoin .. => true
  | _ => false

def plain (m : COutPoint → Option Coin) : CoinsOp → COutPoint → Option Coin
  | addCoin outpoint coin _ => CCoinsViewCache.plainAdd m outpoint coin
  | spendCoin outpoint => Function.update m outpoint .none
  | _ => m

theorem plain_of_not_modifies (op : CoinsOp) (h : op.modifies = false)
    (m : COutPoint → Option Coin) : op.plain m = m := by
  cases op <;> first | rfl | cases h

end CoinsOp

namespace CCoinsViewCache

variable {σ : Type} [CCoinsView σ]

def exec (view : CCoinsViewCache σ) : CoinsOp → Except CoinsError (CoinsAnswer × CCoinsViewCache σ)
  | .addCoin outpoint coin possibleOverwrite =>
    (view.addCoin outpoint coin possibleOverwrite).map fun view => (.none, view)
  | .spendCoin outpoint => .ok ((view.spendCoin outpoint).map .found id)
  | .getCoin outpoint => .ok ((view.getCoin outpoint).map .found id)
  | .accessCoin outpoint => .ok ((view.accessCoin outpoint).map .coin id)
  | .haveCoin outpoint => .ok ((view.haveCoin outpoint).map .bool id)
  | .uncache outpoint => .ok (.none, view.uncache outpoint)
  | .flush => view.flush.map fun r => r.map .bool id

/-- The contract of `AddCoin`; the other functions have none. -/
def Legal (view : CCoinsViewCache σ) : CoinsOp → Prop
  | .addCoin outpoint coin possibleOverwrite =>
    coin.isSpent = false ∧ (possibleOverwrite = false → (view.haveCoin outpoint).1 = false)
  | _ => True

variable [LawfulCoinsView σ] {view : CCoinsViewCache σ} {op : CoinsOp}

/-- What one step must give: the effect on the map, no misapplied `FRESH`, and no failure unless
it is a flush. -/
def ExecSpec (view : CCoinsViewCache σ) (op : CoinsOp) : Prop :=
  (∀ a view', view.exec op = .ok (a, view') → (op = .flush → a = .bool true) →
    view'.Good ∧ view'.coins = op.plain view.coins) ∧
  view.exec op ≠ .error .freshMisapplied ∧
  (op ≠ .flush → ∃ r, view.exec op = .ok r)

theorem execSpec_of_ok {a : CoinsAnswer} {view' : CCoinsViewCache σ}
    (hexec : view.exec op = .ok (a, view')) (hgood : view'.Good)
    (hcoins : view'.coins = op.plain view.coins) : view.ExecSpec op := by
  refine ⟨fun a' v h _ => ?_, by simp [hexec], fun _ => ⟨_, hexec⟩⟩
  obtain ⟨rfl, rfl⟩ : a = a' ∧ view' = v := by simpa using hexec.symm.trans h
  exact ⟨hgood, hcoins⟩

/-- **One step.** A legal operation on a good cache acts on its map as on a plain one; only a
flush can fail, and never because of a misapplied `FRESH`. -/
theorem exec_spec (hview : view.Good) (hlegal : view.Legal op) : view.ExecSpec op := by
  cases op with
  | addCoin outpoint coin possibleOverwrite =>
    obtain ⟨hcoin, hnew⟩ := hlegal
    have hnone : possibleOverwrite = false → view.coins outpoint = none := by
      intro h
      have hhave := (haveCoin_spec hview outpoint).2.2
      rw [hnew h] at hhave
      exact Option.not_isSome_iff_eq_none.1 (by simp [← hhave])
    obtain ⟨view', hadd, hgood, hcoins, -⟩ := addCoin_spec hview hcoin hnone
    exact execSpec_of_ok (a := .none) (by simp [exec, hadd, Except.map]) hgood hcoins
  | spendCoin outpoint =>
    obtain ⟨hgood, hcoins, -⟩ := spendCoin_spec hview outpoint
    exact execSpec_of_ok rfl hgood hcoins
  | getCoin outpoint =>
    obtain ⟨hgood, hcoins, -⟩ := getCoin_spec hview outpoint
    exact execSpec_of_ok rfl hgood hcoins
  | accessCoin outpoint =>
    obtain ⟨hgood, hcoins, -⟩ := accessCoin_spec hview outpoint
    exact execSpec_of_ok rfl hgood hcoins
  | haveCoin outpoint =>
    obtain ⟨hgood, hcoins, -⟩ := haveCoin_spec hview outpoint
    exact execSpec_of_ok rfl hgood hcoins
  | uncache outpoint =>
    obtain ⟨hgood, hcoins⟩ := uncache_spec hview outpoint
    exact execSpec_of_ok rfl hgood hcoins
  | flush =>
    obtain ⟨hne, htrue⟩ := flush_spec hview
    cases hf : view.flush with
    | error e =>
      exact ⟨by simp [exec, hf, Except.map], by simpa [exec, hf, Except.map] using hne,
        fun h => absurd rfl h⟩
    | ok r =>
      obtain ⟨fOk, v⟩ := r
      refine ⟨fun a v' h ha => ?_, by simp [exec, hf, Except.map], fun h => absurd rfl h⟩
      obtain ⟨rfl, rfl⟩ : .bool fOk = a ∧ v = v' := by simpa [exec, hf, Except.map] using h
      obtain rfl : fOk = true := by simpa using ha rfl
      obtain ⟨hgood, hcoins, -⟩ := htrue v hf
      exact ⟨hgood, hcoins⟩

end CCoinsViewCache

/-! ## Layers -/

/-- An operation, of a type `O`, on one of the layers of a stack of `n` caches. -/
inductive LayerOp (O : Type) : Nat → Type where
  | top {n : Nat} (op : O) : LayerOp O (n + 1)
  | lower {n : Nat} (op : LayerOp O n) : LayerOp O (n + 1)

namespace LayerOp

variable {O A σ : Type} [CCoinsView σ]

def toOp : {n : Nat} → LayerOp O n → O
  | _, top op => op
  | _, lower op => op.toOp

@[simp] theorem toOp_lower {n : Nat} (op : LayerOp O n) : (lower op).toOp = op.toOp := rfl

/-- Run an operation on its layer, given what it does on a cache over any view. -/
def applyWith (exec : ∀ {τ : Type} [CCoinsView τ], CCoinsViewCache τ → O →
    Except CoinsError (A × CCoinsViewCache τ)) :
    {n : Nat} → LayerOp O n → CoinsStack σ n → Except CoinsError (A × CoinsStack σ n)
  | _ + 1, top op, s => exec s op
  | _ + 1, lower op, s =>
    (op.applyWith exec s.base).map fun r => (r.1, { s with base := r.2 })

def apply {n : Nat} (op : LayerOp CoinsOp n) (s : CoinsStack σ n) :
    Except CoinsError (CoinsAnswer × CoinsStack σ n) :=
  op.applyWith CCoinsViewCache.exec s

theorem apply_lower {n : Nat} (op : LayerOp CoinsOp n) (s : CoinsStack σ (n + 1)) :
    (lower op).apply s = (op.apply s.base).map fun r =>
      ((r.1, { s with base := r.2 }) : CoinsAnswer × CCoinsViewCache (CoinsStack σ n)) := rfl

/-- The contract of the callers: that of the function, and a layer is changed only while the
caches above it hold no entry. -/
def Legal : {n : Nat} → LayerOp CoinsOp n → CoinsStack σ n → Prop
  | _ + 1, top op, s => CCoinsViewCache.Legal s op
  | _ + 1, lower op, s => (op.toOp.modifies = true → s.cacheCoins = ∅) ∧ op.Legal s.base

end LayerOp

namespace CoinsStack

variable {σ : Type} [CCoinsView σ]

/-- The states of the stack along a legal run, each with the plain map that made the same
changes. A run ends where a flush fails. -/
inductive Reach {n : Nat} (s₀ : CoinsStack σ n) (m₀ : COutPoint → Option Coin) :
    CoinsStack σ n → (COutPoint → Option Coin) → Prop where
  | start : Reach s₀ m₀ s₀ m₀
  | step {s s' : CoinsStack σ n} {m : COutPoint → Option Coin} {a : CoinsAnswer}
      (hs : Reach s₀ m₀ s m) (op : LayerOp CoinsOp n) (hlegal : op.Legal s)
      (happly : op.apply s = .ok (a, s')) (hflushed : op.toOp = .flush → a = .bool true) :
      Reach s₀ m₀ s' (op.toOp.plain m)

/-- An entry marked `FRESH`, in any layer, has no unspent coin in the view below it. -/
def FreshTruthful : {n : Nat} → CoinsStack σ n → Prop
  | 0, _ => True
  | _ + 1, s =>
    (∀ o e, s.cacheCoins.lookup o = some e → e.fresh = true →
      (CCoinsView.getCoin s.base o).1.bind Coin.unspent? = none) ∧ FreshTruthful s.base

variable [LawfulCoinsView σ]

open LawfulCoinsView in
theorem good_new {b : σ} (hb : Good b) : (n : Nat) → Good (new b n)
  | 0 => hb
  | n + 1 => CCoinsViewCache.good_new (good_new hb n)

open LawfulCoinsView in
theorem coins_new (b : σ) : (n : Nat) → coins (new b n) = coins b
  | 0 => rfl
  | n + 1 => coins_new b n

open LawfulCoinsView in
theorem freshTruthful_of_good : {n : Nat} → {s : CoinsStack σ n} → Good s → FreshTruthful s
  | 0, _, _ => trivial
  | _ + 1, _, hs => by
    refine ⟨fun o e he hfresh => ?_, freshTruthful_of_good hs.1⟩
    rw [(getCoin_spec o hs.1).2.2]
    exact (faithful_coin.1 (he ▸ hs.2 o)).1 hfresh

end CoinsStack

namespace LayerOp

variable {σ : Type} [CCoinsView σ] [LawfulCoinsView σ]

open LawfulCoinsView

theorem apply_spec : {n : Nat} → (op : LayerOp CoinsOp n) → {s : CoinsStack σ n} → Good s →
    op.Legal s →
    (∀ a s', op.apply s = .ok (a, s') → (op.toOp = .flush → a = .bool true) →
      Good s' ∧ coins s' = op.toOp.plain (coins s)) ∧
    op.apply s ≠ .error .freshMisapplied ∧
    (op.toOp ≠ .flush → ∃ r, op.apply s = .ok r)
  | _ + 1, top op, s, hs, hlegal => CCoinsViewCache.exec_spec hs hlegal
  | n + 1, lower op, s, hs, hlegal => by
    obtain ⟨hstep, hne, hok⟩ := op.apply_spec hs.1 hlegal.2
    rw [apply_lower, toOp_lower]
    cases happ : op.apply s.base with
    | error e =>
      rw [happ] at hne
      refine ⟨fun a s' h _ => (by cases h), fun h => hne (by cases h; rfl), fun h => ?_⟩
      obtain ⟨r, hr⟩ := hok h
      cases happ.symm.trans hr
    | ok r =>
      obtain ⟨a, b⟩ := r
      refine ⟨fun a' s' h ha => ?_, nofun, fun _ => ⟨_, rfl⟩⟩
      cases h
      obtain ⟨hgood, hcoins⟩ := hstep a b happ ha
      cases hmod : op.toOp.modifies with
      | true =>
        -- nothing is cached above the layer that changes
        have hempty : s.cacheCoins = ∅ := hlegal.1 hmod
        have hs' : coins s = coins s.base := by
          show overlay s.cacheCoins _ = _
          rw [hempty, overlay_empty]
        refine ⟨⟨hgood, ?_⟩, ?_⟩
        · show Sound s.cacheCoins _
          rw [hempty]
          exact sound_empty _
        · show overlay s.cacheCoins _ = _
          rw [hempty, overlay_empty, hcoins, hs']
      | false =>
        have hsame : coins b = coins s.base := by rw [hcoins, op.toOp.plain_of_not_modifies hmod]
        refine ⟨⟨hgood, ?_⟩, ?_⟩
        · show Sound s.cacheCoins (coins b)
          rw [hsame]
          exact hs.2
        · show overlay s.cacheCoins (coins b) = _
          rw [hsame, op.toOp.plain_of_not_modifies hmod]
          rfl

end LayerOp

namespace CoinsStack

variable {σ : Type} [CCoinsView σ] [LawfulCoinsView σ]

open LawfulCoinsView

/-- **A whole run.** Every state of a legal run is good and stands for the plain map. -/
theorem Reach.good {n : Nat} {s₀ s : CoinsStack σ n} {m₀ m : COutPoint → Option Coin}
    (h0 : Good s₀) (hm0 : coins s₀ = m₀) (h : Reach s₀ m₀ s m) : Good s ∧ coins s = m := by
  induction h with
  | start => exact ⟨h0, hm0⟩
  | step hs op hlegal happly hflushed ih =>
    obtain ⟨hgood, hcoins⟩ := ih
    obtain ⟨hgood', hcoins'⟩ := (op.apply_spec hgood hlegal).1 _ _ happly hflushed
    exact ⟨hgood', by rw [hcoins', hcoins]⟩

def answers {n : Nat} (s : CoinsStack σ (n + 1)) (o : COutPoint) :
    Option Coin × Option Coin × Bool :=
  ((CCoinsViewCache.getCoin s o).1.bind Coin.unspent?, (CCoinsViewCache.accessCoin s o).1.unspent?,
    (CCoinsViewCache.haveCoin s o).1)

theorem answers_of_good {n : Nat} {s : CoinsStack σ (n + 1)} (hs : Good s) (o : COutPoint) :
    answers s o = (coins s o, coins s o, (coins s o).isSome) := by
  unfold answers
  rw [(CCoinsViewCache.getCoin_spec hs o).2.2, (CCoinsViewCache.accessCoin_spec hs o).2.2,
    (CCoinsViewCache.haveCoin_spec hs o).2.2]
  rfl

end CoinsStack

open CoinsStack in
/-- **A stack of caches refines one plain map.** Along every legal run from new caches over a
lawful base, in every state: the three queries on the top layer answer as the plain map does,
where `GetCoin` and `AccessCoin` may also return a spent coin if the map has none; what
`SpendCoin` moves out is the coin of the map; a `FRESH` entry of any layer has no unspent coin
below it; no legal operation meets a misapplied `FRESH`, and none but a flush fails; and a flush
of any layer changes none of these answers. -/
theorem coinsStack_refines_plain_map {σ : Type} [CCoinsView σ] [LawfulCoinsView σ] {n : Nat}
    {b : σ} (hb : LawfulCoinsView.Good b) {s : CoinsStack σ (n + 1)} {m : COutPoint → Option Coin}
    (hreach : Reach (new b (n + 1)) (fun o => (CCoinsView.getCoin b o).1.bind Coin.unspent?) s m) :
    (∀ o, (CCoinsViewCache.getCoin s o).1.bind Coin.unspent? = m o ∧
      (CCoinsViewCache.accessCoin s o).1.unspent? = m o ∧
      (CCoinsViewCache.haveCoin s o).1 = (m o).isSome) ∧
    (∀ o, (CCoinsViewCache.spendCoin s o).1.bind Coin.unspent? = m o) ∧
    FreshTruthful s ∧
    (∀ op : LayerOp CoinsOp (n + 1), op.Legal s → op.apply s ≠ .error .freshMisapplied ∧
      (op.toOp ≠ .flush → ∃ r, op.apply s = .ok r)) ∧
    (∀ (op : LayerOp CoinsOp (n + 1)) (s' : CoinsStack σ (n + 1)), op.toOp = .flush → op.Legal s →
      op.apply s = .ok (.bool true, s') → ∀ o, answers s' o = answers s o) := by
  have hm0 : coins (new b (n + 1)) =
      fun o => (CCoinsView.getCoin b o).1.bind Coin.unspent? := by
    rw [coins_new]
    funext o
    exact (getCoin_spec o hb).2.2.symm
  obtain ⟨hgood, hcoins⟩ := hreach.good (good_new hb (n + 1)) hm0
  subst hcoins
  refine ⟨fun o => ⟨?_, ?_, ?_⟩, fun o => ?_, freshTruthful_of_good hgood, fun op hlegal => ?_,
    fun op s' hop hlegal happ o => ?_⟩
  · exact (CCoinsViewCache.getCoin_spec hgood o).2.2
  · exact (CCoinsViewCache.accessCoin_spec hgood o).2.2
  · exact (CCoinsViewCache.haveCoin_spec hgood o).2.2
  · exact (CCoinsViewCache.spendCoin_spec hgood o).2.2
  · exact (op.apply_spec hgood hlegal).2
  · obtain ⟨hgood', hcoins'⟩ := (op.apply_spec hgood hlegal).1 _ _ happ fun _ => rfl
    have hsame : coins s' = coins s := by
      rw [hcoins', hop]
      rfl
    rw [answers_of_good hgood, answers_of_good hgood', hsame]

/-- Two caches over a database with one coin: a coin is added on top and flushed, then the coin
of the database is spent in the lower cache. -/
theorem coinsStack_refines_plain_map_sample : letI := orHash
    ∃ (s : CoinsStack CCoinsViewDB 2) (m : COutPoint → Option Coin),
      CoinsStack.Reach (CoinsStack.new (.sample (.sample 1) (.sample 10)) 2)
        (fun o => (CCoinsView.getCoin (CCoinsViewDB.sample (.sample 1) (.sample 10)) o).1.bind
          Coin.unspent?) s m ∧
      m (.sample 1) = none ∧ m (.sample 2) = some (.sample 20) ∧
      (CCoinsViewCache.haveCoin s (.sample 2)).1 = true := by
  let := orHash
  have h0 : CoinsStack.Reach (CoinsStack.new (CCoinsViewDB.sample (.sample 1) (.sample 10)) 2)
      (fun o => (CCoinsView.getCoin (CCoinsViewDB.sample (.sample 1) (.sample 10)) o).1.bind
        Coin.unspent?) _ _ := .start
  have h1 := h0.step (.top (.addCoin (.sample 2) (.sample 20) false)) ⟨rfl, fun _ => rfl⟩ rfl nofun
  have h2 := h1.step (.top .flush) trivial rfl fun _ => rfl
  have hreach := h2.step (.lower (.top (.spendCoin (.sample 1)))) ⟨fun _ => rfl, trivial⟩ rfl nofun
  refine ⟨_, _, hreach, rfl, rfl, ?_⟩
  have h := coinsStack_refines_plain_map (CCoinsViewDB.coinsUnspent_sample _ rfl) hreach
  exact (h.1 (.sample 2)).2.2

/-- After a spend, `GetCoin` still finds the entry and answers with the spent coin, where the
plain map has none. -/
theorem getCoin_answers_spent_coin : letI := orHash
    ∃ (s : CoinsStack CCoinsViewDB 1) (m : COutPoint → Option Coin),
      CoinsStack.Reach (CoinsStack.new (.sample (.sample 1) (.sample 10)) 1)
        (fun o => (CCoinsView.getCoin (CCoinsViewDB.sample (.sample 1) (.sample 10)) o).1.bind
          Coin.unspent?) s m ∧
      m (.sample 1) = none ∧
      (CCoinsViewCache.getCoin s (.sample 1)).1 = some Coin.empty := by
  let := orHash
  refine ⟨_, _, .step .start (.top (.spendCoin (.sample 1))) trivial rfl ?_, rfl, rfl⟩
  intro h
  cases h

end Passion
