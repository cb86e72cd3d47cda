import Passion.Coins.Cache

/-!
# A stack of coin caches refines one plain map

The map from outpoints to unspent coins is what a view stands for: `LawfulCoinsView` asks of a
view that its `GetCoin` reads such a map and its `BatchWrite` updates it. A cache over a lawful
view is lawful again, because its `DIRTY` and `FRESH` flags tell the truth about the view below
(`WriteBack.Sound`); every operation of the cache keeps that, and acts on the map as its name
says.
-/

namespace Passion

open Lib (Map)
open CCoinsView (getCoin batchWrite)
open Coin
open Lib.WriteBack

/-- An entry shows its coin when the coin is unspent. -/
instance : CacheEntry CCoinsCacheEntry Coin where
  shown e := e.coin.unspent?
  dirty e := e.dirty
  fresh e := e.fresh

@[simp] theorem shown_coin (e : CCoinsCacheEntry) : CacheEntry.shown e = e.coin.unspent? := rfl

theorem faithful_coin {e : CCoinsCacheEntry} {b : Option Coin} :
    Faithful (some e) b ↔ (e.fresh = true → b = none) ∧ (e.dirty = false → e.coin.unspent? = b) :=
  faithful_some

/-- A view whose coins are a plain map. `batchWrite` may rely on the flags it is handed; it may
also fail, by its Boolean or by an exception of its own. -/
class LawfulCoinsView (σ : Type) [CCoinsView σ] where
  Good : σ → Prop
  coins : σ → COutPoint → Option Coin
  getCoin_spec : ∀ {s : σ} (o : COutPoint), Good s →
    Good (getCoin s o).2 ∧ coins (getCoin s o).2 = coins s ∧
      (getCoin s o).1.bind unspent? = coins s o
  batchWrite_spec : ∀ {s : σ} {b : CoinsBatch}, Good s → Sound b.mapCoins (coins s) →
    batchWrite s b ≠ .error .freshMisapplied ∧
      ∀ s', batchWrite s b = .ok (true, s') →
        Good s' ∧ coins s' = overlay b.mapCoins (coins s)

namespace CCoinsViewCache

variable {σ : Type} [CCoinsView σ] [LawfulCoinsView σ]

/-- The base is good and the flags of the cache tell the truth about it. -/
def Good (view : CCoinsViewCache σ) : Prop :=
  LawfulCoinsView.Good view.base ∧ Sound view.cacheCoins (LawfulCoinsView.coins view.base)

def coins (view : CCoinsViewCache σ) : COutPoint → Option Coin :=
  overlay view.cacheCoins (LawfulCoinsView.coins view.base)

variable {view : CCoinsViewCache σ} {outpoint : COutPoint}

theorem good_new {b : σ} (hb : LawfulCoinsView.Good b) : (new b).Good :=
  ⟨hb, sound_empty _⟩

theorem coins_put (view : CCoinsViewCache σ) (outpoint : COutPoint) (p : Option CCoinsCacheEntry) :
    coins { view with cacheCoins := Map.put view.cacheCoins outpoint p } =
      Function.update view.coins outpoint (seen p (LawfulCoinsView.coins view.base outpoint)) :=
  overlay_put ..

section

variable (hview : view.Good)

include hview

theorem good_put {p : Option CCoinsCacheEntry}
    (hp : Faithful p (LawfulCoinsView.coins view.base outpoint)) :
    Good { view with cacheCoins := Map.put view.cacheCoins outpoint p } :=
  ⟨hview.1, sound_put hview.2 hp⟩

/-! ## Fetching -/

/-- `FetchCoin` changes nothing that is seen, leaves what it returns in the cache, and returns
an entry that shows the coin of the map. -/
theorem fetchCoin_spec (outpoint : COutPoint) : (view.fetchCoin outpoint).2.Good ∧
      (view.fetchCoin outpoint).2.coins = view.coins ∧
      (view.fetchCoin outpoint).2.cacheCoins.lookup outpoint = (view.fetchCoin outpoint).1 ∧
      seen (view.fetchCoin outpoint).1 none = view.coins outpoint := by
  obtain ⟨hbase, hsound⟩ := hview
  unfold fetchCoin
  cases hit : view.cacheCoins.lookup outpoint with
  | some it => exact ⟨⟨hbase, hsound⟩, rfl, hit, by simp [coins, overlay, hit]⟩
  | none =>
    obtain ⟨hgood, hcoins, hshown⟩ := LawfulCoinsView.getCoin_spec outpoint hbase
    have hmiss : view.coins outpoint = LawfulCoinsView.coins view.base outpoint := by
      simp [coins, overlay, hit]
    cases hget : CCoinsView.getCoin view.base outpoint with
    | mk r base =>
      rw [hget] at hgood hcoins hshown
      cases r with
      | none =>
        refine ⟨⟨hgood, ?_⟩, ?_, hit, ?_⟩
        · simpa only [hcoins] using hsound
        · simp only [coins, hcoins]
        · simpa [hmiss] using hshown
      | some tmp =>
        -- the loaded entry is clean, and fresh only when the coin below is spent
        have htmp : tmp.unspent? = LawfulCoinsView.coins view.base outpoint := by
          simpa using hshown
        have hnew : Faithful (some (⟨tmp, false, tmp.isSpent⟩ : CCoinsCacheEntry))
            (LawfulCoinsView.coins view.base outpoint) :=
          faithful_coin.2 ⟨fun h => htmp.symm.trans (unspent?_of_isSpent h), fun _ => htmp⟩
        refine ⟨⟨hgood, ?_⟩, ?_, AList.lookup_insert _, ?_⟩
        · simp only [hcoins]
          exact sound_put hsound hnew
        · simp only [coins, hcoins]
          exact overlay_put_of_seen (p := some _) (by simpa [overlay, hit] using htmp)
        · simpa [hmiss] using htmp

theorem getCoin_spec (outpoint : COutPoint) :
    (view.getCoin outpoint).2.Good ∧ (view.getCoin outpoint).2.coins = view.coins ∧
      (view.getCoin outpoint).1.bind unspent? = view.coins outpoint := by
  obtain ⟨hgood, hcoins, -, hseen⟩ := fetchCoin_spec hview outpoint
  unfold getCoin
  rcases hf : view.fetchCoin outpoint with ⟨_ | it, view'⟩ <;> rw [hf] at hgood hcoins hseen <;>
    exact ⟨hgood, hcoins, hseen⟩

theorem accessCoin_spec (outpoint : COutPoint) :
    (view.accessCoin outpoint).2.Good ∧ (view.accessCoin outpoint).2.coins = view.coins ∧
      (view.accessCoin outpoint).1.unspent? = view.coins outpoint := by
  obtain ⟨hgood, hcoins, -, hseen⟩ := fetchCoin_spec hview outpoint
  unfold accessCoin
  rcases hf : view.fetchCoin outpoint with ⟨_ | it, view'⟩ <;> rw [hf] at hgood hcoins hseen <;>
    exact ⟨hgood, hcoins, hseen⟩

theorem haveCoin_spec (outpoint : COutPoint) :
    (view.haveCoin outpoint).2.Good ∧ (view.haveCoin outpoint).2.coins = view.coins ∧
      (view.haveCoin outpoint).1 = (view.coins outpoint).isSome := by
  obtain ⟨hgood, hcoins, -, hseen⟩ := fetchCoin_spec hview outpoint
  unfold haveCoin
  rcases hf : view.fetchCoin outpoint with ⟨_ | it, view'⟩ <;> rw [hf] at hgood hcoins hseen
  · exact ⟨hgood, hcoins, by simp [← hseen]⟩
  · refine ⟨hgood, hcoins, ?_⟩
    rw [← hseen, seen_some, shown_coin, isSome_unspent?]

/-! ## Adding, spending and dropping -/

/-- What `AddCoin` does to a plain map: outputs that can never be spent and zerocoin mints are
left out. -/
def plainAdd (m : COutPoint → Option Coin) (outpoint : COutPoint) (coin : Coin) :
    COutPoint → Option Coin :=
  if CScript.isUnspendable coin.out.scriptPubKey || coin.out.isZerocoinMint then m
  else Function.update m outpoint (some coin)

/-- `AddCoin` under its contract: the coin is unspent, and `possible_overwrite` is set unless
the view has no coin there. -/
theorem addCoin_spec {coin : Coin} {possibleOverwrite : Bool} (hcoin : coin.isSpent = false)
    (hnew : possibleOverwrite = false → view.coins outpoint = none) :
    ∃ view', view.addCoin outpoint coin possibleOverwrite = .ok view' ∧ view'.Good ∧
      view'.coins = plainAdd view.coins outpoint coin ∧
      ∃ m, view' = { view with cacheCoins := m } := by
  have hsound := hview.2
  unfold addCoin plainAdd
  by_cases hun : CScript.isUnspendable coin.out.scriptPubKey = true
  · exact ⟨view, by simp [hcoin, hun], hview, by simp [hun], view.cacheCoins, rfl⟩
  by_cases hmint : coin.out.isZerocoinMint = true
  · exact ⟨view, by simp [hcoin, hmint], hview, by simp [hmint], view.cacheCoins, rfl⟩
  have hslot := hsound outpoint
  -- the entry that is found or made by `emplace`
  set it := (view.cacheCoins.lookup outpoint).getD ⟨empty, false, false⟩ with hit
  have hspent : possibleOverwrite = false → it.coin.isSpent = true := by
    intro hov
    have := hnew hov
    simp only [coins, overlay] at this
    cases hl : view.cacheCoins.lookup outpoint with
    | none => simp [hit, hl]
    | some e =>
      rw [hl] at this
      simpa [hit, hl] using unspent?_eq_none.1 this
  have hbelow : (it.fresh || (!possibleOverwrite && !it.dirty)) = true →
      LawfulCoinsView.coins view.base outpoint = none := by
    intro hfresh
    cases hl : view.cacheCoins.lookup outpoint with
    | none =>
      have hov : possibleOverwrite = false := by simpa [hit, hl] using hfresh
      simpa [coins, overlay, hl] using hnew hov
    | some e =>
      rw [hl] at hslot
      obtain ⟨hfr, hcl⟩ := faithful_coin.1 hslot
      have he : it = e := by simp [hit, hl]
      rw [he] at hfresh hspent
      rcases Bool.or_eq_true_iff.1 hfresh with h | h
      · exact hfr h
      · -- a clean entry without a coin: there is none below either
        obtain ⟨hov, hd⟩ : possibleOverwrite = false ∧ e.dirty = false := by simpa using h
        rw [← hcl hd, unspent?_of_isSpent (hspent hov)]
  let it' : CCoinsCacheEntry := ⟨coin, true, it.fresh || (!possibleOverwrite && !it.dirty)⟩
  refine ⟨{ view with cacheCoins := Map.put view.cacheCoins outpoint (some it') }, ?_,
    good_put hview (faithful_coin.2 ⟨hbelow, fun h => by simp at h⟩), ?_, _, rfl⟩
  · cases hov : possibleOverwrite with
    | true => simp [hcoin, hun, hmint, it', Map.put, hov]
    | false => simpa [hcoin, hun, hmint, it', Map.put, hov] using hspent hov
  · rw [if_neg (by simp [hun, hmint]), coins_put, seen_some, shown_coin,
      unspent?_of_not_isSpent hcoin]

/-- `SpendCoin` removes the coin from the map and moves it out. -/
theorem spendCoin_spec (outpoint : COutPoint) : (view.spendCoin outpoint).2.Good ∧
      (view.spendCoin outpoint).2.coins = Function.update view.coins outpoint none ∧
      (view.spendCoin outpoint).1.bind unspent? = view.coins outpoint := by
  obtain ⟨hgood, hcoins, hlookup, hseen⟩ := fetchCoin_spec hview outpoint
  unfold spendCoin
  rcases hf : view.fetchCoin outpoint with ⟨_ | it, view'⟩ <;>
    simp only [hf] at hgood hcoins hlookup hseen ⊢
  · refine ⟨hgood, ?_, hseen⟩
    rw [hcoins, eq_comm, Function.update_eq_self_iff]
    exact hseen
  · obtain ⟨hfr, -⟩ := faithful_coin.1 (hlookup ▸ hgood.2 outpoint)
    cases hfresh : it.fresh with
    | true =>
      -- nothing below, so the entry can go altogether
      refine ⟨good_put hgood (faithful_none _), ?_, hseen⟩
      refine (coins_put view' outpoint none).trans ?_
      rw [seen_none, hfr hfresh, hcoins]
    | false =>
      refine ⟨good_put (p := some _) hgood (faithful_coin.2 ⟨?_, ?_⟩), ?_, hseen⟩
      · simp
      · simp
      · refine (coins_put view' outpoint (some _)).trans ?_
        rw [seen_some, shown_coin, unspent?_empty, hcoins]

theorem uncache_spec (outpoint : COutPoint) :
    (view.uncache outpoint).Good ∧ (view.uncache outpoint).coins = view.coins := by
  unfold uncache
  cases hl : view.cacheCoins.lookup outpoint with
  | none => exact ⟨hview, rfl⟩
  | some it =>
    by_cases hflags : (!it.dirty && !it.fresh) = true
    · have hclean := (faithful_coin.1 (hl ▸ hview.2 outpoint)).2 (by simp_all)
      simp only [hflags]
      refine ⟨good_put hview (faithful_none _), ?_⟩
      exact overlay_put_of_seen (p := none) (by simp [overlay, hl, hclean])
    · simp only [hflags]
      exact ⟨hview, rfl⟩

end

/-! ## Flushing -/

/-- Merging one child entry: no exception, a faithful slot, and the child's coin is seen. -/
theorem batchWriteCoin_spec {us : Option CCoinsCacheEntry} {it : CCoinsCacheEntry}
    {b : Option Coin} (hus : Faithful us b) (hit : Faithful (some it) (seen us b)) :
    ∃ r, batchWriteCoin us it = .ok r ∧ Faithful r b ∧ seen r b = CacheEntry.shown it := by
  obtain ⟨hfresh, hclean⟩ := faithful_coin.1 hit
  unfold batchWriteCoin
  cases hd : it.dirty with
  | false => exact ⟨us, by simp, hus, (hclean hd).symm⟩
  | true =>
    cases us with
    | none =>
      by_cases hdead : (it.fresh && it.coin.isSpent) = true
      · obtain ⟨hf, hs⟩ := Bool.and_eq_true_iff.1 hdead
        refine ⟨none, by simp [hdead], faithful_none b, ?_⟩
        rw [shown_coin, unspent?_of_isSpent hs]
        exact hfresh hf
      · exact ⟨some ⟨it.coin, true, it.fresh⟩, by simp [hdead],
          faithful_coin.2 ⟨hfresh, by simp⟩, rfl⟩
    | some u =>
      obtain ⟨hufresh, -⟩ := faithful_coin.1 hus
      -- a fresh child entry tells that we show no coin, so the exception is not reached
      have hok : (it.fresh && !u.coin.isSpent) = false := by
        cases hf : it.fresh with
        | false => rfl
        | true => simpa using unspent?_eq_none.1 (hfresh hf)
      by_cases hdead : (u.fresh && it.coin.isSpent) = true
      · obtain ⟨hf, hs⟩ := Bool.and_eq_true_iff.1 hdead
        refine ⟨none, by simp [hok, hdead], faithful_none b, ?_⟩
        rw [shown_coin, unspent?_of_isSpent hs]
        exact hufresh hf
      · exact ⟨some { u with coin := it.coin, dirty := true }, by simp [hok, hdead],
          faithful_coin.2 ⟨hufresh, by simp⟩, rfl⟩

/-- `BatchWrite` into a good cache, with flags that tell the truth about it, goes through and
overlays the child's coins. -/
theorem batchWrite_spec (hview : view.Good) {b : CoinsBatch} (hb : Sound b.mapCoins view.coins) :
    ∃ view', view.batchWrite b = .ok (true, view') ∧ view'.Good ∧
      view'.coins = overlay b.mapCoins view.coins := by
  obtain ⟨hbase, hsound⟩ := hview
  obtain ⟨cacheCoins, hm, hsound', hcoins⟩ :=
    sound_mergeM hsound fun k e he =>
      batchWriteCoin_spec (hsound k) (he ▸ hb k)
  obtain ⟨anchors, nullifiers, hw⟩ := exists_batchWrite hm
  exact ⟨_, hw, ⟨hbase, hsound'⟩, hcoins⟩

/-- **A cache over a lawful view is a lawful view.** -/
instance : LawfulCoinsView (CCoinsViewCache σ) where
  Good := Good
  coins := coins
  getCoin_spec o hs := getCoin_spec hs o
  batchWrite_spec hs hb := by
    obtain ⟨view', hw, hgood, hcoins⟩ := batchWrite_spec hs hb
    refine ⟨fun h => ?_, fun s' h => ?_⟩
    · exact absurd (hw.symm.trans h) (by simp)
    · obtain rfl : view' = s' := by simpa using hw.symm.trans h
      exact ⟨hgood, hcoins⟩

/-- `Flush` never meets a misapplied `FRESH`, and when the base accepts the batch it changes
nothing that is seen and leaves an empty cache. -/
theorem flush_spec (hview : view.Good) : view.flush ≠ .error .freshMisapplied ∧
      ∀ view', view.flush = .ok (true, view') →
        view'.Good ∧ view'.coins = view.coins ∧ view'.cacheCoins = ∅ := by
  obtain ⟨hbase, hsound⟩ := hview
  obtain ⟨hne, htrue⟩ :=
    LawfulCoinsView.batchWrite_spec (b := view.toBatch) hbase hsound
  unfold flush
  cases hw : CCoinsView.batchWrite view.base view.toBatch with
  | error e =>
    rw [hw] at hne
    exact ⟨by simpa using hne, by simp⟩
  | ok r =>
    obtain ⟨fOk, base⟩ := r
    refine ⟨by simp [bind, Except.bind, pure, Except.pure], fun view' h => ?_⟩
    obtain ⟨rfl, rfl⟩ : fOk = true ∧ _ = view' := by
      simpa [bind, Except.bind, pure, Except.pure] using h
    obtain ⟨hgood, hcoins⟩ := htrue base hw
    exact ⟨⟨hgood, sound_empty _⟩, hcoins, rfl⟩

end CCoinsViewCache

end Passion
