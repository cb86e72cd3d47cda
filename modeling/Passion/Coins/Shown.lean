import Passion.Coins.Chainstate

/-!
# What a cache shows, whatever its flags say

`AddCoin` without overwriting may be called where the base still has a coin; the flags of the entry
are then wrong, and the cache no longer stands for a plain map. What `AccessCoin` and `SpendCoin`
answer is still settled by the entries and the base: `CCoinsViewCache.shown`.

`ShowsCoins` states this for any handler of the commands of a view, and
**`CCoinsViewCache.showsCoins`** is its case of a cache over a lawful base.
-/

namespace Passion

open Lib (Map Handler)

/-- The coins that a handler shows: asking changes none of them, and spending a coin changes no
other one. -/
structure ShowsCoins {S : Type} (h : Handler ViewCmd ViewCmd.Answer ChainError S) (Ok : S → Prop)
    (shown : S → COutPoint → Coin) : Prop where
  kept : ∀ {c : ViewCmd} {s : S} {r : c.Answer} {s' : S}, Ok s → h c s = .ok (r, s') → Ok s'
  read : ∀ {c : ViewCmd} {s : S} {r : c.Answer} {s' : S}, c.IsRead → Ok s → h c s = .ok (r, s') →
    shown s' = shown s
  access : ∀ {o : COutPoint} {s : S} {r : Coin} {s' : S}, Ok s →
    h (.accessCoin o) s = .ok (r, s') → r = shown s o
  spend : ∀ {o : COutPoint} {s : S} {r : Coin} {s' : S}, Ok s →
    h (.spendCoin o) s = .ok (r, s') → r = shown s o ∧ ∀ o', o' ≠ o → shown s' o' = shown s o'

namespace CCoinsViewCache

variable {σ : Type} [CCoinsView σ] [LawfulCoinsView σ] [LawfulSaplingView σ] [LawfulView σ]
  {view view' : CCoinsViewCache σ}

/-- The coin that `AccessCoin` gives. -/
def shown (view : CCoinsViewCache σ) (o : COutPoint) : Coin :=
  match view.cacheCoins.lookup o with
  | some it => it.coin
  | none => (LawfulCoinsView.coins view.base o).getD Coin.empty

omit [LawfulSaplingView σ] [LawfulView σ] in
theorem shown_congr (hmap : view'.cacheCoins = view.cacheCoins)
    (hbase : LawfulCoinsView.coins view'.base = LawfulCoinsView.coins view.base) :
    view'.shown = view.shown := by
  unfold shown
  rw [hmap, hbase]

theorem SaplingOnly.shown (h : SaplingOnly view view') : view'.shown = view.shown :=
  shown_congr h.cacheCoins h.coins

section

variable (hbase : LawfulView.Inv view.base) (o : COutPoint)

include hbase

theorem fetchCoin_shown :
    LawfulView.Inv (view.fetchCoin o).2.base ∧ (view.fetchCoin o).2.shown = view.shown ∧
      ((view.fetchCoin o).1.map (·.coin)).getD Coin.empty = view.shown o := by
  unfold fetchCoin
  cases hit : view.cacheCoins.lookup o with
  | some it =>
    refine ⟨hbase, rfl, ?_⟩
    unfold shown
    rw [hit]
    rfl
  | none =>
    obtain ⟨hinv, -, -⟩ := LawfulView.getCoin_kept o hbase
    obtain ⟨-, hcoins, hanswer⟩ := LawfulCoinsView.getCoin_spec o (LawfulView.inv_good hbase).1
    have hempty : ∀ c, (CCoinsView.getCoin view.base o).1 = some c → c.isSpent = true →
        c = Coin.empty := fun c hc => LawfulView.getCoin_cleared hbase hc
    have hshown : view.shown o = (LawfulCoinsView.coins view.base o).getD Coin.empty := by
      unfold shown
      rw [hit]
    rw [hshown]
    cases hget : CCoinsView.getCoin view.base o with
    | mk r b =>
      rw [hget] at hinv hcoins hanswer hempty
      cases r with
      | none =>
        refine ⟨hinv, shown_congr rfl hcoins, ?_⟩
        rw [← show none = _ from hanswer]
        rfl
      | some tmp =>
        have htmp : tmp = (LawfulCoinsView.coins view.base o).getD Coin.empty :=
          eq_getD_of_unspent? (hempty tmp rfl) hanswer
        refine ⟨hinv, funext fun o' => ?_, htmp⟩
        by_cases ho : o' = o
        · subst ho
          rw [hshown, ← htmp]
          simp [shown]
        · simp [shown, ho, show LawfulCoinsView.coins b = _ from hcoins]

theorem accessCoin_shown :
    LawfulView.Inv (view.accessCoin o).2.base ∧ (view.accessCoin o).2.shown = view.shown ∧
      (view.accessCoin o).1 = view.shown o := by
  obtain ⟨hinv, hkept, hanswer⟩ := fetchCoin_shown hbase o
  unfold accessCoin
  rcases hf : view.fetchCoin o with ⟨_ | it, view1⟩ <;> rw [hf] at hinv hkept hanswer <;>
    exact ⟨hinv, hkept, hanswer⟩

theorem haveCoin_shown :
    LawfulView.Inv (view.haveCoin o).2.base ∧ (view.haveCoin o).2.shown = view.shown := by
  obtain ⟨hinv, hkept, -⟩ := fetchCoin_shown hbase o
  unfold haveCoin
  rcases hf : view.fetchCoin o with ⟨_ | it, view1⟩ <;> rw [hf] at hinv hkept <;>
    exact ⟨hinv, hkept⟩

theorem spendCoin_shown : LawfulView.Inv (view.spendCoin o).2.base ∧
      (view.spendCoin o).1.getD Coin.empty = view.shown o ∧
      ∀ o', o' ≠ o → (view.spendCoin o).2.shown o' = view.shown o' := by
  obtain ⟨hinv, hkept, hanswer⟩ := fetchCoin_shown hbase o
  unfold spendCoin
  rcases hf : view.fetchCoin o with ⟨_ | it, view1⟩ <;> rw [hf] at hinv hkept hanswer
  · exact ⟨hinv, hanswer, fun o' _ => congrFun hkept o'⟩
  · have hother : ∀ o', o' ≠ o → view1.shown o' = view.shown o' := fun o' _ => congrFun hkept o'
    dsimp only
    split_ifs
    all_goals
      refine ⟨hinv, hanswer, fun o' ho => ?_⟩
      rw [← hother o' ho]
      simp [shown, ho]

end

theorem getBestBlock_shown (hbase : LawfulView.Inv view.base) :
    LawfulView.Inv view.getBestBlock.2.base ∧ view.getBestBlock.2.shown = view.shown := by
  unfold getBestBlock
  split_ifs
  · obtain ⟨hinv, hcoins, -⟩ := LawfulView.getBestBlock_spec hbase
    exact ⟨hinv, shown_congr rfl hcoins⟩
  · exact ⟨hbase, rfl⟩

variable [MerkleHash UInt256]

omit [MerkleHash UInt256] [CCoinsView σ] [LawfulCoinsView σ] [LawfulSaplingView σ] [LawfulView σ] in
theorem parts_of_ok {α : Type} {x : α × CCoinsViewCache σ} {r : α}
    (h : (Except.ok x : Except ChainError (α × CCoinsViewCache σ)) = .ok (r, view')) :
    x.1 = r ∧ x.2 = view' :=
  Prod.ext_iff.mp (Except.ok.inj h)

/-- **A cache over a lawful base shows coins**, whatever its flags say. -/
theorem showsCoins :
    ShowsCoins (@handler _ σ _) (fun view => LawfulView.Inv view.base) shown where
  kept := by
    intro c view r view' hbase h
    cases c with
    | accessCoin o => exact (parts_of_ok h).2 ▸ (accessCoin_shown hbase o).1
    | haveCoin o => exact (parts_of_ok h).2 ▸ (haveCoin_shown hbase o).1
    | spendCoin o => exact (parts_of_ok h).2 ▸ (spendCoin_shown hbase o).1
    | addCoin o coin ow =>
      simp only [handler] at h
      cases hadd : view.addCoin o coin ow with
      | error e =>
        rw [hadd] at h
        cases h
      | ok view1 =>
        rw [hadd] at h
        cases h
        unfold addCoin at hadd
        dsimp only at hadd
        split_ifs at hadd <;> cases hadd <;> exact hbase
    | getBestBlock => exact (parts_of_ok h).2 ▸ (getBestBlock_shown hbase).1
    | setBestBlock hash =>
      cases h
      exact hbase
    | getBestAnchor => exact (parts_of_ok h).2 ▸ (saplingOnly_getBestAnchor hbase).inv
    | getSaplingAnchorAt rt =>
      exact (parts_of_ok h).2 ▸ (saplingOnly_getSaplingAnchorAt hbase rt).inv
    | getNullifier nf => exact (parts_of_ok h).2 ▸ (saplingOnly_getNullifier hbase nf).inv
    | setNullifiers tx spent =>
      exact (parts_of_ok h).2 ▸ (saplingOnly_setNullifiers hbase tx spent).inv
    | pushAnchor tree => exact (parts_of_ok h).2 ▸ (saplingOnly_pushAnchor hbase tree).inv
    | popAnchor rt =>
      simp only [handler] at h
      cases hpop : view.popAnchor rt with
      | error e =>
        rw [hpop] at h
        cases h
      | ok view1 =>
        rw [hpop] at h
        cases h
        exact (saplingOnly_popAnchor hbase hpop).inv
  read := by
    intro c view r view' hc hbase h
    cases c with
    | accessCoin o => exact (parts_of_ok h).2 ▸ (accessCoin_shown hbase o).2.1
    | haveCoin o => exact (parts_of_ok h).2 ▸ (haveCoin_shown hbase o).2
    | getBestBlock => exact (parts_of_ok h).2 ▸ (getBestBlock_shown hbase).2
    | getBestAnchor => exact (parts_of_ok h).2 ▸ (saplingOnly_getBestAnchor hbase).shown
    | getSaplingAnchorAt rt =>
      exact (parts_of_ok h).2 ▸ (saplingOnly_getSaplingAnchorAt hbase rt).shown
    | getNullifier nf => exact (parts_of_ok h).2 ▸ (saplingOnly_getNullifier hbase nf).shown
    | _ => exact hc.elim
  access := by
    intro o view r view' hbase h
    exact (parts_of_ok h).1 ▸ (accessCoin_shown hbase o).2.2
  spend := by
    intro o view r view' hbase h
    obtain ⟨-, hanswer, hother⟩ := spendCoin_shown hbase o
    exact ⟨(parts_of_ok h).1 ▸ hanswer, (parts_of_ok h).2 ▸ hother⟩

end CCoinsViewCache

end Passion
