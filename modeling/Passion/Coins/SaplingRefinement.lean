import Passion.Coins.Stack

/-!
# The Sapling part of a coin view

A view stands for a `SaplingState`: the known anchors with their trees, the spent nullifiers and
the best anchor. `LawfulSaplingView` asks of a view that its queries read such a state and that
`BatchWrite` overlays the entries it is handed. A cache keeps the flags of its two maps truthful
under every operation, also under a `BatchWrite` from above; but it hands its own state over to
the child's only if it `Accepts` the batch, because it takes over a best anchor that was never
loaded and keeps its own tree for a root it already has.
-/

namespace Passion

open Lib (Map)
open SaplingMerkleTree (root)
open CCoinsView (getSaplingAnchorAt getNullifier getBestAnchor)
open Lib.WriteBack

/-- An anchor entry shows its tree when it is entered; it is never marked fresh. -/
instance : CacheEntry CAnchorsSaplingCacheEntry SaplingMerkleTree where
  shown e := if e.entered then some e.tree else none
  dirty e := e.dirty
  fresh _ := false

instance : CacheEntry CNullifiersCacheEntry Unit where
  shown e := if e.entered then some () else none
  dirty e := e.dirty
  fresh _ := false

@[simp] theorem shown_anchor (e : CAnchorsSaplingCacheEntry) :
    CacheEntry.shown e = if e.entered then some e.tree else none := rfl

@[simp] theorem shown_nullifier (e : CNullifiersCacheEntry) :
    CacheEntry.shown e = if e.entered then some () else none := rfl

theorem faithful_anchor {e : CAnchorsSaplingCacheEntry} {b : Option SaplingMerkleTree} :
    Faithful (some e) b ↔ (e.dirty = false → (if e.entered then some e.tree else none) = b) :=
  faithful_some.trans ⟨fun h => h.2, fun h => ⟨fun hf => Bool.noConfusion hf, h⟩⟩

theorem faithful_nullifier {e : CNullifiersCacheEntry} {b : Option Unit} :
    Faithful (some e) b ↔ (e.dirty = false → (if e.entered then some () else none) = b) :=
  faithful_some.trans ⟨fun h => h.2, fun h => ⟨fun hf => Bool.noConfusion hf, h⟩⟩

/-- What the Sapling part of a view stands for. -/
@[ext] structure SaplingState where
  anchors : UInt256 → Option SaplingMerkleTree
  nullifiers : UInt256 → Option Unit
  bestAnchor : UInt256

/-- A batch read as an update: entries are overlaid, and a null best anchor means that there is
none to write. -/
def SaplingState.write (st : SaplingState) (b : CoinsBatch) : SaplingState where
  anchors := overlay b.mapSaplingAnchors st.anchors
  nullifiers := overlay b.mapSaplingNullifiers st.nullifiers
  bestAnchor := if b.hashSaplingAnchor = 0 then st.bestAnchor else b.hashSaplingAnchor

/-- The flags of a batch tell the truth about the state it is written to. -/
def CoinsBatch.SaplingSound (b : CoinsBatch) (st : SaplingState) : Prop :=
  Sound b.mapSaplingAnchors st.anchors ∧ Sound b.mapSaplingNullifiers st.nullifiers

/-- A view whose Sapling part is a `SaplingState`. `Accepts` are the batches that the view takes
over as they are. -/
class LawfulSaplingView (σ : Type) [CCoinsView σ] where
  Good : σ → Prop
  sapling : σ → SaplingState
  Accepts : σ → CoinsBatch → Prop
  getSaplingAnchorAt_spec : ∀ {s : σ} (rt : UInt256), Good s →
    Good (getSaplingAnchorAt s rt).2 ∧
      sapling (getSaplingAnchorAt s rt).2 = sapling s ∧
      (getSaplingAnchorAt s rt).1 = (sapling s).anchors rt
  getNullifier_spec : ∀ {s : σ} (nf : UInt256), Good s →
    Good (getNullifier s nf).2 ∧
      sapling (getNullifier s nf).2 = sapling s ∧
      (getNullifier s nf).1 = ((sapling s).nullifiers nf).isSome
  getBestAnchor_spec : ∀ {s : σ}, Good s →
    Good (getBestAnchor s).2 ∧
      sapling (getBestAnchor s).2 = sapling s ∧
      (getBestAnchor s).1 = (sapling s).bestAnchor
  batchWrite_spec : ∀ {s s' : σ} {b : CoinsBatch}, Good s → b.SaplingSound (sapling s) →
    CCoinsView.batchWrite s b = .ok (true, s') →
      Good s' ∧ (Accepts s b → sapling s' = (sapling s).write b)

namespace CCoinsViewCache

variable {σ : Type} [CCoinsView σ] [LawfulSaplingView σ]

/-- The base is good and the flags of the two Sapling maps tell the truth about it. -/
def SaplingGood (view : CCoinsViewCache σ) : Prop :=
  LawfulSaplingView.Good view.base ∧ view.toBatch.SaplingSound (LawfulSaplingView.sapling view.base)

/-- A cache shows its base with its own entries written to it. -/
def sapling (view : CCoinsViewCache σ) : SaplingState :=
  (LawfulSaplingView.sapling view.base).write view.toBatch

variable {view : CCoinsViewCache σ}

theorem saplingGood_new {b : σ} (hb : LawfulSaplingView.Good b) : (new b).SaplingGood :=
  ⟨hb, sound_empty _, sound_empty _⟩

/-! ## Replacing parts of a cache -/

theorem anchors_putAnchor (view : CCoinsViewCache σ) (rt : UInt256)
    (p : Option CAnchorsSaplingCacheEntry) :
    (sapling { view with cacheSaplingAnchors := Map.put view.cacheSaplingAnchors rt p }).anchors =
      Function.update view.sapling.anchors rt
        (seen p ((LawfulSaplingView.sapling view.base).anchors rt)) :=
  overlay_put ..

variable (hview : view.SaplingGood)

include hview

theorem saplingGood_putAnchor {rt : UInt256} {p : Option CAnchorsSaplingCacheEntry}
    (hp : Faithful p ((LawfulSaplingView.sapling view.base).anchors rt)) :
    SaplingGood { view with cacheSaplingAnchors := Map.put view.cacheSaplingAnchors rt p } :=
  ⟨hview.1, sound_put hview.2.1 hp, hview.2.2⟩

theorem saplingGood_putNullifier {nf : UInt256} {p : Option CNullifiersCacheEntry}
    (hp : Faithful p ((LawfulSaplingView.sapling view.base).nullifiers nf)) :
    SaplingGood { view with cacheSaplingNullifiers := Map.put view.cacheSaplingNullifiers nf p } :=
  ⟨hview.1, hview.2.1, sound_put hview.2.2 hp⟩

theorem saplingGood_hash (h : UInt256) : SaplingGood { view with hashSaplingAnchor := h } := hview

theorem saplingGood_base {b : σ} (hb : LawfulSaplingView.Good b)
    (hsame : LawfulSaplingView.sapling b = LawfulSaplingView.sapling view.base) :
    SaplingGood { view with base := b } ∧ sapling { view with base := b } = view.sapling := by
  refine ⟨⟨hb, ?_⟩, ?_⟩
  · show view.toBatch.SaplingSound (LawfulSaplingView.sapling b)
    rw [hsame]
    exact hview.2
  · show (LawfulSaplingView.sapling b).write view.toBatch = _
    rw [hsame]
    rfl

/-! ## Queries -/

theorem getBestAnchor_spec :
    view.getBestAnchor.2.SaplingGood ∧ view.getBestAnchor.2.sapling = view.sapling ∧
      view.getBestAnchor.1 = view.sapling.bestAnchor := by
  unfold getBestAnchor
  split_ifs with hnull
  · obtain ⟨hgood, hsame, hbest⟩ := LawfulSaplingView.getBestAnchor_spec hview.1
    have hshown : view.sapling.bestAnchor = (LawfulSaplingView.sapling view.base).bestAnchor :=
      if_pos hnull
    cases hget : CCoinsView.getBestAnchor view.base with
    | mk best base =>
      rw [hget] at hgood hsame hbest
      obtain ⟨hgood', hsame'⟩ := saplingGood_base hview hgood hsame
      refine ⟨saplingGood_hash hgood' best, ?_, hbest.trans hshown.symm⟩
      rw [← hsame']
      -- loading the hash shows what was shown through the null hash
      refine SaplingState.ext rfl rfl ?_
      show (if best = 0 then (LawfulSaplingView.sapling base).bestAnchor else best) =
        SaplingState.bestAnchor _
      rw [hsame', hshown, show LawfulSaplingView.sapling base = _ from hsame,
        show best = _ from hbest]
      exact ite_self _
  · exact ⟨hview, rfl, (if_neg hnull).symm⟩

theorem getSaplingAnchorAt_spec (rt : UInt256) : (view.getSaplingAnchorAt rt).2.SaplingGood ∧
      (view.getSaplingAnchorAt rt).2.sapling = view.sapling ∧
      (view.getSaplingAnchorAt rt).1 = view.sapling.anchors rt := by
  unfold getSaplingAnchorAt
  cases hit : view.cacheSaplingAnchors.lookup rt with
  | some it =>
    refine ⟨hview, rfl, ?_⟩
    show _ = seen (view.cacheSaplingAnchors.lookup rt) _
    rw [hit, seen_some, shown_anchor]
  | none =>
    obtain ⟨hgood, hsame, htree⟩ := LawfulSaplingView.getSaplingAnchorAt_spec rt hview.1
    have hmiss : view.sapling.anchors rt = (LawfulSaplingView.sapling view.base).anchors rt := by
      show seen (view.cacheSaplingAnchors.lookup rt) _ = _
      rw [hit, seen_none]
    cases hget : CCoinsView.getSaplingAnchorAt view.base rt with
    | mk r base =>
      rw [hget] at hgood hsame htree
      obtain ⟨hgood', hsame'⟩ := saplingGood_base hview hgood hsame
      cases r with
      | none => exact ⟨hgood', hsame', htree.trans hmiss.symm⟩
      | some tree =>
        have hsome : some tree = (LawfulSaplingView.sapling view.base).anchors rt := htree
        have hslot : Faithful (some (⟨true, tree, false⟩ : CAnchorsSaplingCacheEntry))
            ((LawfulSaplingView.sapling base).anchors rt) := by
          rw [show LawfulSaplingView.sapling base = _ from hsame]
          exact faithful_anchor.2 fun _ => hsome
        refine ⟨saplingGood_putAnchor hgood' hslot, ?_, hsome.trans hmiss.symm⟩
        rw [← hsame']
        refine SaplingState.ext (overlay_put_of_seen (p := some _) ?_) rfl rfl
        show some tree = seen (view.cacheSaplingAnchors.lookup rt) _
        rw [hit]
        exact hsome.trans (congrArg (fun st : SaplingState => st.anchors rt) hsame.symm)

theorem getNullifier_spec (nf : UInt256) :
    (view.getNullifier nf).2.SaplingGood ∧ (view.getNullifier nf).2.sapling = view.sapling ∧
      (view.getNullifier nf).1 = (view.sapling.nullifiers nf).isSome := by
  unfold getNullifier
  cases hit : view.cacheSaplingNullifiers.lookup nf with
  | some it =>
    refine ⟨hview, rfl, ?_⟩
    show it.entered = (seen (view.cacheSaplingNullifiers.lookup nf) _).isSome
    rw [hit, seen_some, shown_nullifier]
    cases it.entered <;> rfl
  | none =>
    obtain ⟨hgood, hsame, htmp⟩ := LawfulSaplingView.getNullifier_spec nf hview.1
    have hmiss : view.sapling.nullifiers nf =
        (LawfulSaplingView.sapling view.base).nullifiers nf := by
      show seen (view.cacheSaplingNullifiers.lookup nf) _ = _
      rw [hit, seen_none]
    cases hget : CCoinsView.getNullifier view.base nf with
    | mk tmp base =>
      rw [hget] at hgood hsame htmp
      obtain ⟨hgood', hsame'⟩ := saplingGood_base hview hgood hsame
      have hshown : (if tmp = true then some () else none) =
          (LawfulSaplingView.sapling base).nullifiers nf := by
        rw [show LawfulSaplingView.sapling base = _ from hsame, show tmp = _ from htmp]
        cases (LawfulSaplingView.sapling view.base).nullifiers nf <;> rfl
      refine ⟨saplingGood_putNullifier hgood' (faithful_nullifier.2 fun _ => hshown), ?_, ?_⟩
      · rw [← hsame']
        refine SaplingState.ext rfl (overlay_put_of_seen (p := some _) ?_) rfl
        show (if tmp = true then some () else none) =
          seen (view.cacheSaplingNullifiers.lookup nf) _
        rw [hit]
        exact hshown
      · rw [hmiss]
        exact htmp

end CCoinsViewCache

/-! ## Changes -/

namespace SaplingState

variable [MerkleHash UInt256] (st : SaplingState)

def setNullifier (spent : Bool) (nf : UInt256) : SaplingState :=
  { st with nullifiers := Function.update st.nullifiers nf (if spent then some () else none) }

def push (tree : SaplingMerkleTree) : SaplingState :=
  if st.bestAnchor = root tree then st
  else
    { st with
      anchors := Function.update st.anchors (root tree) (some tree)
      bestAnchor := root tree }

/-- Remove the best anchor, which must be known, and go back to `newrt`. -/
def pop (newrt : UInt256) : Option SaplingState :=
  if st.bestAnchor = newrt then some st
  else if st.anchors st.bestAnchor = none then none
  else
    some { st with
      anchors := Function.update st.anchors st.bestAnchor none
      bestAnchor := newrt }

end SaplingState

namespace CCoinsViewCache

variable {σ : Type} [CCoinsView σ] [LawfulSaplingView σ] {view : CCoinsViewCache σ}

section

variable (hview : view.SaplingGood)

include hview

theorem setNullifier_spec (spent : Bool) (nf : UInt256) : (view.setNullifier spent nf).SaplingGood ∧
      (view.setNullifier spent nf).sapling = view.sapling.setNullifier spent nf := by
  refine ⟨saplingGood_putNullifier (p := some ⟨spent, true⟩) hview
    (faithful_nullifier.2 nofun), SaplingState.ext rfl ?_ rfl⟩
  exact overlay_put view.cacheSaplingNullifiers _ nf (some ⟨spent, true⟩)

/-- What `SetNullifiers` does to the state. -/
def setNullifiersSpec (st : SaplingState) (tx : CTransaction) (spent : Bool) : SaplingState :=
  match tx.sapData with
  | none => st
  | some d => d.vShieldedSpend.foldl (fun st s => st.setNullifier spent s.nullifier) st

theorem setNullifiers_spec (tx : CTransaction) (spent : Bool) :
    (view.setNullifiers tx spent).SaplingGood ∧
      (view.setNullifiers tx spent).sapling = setNullifiersSpec view.sapling tx spent := by
  unfold setNullifiers setNullifiersSpec
  cases tx.sapData with
  | none => exact ⟨hview, rfl⟩
  | some d =>
    simp only
    induction d.vShieldedSpend generalizing view with
    | nil => exact ⟨hview, rfl⟩
    | cons s l ih =>
      obtain ⟨hgood, hstate⟩ := setNullifier_spec hview spent s.nullifier
      obtain ⟨hgood', hstate'⟩ := ih hgood
      exact ⟨hgood', by rw [List.foldl_cons, List.foldl_cons, hstate', hstate]⟩

theorem pushAnchor_spec [MerkleHash UInt256] (tree : SaplingMerkleTree) :
    (view.pushAnchor tree).SaplingGood ∧
      (root tree ≠ 0 →
        (view.pushAnchor tree).sapling = view.sapling.push tree) := by
  obtain ⟨hgood, hsame, hbest⟩ := getBestAnchor_spec hview
  unfold pushAnchor SaplingState.push
  rw [← hbest]
  cases hget : view.getBestAnchor with
  | mk currentRoot view' =>
    rw [hget] at hgood hsame
    by_cases hcur : currentRoot = root tree
    · simp only [hcur, ne_eq]
      exact ⟨hgood, fun _ => hsame⟩
    · simp only [hcur, ne_eq]
      refine ⟨saplingGood_hash (saplingGood_putAnchor (p := some ⟨true, tree, true⟩) hgood
        (faithful_anchor.2 nofun)) _, fun hroot => ?_⟩
      rw [← hsame]
      refine SaplingState.ext (anchors_putAnchor view' _ (some ⟨true, tree, true⟩)) rfl ?_
      exact if_neg hroot

theorem popAnchor_spec (newrt : UInt256) :
    (view.sapling.pop newrt = none → view.popAnchor newrt = .error .anchorNotFound) ∧
      ∀ st, view.sapling.pop newrt = some st →
        ∃ view', view.popAnchor newrt = .ok view' ∧ view'.SaplingGood ∧
          (newrt ≠ 0 → view'.sapling = st) := by
  obtain ⟨hgood, hsame, hbest⟩ := getBestAnchor_spec hview
  unfold popAnchor SaplingState.pop
  rw [← hbest]
  cases hget : view.getBestAnchor with
  | mk currentRoot view' =>
    rw [hget] at hgood hsame
    rw [← hsame]
    by_cases hcur : currentRoot = newrt
    · simp [hcur, hgood]
    · obtain ⟨hgood2, hsame2, htree⟩ := getSaplingAnchorAt_spec hgood currentRoot
      simp only [hcur, ne_eq]
      rw [← htree]
      cases hat : view'.getSaplingAnchorAt currentRoot with
      | mk r view2 =>
        rw [hat] at hgood2 hsame2
        cases r with
        | none => simp
        | some tree =>
          refine ⟨by simp, ?_⟩
          rintro st ⟨rfl⟩
          refine ⟨_, rfl, saplingGood_hash (saplingGood_putAnchor (p := some ⟨false, tree, true⟩)
            hgood2 (faithful_anchor.2 nofun)) _, fun hnew => ?_⟩
          rw [← show view2.sapling = view'.sapling from hsame2]
          refine SaplingState.ext (anchors_putAnchor view2 _ (some ⟨false, tree, true⟩)) rfl ?_
          exact if_neg hnew

end

/-! ## Writing a child's entries into a cache -/

/-- What is seen at a root after an entry was merged into the slot `p`: a tree that is there
already stays. -/
def anchorAfter (p : Option CAnchorsSaplingCacheEntry) (e : CAnchorsSaplingCacheEntry) :
    Option SaplingMerkleTree :=
  if e.entered then
    if e.dirty then some (p.elim e.tree CAnchorsSaplingCacheEntry.tree) else some e.tree
  else none

theorem batchWriteAnchor_spec {p : Option CAnchorsSaplingCacheEntry}
    {e : CAnchorsSaplingCacheEntry} {b : Option SaplingMerkleTree} (hp : Faithful p b)
    (he : Faithful (some e) (seen p b)) :
    ∃ r, batchWriteAnchor p e = .ok r ∧ Faithful r b ∧ seen r b = anchorAfter p e := by
  have hclean := faithful_anchor.1 he
  unfold batchWriteAnchor anchorAfter
  cases hd : e.dirty with
  | false => exact ⟨p, by simp, hp, by simpa using (hclean hd).symm⟩
  | true =>
    cases p with
    | none => exact ⟨some ⟨e.entered, e.tree, true⟩, by simp, faithful_anchor.2 (by simp), by simp⟩
    | some q =>
      by_cases hent : q.entered = e.entered
      · exact ⟨some q, by simp [hent], hp, by simp [hent]⟩
      · exact ⟨some { q with entered := e.entered, dirty := true }, by simp [hent],
          faithful_anchor.2 (by simp), by simp⟩

theorem batchWriteNullifier_spec {p : Option CNullifiersCacheEntry} {e : CNullifiersCacheEntry}
    {b : Option Unit} (hp : Faithful p b) (he : Faithful (some e) (seen p b)) :
    ∃ r, batchWriteNullifier p e = .ok r ∧ Faithful r b ∧ seen r b = CacheEntry.shown e := by
  have hclean := faithful_nullifier.1 he
  unfold batchWriteNullifier
  cases hd : e.dirty with
  | false => exact ⟨p, by simp, hp, (hclean hd).symm⟩
  | true =>
    cases p with
    | none => exact ⟨some ⟨e.entered, true⟩, by simp, faithful_nullifier.2 (by simp), by simp⟩
    | some q =>
      by_cases hent : q.entered = e.entered
      · exact ⟨some q, by simp [hent], hp, by simp [hent]⟩
      · exact ⟨some { q with entered := e.entered, dirty := true }, by simp [hent],
          faithful_nullifier.2 (by simp), by simp⟩

/-- The batches that a cache takes over as they are: the best anchor is written, or the cache
shows that of its base anyway; and where the batch enters a tree at a root that the cache has, it
is the same tree. -/
def SaplingAccepts (view : CCoinsViewCache σ) (b : CoinsBatch) : Prop :=
  (b.hashSaplingAnchor ≠ 0 ∨ view.hashSaplingAnchor = 0 ∨
    view.hashSaplingAnchor = (LawfulSaplingView.sapling view.base).bestAnchor) ∧
  ∀ rt e q, b.mapSaplingAnchors.lookup rt = some e → e.dirty = true → e.entered = true →
    view.cacheSaplingAnchors.lookup rt = some q → q.tree = e.tree

variable {view' : CCoinsViewCache σ}

theorem anchorAfter_eq_shown_iff {p : Option CAnchorsSaplingCacheEntry}
    {e : CAnchorsSaplingCacheEntry} :
    anchorAfter p e = CacheEntry.shown e ↔
      (e.dirty = true → e.entered = true → ∀ q, p = some q → q.tree = e.tree) := by
  rw [shown_anchor]
  unfold anchorAfter
  cases e.entered <;> cases e.dirty <;> rcases p with _ | q <;> simp

variable (hview : view.SaplingGood)

include hview

/-- **What `BatchWrite` leaves in the Sapling part of a cache**, whatever the batch. -/
theorem batchWrite_sapling {b : CoinsBatch}
    (hb : b.SaplingSound view.sapling) {fOk : Bool} (hw : view.batchWrite b = .ok (fOk, view')) :
    view'.SaplingGood ∧ view'.sapling.nullifiers = (view.sapling.write b).nullifiers ∧
      view'.sapling.bestAnchor =
        (if b.hashSaplingAnchor = 0 then (LawfulSaplingView.sapling view.base).bestAnchor
        else b.hashSaplingAnchor) ∧
      ∀ rt, view'.sapling.anchors rt = (b.mapSaplingAnchors.lookup rt).elim
        (view.sapling.anchors rt) (anchorAfter (view.cacheSaplingAnchors.lookup rt)) := by
  obtain ⟨hbase, hsa, hsn⟩ := hview
  obtain ⟨anchors, ha, hsa', hanchors⟩ :=
    mergeM_spec
      (fun rt => anchorAfter (view.cacheSaplingAnchors.lookup rt)) hsa
      fun rt e he => batchWriteAnchor_spec (hsa rt) (he ▸ hb.1 rt)
  obtain ⟨nullifiers, hn, hsn', hnullifiers⟩ :=
    sound_mergeM hsn fun nf e he =>
      batchWriteNullifier_spec (hsn nf) (he ▸ hb.2 nf)
  cases hm : Map.mergeM batchWriteCoin b.mapCoins view.cacheCoins with
  | error e => simp [batchWrite, hm, bind, Except.bind] at hw
  | ok cacheCoins =>
    rw [batchWrite_eq hm ha hn] at hw
    cases hw
    exact ⟨⟨hbase, hsa', hsn'⟩, hnullifiers, rfl, hanchors⟩

/-- **The exact condition.** After `BatchWrite` a cache shows its old state with the batch
written to it if and only if it accepts the batch. -/
theorem batchWrite_sapling_iff {b : CoinsBatch}
    (hb : b.SaplingSound view.sapling) {fOk : Bool} (hw : view.batchWrite b = .ok (fOk, view')) :
    view'.sapling = view.sapling.write b ↔ view.SaplingAccepts b := by
  obtain ⟨-, hnull, hbest, hanchors⟩ := batchWrite_sapling hview hb hw
  have hwrite : ∀ rt, (view.sapling.write b).anchors rt =
      (b.mapSaplingAnchors.lookup rt).elim (view.sapling.anchors rt) CacheEntry.shown := by
    intro rt
    show overlay _ _ rt = _
    unfold overlay
    cases b.mapSaplingAnchors.lookup rt <;> rfl
  have hparts : view'.sapling = view.sapling.write b ↔
      view'.sapling.bestAnchor = (view.sapling.write b).bestAnchor ∧
        view'.sapling.anchors = (view.sapling.write b).anchors :=
    ⟨fun h => h ▸ ⟨rfl, rfl⟩, fun h => SaplingState.ext h.2 hnull h.1⟩
  -- the two parts of the condition are about the best anchor and about the trees
  refine hparts.trans (and_congr ?_ ?_)
  · rw [hbest]
    show _ = (if b.hashSaplingAnchor = 0 then
      (if view.hashSaplingAnchor = 0 then (LawfulSaplingView.sapling view.base).bestAnchor
      else view.hashSaplingAnchor) else b.hashSaplingAnchor) ↔ _
    by_cases h1 : b.hashSaplingAnchor = 0
    · by_cases h2 : view.hashSaplingAnchor = 0
      · simp [h2]
      · simp only [h1, h2, ne_eq, not_true_eq_false, false_or]
        exact eq_comm
    · simp only [h1, if_false, ne_eq, not_false_eq_true, true_or]
  · constructor
    · intro h rt e q he hd hent hq
      have hrt := congrFun h rt
      rw [hanchors, hwrite, he] at hrt
      exact anchorAfter_eq_shown_iff.1 hrt hd hent q hq
    · intro h
      funext rt
      rw [hanchors, hwrite]
      cases he : b.mapSaplingAnchors.lookup rt with
      | none => rfl
      | some e => exact anchorAfter_eq_shown_iff.2 fun hd hent q hq => h rt e q he hd hent hq

/-- **A cache over a lawful view is a lawful view** for the batches it accepts. -/
instance : LawfulSaplingView (CCoinsViewCache σ) where
  Good := SaplingGood
  sapling := sapling
  Accepts := SaplingAccepts
  getSaplingAnchorAt_spec rt hs := getSaplingAnchorAt_spec hs rt
  getNullifier_spec nf hs := getNullifier_spec hs nf
  getBestAnchor_spec hs := getBestAnchor_spec hs
  batchWrite_spec hs hb hw :=
    ⟨(batchWrite_sapling hs hb hw).1, (batchWrite_sapling_iff hs hb hw).2⟩

theorem flush_sapling (hf : view.flush = .ok (true, view')) :
    view'.SaplingGood ∧ (LawfulSaplingView.Accepts view.base view.toBatch →
      LawfulSaplingView.sapling view'.base = view.sapling ∧ view'.sapling = view.sapling) := by
  unfold flush at hf
  cases hw : CCoinsView.batchWrite view.base view.toBatch with
  | error e => simp [hw] at hf
  | ok r =>
    obtain ⟨fOk, base⟩ := r
    obtain ⟨rfl, rfl⟩ : fOk = true ∧ _ = view' := by
      simpa [hw, bind, Except.bind, pure, Except.pure] using hf
    obtain ⟨hgood, hstate⟩ := LawfulSaplingView.batchWrite_spec hview.1 hview.2 hw
    refine ⟨⟨hgood, sound_empty _, sound_empty _⟩, fun hacc => ?_⟩
    have hbase : LawfulSaplingView.sapling base = view.sapling := hstate hacc
    refine ⟨hbase, SaplingState.ext (congrArg SaplingState.anchors hbase :)
      (congrArg SaplingState.nullifiers hbase :) ?_⟩
    -- the cache keeps its hash, which the base now has too
    show (if view.hashSaplingAnchor = 0 then (LawfulSaplingView.sapling base).bestAnchor
      else view.hashSaplingAnchor) = _
    rw [hbase]
    show _ = (if view.hashSaplingAnchor = 0 then _ else view.hashSaplingAnchor)
    split_ifs with h
    · exact if_pos h
    · rfl

end CCoinsViewCache

end Passion
