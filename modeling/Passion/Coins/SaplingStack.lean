import Passion.Coins.SaplingDb

/-!
# Sapling operations on a stack of caches

Runs of the Sapling functions of `CCoinsViewCache` on the layers of a stack, as in
`Passion.Coins.Stack` for the coins: a layer is changed (or flushed) only while the caches above
it hold no Sapling entries. The question is what the parent of the top layer answers after a flush.

**`flush_keeps_sapling_answers_iff`**: it answers as the child did just before, if and only if
the child's best anchor was loaded (or the parent had none of its own, or the one below it), and
the two layers hold the same tree wherever the child enters one at a root the parent knows.
-/

namespace Passion

open Lib (Map)
open Except
open LawfulSaplingView
open Lib.WriteBack

inductive SaplingOp where
  | pushAnchor (tree : SaplingMerkleTree)
  | popAnchor (newrt : UInt256)
  | setNullifiers (tx : CTransaction) (spent : Bool)
  | getBestAnchor
  | getSaplingAnchorAt (rt : UInt256)
  | getNullifier (nullifier : UInt256)
  | flush

/-- The queries; the other operations change the layer. -/
def SaplingOp.isQuery : SaplingOp → Bool
  | getBestAnchor | getSaplingAnchorAt .. | getNullifier .. => true
  | _ => false

namespace CCoinsViewCache

variable {σ : Type} [CCoinsView σ] [MerkleHash UInt256]

/-- Run an operation; the Boolean is that of `Flush`. -/
def saplingExec (view : CCoinsViewCache σ) :
    SaplingOp → Except CoinsError (Bool × CCoinsViewCache σ)
  | .pushAnchor tree => .ok (true, view.pushAnchor tree)
  | .popAnchor newrt => (view.popAnchor newrt).map fun view => (true, view)
  | .setNullifiers tx spent => .ok (true, view.setNullifiers tx spent)
  | .getBestAnchor => .ok (true, view.getBestAnchor.2)
  | .getSaplingAnchorAt rt => .ok (true, (view.getSaplingAnchorAt rt).2)
  | .getNullifier nullifier => .ok (true, (view.getNullifier nullifier).2)
  | .flush => view.flush

variable [LawfulSaplingView σ] {view view' : CCoinsViewCache σ} {op : SaplingOp}

/-- **One step** keeps the flags truthful, and a query changes nothing that is shown. -/
theorem saplingExec_spec (hview : view.SaplingGood)
    (hexec : view.saplingExec op = .ok (true, view')) :
    view'.SaplingGood ∧ (op.isQuery = true → view'.sapling = view.sapling) := by
  cases op with
  | pushAnchor tree =>
    cases hexec
    exact ⟨(pushAnchor_spec hview tree).1, nofun⟩
  | popAnchor newrt =>
    obtain ⟨hnone, hsome⟩ := popAnchor_spec hview newrt
    cases hpop : view.sapling.pop newrt with
    | none => simp [saplingExec, hnone hpop, Except.map] at hexec
    | some st =>
      obtain ⟨v, hv, hgood, -⟩ := hsome st hpop
      obtain rfl : v = view' := by simpa [saplingExec, hv, Except.map] using hexec
      exact ⟨hgood, nofun⟩
  | setNullifiers tx spent =>
    cases hexec
    exact ⟨(setNullifiers_spec hview tx spent).1, nofun⟩
  | getBestAnchor =>
    cases hexec
    obtain ⟨hgood, hsame, -⟩ := getBestAnchor_spec hview
    exact ⟨hgood, fun _ => hsame⟩
  | getSaplingAnchorAt rt =>
    cases hexec
    obtain ⟨hgood, hsame, -⟩ := getSaplingAnchorAt_spec hview rt
    exact ⟨hgood, fun _ => hsame⟩
  | getNullifier nullifier =>
    cases hexec
    obtain ⟨hgood, hsame, -⟩ := getNullifier_spec hview nullifier
    exact ⟨hgood, fun _ => hsame⟩
  | flush => exact ⟨(flush_sapling hview hexec).1, nofun⟩

end CCoinsViewCache

/-! ## Layers -/

instance CoinsStack.instLawfulSapling {σ : Type} [CCoinsView σ] [LawfulSaplingView σ] :
    (n : Nat) → LawfulSaplingView (CoinsStack σ n)
  | 0 => inferInstanceAs (LawfulSaplingView σ)
  | n + 1 =>
    letI : LawfulSaplingView (CoinsStack σ n) := CoinsStack.instLawfulSapling n
    inferInstanceAs (LawfulSaplingView (CCoinsViewCache (CoinsStack σ n)))

open CCoinsViewCache

namespace LayerOp

variable {σ : Type} [CCoinsView σ] [MerkleHash UInt256]

def applySapling {n : Nat} (op : LayerOp SaplingOp n) (s : CoinsStack σ n) :
    Except CoinsError (Bool × CoinsStack σ n) :=
  op.applyWith saplingExec s

theorem applySapling_lower {n : Nat} (op : LayerOp SaplingOp n) (s : CoinsStack σ (n + 1)) :
    (lower op).applySapling s = (op.applySapling s.base).map fun r =>
      ((r.1, { s with base := r.2 }) : Bool × CCoinsViewCache (CoinsStack σ n)) := rfl

/-- A layer is changed only while the caches above it hold no Sapling entries. -/
def SaplingLegal : {n : Nat} → LayerOp SaplingOp n → CoinsStack σ n → Prop
  | _ + 1, top _, _ => True
  | _ + 1, lower op, s =>
    (op.toOp.isQuery = false → s.cacheSaplingAnchors = ∅ ∧ s.cacheSaplingNullifiers = ∅) ∧
      op.SaplingLegal s.base

variable [LawfulSaplingView σ]

open LawfulSaplingView

theorem applySapling_spec : {n : Nat} → (op : LayerOp SaplingOp n) → {s s' : CoinsStack σ n} →
    Good s → op.SaplingLegal s → op.applySapling s = .ok (true, s') →
    Good s' ∧ (op.toOp.isQuery = true → sapling s' = sapling s)
  | _ + 1, top op, s, s', hs, _, happ =>
    saplingExec_spec hs (show saplingExec s op = .ok (true, s') from happ)
  | n + 1, lower op, s, s', hs, hlegal, happ => by
    rw [applySapling_lower] at happ
    cases hbase : op.applySapling s.base with
    | error e => rw [hbase] at happ; cases happ
    | ok r =>
      obtain ⟨fOk, b⟩ := r
      rw [hbase] at happ
      cases happ
      obtain ⟨hgood, hsame⟩ := op.applySapling_spec hs.1 hlegal.2 hbase
      cases hq : op.toOp.isQuery with
      | true =>
        obtain ⟨hgood', hsame'⟩ := saplingGood_base hs hgood (hsame hq)
        exact ⟨hgood', fun _ => hsame'⟩
      | false =>
        -- nothing is cached above the layer that changes
        obtain ⟨ha, hn⟩ := hlegal.1 hq
        refine ⟨⟨hgood, ?_, ?_⟩, fun h => absurd (hq.symm.trans h) (by simp)⟩
        · show Sound s.cacheSaplingAnchors _
          rw [ha]
          exact sound_empty _
        · show Sound s.cacheSaplingNullifiers _
          rw [hn]
          exact sound_empty _

end LayerOp

/-! ## Runs -/

namespace CoinsStack

variable {σ : Type}

def NoCoins : {n : Nat} → CoinsStack σ n → Prop
  | 0, _ => True
  | _ + 1, s => s.cacheCoins = ∅ ∧ NoCoins s.base

theorem noCoins_new (b : σ) : (n : Nat) → NoCoins (new b n)
  | 0 => trivial
  | n + 1 => ⟨rfl, noCoins_new b n⟩

variable {n : Nat}

theorem noCoins_setNullifiers {s : CoinsStack σ (n + 1)} (hs : NoCoins s) (tx : CTransaction)
    (spent : Bool) :
    @NoCoins σ (n + 1) (setNullifiers s tx spent) := by
  unfold setNullifiers
  cases tx.sapData with
  | none => exact hs
  | some d =>
    simp only
    induction d.vShieldedSpend generalizing s with
    | nil => exact hs
    | cons nf l ih => exact ih hs

variable [CCoinsView σ]

/-- The states along a legal run of Sapling operations; a run ends where a flush fails or an
assertion does. -/
inductive SaplingReach [MerkleHash UInt256] {n : Nat} (s₀ : CoinsStack σ n) :
    CoinsStack σ n → Prop where
  | start : SaplingReach s₀ s₀
  | step {s s' : CoinsStack σ n} (hs : SaplingReach s₀ s) (op : LayerOp SaplingOp n)
      (hlegal : op.SaplingLegal s) (happly : op.applySapling s = .ok (true, s')) :
      SaplingReach s₀ s'

theorem noCoins_getBestAnchor : {n : Nat} → {s : CoinsStack σ n} → NoCoins s →
    NoCoins (CCoinsView.getBestAnchor s).2
  | 0, _, _ => trivial
  | n + 1, s, hs => by
    show @NoCoins σ (n + 1) (getBestAnchor s).2
    unfold getBestAnchor
    split_ifs
    · exact ⟨hs.1, noCoins_getBestAnchor hs.2⟩
    · exact hs

theorem noCoins_getSaplingAnchorAt (rt : UInt256) : {n : Nat} → {s : CoinsStack σ n} →
    NoCoins s → NoCoins (CCoinsView.getSaplingAnchorAt s rt).2
  | 0, _, _ => trivial
  | n + 1, s, hs => by
    show @NoCoins σ (n + 1) (getSaplingAnchorAt s rt).2
    have hbase := noCoins_getSaplingAnchorAt rt hs.2
    unfold getSaplingAnchorAt
    split
    · exact hs
    · split <;> rename_i hget <;> rw [hget] at hbase <;> exact ⟨hs.1, hbase⟩

theorem noCoins_getNullifier (nf : UInt256) : {n : Nat} → {s : CoinsStack σ n} →
    NoCoins s → NoCoins (CCoinsView.getNullifier s nf).2
  | 0, _, _ => trivial
  | n + 1, s, hs => by
    show @NoCoins σ (n + 1) (getNullifier s nf).2
    have hbase := noCoins_getNullifier nf hs.2
    unfold getNullifier
    split
    · exact hs
    · exact ⟨hs.1, hbase⟩

/-- Without coins, a batch goes through every cache, and leaves it without coins. -/
theorem noCoins_batchWrite : {n : Nat} → {s : CoinsStack σ (n + 1)} → NoCoins s →
    {b : CoinsBatch} → b.mapCoins = ∅ →
    ∃ s' : CoinsStack σ (n + 1), CCoinsView.batchWrite s b = .ok (true, s') ∧ NoCoins s'
  | n, s, hs, b, hb => by
    have hm : Map.mergeM batchWriteCoin b.mapCoins s.cacheCoins = .ok s.cacheCoins := by
      rw [hb]
      rfl
    obtain ⟨anchors, nullifiers, hw⟩ := exists_batchWrite hm
    exact ⟨_, hw, hs.1, hs.2⟩

theorem noCoins_flush : {n : Nat} → {s s' : CoinsStack σ (n + 1)} → NoCoins s →
    {fOk : Bool} → flush s = .ok (fOk, s') → NoCoins s'
  | n, s, s', hs, fOk, h => by
    unfold flush at h
    cases hw : CCoinsView.batchWrite s.base (toBatch s) with
    | error e => rw [hw] at h; cases h
    | ok r =>
      obtain ⟨f, base⟩ := r
      rw [hw] at h
      cases h
      refine ⟨rfl, ?_⟩
      cases n with
      | zero => exact trivial
      | succ n =>
        obtain ⟨base', hbase', hno⟩ :=
          noCoins_batchWrite hs.2 (b := toBatch s) hs.1
        cases hbase'.symm.trans hw
        exact hno

open LawfulSaplingView

theorem saplingGood_new [LawfulSaplingView σ] {b : σ} (hb : Good b) : (n : Nat) → Good (new b n)
  | 0 => hb
  | n + 1 => CCoinsViewCache.saplingGood_new (saplingGood_new hb n)

variable [MerkleHash UInt256]

theorem noCoins_saplingExec {s s' : CoinsStack σ (n + 1)} (hs : NoCoins s) {op : SaplingOp}
    (hexec : saplingExec s op = .ok (true, s')) :
    NoCoins s' := by
  cases op with
  | pushAnchor tree =>
    cases hexec
    have hbest := noCoins_getBestAnchor hs
    unfold pushAnchor
    simp only
    split_ifs
    · exact hbest
    · exact hbest
  | popAnchor newrt =>
    have hbest : @NoCoins σ (n + 1) (getBestAnchor s).2 :=
      noCoins_getBestAnchor hs
    simp only [saplingExec, popAnchor] at hexec
    split_ifs at hexec
    · have hat := noCoins_getSaplingAnchorAt (getBestAnchor s).1 hbest
      split at hexec
      · cases hexec
      · rename_i hget
        cases hexec
        have hat' : @NoCoins σ (n + 1) (getSaplingAnchorAt
          (getBestAnchor s).2 (getBestAnchor s).1).2 := hat
        rw [hget] at hat'
        exact hat'
    · cases hexec
      exact hbest
  | setNullifiers tx spent =>
    cases hexec
    exact noCoins_setNullifiers hs tx spent
  | getBestAnchor =>
    cases hexec
    exact noCoins_getBestAnchor hs
  | getSaplingAnchorAt rt =>
    cases hexec
    exact noCoins_getSaplingAnchorAt rt hs
  | getNullifier nullifier =>
    cases hexec
    exact noCoins_getNullifier nullifier hs
  | flush => exact noCoins_flush hs hexec

theorem noCoins_applySapling : {n : Nat} → (op : LayerOp SaplingOp n) →
    {s s' : CoinsStack σ n} → NoCoins s → op.applySapling s = .ok (true, s') → NoCoins s'
  | _ + 1, .top op, s, s', hs, happ =>
    noCoins_saplingExec hs (show saplingExec s op = .ok (true, s') from happ)
  | n + 1, .lower op, s, s', hs, happ => by
    rw [LayerOp.applySapling_lower] at happ
    cases hbase : op.applySapling s.base with
    | error e => rw [hbase] at happ; cases happ
    | ok r =>
      rw [hbase] at happ
      obtain ⟨hok, rfl⟩ := Prod.mk.inj (ok.inj happ)
      exact ⟨hs.1, noCoins_applySapling op hs.2 (hbase.trans (by rw [← hok]))⟩

/-- **A whole run** keeps the flags of every layer truthful. -/
theorem SaplingReach.good [LawfulSaplingView σ] {b : σ} (hb : Good b) {s : CoinsStack σ n}
    (h : SaplingReach (new b n) s) : Good s ∧ NoCoins s := by
  induction h with
  | start => exact ⟨saplingGood_new hb n, noCoins_new b n⟩
  | step hs op hlegal happly ih =>
    exact ⟨(op.applySapling_spec ih.1 hlegal happly).1, noCoins_applySapling op ih.2 happly⟩

end CoinsStack

/-! ## What the parent answers after a flush -/

/-- What a view answers to `GetBestAnchor`, `GetSaplingAnchorAt` and `GetNullifier`. -/
def saplingAnswers {τ : Type} [CCoinsView τ] (v : τ) :
    UInt256 × (UInt256 → Option SaplingMerkleTree) × (UInt256 → Bool) :=
  ((CCoinsView.getBestAnchor v).1, fun rt => (CCoinsView.getSaplingAnchorAt v rt).1,
    fun nf => (CCoinsView.getNullifier v nf).1)

theorem saplingAnswers_eq_iff {τ τ' : Type} [CCoinsView τ] [CCoinsView τ'] [LawfulSaplingView τ]
    [LawfulSaplingView τ'] {v : τ} {w : τ'} (hv : Good v)
    (hw : Good w) :
    saplingAnswers v = saplingAnswers w ↔
      sapling v = sapling w := by
  have hunit : ∀ a b : Option Unit, a.isSome = b.isSome ↔ a = b := by
    intro a b
    cases a <;> cases b <;> simp
  simp only [saplingAnswers, (getBestAnchor_spec hv).2.2, (getBestAnchor_spec hw).2.2,
    (getSaplingAnchorAt_spec _ hv).2.2,
    (getSaplingAnchorAt_spec _ hw).2.2,
    (getNullifier_spec _ hv).2.2,
    (getNullifier_spec _ hw).2.2, Prod.mk.injEq, SaplingState.ext_iff,
    funext_iff, hunit]
  tauto

namespace CCoinsViewCache

/-- The flush of a child into a parent cache hands over what the child shows: the child has a best
anchor of its own, or the parent has none or that of its base; and the two hold the same tree
wherever the child enters one at a root for which the parent has an entry. -/
def HandsOver {σ : Type} [CCoinsView σ] (child : CCoinsViewCache (CCoinsViewCache σ)) : Prop :=
  (child.hashSaplingAnchor ≠ 0 ∨ child.base.hashSaplingAnchor = 0 ∨
    child.base.hashSaplingAnchor = (CCoinsView.getBestAnchor child.base.base).1) ∧
  ∀ rt e q, child.cacheSaplingAnchors.lookup rt = some e → e.dirty = true → e.entered = true →
    child.base.cacheSaplingAnchors.lookup rt = some q → q.tree = e.tree

theorem handsOver_iff {σ : Type} [CCoinsView σ] [LawfulSaplingView σ]
    {child : CCoinsViewCache (CCoinsViewCache σ)} (hchild : child.SaplingGood) :
    child.HandsOver ↔ child.base.SaplingAccepts child.toBatch := by
  have hbase : LawfulSaplingView.Good child.base.base := hchild.1.1
  unfold HandsOver SaplingAccepts
  rw [(LawfulSaplingView.getBestAnchor_spec hbase).2.2]
  exact Iff.rfl

end CCoinsViewCache

open CoinsStack in
/-- **Flushing the top layer.** In every state of a run over a stack of two or more caches the
flush into the parent goes through, and the parent then answers exactly as the child did just
before it if and only if the flush hands the child's state over. With one cache, the same holds
whenever the base accepts the batch. -/
theorem flush_keeps_sapling_answers_iff {σ : Type} [CCoinsView σ] [LawfulSaplingView σ]
    [MerkleHash UInt256] {b : σ} (hb : LawfulSaplingView.Good b) :
    (∀ {n : Nat} {s : CoinsStack σ (n + 2)}, SaplingReach (new b (n + 2)) s →
      ∃ s' : CCoinsViewCache (CCoinsViewCache (CoinsStack σ n)),
        CCoinsViewCache.flush s = .ok (true, s') ∧
        (saplingAnswers s'.base = saplingAnswers s ↔ CCoinsViewCache.HandsOver s)) ∧
    (∀ {s : CoinsStack σ 1} {s' : CCoinsViewCache σ}, SaplingReach (new b 1) s →
      CCoinsViewCache.flush s = .ok (true, s') →
      LawfulSaplingView.Accepts s.base (CCoinsViewCache.toBatch s) →
      saplingAnswers s'.base = saplingAnswers s) := by
  refine ⟨fun {n s} hs => ?_, fun {s s'} hs hflush hacc => ?_⟩
  · obtain ⟨hgood, hno⟩ := hs.good hb
    obtain ⟨p, hp, -⟩ := noCoins_batchWrite hno.2 (b := toBatch s) hno.1
    have hflush : flush s = .ok (true, { s with
        base := p
        cacheCoins := ∅
        cacheSaplingAnchors := ∅
        cacheSaplingNullifiers := ∅ }) := by
      unfold flush
      rw [hp]
      rfl
    refine ⟨_, hflush, ?_⟩
    obtain ⟨hgood', -, -, -⟩ := batchWrite_sapling hgood.1 hgood.2 hp
    rw [saplingAnswers_eq_iff hgood' hgood, handsOver_iff hgood]
    exact batchWrite_sapling_iff hgood.1 hgood.2 hp
  · obtain ⟨hgood, -⟩ := hs.good hb
    obtain ⟨hgood', hstate⟩ := flush_sapling hgood hflush
    exact (saplingAnswers_eq_iff hgood'.1 hgood).2 (hstate hacc).1

/-- The parent has entered a tree; the child has only asked for the best anchor, and its flush
leaves the parent's answers as they are. -/
theorem flush_keeps_sapling_answers_sample : letI := orHash
    ∃ (s s' : CCoinsViewCache (CCoinsViewCache CCoinsViewDB)),
      CoinsStack.SaplingReach (n := 2) (CoinsStack.new (.sample (.sample 1) (.sample 10)) 2) s ∧
      s.flush = .ok (true, s') ∧ saplingAnswers s'.base = saplingAnswers s ∧
      (CCoinsView.getBestAnchor s'.base).1 ≠ SaplingMerkleTree.emptyRoot := by
  let := orHash
  have h0 : CoinsStack.SaplingReach
      (CoinsStack.new (CCoinsViewDB.sample (.sample 1) (.sample 10)) 2) _ := .start
  have h1 := h0.step (.lower (.top (.pushAnchor ⟨some 7, none, []⟩)))
    ⟨fun _ => ⟨rfl, rfl⟩, trivial⟩ rfl
  have h2 := h1.step (.top .getBestAnchor) trivial rfl
  obtain ⟨s', hflush, hiff⟩ := (flush_keeps_sapling_answers_iff
    trivial).1 h2
  have hsame := hiff.2 ⟨.inl (by decide), fun rt e q he _ _ _ =>
    nomatch (show none = some e from he)⟩
  refine ⟨_, s', h2, hflush, hsame, fun h => ?_⟩
  exact absurd ((congrArg Prod.fst hsame).symm.trans h) (by decide)

/-- The parent has entered a tree that its base does not have yet, and the child has never asked
for the best anchor: flushing the child takes the parent's best anchor away. -/
theorem flush_of_untouched_child_loses_best_anchor : letI := orHash
    ∃ (s s' : CCoinsViewCache (CCoinsViewCache CCoinsViewDB)),
      CoinsStack.SaplingReach (n := 2) (CoinsStack.new (.sample (.sample 1) (.sample 10)) 2) s ∧
      s.flush = .ok (true, s') ∧
      (CCoinsView.getBestAnchor s).1 = SaplingMerkleTree.root ⟨some 7, none, []⟩ ∧
      (CCoinsView.getBestAnchor s'.base).1 = SaplingMerkleTree.emptyRoot ∧
      SaplingMerkleTree.root ⟨some 7, none, []⟩ ≠ SaplingMerkleTree.emptyRoot := by
  let := orHash
  have h0 : CoinsStack.SaplingReach
      (CoinsStack.new (CCoinsViewDB.sample (.sample 1) (.sample 10)) 2) _ := .start
  have h1 := h0.step (.lower (.top (.pushAnchor ⟨some 7, none, []⟩)))
    ⟨fun _ => ⟨rfl, rfl⟩, trivial⟩ rfl
  exact ⟨_, _, h1, rfl, by decide, by decide, by decide⟩

end Passion
