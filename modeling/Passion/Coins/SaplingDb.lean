import Passion.Coins.SaplingRefinement

/-!
# The Sapling part of the coin database

`CCoinsViewDB` as the bottom of a stack, for anchors, nullifiers and the best anchor. It accepts
every batch that leaves the anchor of the empty tree alone: that anchor is never stored, and the
database answers for it in any case.
-/

namespace Passion

open Lib (Map)
open SaplingMerkleTree (emptyRoot)
open List
open Lib.WriteBack

namespace CCoinsViewDB

variable [MerkleHash UInt256]

/-! ## Anchors -/

/-- What is stored at `rt` after the operations for the entry `e`. -/
def anchorStored (rt : UInt256) (old : Option SaplingMerkleTree) (e : CAnchorsSaplingCacheEntry) :
    Option SaplingMerkleTree :=
  if !e.dirty then old
  else if !e.entered then none
  else if rt = emptyRoot then old
  else some e.tree

theorem lookup_anchorOps (db : CCoinsViewDB)
    (kv : Sigma fun _ : UInt256 => CAnchorsSaplingCacheEntry) (rt : UInt256) :
    ((anchorOps kv).foldl applyOp db).anchors.lookup rt =
      if rt = kv.1 then anchorStored rt (db.anchors.lookup rt) kv.2
      else db.anchors.lookup rt := by
  by_cases hrt : rt = kv.1
  · rw [if_pos hrt, hrt]
    unfold anchorOps anchorStored
    split_ifs <;> simp [applyOp]
  · rw [if_neg hrt]
    unfold anchorOps
    split_ifs
    · rfl
    · exact Map.lookup_put_ne db.anchors none hrt
    · rfl
    · exact Map.lookup_put_ne db.anchors (some _) hrt

omit [MerkleHash UInt256] in
theorem lookup_nullifierOps (db : CCoinsViewDB)
    (kv : Sigma fun _ : UInt256 => CNullifiersCacheEntry) (nf : UInt256) :
    ((nullifierOps kv).foldl applyOp db).nullifiers.lookup nf =
      if nf = kv.1 then
        (if kv.2.dirty then (if kv.2.entered then some () else none)
        else db.nullifiers.lookup nf)
      else db.nullifiers.lookup nf := by
  unfold nullifierOps
  cases kv.2.dirty <;> cases kv.2.entered <;>
    simp [applyOp, Map.lookup_insert', Map.lookup_erase']

section

variable (db : CCoinsViewDB) (b : CoinsBatch)

/-- The operations around the Sapling ones have other tags. -/
theorem foldl_batches_sapling : ∃ db0, db0.anchors = db.anchors ∧ db0.nullifiers = db.nullifiers ∧
      db0.bestAnchor = db.bestAnchor ∧
      ((db.batches b).foldl writeBatch db).anchors =
        ((saplingOps b).foldl applyOp db0).anchors ∧
      ((db.batches b).foldl writeBatch db).nullifiers =
        ((saplingOps b).foldl applyOp db0).nullifiers ∧
      ((db.batches b).foldl writeBatch db).bestAnchor =
        ((saplingOps b).foldl applyOp db0).bestAnchor := by
  have hbefore := ((tagged_beginOps db b).append
    (.flatMap tagged_coinOps b.mapCoins.entries)).same db
  rw [foldl_batches, foldl_append, foldl_append]
  have hend := (tagged_endOps b).same ((saplingOps b).foldl applyOp
    ((db.beginOps b ++ b.mapCoins.entries.flatMap coinOps).foldl applyOp db))
  exact ⟨_, hbefore.anchors (by decide), hbefore.nullifiers (by decide),
    hbefore.bestAnchor (by decide), hend.anchors (by decide), hend.nullifiers (by decide),
    hend.bestAnchor (by decide)⟩

/-! ## What a batch leaves -/

theorem lookup_anchors_batches (rt : UInt256) :
    ((db.batches b).foldl writeBatch db).anchors.lookup rt =
      (b.mapSaplingAnchors.lookup rt).elim (db.anchors.lookup rt)
        (anchorStored rt (db.anchors.lookup rt)) := by
  obtain ⟨db0, h0, -, -, hanchors, -, -⟩ := foldl_batches_sapling db b
  rw [hanchors, saplingOps, foldl_append, foldl_append,
    ((tagged_bestAnchorOps b).same _).anchors (by decide),
    ((Tagged.flatMap tagged_nullifierOps _).same _).anchors (by decide), foldl_flatMap, ← h0]
  exact Map.read_foldl (fun db rt => db.anchors.lookup rt) anchorStored
    (fun db kv => (anchorOps kv).foldl applyOp db) lookup_anchorOps b.mapSaplingAnchors.entries
    b.mapSaplingAnchors.nodupKeys db0 rt

theorem lookup_nullifiers_batches (nf : UInt256) :
    ((db.batches b).foldl writeBatch db).nullifiers.lookup nf =
      (b.mapSaplingNullifiers.lookup nf).elim (db.nullifiers.lookup nf) fun e =>
        if e.dirty then (if e.entered then some () else none) else db.nullifiers.lookup nf := by
  obtain ⟨db0, -, h0, -, -, hnull, -⟩ := foldl_batches_sapling db b
  rw [hnull, saplingOps, foldl_append, foldl_append,
    ((tagged_bestAnchorOps b).same _).nullifiers (by decide), foldl_flatMap]
  refine (Map.read_foldl (fun db nf => db.nullifiers.lookup nf)
    (fun _ old e =>
      if e.dirty then (if e.entered then some () else none) else old)
    (fun db kv => (nullifierOps kv).foldl applyOp db) lookup_nullifierOps
    b.mapSaplingNullifiers.entries b.mapSaplingNullifiers.nodupKeys _ nf).trans ?_
  rw [((Tagged.flatMap tagged_anchorOps _).same _).nullifiers (by decide), h0]
  rfl

theorem bestAnchor_batches : ((db.batches b).foldl writeBatch db).bestAnchor =
      if b.hashSaplingAnchor = 0 then db.bestAnchor else some b.hashSaplingAnchor := by
  obtain ⟨db0, -, -, h0, -, -, hbest⟩ := foldl_batches_sapling db b
  rw [hbest, saplingOps, foldl_append]
  have hkeep := (((Tagged.flatMap tagged_anchorOps b.mapSaplingAnchors.entries).append
    (.flatMap tagged_nullifierOps b.mapSaplingNullifiers.entries)).same db0).bestAnchor (by decide)
  by_cases hnull : b.hashSaplingAnchor = 0
  · rw [if_pos hnull, if_neg (not_not.2 hnull)]
    exact hkeep.trans h0
  · rw [if_neg hnull, if_pos hnull]
    rfl

end

/-! ## The database as a lawful bottom view -/

def saplingState (db : CCoinsViewDB) : SaplingState where
  anchors := db.getSaplingAnchorAt
  nullifiers nf := db.nullifiers.lookup nf
  bestAnchor := db.getBestAnchor

/-- The batch leaves the anchor of the empty tree as the database answers it. -/
def SaplingAccepts (b : CoinsBatch) : Prop :=
  ∀ e, b.mapSaplingAnchors.lookup emptyRoot = some e →
    CacheEntry.shown e = some IncrementalMerkleTree.empty

theorem saplingState_batches {db : CCoinsViewDB} {b : CoinsBatch}
    (hb : b.SaplingSound db.saplingState) (hacc : SaplingAccepts b) :
    ((db.batches b).foldl writeBatch db).saplingState = db.saplingState.write b := by
  refine SaplingState.ext (funext fun rt => ?_) (funext fun nf => ?_) ?_
  · show (if rt = emptyRoot then some IncrementalMerkleTree.empty
      else ((db.batches b).foldl writeBatch db).anchors.lookup rt) =
        seen (b.mapSaplingAnchors.lookup rt) (db.saplingState.anchors rt)
    have hslot := hb.1 rt
    by_cases hempty : rt = emptyRoot
    · subst hempty
      rw [if_pos rfl]
      cases he : b.mapSaplingAnchors.lookup emptyRoot with
      | none => exact (if_pos rfl).symm
      | some e => exact (hacc e he).symm
    · have hold : db.saplingState.anchors rt = db.anchors.lookup rt := if_neg hempty
      rw [if_neg hempty, lookup_anchors_batches, hold]
      cases he : b.mapSaplingAnchors.lookup rt with
      | none => rfl
      | some e =>
        rw [he, hold] at hslot
        have hclean := faithful_anchor.1 hslot
        simp only [Option.elim_some, anchorStored, seen_some, shown_anchor, hempty]
        cases hd : e.dirty with
        | false => exact (hclean hd).symm
        | true => cases e.entered <;> rfl
  · show ((db.batches b).foldl writeBatch db).nullifiers.lookup nf =
      seen (b.mapSaplingNullifiers.lookup nf) (db.nullifiers.lookup nf)
    have hslot := hb.2 nf
    rw [lookup_nullifiers_batches]
    cases he : b.mapSaplingNullifiers.lookup nf with
    | none => rfl
    | some e =>
      rw [he] at hslot
      have hclean := faithful_nullifier.1 hslot
      simp only [Option.elim_some]
      cases hd : e.dirty with
      | false => exact (hclean hd).symm
      | true => rfl
  · show Option.getD _ _ = if _ then _ else _
    rw [bestAnchor_batches]
    split_ifs <;> rfl

instance : LawfulSaplingView CCoinsViewDB where
  Good _ := True
  sapling := saplingState
  Accepts _ := SaplingAccepts
  getSaplingAnchorAt_spec _ _ := ⟨trivial, rfl, rfl⟩
  getNullifier_spec _ _ := ⟨trivial, rfl, rfl⟩
  getBestAnchor_spec _ := ⟨trivial, rfl, rfl⟩
  batchWrite_spec := by
    intro db db' b _ hb hw
    refine ⟨trivial, fun hacc => ?_⟩
    have hw' : db.batchWrite b = .ok (true, db') := hw
    unfold batchWrite at hw'
    cases ha : db.batchWriteAsserts b with
    | error e => rw [ha] at hw'; cases hw'
    | ok u =>
      rw [ha] at hw'
      cases hw'
      exact saplingState_batches hb hacc

end CCoinsViewDB

end Passion
