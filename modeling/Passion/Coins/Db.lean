import Passion.Coins.Refinement

/-!
# The coin database

`CCoinsViewDB` of `txdb.cpp` and `sapling/sapling_txdb.cpp`: a key-value store whose keys are
tagged by a leading character, modelled with one map (or one optional record) per tag.
`BatchWrite` hands the store a list of atomic batches. Where the list is cut depends on the size
estimate of a batch and on `-dbbatchsize`; the test `batchFull` stands for the two, and nothing
below assumes anything about it. A crash between two batches leaves the store with the batches
written so far.
-/

namespace Passion

open Lib (Map)
open List
open Lib.WriteBack

/-- One operation of a `CDBBatch`. -/
inductive DbOp where
  | writeCoin (outpoint : COutPoint) (coin : Coin)
  | eraseCoin (outpoint : COutPoint)
  | writeAnchor (rt : UInt256) (tree : SaplingMerkleTree)
  | eraseAnchor (rt : UInt256)
  | writeNullifier (nf : UInt256)
  | eraseNullifier (nf : UInt256)
  | writeBestAnchor (rt : UInt256)
  | writeBestBlock (hash : UInt256)
  | eraseBestBlock
  | writeHeadBlocks (hashes : List UInt256)
  | eraseHeadBlocks
  deriving DecidableEq, Repr

structure CCoinsViewDB where
  coins : Map COutPoint Coin
  anchors : Map UInt256 SaplingMerkleTree
  nullifiers : Map UInt256 Unit
  bestAnchor : Option UInt256
  bestBlock : Option UInt256
  headBlocks : Option (List UInt256)
  batchFull : List DbOp → Bool

open CCoinsViewDB

namespace CCoinsViewDB

def empty (batchFull : List DbOp → Bool) : CCoinsViewDB :=
  ⟨∅, ∅, ∅, none, none, none, batchFull⟩

/-! ## Reading -/

section

variable (db : CCoinsViewDB)

def getCoin (outpoint : COutPoint) : Option Coin := db.coins.lookup outpoint

def getBestBlock : UInt256 := db.bestBlock.getD 0

def getHeadBlocks : List UInt256 := db.headBlocks.getD []

/-- The anchor of the empty tree is always known. -/
def getSaplingAnchorAt [MerkleHash UInt256] (rt : UInt256) : Option SaplingMerkleTree :=
  if rt = SaplingMerkleTree.emptyRoot then some IncrementalMerkleTree.empty
  else db.anchors.lookup rt

def getNullifier (nf : UInt256) : Bool := (db.nullifiers.lookup nf).isSome

def getBestAnchor [MerkleHash UInt256] : UInt256 :=
  db.bestAnchor.getD SaplingMerkleTree.emptyRoot

end

/-! ## Writing -/

def applyOp (db : CCoinsViewDB) : DbOp → CCoinsViewDB
  | .writeCoin outpoint coin => { db with coins := db.coins.insert outpoint coin }
  | .eraseCoin outpoint => { db with coins := db.coins.erase outpoint }
  | .writeAnchor rt tree => { db with anchors := db.anchors.insert rt tree }
  | .eraseAnchor rt => { db with anchors := db.anchors.erase rt }
  | .writeNullifier nf => { db with nullifiers := db.nullifiers.insert nf () }
  | .eraseNullifier nf => { db with nullifiers := db.nullifiers.erase nf }
  | .writeBestAnchor rt => { db with bestAnchor := some rt }
  | .writeBestBlock hash => { db with bestBlock := some hash }
  | .eraseBestBlock => { db with bestBlock := none }
  | .writeHeadBlocks hashes => { db with headBlocks := some hashes }
  | .eraseHeadBlocks => { db with headBlocks := none }

/-- `db.WriteBatch(batch)`. -/
def writeBatch (db : CCoinsViewDB) (batch : List DbOp) : CCoinsViewDB := batch.foldl applyOp db

/-- The operations for one entry of `mapCoins`. -/
def coinOps (kv : Sigma fun _ : COutPoint => CCoinsCacheEntry) : List DbOp :=
  if !kv.2.dirty then []
  else if kv.2.coin.isSpent then [.eraseCoin kv.1]
  else [.writeCoin kv.1 kv.2.coin]

/-- The operations for one entry of `mapSaplingAnchors`. -/
def anchorOps [MerkleHash UInt256] (kv : Sigma fun _ : UInt256 => CAnchorsSaplingCacheEntry) :
    List DbOp :=
  if !kv.2.dirty then []
  else if !kv.2.entered then [.eraseAnchor kv.1]
  else if kv.1 = SaplingMerkleTree.emptyRoot then []
  else [.writeAnchor kv.1 kv.2.tree]

/-- The operations for one entry of `mapSaplingNullifiers`. -/
def nullifierOps (kv : Sigma fun _ : UInt256 => CNullifiersCacheEntry) : List DbOp :=
  if !kv.2.dirty then []
  else if !kv.2.entered then [.eraseNullifier kv.1]
  else [.writeNullifier kv.1]

/-- `BatchWriteSapling`; a null best anchor is not written. -/
def saplingOps [MerkleHash UInt256] (b : CoinsBatch) : List DbOp :=
  b.mapSaplingAnchors.entries.flatMap anchorOps ++
    b.mapSaplingNullifiers.entries.flatMap nullifierOps ++
    if b.hashSaplingAnchor ≠ 0 then [.writeBestAnchor b.hashSaplingAnchor] else []

/-- The coin loop of `BatchWrite`: the batches that are written on the way and the operations
still pending. -/
def coinBatches (batchFull : List DbOp → Bool) :
    List (Sigma fun _ : COutPoint => CCoinsCacheEntry) → List DbOp →
      List (List DbOp) × List DbOp
  | [], batch => ([], batch)
  | kv :: mapCoins, batch =>
    let batch := batch ++ coinOps kv
    if batchFull batch then
      let (written, pending) := coinBatches batchFull mapCoins []
      (batch :: written, pending)
    else coinBatches batchFull mapCoins batch

/-- The tip that the database is leaving; in the middle of a replay it is in the head record. -/
def oldTip (db : CCoinsViewDB) : UInt256 :=
  if db.getBestBlock = 0 then
    match db.getHeadBlocks with
    | [_, oldTip] => oldTip
    | _ => db.getBestBlock
  else db.getBestBlock

/-- The first operations: mark the database as being in transition to the new tip. -/
def beginOps (db : CCoinsViewDB) (b : CoinsBatch) : List DbOp :=
  [.eraseBestBlock, .writeHeadBlocks [b.hashBlock, db.oldTip]]

/-- The last operations: mark the database as consistent with the new tip again. -/
def endOps (b : CoinsBatch) : List DbOp := [.eraseHeadBlocks, .writeBestBlock b.hashBlock]

/-- All the batches of `BatchWrite`, in the order in which they are written. -/
def batches [MerkleHash UInt256] (db : CCoinsViewDB) (b : CoinsBatch) : List (List DbOp) :=
  let (written, pending) := coinBatches db.batchFull b.mapCoins.entries (db.beginOps b)
  written ++ [pending ++ saplingOps b ++ endOps b]

/-- The assertions of `BatchWrite`, before anything is written. -/
def batchWriteAsserts (db : CCoinsViewDB) (b : CoinsBatch) : Except CoinsError Unit :=
  if b.hashBlock = 0 then .error (.backend "!hashBlock.IsNull()")
  else if db.getBestBlock = 0 then
    match db.getHeadBlocks with
    | [head, _] =>
      if head = b.hashBlock then .ok () else .error (.backend "old_heads[0] == hashBlock")
    | _ => .ok ()
  else .ok ()

def batchWrite [MerkleHash UInt256] (db : CCoinsViewDB) (b : CoinsBatch) :
    Except CoinsError (Bool × CCoinsViewDB) := do
  db.batchWriteAsserts b
  return (true, (db.batches b).foldl writeBatch db)

instance [MerkleHash UInt256] : CCoinsView CCoinsViewDB where
  getCoin db outpoint := (db.getCoin outpoint, db)
  getBestBlock db := (db.getBestBlock, db)
  getSaplingAnchorAt db rt := (db.getSaplingAnchorAt rt, db)
  getNullifier db nf := (db.getNullifier nf, db)
  getBestAnchor db := (db.getBestAnchor, db)
  batchWrite := batchWrite

/-! ## How the batches are cut does not matter -/

theorem foldl_writeBatch (db : CCoinsViewDB) (bs : List (List DbOp)) :
    bs.foldl writeBatch db = bs.flatten.foldl applyOp db := by
  induction bs generalizing db with
  | nil => rfl
  | cons b bs ih =>
    rw [foldl_cons, ih, flatten_cons, foldl_append]
    rfl

theorem flatten_coinBatches (batchFull : List DbOp → Bool)
    (l : List (Sigma fun _ : COutPoint => CCoinsCacheEntry)) (batch : List DbOp) :
    (coinBatches batchFull l batch).1.flatten ++ (coinBatches batchFull l batch).2 =
      batch ++ l.flatMap coinOps := by
  induction l generalizing batch with
  | nil => simp [coinBatches]
  | cons kv l ih =>
    simp only [coinBatches]
    split_ifs with hfull
    · simpa using ih []
    · rw [ih, flatMap_cons, append_assoc]

theorem foldl_batches [MerkleHash UInt256] (db : CCoinsViewDB) (b : CoinsBatch) :
    (db.batches b).foldl writeBatch db =
      (db.beginOps b ++ b.mapCoins.entries.flatMap coinOps ++ saplingOps b ++ endOps b).foldl
        applyOp db := by
  rw [foldl_writeBatch]
  have h := flatten_coinBatches db.batchFull b.mapCoins.entries (db.beginOps b)
  simp only [batches, flatten_append, flatten_singleton, ← append_assoc]
  rw [h]

/-! ## What a list of operations leaves alone -/

/-- The leading character of the key that an operation writes. -/
inductive DbTag where
  | coin
  | saplingAnchor
  | saplingNullifier
  | bestSaplingAnchor
  | bestBlock
  | headBlocks
  deriving DecidableEq, Repr

def tag : DbOp → DbTag
  | .writeCoin .. | .eraseCoin .. => .coin
  | .writeAnchor .. | .eraseAnchor .. => .saplingAnchor
  | .writeNullifier .. | .eraseNullifier .. => .saplingNullifier
  | .writeBestAnchor .. => .bestSaplingAnchor
  | .writeBestBlock .. | .eraseBestBlock => .bestBlock
  | .writeHeadBlocks .. | .eraseHeadBlocks => .headBlocks

def Tagged (ts : List DbTag) (l : List DbOp) : Prop := ∀ op ∈ l, tag op ∈ ts

/-- The parts of the database that none of the tags names are the same. -/
structure Same (ts : List DbTag) (db db' : CCoinsViewDB) : Prop where
  coins : .coin ∉ ts → db'.coins = db.coins
  anchors : .saplingAnchor ∉ ts → db'.anchors = db.anchors
  nullifiers : .saplingNullifier ∉ ts → db'.nullifiers = db.nullifiers
  bestAnchor : .bestSaplingAnchor ∉ ts → db'.bestAnchor = db.bestAnchor

variable {ts ts' : List DbTag} {l l' : List DbOp} {db db' db'' : CCoinsViewDB}

theorem Same.trans (h : Same ts db db') (h' : Same ts db' db'') : Same ts db db'' where
  coins ht := (h'.coins ht).trans (h.coins ht)
  anchors ht := (h'.anchors ht).trans (h.anchors ht)
  nullifiers ht := (h'.nullifiers ht).trans (h.nullifiers ht)
  bestAnchor ht := (h'.bestAnchor ht).trans (h.bestAnchor ht)

theorem same_applyOp {op : DbOp} (h : tag op ∈ ts) : Same ts db (applyOp db op) := by
  cases op <;> constructor <;> intro ht <;> first | rfl | exact absurd h ht

theorem Tagged.same (h : Tagged ts l) (db : CCoinsViewDB) : Same ts db (l.foldl applyOp db) := by
  induction l generalizing db with
  | nil => exact ⟨fun _ => rfl, fun _ => rfl, fun _ => rfl, fun _ => rfl⟩
  | cons op l ih =>
    obtain ⟨hop, hl⟩ := forall_mem_cons.mp h
    exact (same_applyOp hop).trans (ih hl _)

theorem Tagged.append (h : Tagged ts l) (h' : Tagged ts' l') : Tagged (ts ++ ts') (l ++ l') :=
  forall_mem_append.mpr ⟨fun op hop => mem_append_left _ (h op hop),
    fun op hop => mem_append_right _ (h' op hop)⟩

theorem Tagged.flatMap {α : Type} {f : α → List DbOp} (h : ∀ a, Tagged ts (f a)) (as : List α) :
    Tagged ts (as.flatMap f) := by
  intro op hop
  obtain ⟨a, -, ha⟩ := mem_flatMap.1 hop
  exact h a op ha

theorem tagged_coinOps (kv : Sigma fun _ : COutPoint => CCoinsCacheEntry) :
    Tagged [.coin] (coinOps kv) := by
  unfold coinOps
  split_ifs <;> simp [Tagged, tag]

theorem tagged_anchorOps [MerkleHash UInt256]
    (kv : Sigma fun _ : UInt256 => CAnchorsSaplingCacheEntry) :
    Tagged [.saplingAnchor] (anchorOps kv) := by
  unfold anchorOps
  split_ifs <;> simp [Tagged, tag]

theorem tagged_nullifierOps (kv : Sigma fun _ : UInt256 => CNullifiersCacheEntry) :
    Tagged [.saplingNullifier] (nullifierOps kv) := by
  unfold nullifierOps
  split_ifs <;> simp [Tagged, tag]

variable (db) (b : CoinsBatch)

theorem tagged_beginOps : Tagged [.bestBlock, .headBlocks] (db.beginOps b) := by
  simp [Tagged, beginOps, tag]

theorem tagged_endOps : Tagged [.bestBlock, .headBlocks] (endOps b) := by
  simp [Tagged, endOps, tag]

theorem tagged_bestAnchorOps : Tagged [.bestSaplingAnchor]
      (if b.hashSaplingAnchor ≠ 0 then [.writeBestAnchor b.hashSaplingAnchor] else []) := by
  split_ifs <;> simp [Tagged, tag]

/-! ## The coins after a batch -/

/-- What the database holds at an outpoint after the operations for the entry `e`. -/
def coinAfter (old : Option Coin) (e : CCoinsCacheEntry) : Option Coin :=
  if e.dirty then e.coin.unspent? else old

theorem lookup_coinOps (db : CCoinsViewDB) (kv : Sigma fun _ : COutPoint => CCoinsCacheEntry)
    (o : COutPoint) :
    ((coinOps kv).foldl applyOp db).coins.lookup o =
      if o = kv.1 then coinAfter (db.coins.lookup o) kv.2 else db.coins.lookup o := by
  unfold coinOps coinAfter Coin.unspent?
  cases kv.2.dirty <;> cases kv.2.coin.isSpent <;>
    simp [applyOp, Map.lookup_insert', Map.lookup_erase']

theorem lookup_coins_foldl (db : CCoinsViewDB)
    (l : List (Sigma fun _ : COutPoint => CCoinsCacheEntry)) (hl : l.NodupKeys) (o : COutPoint) :
    ((l.flatMap coinOps).foldl applyOp db).coins.lookup o =
      (l.dlookup o).elim (db.coins.lookup o) (coinAfter (db.coins.lookup o)) := by
  rw [foldl_flatMap]
  exact Map.read_foldl (fun db o => db.coins.lookup o) (fun _ => coinAfter)
    (fun db kv => (coinOps kv).foldl applyOp db) lookup_coinOps l hl db o

/-- **The coins that `BatchWrite` leaves.** -/
theorem lookup_coins_batches [MerkleHash UInt256] (db : CCoinsViewDB) (b : CoinsBatch)
    (o : COutPoint) :
    ((db.batches b).foldl writeBatch db).coins.lookup o =
      (b.mapCoins.lookup o).elim (db.coins.lookup o) (coinAfter (db.coins.lookup o)) := by
  have hsapling : Tagged _ (saplingOps b) := ((Tagged.flatMap tagged_anchorOps _).append
    (.flatMap tagged_nullifierOps _)).append (tagged_bestAnchorOps b)
  rw [foldl_batches, foldl_append, foldl_append, foldl_append]
  rw [((tagged_endOps b).same _).coins (by decide), (hsapling.same _).coins (by decide),
    lookup_coins_foldl _ _ b.mapCoins.nodupKeys]
  rfl

def CoinsUnspent (db : CCoinsViewDB) : Prop :=
  ∀ o c, db.coins.lookup o = some c → c.isSpent = false

theorem coinAfter_unspent {old : Option Coin} {e : CCoinsCacheEntry}
    (hold : ∀ c, old = some c → c.isSpent = false) :
    ∀ c, coinAfter old e = some c → c.isSpent = false := by
  intro c hc
  unfold coinAfter at hc
  split_ifs at hc with hd
  · obtain ⟨hs, rfl⟩ := Coin.unspent?_eq_some.1 hc
    exact hs
  · exact hold c hc

theorem coinsUnspent_batches [MerkleHash UInt256] {db : CCoinsViewDB} (hdb : db.CoinsUnspent)
    (b : CoinsBatch) : ((db.batches b).foldl writeBatch db).CoinsUnspent := by
  intro o c hc
  rw [lookup_coins_batches] at hc
  cases he : b.mapCoins.lookup o with
  | none => exact hdb o c (by simpa [he] using hc)
  | some e => exact coinAfter_unspent (hdb o) c (by simpa [he] using hc)

/-- A consistent database with the one coin `c` at `o`, for closed examples. -/
def sample (o : COutPoint) (c : Coin) : CCoinsViewDB :=
  { empty (fun _ => false) with coins := AList.singleton o c, bestBlock := some 1 }

theorem coinsUnspent_sample (o : COutPoint) {c : Coin} (hc : c.isSpent = false) :
    (sample o c).CoinsUnspent := by
  intro o' c' h
  obtain ⟨rfl, rfl⟩ : o' = o ∧ c' = c := by
    have := AList.mem_lookup_iff.1 (Option.mem_def.2 h)
    simpa [sample] using this
  exact hc

/-- **The database is a lawful bottom view.** -/
instance [MerkleHash UInt256] : LawfulCoinsView CCoinsViewDB where
  Good := CoinsUnspent
  coins db o := db.coins.lookup o
  getCoin_spec := by
    intro db o hdb
    refine ⟨hdb, rfl, ?_⟩
    show (db.coins.lookup o).bind Coin.unspent? = db.coins.lookup o
    cases hl : db.coins.lookup o with
    | none => rfl
    | some c => exact Coin.unspent?_of_not_isSpent (hdb o c hl)
  batchWrite_spec := by
    intro db b hdb hb
    have hw : CCoinsView.batchWrite db b = db.batchWrite b := rfl
    rw [hw]
    unfold batchWrite
    cases ha : db.batchWriteAsserts b with
    | error e =>
      refine ⟨?_, by simp [bind, Except.bind]⟩
      unfold batchWriteAsserts at ha
      simp only [bind, Except.bind]
      rintro ⟨rfl⟩
      split_ifs at ha
      · cases ha
      · split at ha <;> (try split_ifs at ha) <;> cases ha
    | ok u =>
      refine ⟨by simp [bind, Except.bind, pure, Except.pure], fun db' h => ?_⟩
      obtain rfl : (db.batches b).foldl writeBatch db = db' := by
        simpa [bind, Except.bind, pure, Except.pure] using h
      refine ⟨coinsUnspent_batches hdb b, funext fun o => ?_⟩
      rw [lookup_coins_batches]
      have hslot := hb o
      unfold overlay
      cases he : b.mapCoins.lookup o with
      | none => rfl
      | some e =>
        rw [he] at hslot
        obtain ⟨-, hclean⟩ := faithful_coin.1 hslot
        simp only [Option.elim_some, coinAfter, seen_some, shown_coin]
        split_ifs with hd
        · rfl
        · exact (hclean (by simpa using hd)).symm

end CCoinsViewDB

end Passion
