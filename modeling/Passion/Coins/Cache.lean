import Passion.Lib.WriteBack
import Passion.Sapling.IncrementalMerkleTree

/-!
# Coin views and the coin cache

`CCoinsView` and `CCoinsViewCache` of `coins.h` and `coins.cpp`. A view is a type with the
virtual functions of the class, written in state-passing form: a cache answers a query by
loading an entry from its base, so that even `GetCoin` returns a new state. `CCoinsViewCache σ`
is a cache over a view of type `σ` and is a view itself, so caches stack to any depth.

The memory accounting (`cachedCoinsUsage`) has no effect on any answer and is left out.
-/

namespace Passion

open Lib (Map)

/-- The `flags` byte of the source is the pair of its two bits, `DIRTY` and `FRESH`. -/
structure CCoinsCacheEntry where
  coin : Coin
  dirty : Bool
  fresh : Bool
  deriving DecidableEq, Repr

structure CAnchorsSaplingCacheEntry where
  entered : Bool
  tree : SaplingMerkleTree
  dirty : Bool
  deriving DecidableEq, Repr

structure CNullifiersCacheEntry where
  entered : Bool
  dirty : Bool
  deriving DecidableEq, Repr

abbrev CCoinsMap := Map COutPoint CCoinsCacheEntry
abbrev CAnchorsSaplingMap := Map UInt256 CAnchorsSaplingCacheEntry
abbrev CNullifiersMap := Map UInt256 CNullifiersCacheEntry

/-- The exceptions and failed assertions of coins.cpp; `backend` is one that the bottom view
throws. -/
inductive CoinsError where
  | addSpentCoin
  | replacesNonPruned
  | freshMisapplied
  | anchorNotFound
  | backend (what : String)
  deriving DecidableEq, Repr

/-- The arguments of `BatchWrite`. -/
structure CoinsBatch where
  mapCoins : CCoinsMap
  hashBlock : UInt256
  hashSaplingAnchor : UInt256
  mapSaplingAnchors : CAnchorsSaplingMap
  mapSaplingNullifiers : CNullifiersMap

/-- The virtual functions of `CCoinsView` that a cache calls on its base. -/
class CCoinsView (σ : Type) where
  getCoin : σ → COutPoint → Option Coin × σ
  getBestBlock : σ → UInt256 × σ
  getSaplingAnchorAt : σ → UInt256 → Option SaplingMerkleTree × σ
  getNullifier : σ → UInt256 → Bool × σ
  getBestAnchor : σ → UInt256 × σ
  batchWrite : σ → CoinsBatch → Except CoinsError (Bool × σ)

structure CCoinsViewCache (σ : Type) where
  base : σ
  hashBlock : UInt256
  cacheCoins : CCoinsMap
  hashSaplingAnchor : UInt256
  cacheSaplingAnchors : CAnchorsSaplingMap
  cacheSaplingNullifiers : CNullifiersMap

namespace CCoinsViewCache

variable {σ : Type}

/-- `CCoinsViewCache(baseIn)`. -/
def new (baseIn : σ) : CCoinsViewCache σ := ⟨baseIn, 0, ∅, 0, ∅, ∅⟩

section

variable [CCoinsView σ] (view : CCoinsViewCache σ) (outpoint : COutPoint)

/-! ## Coins -/

def fetchCoin : Option CCoinsCacheEntry × CCoinsViewCache σ :=
  match view.cacheCoins.lookup outpoint with
  | some it => (some it, view)
  | none =>
    match CCoinsView.getCoin view.base outpoint with
    | (none, base) => (none, { view with base })
    | (some tmp, base) =>
      -- a spent coin below is no coin at all: our version counts as fresh
      let ret : CCoinsCacheEntry := ⟨tmp, false, tmp.isSpent⟩
      (some ret, { view with base, cacheCoins := view.cacheCoins.insert outpoint ret })

/-- `GetCoin` answers `true` for every entry, also for one whose coin is spent. -/
def getCoin : Option Coin × CCoinsViewCache σ :=
  match view.fetchCoin outpoint with
  | (none, view) => (none, view)
  | (some it, view) => (some it.coin, view)

def accessCoin : Coin × CCoinsViewCache σ :=
  match view.fetchCoin outpoint with
  | (none, view) => (Coin.empty, view)
  | (some it, view) => (it.coin, view)

def haveCoin : Bool × CCoinsViewCache σ :=
  match view.fetchCoin outpoint with
  | (none, view) => (false, view)
  | (some it, view) => (!it.coin.isSpent, view)

/-- `SpendCoin`: the coin that is moved out, or `none` when `moveout` is left as it was. -/
def spendCoin : Option Coin × CCoinsViewCache σ :=
  match view.fetchCoin outpoint with
  | (none, view) => (none, view)
  | (some it, view) =>
    if it.fresh then
      (some it.coin, { view with cacheCoins := view.cacheCoins.erase outpoint })
    else
      let it' : CCoinsCacheEntry := { it with coin := Coin.empty, dirty := true }
      (some it.coin, { view with cacheCoins := view.cacheCoins.insert outpoint it' })

end

/-- `AddCoin`; it never looks below its own entries. -/
def addCoin (view : CCoinsViewCache σ) (outpoint : COutPoint) (coin : Coin)
    (possibleOverwrite : Bool) : Except CoinsError (CCoinsViewCache σ) :=
  if coin.isSpent then .error .addSpentCoin
  else if CScript.isUnspendable coin.out.scriptPubKey then .ok view
  else if coin.out.isZerocoinMint then .ok view
  else
    let it := (view.cacheCoins.lookup outpoint).getD ⟨Coin.empty, false, false⟩
    if !possibleOverwrite && !it.coin.isSpent then .error .replacesNonPruned
    else
      let fresh := !possibleOverwrite && !it.dirty
      let it' : CCoinsCacheEntry := ⟨coin, true, it.fresh || fresh⟩
      .ok { view with cacheCoins := view.cacheCoins.insert outpoint it' }

/-- `Uncache` drops an entry whose flags are zero. -/
def uncache (view : CCoinsViewCache σ) (outpoint : COutPoint) : CCoinsViewCache σ :=
  match view.cacheCoins.lookup outpoint with
  | none => view
  | some it =>
    if !it.dirty && !it.fresh then
      { view with cacheCoins := view.cacheCoins.erase outpoint }
    else view

/-! ## Best block, anchors and nullifiers -/

section

variable [CCoinsView σ] [MerkleHash UInt256] (view : CCoinsViewCache σ)

def getBestBlock : UInt256 × CCoinsViewCache σ :=
  if view.hashBlock = 0 then
    let (hashBlock, base) := CCoinsView.getBestBlock view.base
    (hashBlock, { view with base, hashBlock })
  else (view.hashBlock, view)

def setBestBlock (hashBlockIn : UInt256) : CCoinsViewCache σ :=
  { view with hashBlock := hashBlockIn }

def getBestAnchor : UInt256 × CCoinsViewCache σ :=
  if view.hashSaplingAnchor = 0 then
    let (hashSaplingAnchor, base) := CCoinsView.getBestAnchor view.base
    (hashSaplingAnchor, { view with base, hashSaplingAnchor })
  else (view.hashSaplingAnchor, view)

def getSaplingAnchorAt (rt : UInt256) : Option SaplingMerkleTree × CCoinsViewCache σ :=
  match view.cacheSaplingAnchors.lookup rt with
  | some it => (if it.entered then some it.tree else none, view)
  | none =>
    match CCoinsView.getSaplingAnchorAt view.base rt with
    | (none, base) => (none, { view with base })
    | (some tree, base) =>
      (some tree, { view with base, cacheSaplingAnchors :=
        view.cacheSaplingAnchors.insert rt ⟨true, tree, false⟩ })

def getNullifier (nullifier : UInt256) : Bool × CCoinsViewCache σ :=
  match view.cacheSaplingNullifiers.lookup nullifier with
  | some it => (it.entered, view)
  | none =>
    let (tmp, base) := CCoinsView.getNullifier view.base nullifier
    (tmp, { view with base, cacheSaplingNullifiers :=
      view.cacheSaplingNullifiers.insert nullifier ⟨tmp, false⟩ })

def pushAnchor (tree : SaplingMerkleTree) : CCoinsViewCache σ :=
  let newrt := SaplingMerkleTree.root tree
  let (currentRoot, view) := view.getBestAnchor
  if currentRoot ≠ newrt then
    { view with
      cacheSaplingAnchors := view.cacheSaplingAnchors.insert newrt ⟨true, tree, true⟩
      hashSaplingAnchor := newrt }
  else view

def popAnchor (newrt : UInt256) : Except CoinsError (CCoinsViewCache σ) :=
  let (currentRoot, view) := view.getBestAnchor
  if currentRoot ≠ newrt then
    -- bring the current best anchor into the cache, so that its tree exists in memory
    match view.getSaplingAnchorAt currentRoot with
    | (none, _) => .error .anchorNotFound
    | (some tree, view) =>
      .ok { view with
        cacheSaplingAnchors := view.cacheSaplingAnchors.insert currentRoot ⟨false, tree, true⟩
        hashSaplingAnchor := newrt }
  else .ok view

/-- One turn of the loop of `SetNullifiers`. -/
def setNullifier (spent : Bool) (nullifier : UInt256) : CCoinsViewCache σ :=
  { view with cacheSaplingNullifiers :=
      view.cacheSaplingNullifiers.insert nullifier ⟨spent, true⟩ }

def setNullifiers (tx : CTransaction) (spent : Bool) : CCoinsViewCache σ :=
  match tx.sapData with
  | none => view
  | some d => d.vShieldedSpend.foldl (fun view s => view.setNullifier spent s.nullifier) view

end

/-! ## Writing a child's entries into this cache -/

/-- The body of the coin loop of `BatchWrite`: our entry and the child's give our new entry. -/
def batchWriteCoin (itUs : Option CCoinsCacheEntry) (it : CCoinsCacheEntry) :
    Except CoinsError (Option CCoinsCacheEntry) :=
  if !it.dirty then .ok itUs
  else
    match itUs with
    | none =>
      if it.fresh && it.coin.isSpent then .ok none
      else .ok (some ⟨it.coin, true, it.fresh⟩)
    | some us =>
      if it.fresh && !us.coin.isSpent then .error .freshMisapplied
      else if us.fresh && it.coin.isSpent then .ok none
      else .ok (some { us with coin := it.coin, dirty := true })

/-- The body of the loop of `BatchWriteAnchors`; an entry that is there keeps its own tree. -/
def batchWriteAnchor (parent : Option CAnchorsSaplingCacheEntry)
    (child : CAnchorsSaplingCacheEntry) :
    Except CoinsError (Option CAnchorsSaplingCacheEntry) :=
  if !child.dirty then .ok parent
  else
    match parent with
    | none => .ok (some ⟨child.entered, child.tree, true⟩)
    | some p =>
      if p.entered ≠ child.entered then
        .ok (some { p with entered := child.entered, dirty := true })
      else .ok (some p)

/-- The body of the loop of `BatchWriteNullifiers`. -/
def batchWriteNullifier (parent : Option CNullifiersCacheEntry) (child : CNullifiersCacheEntry) :
    Except CoinsError (Option CNullifiersCacheEntry) :=
  if !child.dirty then .ok parent
  else
    match parent with
    | none => .ok (some ⟨child.entered, true⟩)
    | some p =>
      if p.entered ≠ child.entered then
        .ok (some { p with entered := child.entered, dirty := true })
      else .ok (some p)

/-- `BatchWrite`: the three maps are merged, and the two hashes are taken over as they come. -/
def batchWrite (view : CCoinsViewCache σ) (batch : CoinsBatch) :
    Except CoinsError (Bool × CCoinsViewCache σ) := do
  let cacheCoins ← Map.mergeM batchWriteCoin batch.mapCoins view.cacheCoins
  let cacheSaplingAnchors ←
    Map.mergeM batchWriteAnchor batch.mapSaplingAnchors view.cacheSaplingAnchors
  let cacheSaplingNullifiers ←
    Map.mergeM batchWriteNullifier batch.mapSaplingNullifiers view.cacheSaplingNullifiers
  return (true, { view with
    hashBlock := batch.hashBlock
    cacheCoins
    hashSaplingAnchor := batch.hashSaplingAnchor
    cacheSaplingAnchors
    cacheSaplingNullifiers })

theorem mergeAnchors_isOk (src dst : CAnchorsSaplingMap) :
    ∃ m, Map.mergeM batchWriteAnchor src dst = .ok m := by
  refine Map.mergeM_isOk fun k c _ => ?_
  unfold batchWriteAnchor
  cases c.dirty <;> rcases dst.lookup k with _ | p <;> simp
  split_ifs <;> simp

theorem mergeNullifiers_isOk (src dst : CNullifiersMap) :
    ∃ m, Map.mergeM batchWriteNullifier src dst = .ok m := by
  refine Map.mergeM_isOk fun k c _ => ?_
  unfold batchWriteNullifier
  cases c.dirty <;> rcases dst.lookup k with _ | p <;> simp
  split_ifs <;> simp

theorem batchWrite_eq {view : CCoinsViewCache σ} {b : CoinsBatch} {cacheCoins : CCoinsMap}
    {anchors : CAnchorsSaplingMap} {nullifiers : CNullifiersMap}
    (hm : Map.mergeM batchWriteCoin b.mapCoins view.cacheCoins = .ok cacheCoins)
    (ha : Map.mergeM batchWriteAnchor b.mapSaplingAnchors view.cacheSaplingAnchors = .ok anchors)
    (hn : Map.mergeM batchWriteNullifier b.mapSaplingNullifiers view.cacheSaplingNullifiers =
      .ok nullifiers) :
    view.batchWrite b = .ok (true, ⟨view.base, b.hashBlock, cacheCoins, b.hashSaplingAnchor,
      anchors, nullifiers⟩) := by
  simp [batchWrite, hm, ha, hn, bind, Except.bind, pure, Except.pure]

theorem exists_batchWrite {view : CCoinsViewCache σ} {b : CoinsBatch} {cacheCoins : CCoinsMap}
    (hm : Map.mergeM batchWriteCoin b.mapCoins view.cacheCoins = .ok cacheCoins) :
    ∃ anchors nullifiers, view.batchWrite b = .ok (true, ⟨view.base, b.hashBlock, cacheCoins,
      b.hashSaplingAnchor, anchors, nullifiers⟩) := by
  obtain ⟨anchors, ha⟩ := mergeAnchors_isOk b.mapSaplingAnchors view.cacheSaplingAnchors
  obtain ⟨nullifiers, hn⟩ := mergeNullifiers_isOk b.mapSaplingNullifiers view.cacheSaplingNullifiers
  exact ⟨anchors, nullifiers, batchWrite_eq hm ha hn⟩

instance [CCoinsView σ] : CCoinsView (CCoinsViewCache σ) where
  getCoin := getCoin
  getBestBlock := getBestBlock
  getSaplingAnchorAt := getSaplingAnchorAt
  getNullifier := getNullifier
  getBestAnchor := getBestAnchor
  batchWrite := batchWrite

/-- What `Flush` hands to the base. -/
def toBatch (view : CCoinsViewCache σ) : CoinsBatch :=
  ⟨view.cacheCoins, view.hashBlock, view.hashSaplingAnchor, view.cacheSaplingAnchors,
    view.cacheSaplingNullifiers⟩

/-- `Flush`: the maps are emptied whatever the base answers; the two hashes stay. -/
def flush [CCoinsView σ] (view : CCoinsViewCache σ) :
    Except CoinsError (Bool × CCoinsViewCache σ) := do
  let (fOk, base) ← CCoinsView.batchWrite view.base view.toBatch
  return (fOk, { view with
    base
    cacheCoins := ∅
    cacheSaplingAnchors := ∅
    cacheSaplingNullifiers := ∅ })

end CCoinsViewCache

end Passion
