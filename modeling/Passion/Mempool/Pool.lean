import Passion.Consensus.Params
import Passion.Lib.Dag
import Passion.Lib.KeyedMerge
import Passion.Primitives.Serialize

/-!
# The memory pool

`CTxMemPool` of `txmempool.cpp`. Each entry carries totals over itself and its ancestors, and over
itself and its descendants; `mapLinks` has the parents and children of each entry inside the pool.
`mapNextTx` and `mapSaplingNullifiers` say which entry spends an outpoint or a nullifier.

An iterator into `mapTx` is the id of its transaction, and a set of iterators a list of ids without
duplicates. The source keeps such sets in the order of the ids; nothing here depends on the order.
The totals are unbounded integers. Assertions are left out, and so are the fee estimator, the
rolling minimum fee and the memory accounting, which no other function of the pool reads except
`TrimToSize`.
-/

namespace Passion

open Lib (Map)

/-! ## Entries -/

structure CTxMemPoolEntry where
  tx : CTransaction
  nFee : CAmount
  nTxSize : Nat
  nTime : Int
  spendsCoinbaseOrCoinstake : Bool
  sigOpCount : Nat
  feeDelta : CAmount
  nCountWithDescendants : Int
  nSizeWithDescendants : Int
  nModFeesWithDescendants : CAmount
  nCountWithAncestors : Int
  nSizeWithAncestors : Int
  nModFeesWithAncestors : CAmount
  nSigOpCountWithAncestors : Int
  deriving DecidableEq, Repr

namespace CTxMemPoolEntry

def new (tx : CTransaction) (nFee : CAmount) (nTime : Int) (spendsCoinbaseOrCoinstake : Bool)
    (sigOps : Nat) : CTxMemPoolEntry where
  tx
  nFee
  nTxSize := tx.getTotalSize
  nTime
  spendsCoinbaseOrCoinstake
  sigOpCount := sigOps
  feeDelta := 0
  nCountWithDescendants := 1
  nSizeWithDescendants := tx.getTotalSize
  nModFeesWithDescendants := nFee
  nCountWithAncestors := 1
  nSizeWithAncestors := tx.getTotalSize
  nModFeesWithAncestors := nFee
  nSigOpCountWithAncestors := sigOps

variable (e : CTxMemPoolEntry)

def getModifiedFee : CAmount := e.nFee + e.feeDelta

def updateFeeDelta (newFeeDelta : CAmount) : CTxMemPoolEntry :=
  { e with
    nModFeesWithDescendants := e.nModFeesWithDescendants + (newFeeDelta - e.feeDelta)
    nModFeesWithAncestors := e.nModFeesWithAncestors + (newFeeDelta - e.feeDelta)
    feeDelta := newFeeDelta }

def updateDescendantState (modifySize : Int) (modifyFee : CAmount) (modifyCount : Int) :
    CTxMemPoolEntry :=
  { e with
    nSizeWithDescendants := e.nSizeWithDescendants + modifySize
    nModFeesWithDescendants := e.nModFeesWithDescendants + modifyFee
    nCountWithDescendants := e.nCountWithDescendants + modifyCount }

def updateAncestorState (modifySize : Int) (modifyFee : CAmount) (modifyCount modifySigOps : Int) :
    CTxMemPoolEntry :=
  { e with
    nSizeWithAncestors := e.nSizeWithAncestors + modifySize
    nModFeesWithAncestors := e.nModFeesWithAncestors + modifyFee
    nCountWithAncestors := e.nCountWithAncestors + modifyCount
    nSigOpCountWithAncestors := e.nSigOpCountWithAncestors + modifySigOps }

end CTxMemPoolEntry

def CTransaction.shieldedNullifiers (tx : CTransaction) : List UInt256 :=
  match tx.sapData with
  | none => []
  | some d => if tx.isShieldedTx then d.vShieldedSpend.map (·.nullifier) else []

/-! ## The pool -/

structure TxLinks where
  parents : List UInt256
  children : List UInt256
  deriving DecidableEq, Repr

structure CTxMemPool where
  mapTx : Map UInt256 CTxMemPoolEntry
  mapLinks : Map UInt256 TxLinks
  mapNextTx : Map COutPoint CTransaction
  mapSaplingNullifiers : Map UInt256 CTransaction
  /-- The fee deltas; the priority deltas, which nothing here reads, are left out. -/
  mapDeltas : Map UInt256 CAmount

namespace CTxMemPool

/-- A pool as `CTxMemPool()` makes it. -/
def empty : CTxMemPool := ⟨∅, ∅, ∅, ∅, ∅⟩

variable (pool : CTxMemPool)

/-- `exists(hash)`. -/
def contains (hash : UInt256) : Bool := (pool.mapTx.lookup hash).isSome

def getMemPoolParents (entry : UInt256) : List UInt256 :=
  ((pool.mapLinks.lookup entry).map (·.parents)).getD []

def getMemPoolChildren (entry : UInt256) : List UInt256 :=
  ((pool.mapLinks.lookup entry).map (·.children)).getD []

/-- `mapTx.modify(it, ..)`. -/
def modify (it : UInt256) (f : CTxMemPoolEntry → CTxMemPoolEntry) : CTxMemPool :=
  { pool with mapTx := pool.mapTx.modify it f }

def updateChild (entry child : UInt256) (add : Bool) : CTxMemPool :=
  { pool with mapLinks := pool.mapLinks.modify entry fun links =>
      { links with children :=
          if add then links.children.insert child else links.children.erase child } }

def updateParent (entry parent : UInt256) (add : Bool) : CTxMemPool :=
  { pool with mapLinks := pool.mapLinks.modify entry fun links =>
      { links with parents :=
          if add then links.parents.insert parent else links.parents.erase parent } }

/-! ### Walking through the pool -/

/-- `CalculateDescendants`: what is added to `setDescendants`. -/
def calculateDescendants (entryit : UInt256) (setDescendants : List UInt256) : List UInt256 :=
  Lib.Dag.walk pool.getMemPoolChildren (fun _ => none) pool.mapTx.keys.length
    (if entryit ∈ setDescendants then [] else [entryit]) setDescendants

/-- The limits of `CalculateMemPoolAncestors`; nothing stands for `nNoLimit`. -/
structure AncestorLimits where
  limitAncestorCount : Nat
  limitAncestorSize : Nat
  limitDescendantCount : Nat
  limitDescendantSize : Nat
  deriving DecidableEq, Repr

/-- The values of `errString`. -/
inductive AncestorError where
  | tooManyParents (limit : Nat)
  | descendantSize (tx : UInt256) (limit : Nat)
  | tooManyDescendants (tx : UInt256) (limit : Nat)
  | ancestorSize (limit : Nat)
  | tooManyAncestors (limit : Nat)
  deriving DecidableEq, Repr

def checkLimit (limits : Option AncestorLimits) (limit : AncestorLimits → Nat) (value : Int)
    (error : Nat → AncestorError) : Except AncestorError Unit :=
  match limits with
  | none => .ok ()
  | some l => if (limit l : Int) < value then .error (error (limit l)) else .ok ()

/-- The parents of a transaction that need not be in the pool. -/
def searchForParents (limits : Option AncestorLimits) (tx : CTransaction) :
    Except AncestorError (List UInt256) :=
  tx.vin.foldlM (fun parentHashes txin =>
    if pool.contains txin.prevout.hash then do
      let parentHashes := parentHashes.insert txin.prevout.hash
      checkLimit limits (·.limitAncestorCount) (parentHashes.length + 1) .tooManyParents
      .ok parentHashes
    else .ok parentHashes) []

/-- The checks that an ancestor has to pass. -/
def checkAncestor (limits : Option AncestorLimits) (entry : CTxMemPoolEntry) (stageit : UInt256)
    (totalSizeWithAncestors : Int) : Except AncestorError Unit :=
  match pool.mapTx.lookup stageit with
  | none => .ok ()
  | some e => do
    checkLimit limits (·.limitDescendantSize) (e.nSizeWithDescendants + entry.nTxSize)
      (.descendantSize stageit)
    checkLimit limits (·.limitDescendantCount) (e.nCountWithDescendants + 1)
      (.tooManyDescendants stageit)
    checkLimit limits (·.limitAncestorSize) totalSizeWithAncestors .ancestorSize

/-- The loop of `CalculateMemPoolAncestors`. -/
def ancestorLoop (limits : Option AncestorLimits) (entry : CTxMemPoolEntry) :
    Nat → List UInt256 → List UInt256 → Int → Except AncestorError (List UInt256)
  | 0, _, setAncestors, _ => .ok setAncestors
  | _ + 1, [], setAncestors, _ => .ok setAncestors
  | fuel + 1, stageit :: parentHashes, setAncestors, totalSizeWithAncestors => do
    let setAncestors := setAncestors.insert stageit
    let size := ((pool.mapTx.lookup stageit).map (·.nTxSize)).getD 0
    let totalSizeWithAncestors := totalSizeWithAncestors + size
    pool.checkAncestor limits entry stageit totalSizeWithAncestors
    let parentHashes ← (pool.getMemPoolParents stageit).foldlM (fun parentHashes phash => do
      let parentHashes := if phash ∈ setAncestors then parentHashes else parentHashes.insert phash
      checkLimit limits (·.limitAncestorCount) (parentHashes.length + setAncestors.length + 1)
        .tooManyAncestors
      .ok parentHashes) parentHashes
    ancestorLoop limits entry fuel parentHashes setAncestors totalSizeWithAncestors

/-- `CalculateMemPoolAncestors`, from no ancestors on. -/
def calculateMemPoolAncestors (entry : CTxMemPoolEntry) (limits : Option AncestorLimits)
    (fSearchForParents : Bool) : Except AncestorError (List UInt256) := do
  let parentHashes ← if fSearchForParents then pool.searchForParents limits entry.tx
    else .ok (pool.getMemPoolParents entry.tx.hash)
  pool.ancestorLoop limits entry pool.mapTx.keys.length parentHashes [] entry.nTxSize

/-- The ancestors of an entry of the pool, without limits. -/
def linkedAncestors (it : UInt256) : List UInt256 :=
  match pool.mapTx.lookup it with
  | none => []
  | some entry =>
    match pool.calculateMemPoolAncestors entry none false with
    | .ok setAncestors => setAncestors
    | .error _ => []

/-! ### Keeping the totals -/

/-- `UpdateAncestorsOf`: tell the parents and the ancestors of `it`. -/
def updateAncestorsOf (add : Bool) (it : UInt256) (setAncestors : List UInt256) : CTxMemPool :=
  let pool := (pool.getMemPoolParents it).foldl
    (fun pool piter => pool.updateChild piter it add) pool
  let updateCount : Int := if add then 1 else -1
  match pool.mapTx.lookup it with
  | none => pool
  | some e =>
    setAncestors.foldl (fun pool ancestorIt => pool.modify ancestorIt fun a =>
      a.updateDescendantState (updateCount * e.nTxSize) (updateCount * e.getModifiedFee)
        updateCount)
      pool

def updateEntryForAncestors (it : UInt256) (setAncestors : List UInt256) : CTxMemPool :=
  let ancestors := setAncestors.filterMap pool.mapTx.lookup
  let updateSize : Int := (ancestors.map fun a => (a.nTxSize : Int)).sum
  let updateFee : CAmount := (ancestors.map (·.getModifiedFee)).sum
  let updateSigOps : Int := (ancestors.map fun a => (a.sigOpCount : Int)).sum
  pool.modify it fun e =>
    e.updateAncestorState updateSize updateFee setAncestors.length updateSigOps

def updateChildrenForRemoval (it : UInt256) : CTxMemPool :=
  (pool.getMemPoolChildren it).foldl (fun pool updateIt => pool.updateParent updateIt it false) pool

/-- The first loop of `UpdateForRemoveFromMempool` at one entry: its descendants lose an
ancestor. -/
def subtractFromDescendants (removeIt : UInt256) : CTxMemPool :=
  match pool.mapTx.lookup removeIt with
  | none => pool
  | some r =>
    ((pool.calculateDescendants removeIt []).erase removeIt).foldl (fun pool dit =>
      pool.modify dit fun d =>
        d.updateAncestorState (-r.nTxSize) (-r.getModifiedFee) (-1) (-r.sigOpCount)) pool

def updateForRemoveFromMempool (entriesToRemove : List UInt256) (updateDescendants : Bool) :
    CTxMemPool :=
  let pool := if updateDescendants then entriesToRemove.foldl subtractFromDescendants pool else pool
  let pool := entriesToRemove.foldl (fun pool removeIt =>
    pool.updateAncestorsOf false removeIt (pool.linkedAncestors removeIt)) pool
  entriesToRemove.foldl updateChildrenForRemoval pool

/-! ### Adding -/

/-- Record the inputs of an entry in `mapNextTx`. -/
def insertInputs (tx : CTransaction) : CTxMemPool :=
  { pool with mapNextTx :=
      tx.vin.foldl (fun m txin => m.insertNew txin.prevout tx) pool.mapNextTx }

def insertNullifiers (tx : CTransaction) : CTxMemPool :=
  { pool with mapSaplingNullifiers :=
      tx.shieldedNullifiers.foldl (fun m nf => m.insert nf tx) pool.mapSaplingNullifiers }

def withFeeDelta (entry : CTxMemPoolEntry) : CTxMemPoolEntry :=
  match pool.mapDeltas.lookup entry.tx.hash with
  | none => entry
  | some delta => if delta = 0 then entry else entry.updateFeeDelta delta

/-- `addUnchecked(hash, entry, setAncestors)` for an id that is not in the pool. -/
def addUnchecked (entry : CTxMemPoolEntry) (setAncestors : List UInt256) : CTxMemPool :=
  let tx := entry.tx
  let newit := tx.hash
  let pool := { pool with
    mapTx := pool.mapTx.insertNew newit (pool.withFeeDelta entry)
    mapLinks := pool.mapLinks.insertNew newit ⟨[], []⟩ }
  let pool := if tx.hasZerocoinSpendInputs then pool else pool.insertInputs tx
  let setParentTransactions :=
    if tx.hasZerocoinSpendInputs then [] else tx.vin.map (·.prevout.hash)
  let pool := setParentTransactions.foldl (fun pool phash =>
    if pool.contains phash then pool.updateParent newit phash true else pool) pool
  let pool := pool.updateAncestorsOf true newit setAncestors
  let pool := pool.updateEntryForAncestors newit setAncestors
  pool.insertNullifiers tx

/-! ### Removing -/

def removeUnchecked (it : UInt256) : CTxMemPool :=
  match pool.mapTx.lookup it with
  | none => pool
  | some e =>
    { pool with
      mapNextTx := e.tx.vin.foldl (fun m txin => m.erase txin.prevout) pool.mapNextTx
      mapSaplingNullifiers :=
        e.tx.shieldedNullifiers.foldl (fun m nf => m.erase nf) pool.mapSaplingNullifiers
      mapLinks := pool.mapLinks.erase it
      mapTx := pool.mapTx.erase it }

def removeStaged (stage : List UInt256) (updateDescendants : Bool) : CTxMemPool :=
  stage.foldl removeUnchecked (pool.updateForRemoveFromMempool stage updateDescendants)

def calculateAllDescendants (txToRemove : List UInt256) : List UInt256 :=
  txToRemove.foldl (fun setAllRemoves it => pool.calculateDescendants it setAllRemoves) []

/-- The entries that spend outputs of a transaction that is not in the pool. -/
def spendersOf (origTx : CTransaction) : List UInt256 :=
  ((List.range origTx.vout.length).filterMap fun i =>
    (pool.mapNextTx.lookup ⟨origTx.hash, i⟩).map (·.hash)).dedup

def removeRecursive (origTx : CTransaction) : CTxMemPool :=
  let txToRemove := if pool.contains origTx.hash then [origTx.hash] else pool.spendersOf origTx
  pool.removeStaged (pool.calculateAllDescendants txToRemove) false

/-- What the chain tells `removeForReorg`. -/
structure ReorgEnv where
  checkFinalTx : CTransaction → Bool
  accessCoin : COutPoint → Coin
  nMemPoolHeight : Int
  nCoinbaseMaturity : Int

/-- The test of `removeForReorg`: not final, or an immature or missing input outside the pool. -/
def invalidAfterReorg (env : ReorgEnv) (e : CTxMemPoolEntry) : Bool :=
  !env.checkFinalTx e.tx ||
    (e.spendsCoinbaseOrCoinstake && e.tx.vin.any fun txin =>
      !pool.contains txin.prevout.hash &&
        let coin := env.accessCoin txin.prevout
        coin.isSpent || ((coin.fCoinBase || coin.fCoinStake) &&
          decide (env.nMemPoolHeight - coin.nHeight < env.nCoinbaseMaturity)))

def entriesWith (test : CTxMemPoolEntry → Bool) : List UInt256 :=
  pool.mapTx.keys.filter fun hash => (pool.mapTx.lookup hash).any test

def removeForReorg (env : ReorgEnv) : CTxMemPool :=
  let txToRemove := pool.entriesWith (pool.invalidAfterReorg env)
  pool.removeStaged (pool.calculateAllDescendants txToRemove) false

def spendsFromAnchor (invalidRoot : UInt256) (tx : CTransaction) : Bool :=
  tx.isShieldedTx && tx.sapData.any fun d => d.vShieldedSpend.any fun sd => sd.anchor == invalidRoot

def removeWithAnchor (invalidRoot : UInt256) : CTxMemPool :=
  let transactionsToRemove :=
    (pool.entriesWith fun e => spendsFromAnchor invalidRoot e.tx).filterMap
    fun hash => (pool.mapTx.lookup hash).map (·.tx)
  transactionsToRemove.foldl removeRecursive pool

def clearPrioritisation (hash : UInt256) : CTxMemPool :=
  { pool with mapDeltas := pool.mapDeltas.erase hash }

/-- A transaction that was found in an index, if it is another one, goes with its descendants. -/
def removeConflict (tx : CTransaction) (found : Option CTransaction) : CTxMemPool :=
  match found with
  | none => pool
  | some txConflict =>
    if txConflict.hash = tx.hash then pool
    else (pool.removeRecursive txConflict).clearPrioritisation txConflict.hash

def removeConflicts (tx : CTransaction) : CTxMemPool :=
  let pool := tx.vin.foldl (fun pool txin =>
    pool.removeConflict tx (pool.mapNextTx.lookup txin.prevout)) pool
  tx.shieldedNullifiers.foldl (fun pool nf =>
    pool.removeConflict tx (pool.mapSaplingNullifiers.lookup nf)) pool

/-- One transaction of the block in `removeForBlock`. -/
def removeForBlockTx (tx : CTransaction) : CTxMemPool :=
  let pool := if pool.contains tx.hash then pool.removeStaged [tx.hash] true else pool
  (pool.removeConflicts tx).clearPrioritisation tx.hash

def removeForBlock (vtx : List CTransaction) : CTxMemPool := vtx.foldl removeForBlockTx pool

/-- `Expire`: the pool after it, and how many entries it took out. -/
def expire (time : Int) : CTxMemPool × Nat :=
  let stage := pool.calculateAllDescendants (pool.entriesWith fun e => decide (e.nTime < time))
  (pool.removeStaged stage false, stage.length)

/-- The memory that the pool takes, and the entry with the lowest score of its descendants. Both
depend on the layout of the containers and on floating point numbers. -/
structure TrimEnv where
  dynamicMemoryUsage : CTxMemPool → Nat
  lowestScore : CTxMemPool → UInt256

/-- The outpoints of removed transactions that nothing in the pool creates or spends. -/
def noSpendsRemaining (txn : List CTransaction) : List COutPoint :=
  (txn.flatMap fun tx => tx.vin.map (·.prevout)).filter fun o =>
    !pool.contains o.hash && (pool.mapNextTx.lookup o).isNone

/-- The loop of `TrimToSize`, with what it appends to `pvNoSpendsRemaining`. Each turn takes out an
entry, so the number of entries bounds the turns. -/
def trimLoop (env : TrimEnv) (sizelimit : Nat) : Nat → CTxMemPool → List COutPoint →
    CTxMemPool × List COutPoint
  | 0, pool, pvNoSpendsRemaining => (pool, pvNoSpendsRemaining)
  | fuel + 1, pool, pvNoSpendsRemaining =>
    if env.dynamicMemoryUsage pool ≤ sizelimit then (pool, pvNoSpendsRemaining)
    else
      let it := env.lowestScore pool
      let stage := if pool.contains it then pool.calculateDescendants it [] else []
      let txn := stage.filterMap fun hash => (pool.mapTx.lookup hash).map (·.tx)
      let pool := pool.removeStaged stage false
      trimLoop env sizelimit fuel pool (pvNoSpendsRemaining ++ pool.noSpendsRemaining txn)

def trimToSize (env : TrimEnv) (sizelimit : Nat) : CTxMemPool × List COutPoint :=
  trimLoop env sizelimit pool.mapTx.keys.length pool []

/-- `clear`: the nullifiers and the fee deltas stay. -/
def clear : CTxMemPool := { pool with mapLinks := ∅, mapTx := ∅, mapNextTx := ∅ }

/-! ### After a reorganisation -/

/-- The cached descendants of `UpdateTransactionsFromBlock`. -/
abbrev CacheMap := Map UInt256 (List UInt256)

/-- The descendants that `UpdateForDescendants` counts: those of `setAllDescendants` that are not
excluded. -/
def countedDescendants (updateIt : UInt256) (cachedDescendants : CacheMap)
    (setExclude : List UInt256) : List UInt256 :=
  (Lib.Dag.walk pool.getMemPoolChildren cachedDescendants.lookup pool.mapTx.keys.length
    (pool.getMemPoolChildren updateIt) []).filter fun cit => !decide (cit ∈ setExclude)

def updateForDescendants (updateIt : UInt256) (cachedDescendants : CacheMap)
    (setExclude : List UInt256) : CTxMemPool × CacheMap :=
  let counted := pool.countedDescendants updateIt cachedDescendants setExclude
  let entries := counted.filterMap pool.mapTx.lookup
  let modifySize : Int := (entries.map fun e => (e.nTxSize : Int)).sum
  let modifyFee : CAmount := (entries.map (·.getModifiedFee)).sum
  match pool.mapTx.lookup updateIt with
  | none => (pool, cachedDescendants)
  | some u =>
    let pool := counted.foldl (fun pool cit => pool.modify cit fun c =>
      c.updateAncestorState u.nTxSize u.getModifiedFee 1 u.sigOpCount) pool
    (pool.modify updateIt fun u => u.updateDescendantState modifySize modifyFee counted.length,
      if counted.isEmpty then cachedDescendants else cachedDescendants.insert updateIt counted)

/-- The entries that `mapNextTx` has for outputs of `hash`. -/
def nextTxChildren (hash : UInt256) : List UInt256 :=
  ((pool.mapNextTx.entries.filter fun next => next.1.hash == hash).map fun next =>
    next.2.hash).dedup

/-- One turn of `UpdateTransactionsFromBlock`. -/
def updateTransactionFromBlock (setAlreadyIncluded : List UInt256) (s : CTxMemPool × CacheMap)
    (hash : UInt256) : CTxMemPool × CacheMap :=
  if s.1.contains hash then
    let pool := ((s.1.nextTxChildren hash).filter
      fun child => !decide (child ∈ setAlreadyIncluded)).foldl
      (fun pool child => (pool.updateChild hash child true).updateParent child hash true) s.1
    pool.updateForDescendants hash s.2 setAlreadyIncluded
  else s

def updateTransactionsFromBlock (vHashesToUpdate : List UInt256) : CTxMemPool :=
  (vHashesToUpdate.reverse.foldl (updateTransactionFromBlock vHashesToUpdate) (pool, ∅)).1

/-! ### Priorities -/

def prioritiseTransaction (hash : UInt256) (nFeeDelta : CAmount) : CTxMemPool :=
  let delta := (pool.mapDeltas.lookup hash).getD 0 + nFeeDelta
  let pool := { pool with mapDeltas := pool.mapDeltas.insert hash delta }
  if pool.contains hash then
    let pool := pool.modify hash fun e => e.updateFeeDelta delta
    (pool.linkedAncestors hash).foldl (fun pool ancestorIt =>
      pool.modify ancestorIt fun a => a.updateDescendantState 0 nFeeDelta 0) pool
  else pool

/-! ### Acceptance -/

/-- What `AcceptToMemoryPoolWorker` checks of a transaction against the pool: no zerocoins, a new
id, and no input or nullifier that the pool spends. -/
def passesConflictChecks (tx : CTransaction) : Bool :=
  !tx.containsZerocoins && !pool.contains tx.hash &&
    tx.vin.all (fun txin => (pool.mapNextTx.lookup txin.prevout).isNone) &&
    tx.shieldedNullifiers.all (fun nf => (pool.mapSaplingNullifiers.lookup nf).isNone)

end CTxMemPool

end Passion
