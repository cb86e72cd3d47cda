import Passion.Lib.Hoare
import Passion.Mempool.Prioritise
import Passion.Wallet.Basic

/-!
# Filling a block from the memory pool

`BlockAssembler` of `blockassembler.cpp`: `addPriorityTxs` takes transactions from the pool by their
priority, then `addScoreTxs` by their fee rate. Both loops put a transaction with a parent outside
the block aside, and try it again once a parent has gone in.

The orders are left open: any priority, any index to take from the two heaps, and any order of the
mining score index. An iterator is the id of its entry, as in the pool. The counters do not wrap:
the pool takes no transaction above 400000 bytes, and a block is full at 2000000.
-/

namespace Passion

/-! ## The assembler -/

/-- A 64-bit argument of the command line in an `unsigned int`. -/
def toUnsignedInt (arg : Int) : Nat := (arg % 4294967296).toNat

/-- What the assembler reads, with priorities in `P`. -/
structure AssemblerEnv (P : Type) where
  pool : CTxMemPool
  /-- `-blockmaxsize`, `-blockminsize` and `-blockprioritysize`, or their defaults. -/
  blockMaxSize : Int
  blockMinSize : Int
  blockPrioritySize : Int
  /-- `SPORK_20_SAPLING_MAINTENANCE`. -/
  saplingMaintenance : Bool
  minRelayTxFee : CFeeRate
  /-- `IsFinalTx` at the height of the new block. -/
  isFinalTx : CTransaction → Bool
  /-- `GetPriority` at that height, with the priority delta of the pool. -/
  priority : UInt256 → P
  allowFree : P → Bool
  /-- Which element of the heap `pop_heap` takes, and which one `clearedTxs.top()` is. -/
  topPriority : List (P × UInt256) → Nat
  topScore : List UInt256 → Nat
  /-- The index `mining_score` of the pool, which has every entry once. -/
  miningScore : List UInt256
  miningScore_perm : miningScore.Perm pool.mapTx.keys

/-- The members of `BlockAssembler`, with those of its template. -/
structure BlockAssembler where
  vtx : List CTransaction
  vTxFees : List CAmount
  vTxSigOps : List Int
  nBlockSize : Nat
  nBlockTx : Nat
  nBlockSigOps : Nat
  nFees : CAmount
  /-- In the order of insertion; the source only asks what is in it. -/
  inBlock : List UInt256
  lastFewTxs : Nat
  blockFinished : Bool
  nSizeShielded : Nat
  deriving DecidableEq, Repr

/-- What ends a function early: its `return`, or an assertion that ends the program. -/
inductive AssemblerExit where
  | returned
  | assertion
  /-- A loop needs more than `maxRounds` rounds; see `addTxs_selects`. -/
  | unfinished
  deriving DecidableEq, Repr

/-- `resetBlock` and the new template with `vtx` in it; `nSizeShielded` keeps its value. -/
def BlockAssembler.resetBlock (s : BlockAssembler) (vtx : List CTransaction) : BlockAssembler where
  vtx
  vTxFees := [-1]
  vTxSigOps := [-1]
  nBlockSize := 1000
  nBlockTx := 0
  nBlockSigOps := 100
  nFees := 0
  inBlock := []
  lastFewTxs := 0
  blockFinished := false
  nSizeShielded := s.nSizeShielded

/-- `AddToBlock`, without the log. -/
def BlockAssembler.addToBlock (s : BlockAssembler) (iter : UInt256) (entry : CTxMemPoolEntry) :
    BlockAssembler :=
  { s with
    vtx := s.vtx ++ [entry.tx]
    vTxFees := s.vTxFees ++ [entry.nFee]
    vTxSigOps := s.vTxSigOps ++ [(entry.sigOpCount : Int)]
    nBlockSize := s.nBlockSize + entry.nTxSize
    nBlockTx := s.nBlockTx + 1
    nBlockSigOps := s.nBlockSigOps + entry.sigOpCount
    nFees := s.nFees + entry.nFee
    nSizeShielded :=
      if entry.tx.isShieldedTx then s.nSizeShielded + entry.nTxSize else s.nSizeShielded
    inBlock := s.inBlock ++ [iter] }

/-! ## The two heaps and what waits -/

section

variable {α : Type}

/-- Take the element at `i`, counted around the list. -/
def popAt (i : Nat) (l : List α) : Option (α × List α) :=
  l[i % l.length]?.map fun x => (x, l.eraseIdx (i % l.length))

/-- Move what waits under the ids of `children` to the queue. -/
def requeue (key : α → UInt256) (children : List UInt256) (queue waiting : List α) :
    List α × List α :=
  children.foldl (fun s child =>
    match s.2.find? (fun x => key x == child) with
    | none => s
    | some x => (x :: s.1, s.2.eraseP fun x => key x == child)) (queue, waiting)

end

namespace AssemblerEnv

variable {P : Type} (env : AssemblerEnv P)

/-- The constructor of `BlockAssembler`. -/
def nBlockMaxSize : Nat :=
  max 1000 (min (maxBlockSizeCurrent - 1000) (toUnsignedInt env.blockMaxSize))

def nBlockMinSize : Nat := min env.nBlockMaxSize (toUnsignedInt env.blockMinSize)

def nBlockPrioritySize : Nat := min env.nBlockMaxSize (toUnsignedInt env.blockPrioritySize)

def isStillDependent (s : BlockAssembler) (iter : UInt256) : Bool :=
  (env.pool.getMemPoolParents iter).any fun parent => !s.inBlock.elem parent

/-- A transaction did not fit: give up if the block is nearly full, or after 50 more tries. -/
def noteTooLarge (s : BlockAssembler) : BlockAssembler :=
  if env.nBlockMaxSize - 100 < s.nBlockSize ∨ 50 < s.lastFewTxs then
    { s with blockFinished := true }
  else if env.nBlockMaxSize - 1000 < s.nBlockSize then { s with lastFewTxs := s.lastFewTxs + 1 }
  else s

def testForBlock (entry : CTxMemPoolEntry) : EStateM AssemblerExit BlockAssembler Bool := do
  Lib.ensure (entry.tx.containsZerocoins = false) .assertion
  let s ← get
  if entry.tx.isShieldedTx = true ∧ env.saplingMaintenance = true then pure false
  else if env.nBlockMaxSize ≤ s.nBlockSize + entry.nTxSize then do
    set (env.noteTooLarge s)
    pure false
  else if entry.tx.isShieldedTx = true ∧
      maxBlockShieldedTxesSize < s.nSizeShielded + entry.nTxSize then pure false
  else if maxBlockSigOpsCurrent ≤ s.nBlockSigOps + entry.sigOpCount then do
    set (if maxBlockSigOpsCurrent - 2 < s.nBlockSigOps then { s with blockFinished := true } else s)
    pure false
  else pure (env.isFinalTx entry.tx)

def deref {σ : Type} (iter : UInt256) : EStateM AssemblerExit σ CTxMemPoolEntry := fun s =>
  match env.pool.mapTx.lookup iter with
  | none => .error .assertion s
  | some entry => .ok entry s

/-- `TestForBlock`, and `AddToBlock` if it agrees. -/
def testAndAdd (iter : UInt256) (entry : CTxMemPoolEntry) :
    EStateM AssemblerExit BlockAssembler Bool := do
  let fits ← env.testForBlock entry
  if fits = true then do
    modify fun s => s.addToBlock iter entry
    pure true
  else pure false

/-! ## `addPriorityTxs` -/

/-- The local variables of `addPriorityTxs`. -/
structure PriorityLocals (P : Type) where
  vecPriority : List (P × UInt256)
  waitPriMap : List (P × UInt256)

def tryPriorityTx (actualPriority : P) (iter : UInt256) :
    EStateM AssemblerExit (BlockAssembler × PriorityLocals P) Unit := do
  let (s, locals) ← get
  Lib.ensure (s.inBlock.elem iter = false) .assertion
  if env.isStillDependent s iter = true then
    set (s, { locals with waitPriMap := (actualPriority, iter) :: locals.waitPriMap })
  else do
    let entry ← env.deref iter
    let added ← Lib.onOuter (env.testAndAdd iter entry)
    if added = true then do
      let (s, locals) ← get
      Lib.ensure (s.nBlockSize < env.nBlockPrioritySize ∧ env.allowFree actualPriority = true)
        .returned
      let queues := requeue Prod.snd (env.pool.getMemPoolChildren iter) locals.vecPriority
        locals.waitPriMap
      set (s, PriorityLocals.mk queues.1 queues.2)
    else pure ()

def priorityRound : EStateM AssemblerExit (BlockAssembler × PriorityLocals P) Unit := do
  let (s, locals) ← get
  match popAt (env.topPriority locals.vecPriority) locals.vecPriority with
  | none => pure ()
  | some (front, vecPriority) => do
    set (s, { locals with vecPriority })
    env.tryPriorityTx front.1 front.2

def priorityCond (s : BlockAssembler × PriorityLocals P) : Bool :=
  !s.2.vecPriority.isEmpty && !s.1.blockFinished

/-- More rounds than either loop makes. -/
def maxRounds : Nat := (env.pool.mapTx.keys.length + 1) * (env.pool.mapTx.keys.length + 1)

def addPriorityTxs : EStateM AssemblerExit BlockAssembler Unit :=
  if env.nBlockPrioritySize = 0 then pure ()
  else
    let vecPriority := env.pool.mapTx.keys.map fun mi => (env.priority mi, mi)
    Lib.returning (· == .returned) <| Lib.withLocals (PriorityLocals.mk vecPriority [])
      (Lib.whileLoop priorityCond env.priorityRound .unfinished env.maxRounds)

/-! ## `addScoreTxs` -/

/-- The local variables of `addScoreTxs`; `mi` is what is left of the index. -/
structure ScoreLocals where
  mi : List UInt256
  clearedTxs : List UInt256
  waitSet : List UInt256

/-- The next transaction: one that was put aside before, or the next of the index. -/
def nextScoreTx (locals : ScoreLocals) : Option (UInt256 × ScoreLocals) :=
  match popAt (env.topScore locals.clearedTxs) locals.clearedTxs with
  | some (iter, clearedTxs) => some (iter, { locals with clearedTxs })
  | none =>
    match locals.mi with
    | [] => none
    | iter :: mi => some (iter, { locals with mi })

def tryScoreTx (iter : UInt256) : EStateM AssemblerExit (BlockAssembler × ScoreLocals) Unit := do
  let (s, locals) ← get
  if s.inBlock.elem iter = true then pure ()
  else if env.isStillDependent s iter = true then
    set (s, { locals with waitSet := iter :: locals.waitSet })
  else do
    let entry ← env.deref iter
    Lib.ensure (¬(entry.getModifiedFee < env.minRelayTxFee.getFee entry.nTxSize ∧
      env.nBlockMinSize ≤ s.nBlockSize)) .returned
    let added ← Lib.onOuter (env.testAndAdd iter entry)
    if added = true then do
      let (s, locals) ← get
      let queues := requeue id (env.pool.getMemPoolChildren iter) locals.clearedTxs locals.waitSet
      set (s, { locals with clearedTxs := queues.1, waitSet := queues.2 })
    else pure ()

def scoreRound : EStateM AssemblerExit (BlockAssembler × ScoreLocals) Unit := do
  let (s, locals) ← get
  match env.nextScoreTx locals with
  | none => pure ()
  | some (iter, locals) => do
    set (s, locals)
    env.tryScoreTx iter

def scoreCond (s : BlockAssembler × ScoreLocals) : Bool :=
  !s.1.blockFinished && (!s.2.mi.isEmpty || !s.2.clearedTxs.isEmpty)

def addScoreTxs : EStateM AssemblerExit BlockAssembler Unit :=
  Lib.returning (· == .returned) <| Lib.withLocals (ScoreLocals.mk env.miningScore [] [])
    (Lib.whileLoop scoreCond env.scoreRound .unfinished env.maxRounds)

/-- The part of `CreateNewBlock` that takes transactions from the pool, after `vtx` got the first
transactions of the block; nothing if an assertion fails or a loop does not end. -/
def addTxs (s : BlockAssembler) (vtx : List CTransaction) : Option BlockAssembler :=
  match (env.addPriorityTxs >>= fun _ => env.addScoreTxs) (s.resetBlock vtx) with
  | .ok _ s' => some s'
  | .error _ _ => none

end AssemblerEnv

end Passion
