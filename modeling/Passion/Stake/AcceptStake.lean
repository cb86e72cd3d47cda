import Passion.Chain.Growth
import Passion.Stake.ProofOfStake

/-!
# Storing a proof-of-stake block

The rest of `AcceptBlock` after `ContextualCheckBlock`: for a proof-of-stake block, that no other
transaction of the block spends an input of the coinstake, the walk down a fork to the active chain,
and the test of the coins; then the block is stored.

A block on the tip is tested against the coins, which are those of its own chain. A block on
another parent is not: the walk looks for a spend in the blocks of the fork alone, and the lookup of
the staked transaction in the active chain says neither that it is below the split, nor that the
output exists, nor that it is unspent there.

**Idea.** The blocks above the split spend no input of the coinstake, so that what the chain of the
parent leaves of the staked output is what the chain of the split leaves of it, or what a block of
the fork creates.

Main result: `stored_stake_unspent_iff`.
-/

namespace Passion

open List

/-! ## Unspent outputs of a chain -/

namespace CTransaction

def creates (o : COutPoint) (tx : CTransaction) : Bool :=
  tx.hash == o.hash && decide (o.n < tx.vout.length)

def spends (o : COutPoint) (tx : CTransaction) : Bool := tx.vin.any fun txin => txin.prevout == o

end CTransaction

def unspentStep (o : COutPoint) (unspent : Bool) (tx : CTransaction) : Bool :=
  tx.creates o || (unspent && !tx.spends o)

theorem foldl_unspentStep {o : COutPoint} {txs : List CTransaction}
    (hspends : ∀ tx ∈ txs, tx.spends o = false) (unspent : Bool) :
    txs.foldl (unspentStep o) unspent = (unspent || txs.any (CTransaction.creates o)) := by
  induction txs generalizing unspent with
  | nil => simp
  | cons tx txs ih =>
    obtain ⟨htx, hspends⟩ := forall_mem_cons.mp hspends
    rw [foldl_cons, ih hspends]
    simp only [unspentStep, htx, any_cons]
    cases tx.creates o <;> simp

namespace Chain

open Lib

def allTxs (blocks : List CBlock) : List CTransaction := blocks.flatMap (·.vtx)

/-- Whether an output exists and is unspent after a chain of blocks. -/
def unspentAfter (o : COutPoint) (blocks : List CBlock) : Bool :=
  (allTxs blocks).foldl (unspentStep o) false

theorem unspentAfter_append {o : COutPoint} {fork : List CBlock}
    (hspends : ∀ tx ∈ allTxs fork, tx.spends o = false) (blocks : List CBlock) :
    unspentAfter o (blocks ++ fork) =
      (unspentAfter o blocks || (allTxs fork).any (CTransaction.creates o)) := by
  rw [unspentAfter, allTxs, flatMap_append, foldl_append]
  exact foldl_unspentStep hspends _

namespace StakeEnv

variable (env : StakeEnv)

/-- The blocks from the genesis block to an entry at the given height. -/
def chainBlocks (m : BlockMap) : Nat → CBlockIndex → Option (List CBlock)
  | 0, e => (env.readBlockFromDisk e.hash).map fun block => [block]
  | nHeight + 1, e => do
    let block ← env.readBlockFromDisk e.hash
    let prev ← e.prev m
    let blocks ← chainBlocks m nHeight prev
    pure (blocks ++ [block])

def UnspentAt (st : ChainState) (e : CBlockIndex) (o : COutPoint) : Prop :=
  ∃ blocks, env.chainBlocks st.mapBlockIndex e.nHeight e = some blocks ∧
    unspentAfter o blocks = true

/-- The blocks of an entry's chain above the active chain, which it leaves at `split`. -/
inductive Fork (st : ChainState) : CBlockIndex → CBlockIndex → List CBlock → Prop
  | active {e : CBlockIndex} : st.activeContains e = true → Fork st e e []
  | above {e prev split : CBlockIndex} {block : CBlock} {blocks : List CBlock} :
      st.activeContains e = false → e.prev st.mapBlockIndex = some prev →
      env.readBlockFromDisk e.hash = some block → Fork st prev split blocks →
      Fork st e split (blocks ++ [block])

/-- What the state of the node promises: entries are under their hashes, with their parents one
lower; the blocks of the active chain are on disk; and an unspent coin is an unspent output of the
active chain. -/
structure Sound (st : ChainState) : Prop where
  hash_eq : ∀ h e, st.entry h = some e → e.hash = h
  parent : ∀ h e p, st.entry h = some e → e.pprev = some p →
    ∃ pe, st.entry p = some pe ∧ e.nHeight = pe.nHeight + 1
  onDisk : ∀ h e, st.entry h = some e → st.activeContains e = true →
    (env.chainBlocks st.mapBlockIndex e.nHeight e).isSome = true
  coins : ∀ o tip, st.tipEntry = some tip → (env.accessCoin o).isSpent = false →
    env.UnspentAt st tip o

end StakeEnv

/-! ## `AcceptBlock` -/

/-- What `AcceptBlock` asks of the rest of the node. -/
structure StoreEnv where
  accept : AcceptEnv
  stake : StakeEnv
  /-- The zerocoin checks of an input of the block: the form of the spend is allowed at the height,
  and no earlier input has its serial. -/
  checkSerial : CBlock → CTransaction → CTxIn → Nat → Bool
  /-- The serials of a coinstake against the blocks of the fork and the chain up to the height of
  the split, and the spends themselves. -/
  checkForkSerials : CBlock → List CBlock → Nat → Nat → Bool
  /-- `ContextualCheckZerocoinSpend` of the coinstake. -/
  checkZerocoinStake : CBlock → Nat → Bool
  /-- `FindBlockPos` and `WriteBlockToDisk`. -/
  findBlockPos : CBlock → Nat → Option CDiskBlockPos

namespace StoreEnv

variable (env : StoreEnv)

/-- The checks up to `ContextualCheckBlock`, with `CheckProofOfStake` in a state. -/
def acceptEnv (st : ChainState) : AcceptEnv :=
  { env.accept with
    checkProofOfStake := fun m block prev => prev.any fun prev =>
      match env.stake.checkProofOfStake { st with mapBlockIndex := m } block prev with
      | .ok _ => true
      | .error _ => false }

/-- `ReadBlockFromDisk`. -/
def readBlock (e : CBlockIndex) : Except Refusal CBlock :=
  match env.stake.readBlockFromDisk e.hash with
  | none => .error (.invalid (.invalid "AcceptBlock: previous block not on disk"))
  | some block => .ok block

/-- The walk down the fork from the block `bl` of `prev`, by the height of `prev`, with the number
of blocks read. The result is the split and the blocks above it. -/
def walkFork (st : ChainState) (pivInputs : List CTxIn) :
    Nat → Int → CBlock → CBlockIndex → Except Refusal (CBlockIndex × List CBlock)
  | 0, _, _, prev =>
    -- the genesis block has no parent to go on with
    if st.activeContains prev then .ok (prev, []) else .error .outOfRange
  | nHeight + 1, nRead, bl, prev =>
    if st.activeContains prev then .ok (prev, [])
    else do
      check (nRead + 1 != env.accept.maxReorg)
        "AcceptBlock: forked chain longer than maximum reorg limit"
      check (!bl.vtx.any fun t => pivInputs.any fun stakeIn => t.spends stakeIn.prevout)
        "AcceptBlock: input already spent on a previous block"
      match prev.prev st.mapBlockIndex with
      | none => .error .outOfRange
      | some prev => do
        let bl' ← env.readBlock prev
        let (split, blocks) ← walkFork st pivInputs nHeight (nRead + 1) bl' prev
        pure (split, blocks ++ [bl])

def pivInputs (stakeTx : CTransaction) : List CTxIn :=
  stakeTx.vin.filter fun txin => !txin.isZerocoinSpend

/-- The inputs of the block against each other and against those of the coinstake. -/
def checkWithinBlock (block : CBlock) (stakeTx : CTransaction) (nHeight : Nat) :
    Except Refusal Unit :=
  block.vtx.forM fun tx => tx.vin.forM fun txin => do
    check (env.checkSerial block tx txin nHeight)
      "AcceptBlock: serial double spent on the same block"
    check (tx.isCoinStake || !(pivInputs stakeTx).any fun pivIn => pivIn.prevout == txin.prevout)
      "AcceptBlock: double spent coinstake input inside block"

def isBlockFromFork (st : ChainState) (prev : Option CBlockIndex) : Bool :=
  prev.any fun prev => st.tip != some prev.hash

/-- The inputs of the coinstake against the fork, if there is one. -/
def checkFork (st : ChainState) (block : CBlock) (stakeTx : CTransaction)
    (prev : Option CBlockIndex) (nHeight : Nat) : Except Refusal Unit :=
  match prev.filter fun _ => isBlockFromFork st prev with
  | none => .ok ()
  | some prev => do
    let bl ← env.readBlock prev
    let (split, blocks) ← env.walkFork st (pivInputs stakeTx) prev.nHeight 0 bl prev
    check (!stakeTx.vin.any CTxIn.isZerocoinSpend ||
      env.checkForkSerials block blocks split.nHeight nHeight) "bad-txns-invalid-zpiv"

/-- The inputs of the coinstake against the coins of the active chain. -/
def checkCoins (fromFork : Bool) (block : CBlock) (stakeTx : CTransaction) (nHeight : Nat) :
    Except Refusal Unit :=
  if !stakeTx.hasZerocoinSpendInputs then
    stakeTx.vin.forM fun txin =>
      check (!((env.stake.accessCoin txin.prevout).isSpent && !fromFork))
        "AcceptBlock: coin stake inputs not-available/already-spent on main chain"
  else check (fromFork || env.checkZerocoinStake block nHeight) "bad-txns-invalid-zpiv"

/-- The checks of the coinstake of a block at `nHeight`. -/
def checkStakeInputs (st : ChainState) (block : CBlock) (prev : Option CBlockIndex)
    (nHeight : Nat) : Except Refusal Unit := do
  let stakeTx ← readSecond none block
  env.checkWithinBlock block stakeTx nHeight
  env.checkFork st block stakeTx prev nHeight
  env.checkCoins (isBlockFromFork st prev) block stakeTx nHeight

/-- `AcceptBlock`. The result says whether the block is stored: one that was is not again. -/
def acceptBlock (beyond : Option Beyond) (st : ChainState) (block : CBlock) :
    Except Refusal (ChainState × Bool) := do
  let (prev, st₁) ← env.accept.getPrevIndex st block
  let st₂ ← (env.acceptEnv st₁).acceptBlock beyond st block
  match st₂.entry (env.accept.hash block) with
  | none => .error (.invalid (.assertion "pindex"))
  | some pindex =>
    if pindex.nStatus.haveData then pure (st₂, false)
    else do
      if block.isProofOfStake then env.checkStakeInputs st₂ block prev pindex.nHeight else pure ()
      match env.findBlockPos block pindex.nHeight with
      | none => .error (.invalid (.invalid "AcceptBlock() : FindBlockPos failed"))
      | some pos =>
        pure (receivedBlockTransactions env.accept.chain st₂ block (env.accept.hash block) pos,
          true)

end StoreEnv

/-! ## Forks -/

section

variable {env : StakeEnv} {st st' : ChainState}

variable {e split : CBlockIndex} {blocks : List CBlock}

theorem StakeEnv.Fork.unique {split' : CBlockIndex} {blocks' : List CBlock}
    (h : env.Fork st e split blocks) (h' : env.Fork st e split' blocks') :
    split = split' ∧ blocks = blocks' := by
  induction h generalizing split' blocks' with
  | active hactive =>
    cases h' with
    | active => exact ⟨rfl, rfl⟩
    | above hinactive => rw [hactive] at hinactive; cases hinactive
  | above hinactive hprev hread _ ih =>
    cases h' with
    | active hactive => rw [hactive] at hinactive; cases hinactive
    | above _ hprev' hread' hrest' =>
      cases hprev.symm.trans hprev'
      cases hread.symm.trans hread'
      obtain ⟨rfl, rfl⟩ := ih hrest'
      exact ⟨rfl, rfl⟩

theorem StakeEnv.Sound.prev_eq (hsound : env.Sound st) {h : UInt256} {prev : CBlockIndex}
    (he : st.entry h = some e) (hprev : e.prev st.mapBlockIndex = some prev) :
    st.entry prev.hash = some prev ∧ e.nHeight = prev.nHeight + 1 := by
  obtain ⟨p, hp, hentry⟩ := Option.bind_eq_some_iff.mp hprev
  obtain ⟨pe, hpe, hheight⟩ := hsound.parent h e p he hp
  obtain rfl := Option.some.inj (hpe.symm.trans hentry)
  rw [hsound.hash_eq p pe hpe]
  exact ⟨hpe, hheight⟩

section

variable (hfork : env.Fork st e split blocks) (hsound : env.Sound st)
  (he : st.entry e.hash = some e)

include hfork hsound he

theorem StakeEnv.Fork.chainBlocks_eq : env.chainBlocks st.mapBlockIndex e.nHeight e =
      (env.chainBlocks st.mapBlockIndex split.nHeight split).map (· ++ blocks) := by
  induction hfork with
  | active => simp
  | @above e prev split block blocks _ hprev hread _ ih =>
    obtain ⟨hentry, hheight⟩ := hsound.prev_eq he hprev
    rw [hheight]
    simp only [chainBlocks, hread, hprev, ih hentry, Option.bind_eq_bind, Option.bind_some]
    cases env.chainBlocks st.mapBlockIndex split.nHeight split with
    | none => rfl
    | some chain => simp

theorem StakeEnv.Fork.split_active :
    st.entry split.hash = some split ∧ st.activeContains split = true := by
  induction hfork with
  | active hactive => exact ⟨he, hactive⟩
  | above _ hprev _ _ ih => exact ih (hsound.prev_eq he hprev).1

theorem StakeEnv.Fork.unspentAt_iff {o : COutPoint}
    (hspends : ∀ tx ∈ allTxs blocks, tx.spends o = false) :
    env.UnspentAt st e o ↔
      env.UnspentAt st split o ∨ (allTxs blocks).any (CTransaction.creates o) = true := by
  obtain ⟨hentry, hactive⟩ := hfork.split_active hsound he
  obtain ⟨chain, hchain⟩ := Option.isSome_iff_exists.mp
    (hsound.onDisk split.hash split hentry hactive)
  have heq := hfork.chainBlocks_eq hsound he
  rw [hchain, Option.map_some] at heq
  simp only [UnspentAt, heq, hchain, Option.some.injEq, exists_eq_left',
    unspentAfter_append hspends, Bool.or_eq_true]

end

end

/-! ## The checks of a stored block -/

/-- `st'` has the active chain of `st` and all its entries. -/
structure ChainState.Keeps (st st' : ChainState) : Prop where
  chainActive : st'.chainActive = st.chainActive
  entry : ∀ h e, st.entry h = some e → st'.entry h = some e

namespace ChainState.Keeps

variable {st st' : ChainState} (hkeeps : st.Keeps st')

include hkeeps

theorem activeContains (e : CBlockIndex) : st'.activeContains e = st.activeContains e := by
  rw [ChainState.activeContains, ChainState.activeContains, hashAt, hashAt, hkeeps.chainActive]

theorem tip : st'.tip = st.tip := congrArg head? hkeeps.chainActive

end ChainState.Keeps

theorem keeps_addToBlockIndex (env : ChainEnv) (st : ChainState) (block : CBlock) :
    st.Keeps (addToBlockIndex env st block) := by
  unfold addToBlockIndex
  cases hentry : st.entry (block.getHash env) with
  | some pindex => exact ⟨rfl, fun h e he => he⟩
  | none =>
    refine ⟨rfl, fun h e he => ?_⟩
    exact lookup_insert_old (by rw [(AcceptEnv.newEntry_agrees env _ block).1]; exact hentry) he

variable {st' st : ChainState}

theorem AcceptEnv.keeps_acceptBlockHeader {env : AcceptEnv} {beyond : Option Beyond}
    {block : CBlock} {prev : Option CBlockIndex}
    (h : env.acceptBlockHeader beyond st block prev = .ok st') : st.Keeps st' := by
  unfold acceptBlockHeader at h
  cases hentry : st.entry (env.hash block) with
  | some pindex =>
    rw [hentry] at h
    obtain ⟨_, _, h⟩ := bind_eq_ok.1 h
    cases h
    exact ⟨rfl, fun h e he => he⟩
  | none =>
    rw [hentry] at h
    obtain ⟨_, _, h⟩ := bind_eq_ok.1 h
    rw [addBlock_eq_ok h]
    exact keeps_addToBlockIndex env.chain st block

theorem eq_of_checked {test : Bool} {x : Except Refusal Unit}
    (h : (if test then pure st else do x; pure st : Except Refusal ChainState) = .ok st') :
    st = st' := by
  cases test with
  | true =>
    cases h
    rfl
  | false =>
    obtain ⟨_, _, h⟩ := bind_eq_ok.1 h
    cases h
    rfl

namespace StoreEnv

variable {env : StoreEnv} {st st' : ChainState}

theorem readBlock_eq_ok {e : CBlockIndex} {block : CBlock} (h : env.readBlock e = .ok block) :
    env.stake.readBlockFromDisk e.hash = some block := by
  unfold readBlock at h
  cases hread : env.stake.readBlockFromDisk e.hash with
  | none => simp [hread] at h
  | some b =>
    rw [hread] at h
    cases h
    rfl

theorem walkFork_of_active {pivInputs : List CTxIn} {prev : CBlockIndex}
    (hactive : st.activeContains prev = true) (nHeight : Nat) (nRead : Int) (bl : CBlock) :
    env.walkFork st pivInputs nHeight nRead bl prev = .ok (prev, []) := by
  cases nHeight <;> rw [walkFork, if_pos hactive]

theorem fork_of_walkFork (hsound : env.stake.Sound st) (hkeeps : st.Keeps st')
    {pivInputs : List CTxIn} {nHeight : Nat} {nRead : Int} {bl : CBlock} {prev split : CBlockIndex}
    {blocks : List CBlock} (hentry : st.entry prev.hash = some prev)
    (hread : env.stake.readBlockFromDisk prev.hash = some bl)
    (hwalk : env.walkFork st' pivInputs nHeight nRead bl prev = .ok (split, blocks)) :
    env.stake.Fork st prev split blocks ∧
      ∀ tx ∈ allTxs blocks, ∀ txin ∈ pivInputs, tx.spends txin.prevout = false := by
  -- by induction on the height: the walk stops at an active block, or its block spends nothing
  -- and the walk goes on at the parent
  induction nHeight generalizing nRead bl prev blocks with
  | zero =>
    by_cases hactive : st'.activeContains prev = true
    · rw [walkFork_of_active hactive] at hwalk
      cases hwalk
      exact ⟨.active ((hkeeps.activeContains _).symm.trans hactive), by simp [allTxs]⟩
    · rw [walkFork, if_neg hactive] at hwalk
      cases hwalk
  | succ nHeight ih =>
    by_cases hactive : st'.activeContains prev = true
    · rw [walkFork_of_active hactive] at hwalk
      cases hwalk
      exact ⟨.active ((hkeeps.activeContains _).symm.trans hactive), by simp [allTxs]⟩
    · rw [walkFork, if_neg hactive] at hwalk
      obtain ⟨_, _, hwalk⟩ := bind_eq_ok.1 hwalk
      obtain ⟨_, hunspent, hwalk⟩ := bind_eq_ok.1 hwalk
      have hbl : ∀ tx ∈ bl.vtx, ∀ txin ∈ pivInputs, tx.spends txin.prevout = false := by
        simpa using check_eq_ok.1 hunspent
      cases hprev' : prev.prev st'.mapBlockIndex with
      | none => simp [hprev'] at hwalk
      | some parent =>
        simp only [hprev'] at hwalk
        obtain ⟨bl', hread', hwalk⟩ := bind_eq_ok.1 hwalk
        obtain ⟨⟨split', above⟩, hrest, hresult⟩ := bind_eq_ok.1 hwalk
        obtain ⟨rfl, rfl⟩ : split' = split ∧ above ++ [bl] = blocks := by
          simpa [pure, Except.pure] using hresult
        -- the parent is the one of the state before the header was added
        have hprev : prev.prev st.mapBlockIndex = some parent := by
          obtain ⟨p, hp, hlookup⟩ := Option.bind_eq_some_iff.mp hprev'
          obtain ⟨pe, hpe, -⟩ := hsound.parent _ _ _ hentry hp
          cases (hkeeps.entry _ _ hpe).symm.trans hlookup
          exact Option.bind_eq_some_iff.mpr ⟨p, hp, hpe⟩
        obtain ⟨hfork, hspends⟩ := ih (hsound.prev_eq hentry hprev).1 (readBlock_eq_ok hread') hrest
        have hinactive : st.activeContains prev = false := by
          rw [← hkeeps.activeContains]
          exact Bool.eq_false_iff.mpr hactive
        refine ⟨.above hinactive hprev hread hfork, ?_⟩
        simp only [allTxs, flatMap_append, mem_append, flatMap_singleton]
        intro tx htx
        exact htx.elim (hspends tx) (hbl tx)

variable {st₁ st₂ : ChainState} {block : CBlock} {beyond : Option Beyond} {prev : CBlockIndex}
  {tx : CTransaction} {txin : CTxIn} {nHeight : Nat}

theorem coin_of_checkStakeInputs
    (hcheck : env.checkStakeInputs st block (some prev) nHeight = .ok ())
    (htx : block.vtx[1]? = some tx) (hzc : tx.hasZerocoinSpendInputs = false)
    (htip : st.tip = some prev.hash) (htxin : txin ∈ tx.vin) :
    (env.stake.accessCoin txin.prevout).isSpent = false := by
  obtain ⟨stakeTx, hsecond, hcheck⟩ := bind_eq_ok.1 hcheck
  obtain ⟨_, _, hcheck⟩ := bind_eq_ok.1 hcheck
  obtain ⟨_, _, hcoins⟩ := bind_eq_ok.1 hcheck
  obtain rfl : tx = stakeTx := by simpa [readSecond, htx] using hsecond
  have hfork : isBlockFromFork st (some prev) = false := by simp [isBlockFromFork, htip]
  simp only [checkCoins, hzc, hfork] at hcoins
  simpa using check_eq_ok.1 (forM_eq_ok hcoins txin htxin)

theorem fork_of_checkStakeInputs (hsound : env.stake.Sound st) (hkeeps : st.Keeps st')
    (hcheck : env.checkStakeInputs st' block (some prev) nHeight = .ok ())
    (hentry : st.entry prev.hash = some prev)
    (htx : block.vtx[1]? = some tx) (hzc : tx.hasZerocoinSpendInputs = false)
    (htip : st.tip ≠ some prev.hash) (htxin : txin ∈ tx.vin) :
    ∃ split blocks, env.stake.Fork st prev split blocks ∧
      ∀ t ∈ allTxs blocks, t.spends txin.prevout = false := by
  obtain ⟨stakeTx, hsecond, hcheck⟩ := bind_eq_ok.1 hcheck
  obtain ⟨_, _, hcheck⟩ := bind_eq_ok.1 hcheck
  obtain ⟨_, hfork, _⟩ := bind_eq_ok.1 hcheck
  obtain rfl : tx = stakeTx := by simpa [readSecond, htx] using hsecond
  have hfrom : isBlockFromFork st' (some prev) = true := by
    simp [isBlockFromFork, hkeeps.tip, htip]
  simp only [checkFork, hfrom] at hfork
  obtain ⟨bl, hread, hfork⟩ := bind_eq_ok.1 hfork
  obtain ⟨⟨split, blocks⟩, hwalk, _⟩ := bind_eq_ok.1 hfork
  obtain ⟨hfork, hspends⟩ := fork_of_walkFork hsound hkeeps hentry (readBlock_eq_ok hread) hwalk
  have hpiv : txin ∈ pivInputs tx := by
    have hspend : txin.isZerocoinSpend = false := by
      simp only [CTransaction.hasZerocoinSpendInputs, any_eq_false, Bool.or_eq_true,
        not_or] at hzc
      exact Bool.eq_false_iff.mpr (hzc txin htxin).1
    simp [pivInputs, htxin, hspend]
  exact ⟨split, blocks, hfork, fun t ht => hspends t ht txin hpiv⟩

theorem checked_of_stored {parent : Option CBlockIndex}
    (hprev : env.accept.getPrevIndex st block = .ok (parent, st₁))
    (hstored : env.acceptBlock beyond st block = .ok (st', true))
    (hpos : block.isProofOfStake = true) :
    ∃ st₂ nHeight, st₁.Keeps st₂ ∧ env.checkStakeInputs st₂ block parent nHeight = .ok () := by
  obtain ⟨⟨parent', st1'⟩, hprev', hstored⟩ := bind_eq_ok.1 hstored
  obtain ⟨rfl, rfl⟩ : parent = parent' ∧ st₁ = st1' := by simpa using hprev.symm.trans hprev'
  obtain ⟨st₂, haccept, hstored⟩ := bind_eq_ok.1 hstored
  have hkeeps : st₁.Keeps st₂ := by
    obtain ⟨⟨parent', st1'⟩, hprev', haccept⟩ := bind_eq_ok.1 haccept
    obtain ⟨rfl, rfl⟩ : parent = parent' ∧ st₁ = st1' := by simpa using hprev.symm.trans hprev'
    obtain ⟨_, _, haccept⟩ := bind_eq_ok.1 haccept
    obtain ⟨_, _, haccept⟩ := bind_eq_ok.1 haccept
    obtain ⟨st3, hheader, haccept⟩ := bind_eq_ok.1 haccept
    obtain rfl : st3 = st₂ := eq_of_checked haccept
    exact AcceptEnv.keeps_acceptBlockHeader hheader
  cases hentry : st₂.entry (env.accept.hash block) with
  | none => simp [hentry] at hstored
  | some pindex =>
    simp only [hentry] at hstored
    by_cases hdata : pindex.nStatus.haveData = true
    · rw [if_pos hdata] at hstored
      cases hstored
    · rw [if_neg hdata, if_pos hpos] at hstored
      obtain ⟨_, hcheck, _⟩ := bind_eq_ok.1 hstored
      exact ⟨st₂, pindex.nHeight, hkeeps, hcheck⟩

/-- **When a stored stake is unspent.** If `AcceptBlock` stores a proof-of-stake block whose
coinstake spends no zerocoin, then its first input is an unspent output of the chain of the parent
if and only if the parent is the tip, or the output is unspent where the chain of the parent leaves
the active chain, or a block above that creates it. -/
theorem stored_stake_unspent_iff (hprev : env.accept.getPrevIndex st block = .ok (some prev, st₁))
    (hsound : env.stake.Sound st₁) (hstored : env.acceptBlock beyond st block = .ok (st', true))
    (hpos : block.isProofOfStake = true) (htx : block.vtx[1]? = some tx)
    (hzc : tx.hasZerocoinSpendInputs = false) (htxin : tx.vin[0]? = some txin) :
    env.stake.UnspentAt st₁ prev txin.prevout ↔ st₁.tip = some prev.hash ∨
      ∃ split blocks, env.stake.Fork st₁ prev split blocks ∧
        (env.stake.UnspentAt st₁ split txin.prevout ∨
          (allTxs blocks).any (CTransaction.creates txin.prevout) = true) := by
  obtain ⟨st₂, nHeight, hkeeps, hcheck⟩ := checked_of_stored hprev hstored hpos
  have hmem : txin ∈ tx.vin := mem_of_getElem? htxin
  have hparent : st₁.entry block.hashPrevBlock = some prev :=
    ((AcceptEnv.getPrevIndex_cases hprev).2.resolve_left (Option.some_ne_none prev)).symm
  have hentry : st₁.entry prev.hash = some prev := by rwa [hsound.hash_eq _ _ hparent]
  by_cases htip : st₁.tip = some prev.hash
  · -- the coins are those of the parent
    have hcoin := coin_of_checkStakeInputs hcheck htx hzc (hkeeps.tip.trans htip) hmem
    have htipEntry : st₁.tipEntry = some prev := by
      rw [ChainState.tipEntry, htip, Option.bind_some, hentry]
    exact iff_of_true (hsound.coins _ prev htipEntry hcoin) (.inl htip)
  · obtain ⟨split, blocks, hfork, hspends⟩ :=
      fork_of_checkStakeInputs hsound hkeeps hcheck hentry htx hzc htip hmem
    rw [hfork.unspentAt_iff hsound hentry hspends]
    constructor
    · intro hunspent
      exact .inr ⟨split, blocks, hfork, hunspent⟩
    · rintro (htip' | ⟨split', blocks', hfork', hunspent⟩)
      · exact absurd htip' htip
      · obtain ⟨rfl, rfl⟩ := hfork.unique hfork'
        exact hunspent

end StoreEnv

/-! ### Stakes on a regtest chain -/

open AcceptSample (entryAt transaction blockOf coinbase hashAt)

namespace StoreSample

open StakeSample (chain entry_chain hashAt_chain funding coinstake)

/-- The transaction that spends the output of `funding`. -/
def spender : CTransaction := { transaction ⟨7, 0⟩ [] COIN with hash := 8 }

/-- The block at height 240 creates the output, and that at height 245 spends it, if `spent`. -/
def diskBlock (spent : Bool) (hash : UInt256) : CBlock :=
  StakeSample.blockOn 0 (if hash = hashAt 240 then [coinbase, funding]
    else if spent && hash == hashAt 245 then [coinbase, spender]
    else [coinbase])

def stake (spent : Bool) : StakeEnv :=
  { StakeSample.env (.regtest 0) (hashAt 240) with
    readBlockFromDisk := fun hash => some (diskBlock spent hash)
    accessCoin := fun o =>
      if !spent && o == ⟨7, 0⟩ then ⟨false, false, ⟨100 * COIN, [0x51]⟩, 240⟩ else .empty }

def env (spent : Bool) : StoreEnv where
  accept := AcceptSample.env false
  stake := stake spent
  checkSerial _ _ _ _ := true
  checkForkSerials _ _ _ _ := true
  checkZerocoinStake _ _ := true
  findBlockPos _ _ := some ⟨0, 8⟩

def block : CBlock := blockOf [coinbase, coinstake]

variable {n : Nat} (hn : n ≤ 2 ^ 255)

theorem chainBlocks_chain (spent : Bool) {i : Nat} (hi : i < n) :
    (stake spent).chainBlocks (chain n hn).mapBlockIndex i (entryAt i) =
      some ((range (i + 1)).map fun j => diskBlock spent (hashAt j)) := by
  induction i with
  | zero => rfl
  | succ i ih =>
    have hprev : (entryAt (i + 1)).prev (chain n hn).mapBlockIndex = some (entryAt i) :=
      entry_chain hn (by omega)
    simp only [StakeEnv.chainBlocks, hprev, ih (by omega), Option.bind_eq_bind, Option.bind_some]
    rw [range_succ (n := i + 1), map_append]
    rfl

theorem unspentAt_chain (spent : Bool) {i : Nat} (hi : i < n) (o : COutPoint) :
    (stake spent).UnspentAt (chain n hn) (entryAt i) o ↔ unspentAfter o
      ((range (i + 1)).map fun j => diskBlock spent (hashAt j)) = true := by
  have hblocks := chainBlocks_chain hn spent hi
  simp only [StakeEnv.UnspentAt, entryAt] at hblocks ⊢
  simp only [hblocks, Option.some.injEq, exists_eq_left']

theorem entry_chain_cases {h : UInt256} {e : CBlockIndex} (he : (chain n hn).entry h = some e) :
    ∃ i < n, h = hashAt i ∧ e = entryAt i := by
  obtain ⟨i, hi, heq⟩ := mem_map.mp (AList.mem_lookup_iff.mp he)
  cases heq
  exact ⟨i, mem_range.mp hi, rfl, rfl⟩

/-- The sample states keep their promises, if the coin that they show is unspent at the tip. -/
theorem sound_chain (spent : Bool) (hpos : 0 < n)
    (hcoin : spent = false → (stake spent).UnspentAt (chain n hn) (entryAt (n - 1)) ⟨7, 0⟩) :
    (stake spent).Sound (chain n hn) where
  hash_eq h e he := by
    obtain ⟨i, -, rfl, rfl⟩ := entry_chain_cases hn he
    rfl
  parent h e p he hp := by
    obtain ⟨i, hi, rfl, rfl⟩ := entry_chain_cases hn he
    cases i with
    | zero => cases hp
    | succ i =>
      obtain rfl : hashAt i = p := by simpa [entryAt] using hp
      exact ⟨entryAt i, entry_chain hn (by omega), rfl⟩
  onDisk h e he _ := by
    obtain ⟨i, hi, rfl, rfl⟩ := entry_chain_cases hn he
    exact Option.isSome_of_eq_some (chainBlocks_chain hn spent hi)
  coins o tip htip hunspent := by
    obtain rfl : entryAt (n - 1) = tip := by
      have hhead : (chain n hn).tip = some (hashAt (n - 1)) := by
        simp [ChainState.tip, chain, getLast?_eq_getElem?, hpos]
      rw [ChainState.tipEntry, hhead, Option.bind_some, entry_chain hn (by omega)] at htip
      exact Option.some.inj htip
    cases spent with
    | true => cases hunspent
    | false =>
      by_cases ho : o = ⟨7, 0⟩
      · subst ho
        exact hcoin rfl
      · have hnone : (stake false).accessCoin o = .empty := if_neg (by
          simp only [Bool.not_false, Bool.true_and, beq_iff_eq]
          exact ho)
        rw [hnone, Coin.isSpent_empty] at hunspent
        cases hunspent

def stored : Except Refusal (ChainState × Bool) → Bool
  | .ok (_, fStored) => fStored
  | .error _ => false

theorem exists_of_stored {x : Except Refusal (ChainState × Bool)} (h : stored x = true) :
    ∃ st, x = .ok (st, true) := by
  cases x with
  | error e => cases h
  | ok result =>
    obtain ⟨st, fStored⟩ := result
    cases h
    exact ⟨st, rfl⟩

theorem getPrevIndex_chain (spent : Bool) (hparent : 250 < n) :
    (env spent).accept.getPrevIndex (chain n hn) block = .ok (some (entryAt 250), chain n hn) := by
  have hgenesis : (env spent).accept.hash block ≠
      (env spent).accept.validation.hashGenesisBlock := by cases spent <;> decide
  have hvalid : (entryAt 250).nStatus.failed = false := rfl
  have hentry : (chain n hn).entry block.hashPrevBlock = some (entryAt 250) :=
    entry_chain hn hparent
  simp only [AcceptEnv.getPrevIndex, if_neg hgenesis, hentry, hvalid, Bool.false_eq_true, if_false]

theorem heights_fit : 251 ≤ 2 ^ 255 ∧ 253 ≤ 2 ^ 255 := by norm_num

end StoreSample

open StoreSample StakeSample in
/-- A block on the tip stakes the unspent output of block 240. -/
theorem stored_stake_on_tip :
    (stake false).UnspentAt (chain 251 heights_fit.1) (entryAt 250) ⟨7, 0⟩ := by
  have hunspent : (stake false).UnspentAt (chain 251 heights_fit.1) (entryAt 250)
      ⟨7, 0⟩ := (unspentAt_chain heights_fit.1 false (by decide) ⟨7, 0⟩).mpr (by decide +kernel)
  obtain ⟨st', hstored⟩ := exists_of_stored (by decide +kernel :
    stored ((env false).acceptBlock none (chain 251 heights_fit.1) block) = true)
  exact (StoreEnv.stored_stake_unspent_iff (getPrevIndex_chain heights_fit.1 false (by decide))
    (sound_chain heights_fit.1 false (by decide) fun _ => hunspent) hstored rfl rfl (by decide)
    rfl).mpr (.inl (by decide +kernel))

open StoreSample StakeSample in
/-- A block on an active block below the tip, whose chain has spent the staked output, is stored. -/
theorem spent_stake_stored : (stake true).Sound (chain 253 heights_fit.2) ∧
      (∃ st', (StoreSample.env true).acceptBlock none (chain 253 heights_fit.2) block =
        .ok (st', true)) ∧
      block.isProofOfStake = true ∧ coinstake.hasZerocoinSpendInputs = false ∧
      (chain 253 heights_fit.2).entry block.hashPrevBlock = some (entryAt 250) ∧
      ¬ (stake true).UnspentAt (chain 253 heights_fit.2) (entryAt 250) ⟨7, 0⟩ := by
  refine ⟨sound_chain heights_fit.2 true (by decide) fun h => (Bool.noConfusion h),
    exists_of_stored (by decide +kernel), rfl, by decide, entry_chain heights_fit.2 (by decide), ?_⟩
  rw [unspentAt_chain heights_fit.2 true (by decide)]
  decide +kernel

end Chain

end Passion
