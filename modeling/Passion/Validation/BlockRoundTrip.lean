import Passion.Validation.Connected

/-!
# Disconnecting a block undoes connecting it

`ChainstateAt` is what holds of the chainstate at a block of the chain; connecting the next block
keeps it (`ChainstateAt.connectBlock`).

**Theorem (`disconnectBlock_undoes_connectBlock`).** On a cache over any lawful view that is at the
parent block, if `connectBlock` accepts a block, then `disconnectBlock` with the undo data that was
written succeeds and gives back coins, nullifiers, best anchor and best block. Heights are below
`2 ^ 30`, since undo records have 30 bits for them (`undo_loses_height`). A branch of blocks is
disconnected in the same way (`disconnectTips_restores`).

The run on the cache is carried to a plain chainstate and back by `CCoinsViewCache.simulates`. This
needs that the plain run breaks no contract, which is where the premises about the outputs of the
block are used.
-/

namespace Passion

open Lib (Map Prog bind_eq_ok)
open CCoinsViewCache (handler simulates)
open List
open SaplingState
open ConsensusParams
open IncrementalMerkleTree
open SaplingMerkleTree
open Lib.Prog
open Lib.WriteBack
open ViewM

/-! ## Undo data on disk -/

/-- Undo records keep heights below `2 ^ 30`. -/
theorem unserialize_serialize {c : Coin} (hc : c.nHeight < 1073741824) :
    (TxInUndo.serialize c).unserialize = some c := by
  obtain ⟨base, stake, out, nHeight⟩ := c
  have hsmall : nHeight * 4 + 3 < 4294967296 := by
    dsimp only at hc
    omega
  unfold TxInUndo.serialize TxInUndo.unserialize
  cases base <;> cases stake <;> simp <;> omega

theorem undoReadFromDisk_undoWriteToDisk {u : CBlockUndo}
    (hu : ∀ txundo ∈ u, ∀ c ∈ txundo, c.nHeight < 1073741824) :
    undoReadFromDisk (undoWriteToDisk u) = some u := by
  have htx : ∀ txundo : List Coin, (∀ c ∈ txundo, c.nHeight < 1073741824) →
      (txundo.map TxInUndo.serialize).mapM TxInUndo.unserialize = some txundo := by
    intro txundo htx
    induction txundo with
    | nil => rfl
    | cons c l ih =>
      obtain ⟨hc, hl⟩ := forall_mem_cons.mp htx
      rw [map_cons, mapM_cons, unserialize_serialize hc, ih hl]
      rfl
  unfold undoReadFromDisk undoWriteToDisk
  induction u with
  | nil => rfl
  | cons txundo u ih =>
    obtain ⟨htxundo, hu⟩ := forall_mem_cons.mp hu
    rw [map_cons, mapM_cons, htx txundo htxundo, ih hu]
    rfl

section

variable [MerkleHash UInt256]

variable {env : ValidationEnv} {block : CBlock} {pindex pprev : CBlockIndex} {st st' : Chainstate}

/-! ## An accepted block -/

/-- What an accepted block has passed and done. -/
structure ConnectedBlock (env : ValidationEnv) (block : CBlock) (pindex pprev : CBlockIndex)
    (undo : DiskUndo) (st st' : Chainstate) (tree : SaplingMerkleTree) (s : ConnectState)
    (st₁ : Chainstate) : Prop where
  checked : block.Checked env
  bestBlock : st.bestBlock = pprev.hash
  anchor : st.sapling.anchors st.sapling.bestAnchor = some tree
  loop : plainRun (block.vtx.zipIdx.foldlM (connectTx env block pindex.nHeight (pprev.nHeight + 1)
    (decide (env.totalBlocksEstimate ≤ pindex.nHeight))) ⟨0, 0, 0, 0, tree, []⟩) st = .ok (s, st₁)
  footer : connectFooter env block pindex.nHeight s = .ok ()
  undo_eq : undo = undoWriteToDisk s.vtxundo
  state : st' = { st₁ with sapling := st₁.sapling.push s.saplingTree, bestBlock := pindex.hash }

theorem connectStart_ok {tree : SaplingMerkleTree}
    (h : plainRun (connectStart env block pindex pprev) st = .ok (tree, st')) :
    st.bestBlock = pprev.hash ∧ st.sapling.anchors st.sapling.bestAnchor = some tree := by
  obtain ⟨_, -, h1⟩ := check_bind_ok.1 h
  obtain ⟨hash, t1, hbest, h2⟩ := plainRun_bind_ok.1 h1
  cases hbest
  split_ifs at h2 with hprev
  · cases h2
  · obtain ⟨_, -, h3⟩ := check_bind_ok.1 h2
    obtain ⟨rt, t3, hrt, h4⟩ := plainRun_bind_ok.1 h3
    cases hrt
    obtain ⟨tree?, t4, htree, h5⟩ := plainRun_bind_ok.1 h4
    cases htree
    refine ⟨not_not.mp hprev, ?_⟩
    cases hanchor : st.sapling.anchors st.sapling.bestAnchor with
    | none =>
      rw [hanchor] at h5
      cases h5
    | some tree =>
      rw [hanchor] at h5
      cases h5
      rfl

variable {undo : DiskUndo}

theorem connectBlock_ok (h : plainRun (connectBlock env block pindex pprev) st = .ok (undo, st')) :
    ∃ tree s st₁, ConnectedBlock env block pindex pprev undo st st' tree s st₁ := by
  obtain ⟨st0, st₁, st2, tree, s, hran⟩ := run_connectBlock_ok h
  obtain rfl := (reads_connectStart env block pindex pprev).state_eq hran.start
  obtain ⟨hbest, hanchor⟩ := connectStart_ok hran.start
  have hpush := hran.push
  have hset := hran.set
  simp only [pushAnchor, setBestBlock, run_call, Chainstate.handler] at hpush hset
  split_ifs at hpush hset
  cases hpush
  cases hset
  exact ⟨tree, s, st₁, run_connectStart_checked hran.start, hbest, hanchor, hran.loop, hran.footer,
    hran.undo_eq, rfl⟩

/-! ## The chainstate at a block -/

/-- What holds of the chainstate at the block `pindex` of the chain. -/
structure ChainstateAt (env : ValidationEnv) (pindex : CBlockIndex) (st : Chainstate) : Prop where
  bestBlock : st.bestBlock = pindex.hash
  coins : CoinsAt pindex.nHeight st.coins
  bestAnchor : st.sapling.bestAnchor = previousAnchor env pindex
  tree : ∃ tree, st.sapling.anchors st.sapling.bestAnchor = some tree ∧
    root tree = st.sapling.bestAnchor

/-- A block on top of a chainstate: its transactions have distinct ids, and none of their outputs
exists. -/
structure NewBlock (block : CBlock) (pindex pprev : CBlockIndex) (st : Chainstate) : Prop where
  height : pindex.nHeight = pprev.nHeight + 1
  distinct : (block.vtx.map (·.hash)).Nodup
  fresh : ∀ tx ∈ block.vtx, ∀ i, i < tx.vout.length → st.coins ⟨tx.hash, i⟩ = none

omit [MerkleHash UInt256] in
/-- The list of invalid outpoints is not consulted at heights below `2 ^ 30`. -/
theorem skipInvalidUTXOS_eq_false (hmain : env.params.network = .main → env.params = .main)
    {nHeight : Nat} (hheight : nHeight < 1073741824) : skipInvalidUTXOS env nHeight = false := by
  unfold skipInvalidUTXOS
  by_cases hnet : env.params.network = .main
  · have hzc : env.upgradeActive nHeight .zc = false := by
      simp only [ValidationEnv.upgradeActive, networkUpgradeActive, hmain hnet, main, intMax]
      rw [if_neg (by decide), decide_eq_false_iff_not]
      omega
    simp [hzc]
  · simp [hnet]

def SaplingState.Admits (sp : SaplingState) (rt : UInt256) : Prop :=
  sp.bestAnchor = rt ∨ sp.anchors rt = none

theorem pop_push (sp : SaplingState) (tree : SaplingMerkleTree)
    (nullifiers : UInt256 → Option Unit) :
    ∃ sp', pop { sp.push tree with nullifiers := nullifiers } sp.bestAnchor = some sp' ∧
      sp'.nullifiers = nullifiers ∧ sp'.bestAnchor = sp.bestAnchor ∧
      (sp.Admits (sp.push tree).bestAnchor → sp'.anchors = sp.anchors) := by
  unfold push
  split_ifs with hroot
  · exact ⟨_, if_pos rfl, rfl, rfl, fun _ => rfl⟩
  · refine ⟨_, (if_neg fun he => hroot he.symm).trans (if_neg ?_), rfl, rfl, fun hnew => ?_⟩
    · simp
    · simpa using (hnew.resolve_left hroot).symm

theorem push_tree (sp : SaplingState) (tree : SaplingMerkleTree)
    (hknown : ∃ t, sp.anchors sp.bestAnchor = some t ∧ root t = sp.bestAnchor) :
    (sp.push tree).bestAnchor = root tree ∧
      ∃ t, (sp.push tree).anchors (sp.push tree).bestAnchor = some t ∧
        root t = (sp.push tree).bestAnchor := by
  unfold push
  split_ifs with hroot
  · exact ⟨hroot, hknown⟩
  · exact ⟨rfl, tree, by simp, rfl⟩

/-- Before anything is connected there are no coins, and the empty tree is the only anchor. -/
theorem chainstateAt_genesis {genesis : CBlockIndex} (hheight : genesis.nHeight = 0)
    (hv5 : env.upgradeActive 0 .v5_0 = false) (hempty : root empty = emptyRoot)
    (hblock : st.bestBlock = genesis.hash) (hcoins : ∀ o, st.coins o = none)
    (hanchor : st.sapling.bestAnchor = emptyRoot)
    (htree : st.sapling.anchors emptyRoot = some empty) :
    ChainstateAt env genesis st where
  bestBlock := hblock
  coins o c hc := nomatch (hcoins o).symm.trans hc
  bestAnchor := by
    rw [hanchor, previousAnchor, hheight, Nat.cast_zero, hv5]
    rfl
  tree := ⟨_, hanchor ▸ htree, hempty.trans hanchor.symm⟩

section

variable (hat : ChainstateAt env pprev st) (hnew : NewBlock block pindex pprev st)
  (hskip : skipInvalidUTXOS env pindex.nHeight = false)

include hat hnew hskip

theorem connectable_of_checked (hchecked : block.Checked env) :
    Connectable env pindex.nHeight block.vtx st where
  height := by
    rw [hnew.height]
    exact Nat.succ_ne_zero _
  checked tx htx := by
    obtain ⟨_, hc⟩ := hchecked.checked tx htx
    exact checked_of_checkTransaction hc
  coins o c hc := by
    obtain ⟨hrestorable, hle⟩ := hat.coins o c hc
    exact ⟨hrestorable, hnew.height ▸ Nat.le_succ_of_le hle⟩
  distinct := hnew.distinct
  fresh := hnew.fresh
  unskipped := by simp [hskip]

theorem avoids_connectBlock (hroots : ∀ tree : SaplingMerkleTree, root tree ≠ 0) :
    Avoids Chainstate.handler (· = .contract) st (connectBlock env block pindex pprev) := by
  have hstart := reads_connectStart env block pindex pprev
  refine hstart.avoids_bind fun tree hrun => ?_
  have hc := connectable_of_checked hat hnew hskip (run_connectStart_checked hrun)
  refine avoids_bind (avoids_connectTxs hc 0 _) fun s st₁ _ => ?_
  refine avoids_bind (avoids_of_ok (plainRun_pushAnchor (hroots _) st₁)) fun _ t1 _ => ?_
  refine (reads_check (clean_connectFooter _ _ _ _)).avoids_bind fun _ _ => ?_
  exact avoids_bind (avoids_of_ok (plainRun_setBestBlock pindex.hash_ne_zero t1))
    fun _ _ _ => avoids_pure _

/-! ## Going back -/

theorem ConnectedBlock.connected {tree : SaplingMerkleTree} {s : ConnectState} {st₁ : Chainstate}
    (hb : ConnectedBlock env block pindex pprev undo st st' tree s st₁) :
    ∃ undos, undos.length + 1 = block.vtx.length ∧
      Connected pindex.nHeight (block.vtx.zip (none :: undos.map some)) undos
        ⟨0, 0, 0, 0, tree, []⟩ s st st₁ := by
  have hc := connectable_of_checked hat hnew hskip hb.checked
  have hfirst := hb.checked.first
  have hloop := hb.loop
  cases hvtx : block.vtx with
  | nil =>
    rw [hvtx] at hfirst
    cases hfirst
  | cons tx txs =>
    rw [hvtx] at hfirst hloop hc
    have hbase : tx.isCoinBase = true := hfirst
    obtain ⟨undos, hlen, hconn⟩ :=
      connectTxs_first_ok hc (by simp [CTransaction.spendsCoins, hbase]) hloop
    exact ⟨undos, congrArg (· + 1) hlen, hconn⟩

section

variable (hroots : ∀ tree : SaplingMerkleTree, root tree ≠ 0)
  (hzc : ∀ tx ∈ block.vtx, tx.containsZerocoins = true → env.eraseZerocoins tx = true)
  (hheight : pindex.nHeight < 1073741824)
  (h : plainRun (connectBlock env block pindex pprev) st = .ok (undo, st'))

include hroots hzc hheight h

theorem plain_disconnectBlock : ∃ sp,
      plainRun (disconnectBlock env block pprev undo) st' = .ok (.ok, { st with sapling := sp }) ∧
      sp.nullifiers = st.sapling.nullifiers ∧ sp.bestAnchor = st.sapling.bestAnchor ∧
      (st.sapling.Admits st'.sapling.bestAnchor → sp.anchors = st.sapling.anchors) := by
  obtain ⟨tree, s, st₁, hb⟩ := connectBlock_ok h
  obtain ⟨undos, hlen, hconn⟩ := hb.connected hat hnew hskip
  have hread : undoReadFromDisk undo = some undos := by
    rw [hb.undo_eq, hconn.vtxundo]
    exact undoReadFromDisk_undoWriteToDisk fun u hu c hcoin =>
      lt_of_le_of_lt (hconn.heights u hu c hcoin) hheight
  have herase : ∀ p ∈ block.vtx.zip (none :: undos.map some),
      disconnectZerocoinTx env p.1 = true := by
    intro p hp
    cases hzero : p.1.containsZerocoins with
    | false => simp [disconnectZerocoinTx, hzero]
    | true => simp [disconnectZerocoinTx, hzc p.1 (of_mem_zip hp).1 hzero]
  -- the transactions leave coins and nullifiers as they were
  have hst' : st'.ledgerOf st₁ = st' := by
    rw [hb.state]
    simp only [push]
    split_ifs <;> rfl
  have hback := plainRun_disconnectTxs hconn.undone herase st'
  rw [← hconn.state, hst'] at hback
  -- and the anchor is the one before the push
  have hanchors : st₁.sapling.anchors = st.sapling.anchors := hconn.state ▸ (updateAll_kept ..).1
  have hkept : st₁.sapling.bestAnchor = st.sapling.bestAnchor :=
    hconn.state ▸ (updateAll_kept ..).2.1
  have hbest : previousAnchor env pprev = st₁.sapling.bestAnchor := by rw [hkept, hat.bestAnchor]
  obtain ⟨sp, hpop, hnull, hanchor, hsame⟩ :=
    pop_push st₁.sapling s.saplingTree st.sapling.nullifiers
  have hpop' : (st'.ledgerOf st).sapling.pop (previousAnchor env pprev) = some sp := by
    rw [hbest, hb.state]
    exact hpop
  have hne : previousAnchor env pprev ≠ 0 := by
    obtain ⟨tree, -, hroot⟩ := hat.tree
    rw [← hat.bestAnchor, ← hroot]
    exact hroots tree
  refine ⟨sp, ?_, hnull, hanchor.trans hkept, ?_⟩
  case refine_2 =>
    simp only [hb.state, Admits] at hsame ⊢
    rwa [hanchors, hkept] at hsame
  unfold disconnectBlock
  rw [hread]
  dsimp only
  rw [if_neg (not_not.mpr hlen)]
  exact plainRun_bind_ok.2 ⟨_, _, hback, plainRun_bind_ok.2 ⟨_, _, plainRun_popAnchor hne hpop',
    plainRun_bind_ok.2 ⟨_, _, plainRun_setBestBlock pprev.hash_ne_zero _,
      by rw [hb.bestBlock]; rfl⟩⟩⟩

theorem plain_disconnectBlock_undoes_connectBlock :
    ∃ st'', plainRun (disconnectBlock env block pprev undo) st' = .ok (.ok, st'') ∧
      st''.coins = st.coins ∧ st''.sapling.nullifiers = st.sapling.nullifiers ∧
      st''.sapling.bestAnchor = st.sapling.bestAnchor ∧ st''.bestBlock = st.bestBlock := by
  obtain ⟨sp, hrun, hnull, hanchor, -⟩ := plain_disconnectBlock hat hnew hskip hroots hzc hheight h
  exact ⟨_, hrun, rfl, hnull, hanchor, rfl⟩

end

/-! ## Along the chain -/

/-- **Connecting the next block leads to the chainstate at that block**, when it is connected on top
of the active chain. -/
theorem ChainstateAt.connectBlock (hroot : pindex.hashFinalSaplingRoot = block.hashFinalSaplingRoot)
    (hchain : env.chainHeight = pprev.nHeight)
    (h : plainRun (connectBlock env block pindex pprev) st = .ok (undo, st')) :
    ChainstateAt env pindex st' := by
  obtain ⟨tree, s, st₁, hb⟩ := connectBlock_ok h
  obtain ⟨undos, hlen, hconn⟩ := hb.connected hat hnew hskip
  have hknown : ∃ t, st₁.sapling.anchors st₁.sapling.bestAnchor = some t ∧
      root t = st₁.sapling.bestAnchor := by
    rw [hconn.state, (updateAll_kept ..).1, (updateAll_kept ..).2.1]
    exact hat.tree
  obtain ⟨hpushed, htree⟩ := push_tree st₁.sapling s.saplingTree hknown
  obtain rfl := hb.state
  refine ⟨rfl, hconn.coins, hpushed.trans ?_, htree⟩
  unfold previousAnchor
  cases hv5 : env.upgradeActive pindex.nHeight .v5_0 with
  | true =>
    -- the footer has compared the root with the header
    obtain ⟨_, hfoot, -⟩ := bind_eq_ok.1 hb.footer
    rw [hv5] at hfoot
    have heq : block.hashFinalSaplingRoot = root s.saplingTree := by
      simpa using hfoot
    rw [if_pos rfl, hroot, heq]
  | false =>
    -- before the upgrade no transaction has shielded data, so the tree is still the old one
    have hactive : env.upgradeActive (env.chainHeight + 1) .v5_0 = false := by
      rw [hchain, ← hv5, hnew.height]
      rfl
    have hplain : ∀ p ∈ block.vtx.zip (none :: undos.map some), p.1.hasSaplingData = false := by
      intro p hp
      obtain ⟨_, hcheck⟩ := hb.checked.checked p.1 (of_mem_zip hp).1
      obtain ⟨poolIn, _, hsapling, -⟩ := checkTransaction_ok hcheck
      by_contra hdata
      have hon := ((checkSapling_ok hsapling).2 (by simpa using hdata)).1
      cases hactive.symm.trans hon
    have hprev : env.upgradeActive pprev.nHeight .v5_0 = false := by
      by_contra hon
      have hle : (pprev.nHeight : Int) ≤ pindex.nHeight := by
        rw [hnew.height]
        omega
      cases hv5.symm.trans (networkUpgradeActive_mono hle (eq_true_of_ne_false hon))
    obtain ⟨t, ht, htroot⟩ := hat.tree
    have ht : tree = t := Option.some.inj (hb.anchor.symm.trans ht)
    rw [if_neg (by simp), hconn.tree hplain]
    rw [ht, htroot, hat.bestAnchor, previousAnchor, hprev, if_neg (by simp)]

end

/-- Only the consensus parameters of the environment matter. -/
theorem ChainstateAt.congr {env' : ValidationEnv} (hat : ChainstateAt env pindex st)
    (h : env'.params = env.params) : ChainstateAt env' pindex st := by
  refine { hat with bestAnchor := ?_ }
  rw [previousAnchor, ValidationEnv.upgradeActive, h]
  exact hat.bestAnchor

/-- A block, what it is validated in, its entry and its undo record. -/
structure Tip where
  env : ValidationEnv
  block : CBlock
  pindex : CBlockIndex
  undo : DiskUndo

/-- `DisconnectTip` for the blocks above `pprev`, of which the lowest stands first, on one cache as
in `VerifyDB`. A block that is not `DISCONNECT_OK` ends the loop. -/
def disconnectTips (pprev : CBlockIndex) : List Tip → ViewM DisconnectResult
  | [] => pure .ok
  | tip :: tips => do
    match ← disconnectTips tip.pindex tips with
    | .ok => disconnectBlock tip.env tip.block pprev tip.undo
    | res => pure res

/-- `ConnectBlock` accepts a block on top of the active chain. -/
structure ConnectsTip (params : ConsensusParams) (pprev : CBlockIndex) (st : Chainstate)
    (tip : Tip) (st' : Chainstate) : Prop where
  params : tip.env.params = params
  chain : tip.env.chainHeight = pprev.nHeight
  root : tip.pindex.hashFinalSaplingRoot = tip.block.hashFinalSaplingRoot
  new : NewBlock tip.block tip.pindex pprev st
  height : tip.pindex.nHeight < 1073741824
  zerocoins : ∀ tx ∈ tip.block.vtx, tx.containsZerocoins = true → tip.env.eraseZerocoins tx = true
  /-- A new anchor is not one of the old ones. -/
  anchor : st.sapling.Admits st'.sapling.bestAnchor
  connects : plainRun (connectBlock tip.env tip.block tip.pindex pprev) st = .ok (tip.undo, st')

def ConnectsTips (params : ConsensusParams) :
    CBlockIndex → Chainstate → List Tip → Chainstate → Prop
  | _, st, [], st' => st' = st
  | pprev, st, tip :: tips, st' =>
    ∃ st₁, ConnectsTip params pprev st tip st₁ ∧ ConnectsTips params tip.pindex st₁ tips st'

/-! ## On a cache -/

section

variable {σ : Type} [CCoinsView σ] [LawfulCoinsView σ] [LawfulSaplingView σ] [LawfulView σ]

/-- **Disconnecting a block undoes connecting it.** -/
theorem disconnectBlock_undoes_connectBlock {view view' : CCoinsViewCache σ} {undo : DiskUndo}
    (hroots : ∀ tree : SaplingMerkleTree, SaplingMerkleTree.root tree ≠ 0)
    (hmain : env.params.network = .main → env.params = .main)
    (hzc : ∀ tx ∈ block.vtx, tx.containsZerocoins = true → env.eraseZerocoins tx = true)
    (hview : view.Inv) (hat : ChainstateAt env pprev view.chainstate)
    (hnew : NewBlock block pindex pprev view.chainstate) (hheight : pindex.nHeight < 1073741824)
    (hconnect : (connectBlock env block pindex pprev).run handler view = .ok (undo, view')) :
    ∃ view'', (disconnectBlock env block pprev undo).run handler view' =
        .ok (.ok, view'') ∧ view''.Inv ∧
      view''.coins = view.coins ∧ view''.sapling.nullifiers = view.sapling.nullifiers ∧
      view''.sapling.bestAnchor = view.sapling.bestAnchor ∧ view''.bestBlock = view.bestBlock := by
  have hskip := skipInvalidUTXOS_eq_false hmain hheight
  have hrel : view.Represents view.chainstate := ⟨hview, rfl⟩
  obtain ⟨st', hplain, hrel'⟩ := simulates.run_ok_of_not_bad _ hrel hconnect
    (avoids_connectBlock hat hnew hskip hroots)
  obtain ⟨st'', hback, hcoins, hnull, hanchor, hblock⟩ :=
    plain_disconnectBlock_undoes_connectBlock hat hnew hskip hroots hzc hheight hplain
  obtain ⟨view'', hrun, hinv, hstate⟩ :=
    (simulates.run (disconnectBlock env block pprev undo) hrel').2 _ _ hback
  subst hstate
  exact ⟨view'', hrun, hinv, hcoins, hnull, hanchor, hblock⟩

/-- **A branch of any length can be disconnected again**, on every cache, and the chainstate is then
the one at the fork. -/
theorem disconnectTips_restores {view : CCoinsViewCache σ} {tips : List Tip}
    (hroots : ∀ tree : SaplingMerkleTree, SaplingMerkleTree.root tree ≠ 0)
    (hmain : env.params.network = .main → env.params = .main) (hat : ChainstateAt env pprev st)
    (h : ConnectsTips env.params pprev st tips st') (hview : view.Represents st') :
    ∃ view', (disconnectTips pprev tips).run handler view = .ok (.ok, view') ∧
      view'.Represents st := by
  suffices hplain : plainRun (disconnectTips pprev tips) st' = .ok (.ok, st) from
    (simulates.run _ hview).2 _ _ hplain
  clear hview
  induction tips generalizing pprev st with
  | nil =>
    cases h
    rfl
  | cons tip tips ih =>
    obtain ⟨st₁, hb, hrest⟩ := h
    have hat := hat.congr hb.params
    have hskip := skipInvalidUTXOS_eq_false (hb.params ▸ hmain) hb.height
    have hnext := hat.connectBlock hb.new hskip hb.root hb.chain hb.connects
    obtain ⟨sp, hback, hnull, hanchor, hanchors⟩ :=
      plain_disconnectBlock hat hb.new hskip hroots hb.zerocoins hb.height hb.connects
    rw [SaplingState.ext (hanchors hb.anchor) hnull hanchor] at hback
    exact plainRun_bind_ok.2 ⟨_, _, ih (hnext.congr hb.params.symm) hrest, hback⟩

end

end

/-! ## A block at two heights -/

/-- A hash for closed examples under which every tree has the root `1`. -/
@[reducible] def unitHash : MerkleHash UInt256 where
  combine _ _ _ := 1
  emptyRoot _ := 1

/-- A coinbase with an empty output, and a coinstake that moves the coin at `COutPoint.sample 5`. -/
def CBlock.sample : CBlock where
  vtx := [⟨1, 0, [⟨.null, [1, 1], 0⟩], [⟨0, []⟩], none, none, 101⟩,
    ⟨1, 0, [⟨.sample 5, [], 0⟩], [⟨0, []⟩, ⟨700, [0x51]⟩], none, none, 102⟩]
  hash := 12
  hashFinalSaplingRoot := 1
  nTime := 1600000000

/-- The index of a block of `unitHash`, and of its parent. -/
def CBlockIndex.sample (nHeight : Nat) : CBlockIndex := ⟨12, by decide, nHeight, 1, none⟩

def CBlockIndex.sampleParent (nHeight : Nat) : CBlockIndex := ⟨11, by decide, nHeight, 1, none⟩

/-- A cache with the coin that the coinstake moves, over a database without coins. -/
def CCoinsViewCache.sample (coin : Coin) : CCoinsViewCache CCoinsViewDB :=
  { new { CCoinsViewDB.empty (fun _ => false) with bestBlock := some 11 } with
    cacheCoins := Map.put ∅ (.sample 5) (some ⟨coin, true, true⟩) }

/-- The coin of value `700` that was created at a height. -/
def Coin.sampleAt (nHeight : Nat) : Coin := ⟨false, false, ⟨700, [0x51]⟩, nHeight⟩

section

attribute [local instance] unitHash

theorem root_unitHash (tree : SaplingMerkleTree) : root tree = 1 := by
  have hparents : ∀ (l : List (Option UInt256)) d,
      (rootParents 1 d l).1 = 1 := by
    intro l
    induction l with
    | nil => exact fun d => rfl
    | cons p l ih => cases p <;> exact fun d => ih (d + 1)
  have hfill : ∀ k d, rootFill k (1 : UInt256) d = 1 := by
    intro k
    induction k with
    | zero => exact fun d => rfl
    | succ k ih => exact fun d => ih (d + 1)
  show rootFill _ (rootParents 1 1 tree.parents).1 _ = 1
  rw [hparents, hfill]

variable {coin : Coin}

theorem CCoinsViewCache.inv_sample (hcoin : coin.isSpent = false) :
    (sample coin).Inv := by
  have hnew : (new { CCoinsViewDB.empty (fun _ => false) with bestBlock := some 11 }).Inv := by
    refine inv_new fun o c hc => ?_
    simp [CCoinsViewDB.empty] at hc
  refine inv_putCoin hnew
    (faithful_coin.2 ⟨fun _ => rfl, nofun⟩) ?_
  · rintro e he hspent
    cases he
    exact absurd hspent (by simp [hcoin])

theorem CCoinsViewCache.coins_sample (hcoin : coin.isSpent = false) (o : COutPoint) :
    (sample coin).coins o = if o = .sample 5 then some coin else none := by
  show overlay (Map.put (∅) (.sample 5) (some _)) (fun _ => none) o = _
  rw [overlay_put]
  by_cases ho : o = .sample 5
  · subst ho
    exact Coin.unspent?_of_not_isSpent hcoin
  · rw [Function.update_of_ne ho, if_neg ho]
    rfl

open CCoinsViewCache (sample inv_sample coins_sample)

theorem chainstateAt_sample (hcoin : coin.Restorable) {nHeight : Nat}
    (hle : coin.nHeight ≤ nHeight) :
    ChainstateAt (.sample nHeight) (.sampleParent nHeight) (sample coin).chainstate where
  bestBlock := rfl
  coins o c hc := by
    have hc : (sample coin).coins o = some c := hc
    rw [coins_sample hcoin.1] at hc
    split_ifs at hc
    cases hc
    exact ⟨hcoin, hle⟩
  bestAnchor := by
    unfold previousAnchor
    split_ifs <;> rfl
  tree := ⟨_, rfl, root_unitHash _⟩

theorem newBlock_sample (hcoin : coin.isSpent = false) (nHeight : Nat) :
    NewBlock .sample (.sample (nHeight + 1)) (.sampleParent nHeight) (sample coin).chainstate where
  height := rfl
  distinct := by decide
  fresh := by
    intro tx htx i _
    have hall : ∀ tx ∈ CBlock.sample.vtx, tx.hash ≠ (COutPoint.sample 5).hash := by decide
    have hne : (⟨tx.hash, i⟩ : COutPoint) ≠ .sample 5 :=
      fun he => hall tx htx (congrArg COutPoint.hash he)
    show (sample coin).coins _ = none
    rw [coins_sample hcoin, if_neg hne]

/-- The block at height 100, moving a coin of height 7. -/
theorem disconnectBlock_undoes_connectBlock_sample : ∃ undo view' view'',
      (connectBlock (.sample 99) .sample (.sample 100) (.sampleParent 99)).run
        handler (sample (.sampleAt 7)) = .ok (undo, view') ∧
      view'.coins (.sample 5) = none ∧
      (disconnectBlock (.sample 99) .sample (.sampleParent 99) undo).run
        handler view' = .ok (.ok, view'') ∧
      view''.coins = (sample (.sampleAt 7)).coins := by
  have hconnect : ∃ undo view', (connectBlock (.sample 99) .sample (.sample 100)
      (.sampleParent 99)).run handler (sample (.sampleAt 7)) =
        .ok (undo, view') ∧ view'.coins (.sample 5) = none := ⟨_, _, rfl, rfl⟩
  obtain ⟨undo, view', hconnect, hspent⟩ := hconnect
  obtain ⟨view'', hdisconnect, -, hcoins, -⟩ := disconnectBlock_undoes_connectBlock
    (fun tree => by rw [root_unitHash]; decide) (fun _ => rfl) (fun _ _ _ => rfl)
    (inv_sample rfl)
    (chainstateAt_sample ⟨rfl, by decide, rfl⟩ (by decide)) (newBlock_sample rfl 99)
    (by decide) hconnect
  exact ⟨undo, view', view'', hconnect, hspent, hdisconnect, hcoins⟩

/-- A block of proof of work whose second transaction moves a coin of value `700`. -/
def CBlock.moving (hash hashCoinbase hashMove : UInt256) (prevout : COutPoint) : CBlock where
  vtx := [⟨1, 0, [⟨.null, [1, 1], 0⟩], [⟨0, [0x51]⟩], none, none, hashCoinbase⟩,
    ⟨1, 0, [⟨prevout, [], 0⟩], [⟨700, [0x51]⟩], none, none, hashMove⟩]
  hash := hash
  hashFinalSaplingRoot := 1
  nTime := 1600000000

/-- The first block of the branch below, the second, and the index of the second. -/
def CBlock.first : CBlock := .moving 12 101 102 (.sample 5)

def CBlock.second : CBlock := .moving 13 103 104 (.sample 102)

def CBlockIndex.second : CBlockIndex := ⟨13, by decide, 41, 1, none⟩

theorem exists_of_any {ε α : Type} {r : Except ε α} {test : α → Bool}
    (h : r.toOption.any test = true) : ∃ a, r = .ok a ∧ test a = true := by
  cases r with
  | error e => cases h
  | ok a => exact ⟨a, rfl, h⟩

theorem newBlock_first :
    NewBlock .first (.sample 40) (.sampleParent 39) (sample (.sampleAt 7)).chainstate :=
  ⟨rfl, by decide, by decide⟩

/-- A branch of two blocks at heights 40 and 41, the second of which moves the coin that the first
one created. -/
theorem disconnectTips_restores_sample : ∃ undo₁ undo₂,
    ∃ view view' : CCoinsViewCache CCoinsViewDB,
      view.coins (.sample 104) = some (.sampleAt 41) ∧
      (disconnectTips (.sampleParent 39) [⟨.sample 39, .first, .sample 40, undo₁⟩,
        ⟨.sample 40, .second, .second, undo₂⟩]).run handler view = .ok (.ok, view') ∧
      view'.Represents (sample (.sampleAt 7)).chainstate := by
  obtain ⟨⟨undo₁, st₁⟩, hconnect₁, h₁⟩ := exists_of_any (show
    (plainRun (connectBlock (.sample 39) .first (.sample 40) (.sampleParent 39))
      (sample (.sampleAt 7)).chainstate).toOption.any (fun r₁ =>
        decide (r₁.2.sapling.bestAnchor = 1) && decide (∀ tx ∈ CBlock.second.vtx,
          ∀ i < tx.vout.length, r₁.2.coins ⟨tx.hash, i⟩ = none) &&
        (plainRun (connectBlock (.sample 40) .second .second (.sample 40)) r₁.2).toOption.any
          fun r₂ => decide (r₂.2.sapling.bestAnchor = 1) &&
            decide (r₂.2.coins (.sample 104) = some (.sampleAt 41))) = true by decide +kernel)
  simp only [Bool.and_eq_true, decide_eq_true_eq] at h₁
  obtain ⟨⟨hanchor₁, hfresh⟩, h₂⟩ := h₁
  obtain ⟨⟨undo₂, st₂⟩, hconnect₂, h₂⟩ := exists_of_any h₂
  simp only [Bool.and_eq_true, decide_eq_true_eq] at h₂
  obtain ⟨hanchor₂, hmoved⟩ := h₂
  obtain ⟨view₁, -, hview₁⟩ := (simulates.run _ ⟨inv_sample rfl, rfl⟩).2 _ _ hconnect₁
  obtain ⟨view₂, -, hview₂⟩ := (simulates.run _ hview₁).2 _ _ hconnect₂
  have hdistinct : (CBlock.second.vtx.map (·.hash)).Nodup := by decide
  have hbranch : ConnectsTips (ValidationEnv.sample 39).params (.sampleParent 39)
      (sample (.sampleAt 7)).chainstate [⟨.sample 39, .first, .sample 40, undo₁⟩,
        ⟨.sample 40, .second, .second, undo₂⟩] st₂ :=
    ⟨st₁, ⟨rfl, rfl, rfl, newBlock_first, (by decide : 40 < _), fun _ _ _ => rfl,
        .inl hanchor₁.symm, hconnect₁⟩,
      st₂, ⟨rfl, rfl, rfl, ⟨rfl, hdistinct, hfresh⟩, (by decide : 41 < _), fun _ _ _ => rfl,
        .inl (hanchor₁.trans hanchor₂.symm), hconnect₂⟩, rfl⟩
  obtain ⟨view', hrun, hrestored⟩ := disconnectTips_restores
    (fun tree => by rw [root_unitHash]; decide) (fun _ => rfl)
    (chainstateAt_sample ⟨rfl, by decide, rfl⟩ (by decide)) hbranch hview₂
  exact ⟨undo₁, undo₂, view₂, view',
    (congrFun (congrArg Chainstate.coins hview₂.2) _).trans hmoved, hrun, hrestored⟩

/-- The same block above height `2 ^ 30`: its undo record does not hold the height of the coin, and
disconnecting returns `DISCONNECT_OK` with a coin of height 1. -/
theorem undo_loses_height : (sample (.sampleAt 1073741825)).Inv ∧
    ChainstateAt (.sample 1073741840) (.sampleParent 1073741840)
      (sample (.sampleAt 1073741825)).chainstate ∧
    NewBlock .sample (.sample 1073741841) (.sampleParent 1073741840)
      (sample (.sampleAt 1073741825)).chainstate ∧
    ∃ undo view' view'',
      (connectBlock (.sample 1073741840) .sample (.sample 1073741841)
        (.sampleParent 1073741840)).run handler
          (sample (.sampleAt 1073741825)) = .ok (undo, view') ∧
      (disconnectBlock (.sample 1073741840) .sample (.sampleParent 1073741840) undo).run
        handler view' = .ok (.ok, view'') ∧
      (sample (.sampleAt 1073741825)).coins (.sample 5) =
        some (.sampleAt 1073741825) ∧
      view''.coins (.sample 5) = some (.sampleAt 1) :=
  ⟨inv_sample rfl,
    chainstateAt_sample ⟨rfl, by decide, rfl⟩ (by decide), newBlock_sample rfl 1073741840,
    _, _, _, rfl, rfl, rfl, rfl⟩

end

end Passion
