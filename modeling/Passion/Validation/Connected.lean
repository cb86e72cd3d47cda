import Passion.Validation.RoundTrip

/-!
# The loop of ConnectBlock

`connectTx_ok` says all that an accepted turn of the loop has done, and `Connectable` is what the
turns that are left need of the chainstate. From both, by induction on the transactions, a run of
the loop breaks no contract (`avoids_connectTxs`), and its effect is that of the transactions one
after the other, which the undo data takes back (`Connected`).
-/

namespace Passion

open Lib (Prog)
open List
open Lib.Prog
open ViewM

variable {env : ValidationEnv} {block : CBlock} {nHeight nSpendHeight : Nat} {fScriptChecks : Bool}
  {tx : CTransaction} {st st' : Chainstate} {s s' : ConnectState}

variable {txs : List CTransaction} {i : Nat}

/-! ## What the loop needs -/

/-- The coins of a chainstate at height `n`: each can be put back, and none is younger. -/
def CoinsAt (n : Nat) (m : CoinMap) : Prop :=
  ∀ o c, m o = some c → c.Restorable ∧ c.nHeight ≤ n

/-- What the transactions that are left need of the chainstate. -/
structure Connectable (env : ValidationEnv) (nHeight : Nat) (txs : List CTransaction)
    (st : Chainstate) : Prop where
  height : nHeight ≠ 0
  checked : ∀ tx ∈ txs, tx.Checked env.params
  coins : CoinsAt nHeight st.coins
  distinct : (txs.map (·.hash)).Nodup
  fresh : ∀ tx ∈ txs, ∀ i, i < tx.vout.length → st.coins ⟨tx.hash, i⟩ = none
  unskipped : ∀ tx ∈ txs, ∀ i,
    (skipInvalidUTXOS env nHeight && env.containsOutPoint ⟨tx.hash, i⟩) = false

theorem mem_nullifiers {nf : UInt256} (h : nf ∈ tx.nullifiers) :
    ∃ d, tx.sapData = some d ∧ tx.hasSaplingData = true ∧
      ∃ s ∈ d.vShieldedSpend, s.nullifier = nf := by
  unfold CTransaction.nullifiers at h
  cases hd : tx.sapData with
  | none =>
    rw [hd] at h
    cases h
  | some d =>
    rw [hd] at h
    obtain ⟨s, hs, hnf⟩ := mem_map.mp h
    have hfull : d.vShieldedSpend.isEmpty = false := by
      simpa using ne_nil_of_mem hs
    exact ⟨d, rfl, by simp [CTransaction.hasSaplingData, hd, hfull], s, hs, hnf⟩

theorem CTransaction.Checked.notNull {params : ConsensusParams} (htx : tx.Checked params) :
    ∀ out ∈ tx.vout, out.isNull = false := by
  intro out ho
  have hpos := htx.values out ho
  rw [CTxOut.isNull, beq_eq_false_iff_ne]
  intro he
  rw [he] at hpos
  exact absurd hpos (by decide)

theorem coinsAt_updatedCoins {m : CoinMap} (hm : CoinsAt nHeight m) (hheight : nHeight ≠ 0)
    (hnull : ∀ out ∈ tx.vout, out.isNull = false) :
    CoinsAt nHeight (tx.updatedCoins nHeight m) := by
  have hspent : CoinsAt nHeight (if tx.spendsCoins then tx.spendInputs m else m) := by
    split_ifs
    · intro o c hc
      unfold CTransaction.spendInputs at hc
      split_ifs at hc
      exact hm o c hc
    · exact hm
  intro o c hc
  rcases Option.or_eq_some_iff.mp hc with hout | ⟨-, hold⟩
  · -- a coin of the transaction
    unfold CTransaction.outputCoin at hout
    split_ifs at hout
    obtain ⟨out, hget, hcoin⟩ := Option.bind_eq_some_iff.mp hout
    split_ifs at hcoin with henter
    cases hcoin
    exact ⟨⟨hnull out (mem_of_getElem? hget), hheight, henter⟩, le_refl _⟩
  · exact hspent o c hold

/-- At an outpoint of another transaction, a transaction only takes away what it spends. -/
theorem updatedCoins_of_ne {m : CoinMap} {o : COutPoint} (ho : o.hash ≠ tx.hash) :
    tx.updatedCoins nHeight m o =
      if tx.spendsCoins ∧ o ∈ tx.vin.map (·.prevout) then none else m o := by
  unfold CTransaction.updatedCoins CTransaction.addOutputs CTransaction.outputCoin
  rw [if_neg ho, Option.none_or]
  split_ifs <;> simp_all [CTransaction.spendInputs]

theorem Connectable.next (hc : Connectable env nHeight (tx :: txs) st) :
    Connectable env nHeight txs (tx.update nHeight st) := by
  have hdistinct := hc.distinct
  rw [map_cons, nodup_cons] at hdistinct
  obtain ⟨htx, hchecked⟩ := forall_mem_cons.mp hc.checked
  refine ⟨hc.height, hchecked, coinsAt_updatedCoins hc.coins hc.height htx.notNull, hdistinct.2, ?_,
    (forall_mem_cons.mp hc.unskipped).2⟩
  intro t ht i hi
  have hne : t.hash ≠ tx.hash := fun he => hdistinct.1 (he ▸ mem_map_of_mem ht)
  exact (updatedCoins_of_ne hne).trans (by rw [hc.fresh t (mem_cons_of_mem _ ht) i hi, ite_self])

theorem height_undo_le (hm : CoinsAt nHeight st.coins) (htx : Undoable tx st) :
    ∀ c ∈ tx.undo st.coins, c.nHeight ≤ nHeight := by
  intro c hc
  unfold CTransaction.undo at hc
  split_ifs at hc with hs
  · obtain ⟨txin, ht, rfl⟩ := mem_map.mp hc
    obtain ⟨coin, hcoin, -⟩ := htx.coins hs txin ht
    rw [hcoin]
    exact (hm _ coin hcoin).2
  · cases hc

variable [MerkleHash UInt256]

/-! ## One turn -/

/-- What an accepted turn of the loop has done. -/
structure ConnectedTx (env : ValidationEnv) (block : CBlock) (nHeight nSpendHeight : Nat)
    (fScriptChecks : Bool) (tx : CTransaction) (i : Nat) (s s' : ConnectState)
    (st st' : Chainstate) : Prop where
  precheck : connectPrecheck env block nHeight tx (s.nSigOps + getLegacySigOpCount env tx) = .ok ()
  inputs : ∃ nValueIn, plainRun (connectInputs env nHeight tx s.nValueIn
      (s.nSigOps + getLegacySigOpCount env tx)) st = .ok ((nValueIn, s'.nSigOps), st) ∧
    plainRun (connectValues env nSpendHeight fScriptChecks tx s.nFees nValueIn) st =
      .ok ((s'.nFees, s'.nValueIn), st)
  valueOut : ∃ v, tx.getValueOut = .ok v ∧ s'.nValueOut = wrap64 (s.nValueOut + v)
  update : ∃ vprevout, plainRun (updateCoins env tx nHeight (skipInvalidUTXOS env nHeight)) st =
      .ok (vprevout, st') ∧
    s'.vtxundo = if i = 0 then s.vtxundo else s.vtxundo ++ [vprevout]
  tree : appendCommitments tx s.saplingTree = .ok s'.saplingTree

theorem connectTx_ok (h : plainRun (connectTx env block nHeight nSpendHeight fScriptChecks s
    (tx, i)) st = .ok (s', st')) :
    ConnectedTx env block nHeight nSpendHeight fScriptChecks tx i s s' st st' := by
  obtain ⟨st1, st₂, nValueIn, vprevout, hran⟩ := run_connectTx_ok h
  obtain rfl := (reads_connectInputs env nHeight tx s.nValueIn _).state_eq hran.inputs
  obtain rfl := (reads_connectValues env nSpendHeight fScriptChecks tx _ _).state_eq hran.values
  exact ⟨hran.precheck, ⟨nValueIn, hran.inputs, hran.values⟩, hran.valueOut,
    ⟨vprevout, hran.update, hran.vtxundo⟩, hran.tree⟩

theorem undoable_of_connectInputs (hc : Connectable env nHeight (tx :: txs) st)
    {nValueIn : CAmount} {nSigOps : Nat} {r : CAmount × Nat}
    (hrun : plainRun (connectInputs env nHeight tx nValueIn nSigOps) st = .ok (r, st')) :
    Undoable tx st := by
  have htx := hc.checked tx mem_cons_self
  refine ⟨htx.nodup, ?_, hc.fresh tx mem_cons_self, htx.notNull, ?_, ?_⟩
  · intro hs txin hmem
    obtain ⟨c, hcoin⟩ := Option.isSome_iff_exists.mp ((connectInputs_ok hrun hs).1 txin hmem)
    exact ⟨c, hcoin, (hc.coins _ c hcoin).1⟩
  · intro nf hnf
    obtain ⟨d, hd, hdata, sp, hsp, rfl⟩ := mem_nullifiers hnf
    obtain ⟨hsh, hs, -⟩ := htx.shielded d hd hdata
    exact (connectInputs_ok hrun hs).2 d hd hsh sp hsp
  · intro hs
    refine eq_nil_iff_forall_not_mem.mpr fun nf hnf => ?_
    obtain ⟨d, hd, hdata, -⟩ := mem_nullifiers hnf
    have hspends := (htx.shielded d hd hdata).2.1
    rw [hs] at hspends
    cases hspends

/-- An accepted turn: the transaction is undoable, and the turn has updated the chainstate. -/
theorem ConnectedTx.updated (hc : Connectable env nHeight (tx :: txs) st)
    (h : ConnectedTx env block nHeight nSpendHeight fScriptChecks tx i s s' st st') :
    Undoable tx st ∧ st' = tx.update nHeight st ∧
      s'.vtxundo = if i = 0 then s.vtxundo else s.vtxundo ++ [tx.undo st.coins] := by
  obtain ⟨nValueIn, hinputs, -⟩ := h.inputs
  have hundoable := undoable_of_connectInputs hc hinputs
  obtain ⟨vprevout, hupdate, hundo⟩ := h.update
  rw [plainRun_updateCoins hundoable (hc.unskipped tx mem_cons_self)] at hupdate
  cases hupdate
  exact ⟨hundoable, rfl, hundo⟩

theorem avoids_connectTx (hc : Connectable env nHeight (tx :: txs) st) :
    Avoids Chainstate.handler (· = .contract) st
      (connectTx env block nHeight nSpendHeight fScriptChecks s (tx, i)) := by
  refine (reads_check (clean_connectPrecheck _ _ _ _ _)).avoids_bind fun _ _ => ?_
  refine (reads_connectInputs env nHeight tx s.nValueIn _).avoids_bind fun r hinputs => ?_
  have hundoable := undoable_of_connectInputs hc hinputs
  refine (reads_connectValues env nSpendHeight fScriptChecks tx _ _).avoids_bind fun r' _ => ?_
  refine (reads_check (clean_liftValue _)).avoids_bind fun _ _ => ?_
  have hupdate : plainRun (updateCoins env tx nHeight (skipInvalidUTXOS env nHeight)) st = _ :=
    plainRun_updateCoins hundoable (hc.unskipped tx mem_cons_self)
  refine avoids_bind (avoids_of_ok hupdate) fun _ t _ => ?_
  exact (reads_check (clean_appendCommitments _ _)).avoids_bind fun _ _ => avoids_pure _

/-! ## The loop -/

def updateAll (nHeight : Nat) (txs : List CTransaction) (st : Chainstate) : Chainstate :=
  txs.foldl (fun st tx => tx.update nHeight st) st

/-- The undo data belongs to the transactions, each on the chainstate that the earlier ones
leave. -/
def UndoneBy (nHeight : Nat) : List (CTransaction × Option (List Coin)) → Chainstate → Prop
  | [], _ => True
  | (tx, undo) :: l, st =>
    Undoable tx st ∧ (tx.spendsCoins = true → undo = some (tx.undo st.coins)) ∧
      UndoneBy nHeight l (tx.update nHeight st)

/-- What an accepted run of the loop has done, for transactions with their undo data, of which
`undos` was recorded. -/
structure Connected (nHeight : Nat) (l : List (CTransaction × Option (List Coin)))
    (undos : List (List Coin)) (s s' : ConnectState) (st st' : Chainstate) : Prop where
  state : st' = updateAll nHeight (l.map Prod.fst) st
  vtxundo : s'.vtxundo = s.vtxundo ++ undos
  undone : UndoneBy nHeight l st
  heights : ∀ txundo ∈ undos, ∀ c ∈ txundo, c.nHeight ≤ nHeight
  coins : CoinsAt nHeight st'.coins
  tree : (∀ p ∈ l, p.1.hasSaplingData = false) → s'.saplingTree = s.saplingTree

theorem appendCommitments_of_transparent {tree tree' : SaplingMerkleTree}
    (htx : tx.hasSaplingData = false) (h : appendCommitments tx tree = .ok tree') :
    tree' = tree := by
  unfold appendCommitments at h
  cases hd : tx.sapData with
  | none =>
    rw [hd] at h
    exact (Except.ok.inj h).symm
  | some d =>
    have hsh : tx.isShieldedTx = false := by simp [CTransaction.isShieldedTx, htx]
    simp only [hd, hsh] at h
    exact (Except.ok.inj h).symm

theorem avoids_connectTxs (hc : Connectable env nHeight txs st) (k : Nat) (s : ConnectState) :
    Avoids Chainstate.handler (· = .contract) st
      ((txs.zipIdx k).foldlM (connectTx env block nHeight nSpendHeight fScriptChecks) s) := by
  induction txs generalizing k s st with
  | nil => exact avoids_pure s
  | cons tx txs ih =>
    refine avoids_bind (avoids_connectTx hc) fun s' t h => ?_
    obtain ⟨-, rfl, -⟩ := (connectTx_ok h).updated hc
    exact ih hc.next (k + 1) s'

/-- One more turn at the front; the first transaction of a block has no undo data, and needs
none. -/
theorem Connected.cons {s1 : ConnectState} {st1 : Chainstate}
    {l : List (CTransaction × Option (List Coin))} {undos : List (List Coin)}
    (hc : Connectable env nHeight (tx :: txs) st) (hfirst : i = 0 → tx.spendsCoins = false)
    (hturn : ConnectedTx env block nHeight nSpendHeight fScriptChecks tx i s s1 st st1)
    (hrest : Connected nHeight l undos s1 s' st1 st') {undo : Option (List Coin)}
    (hu : undo = if i = 0 then none else some (tx.undo st.coins)) :
    Connected nHeight ((tx, undo) :: l) (undo.toList ++ undos) s s' st st' := by
  obtain ⟨hundoable, rfl, hundo⟩ := hturn.updated hc
  have hlist : undo.toList = if i = 0 then [] else [tx.undo st.coins] := by
    rw [hu]
    split_ifs <;> rfl
  refine ⟨hrest.state, ?_, ⟨hundoable, ?_, hrest.undone⟩, ?_, hrest.coins, ?_⟩
  · rw [hrest.vtxundo, hundo, hlist]
    split_ifs
    · rfl
    · rw [append_assoc]
  · intro hs
    rw [hu, if_neg fun hi => ?_]
    rw [hfirst hi] at hs
    cases hs
  · intro u hmem
    rcases mem_append.mp hmem with hown | hmem
    · rw [hlist] at hown
      split_ifs at hown
      · cases hown
      · rw [mem_singleton.mp hown]
        exact height_undo_le hc.coins hundoable
    · exact hrest.heights u hmem
  · intro hplain
    obtain ⟨htx, hplain⟩ := forall_mem_cons.mp hplain
    rw [hrest.tree hplain]
    exact appendCommitments_of_transparent htx hturn.tree

theorem connectTxs_ok (hc : Connectable env nHeight txs st) {k : Nat} (hk : k ≠ 0)
    (h : plainRun ((txs.zipIdx k).foldlM
      (connectTx env block nHeight nSpendHeight fScriptChecks) s) st = .ok (s', st')) :
    ∃ undos, undos.length = txs.length ∧
      Connected nHeight (txs.zip (undos.map some)) undos s s' st st' := by
  induction txs generalizing k s st with
  | nil =>
    cases h
    exact ⟨[], rfl, rfl, (append_nil _).symm, trivial, nofun, hc.coins,
      fun _ => rfl⟩
  | cons tx txs ih =>
    obtain ⟨s1, st1, hrun, hrest⟩ := plainRun_bind_ok.1 h
    have hturn := connectTx_ok hrun
    obtain ⟨-, hst1, -⟩ := hturn.updated hc
    obtain ⟨undos, hlen, hconn⟩ := ih (hst1 ▸ hc.next) (Nat.succ_ne_zero k) hrest
    exact ⟨tx.undo st.coins :: undos, congrArg (· + 1) hlen,
      Connected.cons hc (fun hi => absurd hi hk) hturn hconn (if_neg hk).symm⟩

theorem connectTxs_first_ok (hc : Connectable env nHeight (tx :: txs) st)
    (hfirst : tx.spendsCoins = false) (h : plainRun ((tx :: txs).zipIdx.foldlM
      (connectTx env block nHeight nSpendHeight fScriptChecks) s) st = .ok (s', st')) :
    ∃ undos, undos.length = txs.length ∧
      Connected nHeight ((tx :: txs).zip (none :: undos.map some)) undos s s' st st' := by
  obtain ⟨s1, st1, hrun, hrest⟩ := plainRun_bind_ok.1 h
  have hturn := connectTx_ok hrun
  obtain ⟨-, hst1, -⟩ := hturn.updated hc
  obtain ⟨undos, hlen, hconn⟩ := connectTxs_ok (hst1 ▸ hc.next) (Nat.succ_ne_zero 0) hrest
  exact ⟨undos, hlen, Connected.cons hc (fun _ => hfirst) hturn hconn rfl⟩

/-! ## Going back -/

/-- The chainstate with the coins and nullifiers of another one. -/
def Chainstate.ledgerOf (st₂ st : Chainstate) : Chainstate where
  coins := st.coins
  sapling := { st₂.sapling with nullifiers := st.sapling.nullifiers }
  bestBlock := st₂.bestBlock

omit [MerkleHash UInt256] in
theorem ledgerOf_update (st₂ st : Chainstate) :
    st₂.ledgerOf (tx.update nHeight st) = tx.update nHeight (st₂.ledgerOf st) := by
  unfold CTransaction.update Chainstate.ledgerOf
  simp only [setNullifiersSpec_eq]

/-- **The undo data takes a run of the loop back**, whatever anchor and block were set since. -/
theorem plainRun_disconnectTxs {l : List (CTransaction × Option (List Coin))}
    (hl : UndoneBy nHeight l st) (hzc : ∀ p ∈ l, disconnectZerocoinTx env p.1 = true)
    (st₂ : Chainstate) :
    plainRun (disconnectTxs env l) (st₂.ledgerOf (updateAll nHeight (l.map Prod.fst) st)) =
      .ok (some true, st₂.ledgerOf st) := by
  induction l generalizing st with
  | nil => rfl
  | cons p l ih =>
    obtain ⟨tx, undo⟩ := p
    obtain ⟨hundoable, hundo, hrest⟩ := hl
    obtain ⟨htx, hzc⟩ := forall_mem_cons.mp hzc
    have hback := ih hrest hzc
    -- whether a transaction is undoable is decided by coins and nullifiers
    have hback' : Undoable tx (st₂.ledgerOf st) := { hundoable with }
    have hone : plainRun (disconnectTx env tx undo) (tx.update nHeight (st₂.ledgerOf st)) = _ :=
      plainRun_disconnectTx hback' htx hundo
    rw [← ledgerOf_update] at hone
    simp only [plainRun] at hback hone ⊢
    rw [disconnectTxs, run_bind, map_cons]
    rw [show updateAll nHeight (tx :: l.map Prod.fst) st =
      updateAll nHeight (l.map Prod.fst) (tx.update nHeight st) from rfl, hback]
    dsimp only
    rw [run_bind, hone]
    rfl

omit [MerkleHash UInt256] in
theorem updateAll_kept (nHeight : Nat) (txs : List CTransaction) (st : Chainstate) :
    (updateAll nHeight txs st).sapling.anchors = st.sapling.anchors ∧
      (updateAll nHeight txs st).sapling.bestAnchor = st.sapling.bestAnchor ∧
      (updateAll nHeight txs st).bestBlock = st.bestBlock := by
  induction txs generalizing st with
  | nil => exact ⟨rfl, rfl, rfl⟩
  | cons tx txs ih =>
    obtain ⟨hanchors, hbest, hblock⟩ := ih (tx.update nHeight st)
    refine ⟨hanchors.trans ?_, hbest.trans ?_, hblock⟩ <;>
      simp [CTransaction.update, setNullifiersSpec_eq]

end Passion
