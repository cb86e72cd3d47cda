import Passion.Masternode.Ranking

/-!
# Spent collaterals

`ConnectTip` calls `CMasternodeMan::CheckSpentCollaterals` with the transactions of the block, which
marks the masternodes whose output is spent there; `GetActiveState` reports a marked one as
`MASTERNODE_VIN_SPENT`. Nothing takes a mark back, and `DisconnectTip` does not look at them.

Main result: `vinSpent_run_iff`, when the mark agrees with the active chain in a whole run.
-/

namespace Passion

open Lib List

/-- The masternodes, and the blocks of the active chain that were connected since some time,
latest first. -/
structure CollateralState where
  mapMasternodes : Map COutPoint CMasternode
  connected : List (List CTransaction)

inductive TipEvent where
  | connectTip (vtx : List CTransaction)
  | disconnectTip

namespace CollateralState

/-- `SetSpent` on the masternode of an output, if there is one. -/
def setSpent (m : Map COutPoint CMasternode) (o : COutPoint) : Map COutPoint CMasternode :=
  m.modify o fun mn => { mn with fCollateralSpent := true }

def checkSpentCollaterals (m : Map COutPoint CMasternode) (vtx : List CTransaction) :
    Map COutPoint CMasternode :=
  vtx.foldl (fun m tx => tx.vin.foldl (fun m txin => setSpent m txin.prevout) m) m

def apply (st : CollateralState) : TipEvent → CollateralState
  | .connectTip vtx => ⟨checkSpentCollaterals st.mapMasternodes vtx, vtx :: st.connected⟩
  | .disconnectTip => { st with connected := st.connected.tail }

def run (st : CollateralState) (events : List TipEvent) : CollateralState := events.foldl apply st

def spentIn (vtx : List CTransaction) : List COutPoint :=
  vtx.flatMap fun tx => tx.vin.map (·.prevout)

def SpentSince (st : CollateralState) (o : COutPoint) : Prop :=
  ∃ vtx ∈ st.connected, o ∈ spentIn vtx

def Agrees (st : CollateralState) (o : COutPoint) : Prop :=
  ∃ mn, st.mapMasternodes.lookup o = some mn ∧ (mn.fCollateralSpent = true ↔ st.SpentSince o)

variable {o : COutPoint} {st : CollateralState} {mn : CMasternode}

theorem lookup_foldl_setSpent {m : Map COutPoint CMasternode} (hm : m.lookup o = some mn)
    (l : List COutPoint) :
    ∃ mn', (l.foldl setSpent m).lookup o = some mn' ∧
      (mn'.fCollateralSpent = true ↔ mn.fCollateralSpent = true ∨ o ∈ l) := by
  induction l generalizing m mn with
  | nil => exact ⟨mn, hm, by simp⟩
  | cons o' l ih =>
    by_cases ho : o = o'
    · obtain ⟨mn', hmn', hrest⟩ := ih (m := setSpent m o') (by rw [setSpent, Map.lookup_modify,
        if_pos ho, ← ho, hm, Option.map_some])
      exact ⟨mn', hmn', by simp [hrest, ho]⟩
    · obtain ⟨mn', hmn', hrest⟩ := ih (m := setSpent m o') (by rw [setSpent, Map.lookup_modify,
        if_neg ho, hm])
      exact ⟨mn', hmn', by simp [hrest, ho]⟩

/-- One event keeps the agreement, unless it takes away the only block that spends. -/
theorem Agrees.apply (h : st.Agrees o) {e : TipEvent}
    (he : e = .disconnectTip → st.SpentSince o → (st.apply e).SpentSince o) :
    (st.apply e).Agrees o := by
  obtain ⟨mn, hmn, hmark⟩ := h
  cases e with
  | connectTip vtx =>
    have hfold : checkSpentCollaterals st.mapMasternodes vtx =
        (spentIn vtx).foldl setSpent st.mapMasternodes := by
      simp [checkSpentCollaterals, spentIn, foldl_flatMap, foldl_map]
    obtain ⟨mn', hmn', hspent⟩ := lookup_foldl_setSpent hmn (spentIn vtx)
    rw [← hfold] at hmn'
    refine ⟨mn', hmn', ?_⟩
    rw [hspent, hmark, or_comm]
    simp [SpentSince, CollateralState.apply]
  | disconnectTip =>
    refine ⟨mn, hmn, hmark.trans ⟨he rfl, ?_⟩⟩
    rintro ⟨vtx, hvtx, hspends⟩
    exact ⟨vtx, mem_of_mem_tail hvtx, hspends⟩

/-- **The mark agrees with the active chain** in every state of a run iff no `DisconnectTip` takes
away the only block that spends the output. -/
theorem vinSpent_run_iff (hmn : st.mapMasternodes.lookup o = some mn)
    (hunspent : mn.fCollateralSpent = false) (hnew : st.connected = []) (events : List TipEvent) :
    (∀ pre, pre <+: events → ∀ network now,
      ((st.run pre).mapMasternodes.lookup o).map (·.getActiveState network now) = some .vinSpent ↔
        (st.run pre).SpentSince o) ↔
    ∀ pre, pre ++ [.disconnectTip] <+: events → (st.run pre).SpentSince o →
      ((st.run pre).apply .disconnectTip).SpentSince o := by
  have hrun : ∀ pre e, st.run (pre ++ [e]) = (st.run pre).apply e := fun pre e => foldl_concat ..
  constructor
  · intro hreported pre hpre hspent
    have hbefore := hreported pre ((prefix_append pre _).trans hpre) .main 0
    have hafter := hreported _ hpre .main 0
    rw [hrun] at hafter
    exact hafter.mp (hbefore.mpr hspent)
  · intro hkept pre hpre network now
    have hagrees : (st.run pre).Agrees o := by
      induction pre using reverseRecOn with
      | nil => exact ⟨mn, hmn, by simp [hunspent, SpentSince, run, hnew]⟩
      | append_singleton pre e ih =>
        rw [hrun]
        refine (ih ((prefix_append pre [e]).trans hpre)).apply ?_
        rintro rfl
        exact hkept pre hpre
    obtain ⟨mn', hmn', hmark⟩ := hagrees
    rw [hmn', Option.map_some, CMasternode.getActiveState]
    split_ifs <;> simp_all

end CollateralState

namespace CollateralSample

open CollateralState

def listed : CollateralState :=
  ⟨(∅ : Map COutPoint CMasternode).insert ⟨1, 0⟩ ⟨⟨1, 0⟩, 70927, 0, false, some 0⟩, []⟩

def spending : List CTransaction := [⟨1, 0, [⟨⟨1, 0⟩, [], 0⟩], [], none, none, 7⟩]

/-- The block is connected: the masternode is marked. -/
theorem vinSpent_connected : ((listed.run [.connectTip spending]).mapMasternodes.lookup ⟨1, 0⟩).map
        (·.getActiveState .main 0) = some .vinSpent ↔
      (listed.run [.connectTip spending]).SpentSince ⟨1, 0⟩ := by
  refine (@vinSpent_run_iff ⟨1, 0⟩ listed _ rfl rfl rfl [.connectTip spending]).mpr
    (fun pre hpre => ?_) _ (prefix_refl _) .main 0
  cases pre with
  | nil => simp at hpre
  | cons e pre => simpa using hpre.length_le

/-- And disconnected again: it stays marked. -/
theorem vinSpent_disconnected :
    ((listed.run [.connectTip spending, .disconnectTip]).mapMasternodes.lookup ⟨1, 0⟩).map
        (·.getActiveState .main 0) = some .vinSpent ∧
      ¬ (listed.run [.connectTip spending, .disconnectTip]).SpentSince ⟨1, 0⟩ :=
  ⟨by decide, fun ⟨_, hvtx, _⟩ => nomatch hvtx⟩

end CollateralSample

end Passion
