import Passion.Lib.Ring
import Passion.Primitives.Transaction

/-!
# The cache of block hashes

`CMasternodeMan::GetHashAtHeight` of `masternodeman.cpp`, with the cyclic cache it reads and what
`ConnectTip`, `DisconnectTip`, `ProcessNewBlock` and the RPCs that reorganise write to it.

The cache itself follows the active chain through every connection and disconnection
(`HashCache.Reach.follows`). The best height is a variable of its own: `ProcessNewBlock` sets it to
the height of the block that was accepted, whether or not that block is on the active chain.

Main result: `getHashAtHeight_correct_iff`, that the hashes are those of the active chain as far up
as the best height.
-/

namespace Passion

open Lib

def cachedBlockHashes : Nat := 200

instance : NeZero cachedBlockHashes := ⟨by decide⟩

/-- The hashes of the active chain by height, and what `CMasternodeMan` knows of them. -/
structure HashCache where
  chainActive : List UInt256
  cvLastBlockHashes : Ring cachedBlockHashes UInt256
  nBestHeight : Int

inductive ChainOp where
  | connectTip (hash : UInt256)
  | disconnectTip
  deriving DecidableEq, Repr

inductive CacheEvent where
  /-- A block of height `newHeight` is accepted; the active chain then changes by `ops`, and
  `ActivateBestChain` returns `activated`. -/
  | processNewBlock (newHeight : Int) (ops : List ChainOp) (activated fLiteMode : Bool)
  /-- `invalidateblock` or `reconsiderblock`; the state stays valid or not. -/
  | reorganise (ops : List ChainOp) (isValid : Bool)

namespace HashCache

/-- The start of the node: `SetBestHeight` and `LoadBlockHashesCache`. -/
def load (chain : List UInt256) : HashCache where
  chainActive := chain
  cvLastBlockHashes := Ring.load chain cachedBlockHashes chain.length (Ring.replicate _ 0)
  nBestHeight := chain.length - 1

def connectTip (st : HashCache) (hash : UInt256) : HashCache :=
  { st with
    chainActive := st.chainActive ++ [hash]
    cvLastBlockHashes := st.cvLastBlockHashes.set st.chainActive.length hash }

/-- `DisconnectTip`: the slot takes the hash of the block `CACHED_BLOCK_HASHES` below, or zero. -/
def disconnectTip (st : HashCache) : HashCache :=
  let nHeight := st.chainActive.length - 1
  { st with
    chainActive := st.chainActive.dropLast
    cvLastBlockHashes :=
      if cachedBlockHashes ≤ nHeight then
        st.cvLastBlockHashes.set (nHeight - cachedBlockHashes)
          (st.chainActive.getD (nHeight - cachedBlockHashes) 0)
      else st.cvLastBlockHashes.set nHeight 0 }

def applyOp (st : HashCache) : ChainOp → HashCache
  | .connectTip hash => st.connectTip hash
  | .disconnectTip => if st.chainActive.isEmpty then st else st.disconnectTip

def apply (st : HashCache) : CacheEvent → HashCache
  | .processNewBlock newHeight ops activated fLiteMode =>
    let st := ops.foldl applyOp st
    if !activated then st
    else if !fLiteMode then { st with nBestHeight := newHeight }
    else st
  | .reorganise ops isValid =>
    let st := ops.foldl applyOp st
    if isValid then { st with nBestHeight := st.chainActive.length - 1 } else st

/-- `GetHashAtHeight`; `none` where `chainActive[nHeight]` is null. -/
def getHashAtHeight (st : HashCache) (nHeight : Int) : Option UInt256 :=
  if nHeight < 0 then some 0
  else if st.nBestHeight < nHeight then some 0
  else if st.nBestHeight - cachedBlockHashes < nHeight then
    some (st.cvLastBlockHashes.get nHeight.toNat)
  else st.chainActive[nHeight.toNat]?

inductive Reach : HashCache → Prop
  | load (chain : List UInt256) : Reach (load chain)
  | step {st : HashCache} (event : CacheEvent) : Reach st → Reach (st.apply event)

/-! ## The cache follows the chain -/

def Follows (st : HashCache) : Prop := st.cvLastBlockHashes.Caches st.chainActive

variable {st : HashCache}

theorem Follows.disconnectTip {chain : List UInt256} {hash : UInt256} (h : st.Follows)
    (hchain : st.chainActive = chain ++ [hash]) : st.disconnectTip.Follows := by
  have hring : st.cvLastBlockHashes.Caches (chain ++ [hash]) := hchain ▸ h
  have hlen : st.chainActive.length - 1 = chain.length := by simp [hchain]
  unfold Follows HashCache.disconnectTip
  simp only [hlen]
  rw [hchain, List.dropLast_concat]
  split_ifs with hdeep
  · -- the block that comes into the window again
    have hlt : chain.length - cachedBlockHashes < chain.length := by
      have : 0 < cachedBlockHashes := by decide
      omega
    have hget : chain[chain.length - cachedBlockHashes]? =
        some ((chain ++ [hash]).getD (chain.length - cachedBlockHashes) 0) := by
      rw [List.getD, List.getElem?_append_left hlt, List.getElem?_eq_getElem hlt, Option.getD_some]
    rw [Ring.set_sub _ hdeep]
    exact hring.pop _ fun _ => hget
  · exact hring.pop _ fun hle => absurd hle hdeep

theorem Follows.applyOp (h : st.Follows) (op : ChainOp) : (st.applyOp op).Follows := by
  cases op with
  | connectTip hash => exact h.push hash
  | disconnectTip =>
    unfold HashCache.applyOp
    rcases List.eq_nil_or_concat st.chainActive with hnil | ⟨chain, hash, hchain⟩
    · simpa [hnil] using h
    · rw [List.concat_eq_append] at hchain
      simpa [hchain] using h.disconnectTip hchain

theorem Follows.foldl (h : st.Follows) (ops : List ChainOp) :
    (ops.foldl HashCache.applyOp st).Follows := by
  induction ops generalizing st with
  | nil => exact h
  | cons op ops ih => exact ih (h.applyOp op)

theorem Follows.apply (h : st.Follows) (event : CacheEvent) : (st.apply event).Follows := by
  cases event <;> simp only [HashCache.apply] <;> split_ifs <;> exact h.foldl _

/-- **The cache holds the last hashes of the active chain**, after every run. -/
theorem Reach.follows (h : Reach st) : st.Follows := by
  induction h with
  | load chain => exact Ring.caches_load chain _
  | step event _ ih => exact ih.apply event

/-! ## The answers -/

/-- `GetHashAtHeight` gives the hash of every block of the active chain. -/
def Correct (st : HashCache) : Prop :=
  ∀ (i : Nat) (hash : UInt256), st.chainActive[i]? = some hash → st.getHashAtHeight i = some hash

def UpToDate (st : HashCache) : Prop := ∀ i < st.chainActive.length, (i : Int) ≤ st.nBestHeight

/-- What is asked of the cache is in the window of the chain, as the window of the best height
starts no lower. -/
theorem Follows.correct (h : st.Follows) (hbest : st.UpToDate) : st.Correct := by
  intro i hash hi
  have hlt : i < st.chainActive.length := (getElem?_eq_some_iff.1 hi).1
  have htip := hbest (st.chainActive.length - 1) (by omega)
  unfold getHashAtHeight
  rw [if_neg (by omega), if_neg (by omega)]
  split_ifs with hwindow
  · exact congrArg some (h i hash hi (by omega))
  · exact hi

/-- **The answers are those of the active chain exactly when no block of it is above the best
height.** -/
theorem getHashAtHeight_correct_iff {st : HashCache} (h : Reach st)
    (hzero : (0 : UInt256) ∉ st.chainActive) : st.Correct ↔ st.UpToDate := by
  refine ⟨fun hcorrect i hi => ?_, h.follows.correct⟩
  by_contra hbelow
  have hget := hcorrect i _ (List.getElem?_eq_getElem hi)
  -- above the best height the answer is the zero hash
  rw [getHashAtHeight, if_neg (by omega), if_pos (by omega)] at hget
  exact hzero (Option.some.inj hget ▸ List.getElem_mem hi)

/-- The event leaves no block of the active chain above the best height. -/
def Levels (st : HashCache) : CacheEvent → Prop
  | .processNewBlock newHeight ops activated fLiteMode =>
    activated = true ∧ fLiteMode = false ∧
      ((ops.foldl applyOp st).chainActive.length : Int) ≤ newHeight + 1
  | .reorganise _ isValid => isValid = true

/-- **An accepted block that is as high as the chain it leads to sets the answers right**, whatever
the run was before it. -/
theorem Reach.correct_apply (h : Reach st) {event : CacheEvent} (hlevels : st.Levels event) :
    (st.apply event).Correct := by
  refine (h.step event).follows.correct fun i hi => ?_
  cases event with
  | processNewBlock newHeight ops activated fLiteMode =>
    obtain ⟨rfl, rfl, hheight⟩ := hlevels
    have hi : i < (ops.foldl applyOp st).chainActive.length := hi
    show i ≤ newHeight
    omega
  | reorganise ops isValid =>
    obtain rfl : isValid = true := hlevels
    have hi : i < (ops.foldl applyOp st).chainActive.length := hi
    show i ≤ ((ops.foldl applyOp st).chainActive.length : Int) - 1
    omega

/-- A block of height 1 is accepted beside a chain whose tip has height 2. -/
def sideBlock : HashCache := (load [7, 8, 9]).apply (.processNewBlock 1 [] true false)

/-- The tip that the side block hid is replaced in a reorganisation. -/
theorem correct_reorganised : sideBlock.getHashAtHeight 2 = some 0 ∧
    (sideBlock.apply (.reorganise [.disconnectTip, .connectTip 10] true)).Correct :=
  ⟨by decide +kernel, Reach.correct_apply ((Reach.load [7, 8, 9]).step _) rfl⟩

/-- After a block beside the tip, one that extends it. -/
theorem correct_extended :
    (sideBlock.apply (.processNewBlock 3 [.connectTip 10] true false)).Correct :=
  (getHashAtHeight_correct_iff (((Reach.load [7, 8, 9]).step _).step _) (by decide +kernel)).2
    fun i hi => by
      have hi : i < 4 := hi
      show (i : Int) ≤ 3
      omega

/-- The best height falls to that of the side block, and the hash of the tip is answered with
zero. -/
theorem sideBlock_hides_tip : let st := (load [7, 8, 9]).apply (.processNewBlock 1 [] true false)
    st.chainActive[2]? = some 9 ∧ st.getHashAtHeight 2 = some 0 ∧ ¬ st.Correct := by
  have hzero : ((load [7, 8, 9]).apply (.processNewBlock 1 [] true false)).getHashAtHeight 2 =
      some 0 := by decide +kernel
  refine ⟨by decide +kernel, hzero, fun hcorrect => ?_⟩
  have hnine := hcorrect 2 9 (by decide +kernel)
  exact absurd (hzero.symm.trans hnine) (by decide)

end HashCache

end Passion
