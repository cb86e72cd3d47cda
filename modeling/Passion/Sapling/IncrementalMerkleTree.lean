import Passion.Primitives.Transaction

/-!
# The incremental Merkle tree of note commitments

`IncrementalMerkleTree` of `sapling/incrementalmerkletree.h`: the rightmost pair of leaves and,
level by level, the roots of the full left subtrees. The hash functions are Rust code outside
the repository (`librustzcash_merkle_hash` and a table of roots of empty subtrees), so the tree
is generic in them through the class `MerkleHash`. The entry of the table for height `0` is the
uncommitted leaf.
-/

namespace Passion

/-- `Hash::combine` and `Hash::EmptyRoot`. -/
class MerkleHash (H : Type) where
  combine : H → H → Nat → H
  emptyRoot : Nat → H

structure IncrementalMerkleTree (H : Type) where
  left : Option H
  right : Option H
  parents : List (Option H)
  deriving DecidableEq, Repr

namespace IncrementalMerkleTree

open MerkleHash (combine emptyRoot)
variable {H : Type} [MerkleHash H]

/-- `IncrementalMerkleTree()`: no leaves yet. -/
def empty : IncrementalMerkleTree H := ⟨none, none, []⟩

/-- Whether all `2 ^ depth` leaves are there. -/
def isComplete (t : IncrementalMerkleTree H) (depth : Nat) : Bool :=
  t.left.isSome && t.right.isSome && t.parents.length == depth - 1 && t.parents.all Option.isSome

/-- The loop of `append`: carry `combined` up from level `i` to the first free parent. The bound
`i < Depth` of the source is the fuel. -/
def propagate : Nat → Nat → H → List (Option H) → List (Option H)
  | 0, _, _, parents => parents
  | _ + 1, _, combined, [] => [some combined]
  | _ + 1, _, combined, none :: parents => some combined :: parents
  | fuel + 1, i, combined, some p :: parents =>
    none :: propagate fuel (i + 1) (combine p combined (i + 1)) parents

/-- `append`; a full tree throws. -/
def append (Depth : Nat) (t : IncrementalMerkleTree H) (obj : H) :
    Except String (IncrementalMerkleTree H) :=
  if t.isComplete Depth then .error "tree is full"
  else
    match t.left, t.right with
    | none, _ => .ok { t with left := some obj }
    | some _, none => .ok { t with right := some obj }
    | some l, some r =>
      .ok ⟨some obj, none, propagate Depth 0 (combine l r 0) t.parents⟩

/-- The levels of `root` that have a parent: the root so far and the next level. -/
def rootParents : H → Nat → List (Option H) → H × Nat
  | root, d, [] => (root, d)
  | root, d, some p :: parents => rootParents (combine p root d) (d + 1) parents
  | root, d, none :: parents =>
    rootParents (combine root (emptyRoot d) d) (d + 1) parents

/-- The levels above, each with an empty right subtree. -/
def rootFill : Nat → H → Nat → H
  | 0, root, _ => root
  | k + 1, root, d => rootFill k (combine root (emptyRoot d) d) (d + 1)

/-- `root(depth, {})`. -/
def root (depth : Nat) (t : IncrementalMerkleTree H) : H :=
  let combineLeft := t.left.getD (emptyRoot 0)
  let combineRight := t.right.getD (emptyRoot 0)
  let (root, d) := rootParents (combine combineLeft combineRight 0) 1 t.parents
  rootFill (depth - d) root d

/-! ## Fillers

A witness knows some of the subtrees to the right of its tree. It hands their roots to `root` and
`path` as a queue, which `PathFiller` takes from before it falls back to empty subtrees. -/

/-- `PathFiller::next`: the hash, and the queue after it. -/
def fillerNext : List H → Nat → H × List H
  | h :: queue, _ => (h, queue)
  | [], depth => (emptyRoot depth, [])

/-- The levels of `root(depth, filler_hashes)` that have a parent: the root so far, the next level
and what is left in the queue. -/
def rootParentsFilled : List H → H → Nat → List (Option H) → H × Nat × List H
  | queue, root, d, [] => (root, d, queue)
  | queue, root, d, some p :: parents =>
    rootParentsFilled queue (combine p root d) (d + 1) parents
  | queue, root, d, none :: parents =>
    let (h, queue) := fillerNext queue d
    rootParentsFilled queue (combine root h d) (d + 1) parents

def rootFillFilled : Nat → List H → H → Nat → H
  | 0, _, root, _ => root
  | k + 1, queue, root, d =>
    let (h, queue) := fillerNext queue d
    rootFillFilled k queue (combine root h d) (d + 1)

/-- The left or right leaf, or else a filler. -/
def leafOrFiller (leaf : Option H) (queue : List H) : H × List H :=
  match leaf with
  | some h => (h, queue)
  | none => fillerNext queue 0

/-- `root(depth, filler_hashes)`. -/
def rootFilled (depth : Nat) (filler_hashes : List H) (t : IncrementalMerkleTree H) : H :=
  let (combineLeft, queue) := leafOrFiller t.left filler_hashes
  let (combineRight, queue) := leafOrFiller t.right queue
  let (root, d, queue) :=
    rootParentsFilled queue (combine combineLeft combineRight 0) 1 t.parents
  rootFillFilled (depth - d) queue root d

/-- The levels of `path` that have a parent: index bits and siblings, the next level and what is
left in the queue. -/
def pathParents : List H → Nat → List (Option H) → List (Bool × H) × Nat × List H
  | queue, d, [] => ([], d, queue)
  | queue, d, some p :: parents =>
    let (path, rest) := pathParents queue (d + 1) parents
    ((true, p) :: path, rest)
  | queue, d, none :: parents =>
    let (h, queue) := fillerNext queue d
    let (path, rest) := pathParents queue (d + 1) parents
    ((false, h) :: path, rest)

def pathFill : Nat → List H → Nat → List (Bool × H)
  | 0, _, _ => []
  | k + 1, queue, d =>
    let (h, queue) := fillerNext queue d
    (false, h) :: pathFill k queue (d + 1)

/-- The vectors `index` and `path` of the source before they are converted and reversed. -/
def pathLevels (Depth : Nat) (filler_hashes : List H) (t : IncrementalMerkleTree H) :
    Except String (List (Bool × H)) :=
  match t.left with
  | none => .error "can't create an authentication path for the beginning of the tree"
  | some l =>
    let (first, queue) :=
      match t.right with
      | some _ => ((true, l), filler_hashes)
      | none =>
        let (h, queue) := fillerNext filler_hashes 0
        ((false, h), queue)
    let (path, d, queue) := pathParents queue 1 t.parents
    .ok (first :: path ++ pathFill (Depth - d) queue d)

/-- The loop of `next_depth` over the parents. -/
def nextDepthParents : Nat → Nat → List (Option H) → Nat
  | skip, d, [] => d + skip
  | skip, d, some _ :: parents => nextDepthParents skip (d + 1) parents
  | 0, d, none :: _ => d
  | skip + 1, d, none :: parents => nextDepthParents skip (d + 1) parents

/-- `next_depth`: the level of the next unfilled subtree, after `skip` of them. -/
def nextDepth (t : IncrementalMerkleTree H) (skip : Nat) : Nat :=
  match t.left, t.right, skip with
  | some _, some _, skip => nextDepthParents skip 1 t.parents
  | none, none, 0 => 0
  | none, none, 1 => 0
  | none, none, skip + 2 => nextDepthParents skip 1 t.parents
  | _, _, 0 => 0
  | _, _, skip + 1 => nextDepthParents skip 1 t.parents

end IncrementalMerkleTree

/-- `convertBytesVectorToVector`: the bits of each byte from the highest down. -/
def convertBytesVectorToVector (bytes : List (BitVec 8)) : List Bool :=
  bytes.flatMap fun c => (List.range 8).map fun j => c.getLsbD (7 - j)

structure MerklePath where
  authentication_path : List (List Bool)
  index : List Bool
  deriving DecidableEq, Repr

/-- `path(filler_hashes)`: the way from the root down. `bytes` are the bytes of a hash. -/
def IncrementalMerkleTree.path {H : Type} [MerkleHash H] (bytes : H → List (BitVec 8))
    (Depth : Nat) (filler_hashes : List H) (t : IncrementalMerkleTree H) :
    Except String MerklePath := do
  let levels ← t.pathLevels Depth filler_hashes
  let merkle_path := levels.map fun level => convertBytesVectorToVector (bytes level.2)
  .ok ⟨merkle_path.reverse, (levels.map Prod.fst).reverse⟩

/-! ## The Sapling tree -/

/-- `SAPLING_INCREMENTAL_MERKLE_TREE_DEPTH` (sapling.h). -/
def saplingTreeDepth : Nat := 32

abbrev SaplingMerkleTree := IncrementalMerkleTree UInt256

namespace SaplingMerkleTree

variable [MerkleHash UInt256]

def root (t : SaplingMerkleTree) : UInt256 := IncrementalMerkleTree.root saplingTreeDepth t

def append (t : SaplingMerkleTree) (cmu : UInt256) : Except String SaplingMerkleTree :=
  IncrementalMerkleTree.append saplingTreeDepth t cmu

/-- `SaplingMerkleTree::empty_root()`. -/
def emptyRoot : UInt256 := MerkleHash.emptyRoot saplingTreeDepth

end SaplingMerkleTree

/-- A hash for closed examples: the union of bits, with `1` for everything empty. -/
@[reducible] def orHash : MerkleHash UInt256 where
  combine a b _ := a ||| b
  emptyRoot _ := 1

end Passion
