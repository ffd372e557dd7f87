import MidenVm.Crypto.MerklePath
import MidenVm.Foundation.Bytes
import MidenVm.Foundation.Mountain

namespace MidenVm.Crypto.Mmr

open Foundation

/-!
# Forests of a mountain range

A forest is a number of leaves.  Each digit of the number stands for a tree,
and the place of the digit is the height of the tree.  The operations are the
ones of the code on the digits; a forest carries its bound, so the checks that
`expect` a valid size cannot fail.
-/

variable {value : Nat}

/-- `usize::BITS`. -/
def usizeBits : Nat := 64

/-- `Forest::MAX_LEAVES`. -/
def maxLeaves : Nat := 2 ^ 32 - 1

/-- `Forest`. -/
@[ext]
structure Forest where
  numLeaves : Nat
  bounded : numLeaves ≤ maxLeaves
  deriving DecidableEq

/-- `MmrError`. -/
inductive MmrError (D : Type) where
  | positionNotFound (position : Nat)
  | invalidPeaks (text : String)
  | forestOutOfBounds (requested current : Nat)
  | forestSizeExceeded (requested max : Nat)
  | peakPathMismatch
  | peakOutOfBounds (peakIdx peaksLen : Nat)
  | invalidUpdate
  | unknownPeak (depth : Nat)
  | invalidMerklePath (error : MerkleError D)
  | merkleRootComputationFailed (error : MerkleError D)
  | inconsistentPartialMmr (text : String)

theorem lt_two_pow_of_le_maxLeaves (bounded : value ≤ maxLeaves) : value < 2 ^ 32 :=
  lt_of_le_of_lt bounded (by decide)

theorem le_maxLeaves_of_lt_two_pow (small : value < 2 ^ 32) : value ≤ maxLeaves :=
  Nat.le_sub_one_of_lt small

/-- `high_bitmask`. -/
def highBitmask (bit : Nat) : Nat :=
  if bit > usizeBits - 1 then 0 else ((2 ^ usizeBits - 1) <<< bit) % 2 ^ usizeBits

namespace Forest

variable {D : Type} (forest : Forest) (leafIdx : Nat)

/-- `Forest::empty`. -/
def empty : Forest := ⟨0, Nat.zero_le _⟩

/-- `Forest::new`. -/
def new (numLeaves : Nat) : Option Forest :=
  if bounded : numLeaves ≤ maxLeaves then some ⟨numLeaves, bounded⟩ else none

/-- `Forest::is_empty`. -/
def isEmpty : Bool := forest.numLeaves == 0

/-- `Forest::append_leaf`. -/
def appendLeaf : Outcome (MmrError D) Forest :=
  if room : forest.numLeaves ≥ maxLeaves then .err (.forestSizeExceeded (forest.numLeaves + 1) maxLeaves)
  else .ok ⟨forest.numLeaves + 1, Nat.lt_of_not_le room⟩

/-- `Forest::num_trees`. -/
def numTrees : Nat := popcount forest.numLeaves

/-- `Forest::num_nodes`. -/
def numNodes : Nat := forest.numLeaves * 2 - forest.numTrees

/-- `Forest::largest_tree_height_unchecked`. -/
def largestTreeHeightUnchecked : Nat := forest.numLeaves.log2

/-- `Forest::smallest_tree_height_unchecked`. -/
def smallestTreeHeightUnchecked : Nat := trailingZeros usizeBits forest.numLeaves

theorem largest_le {numLeaves : Nat} (present : numLeaves ≠ 0) (bounded : numLeaves ≤ maxLeaves) :
    2 ^ numLeaves.log2 ≤ maxLeaves :=
  le_trans (Nat.log2_self_le present) bounded

/-- `Forest::largest_tree`. -/
def largestTree : Forest :=
  if present : forest.numLeaves = 0 then empty
  else ⟨2 ^ forest.largestTreeHeightUnchecked, largest_le present forest.bounded⟩

/-- `Forest::with_height`. -/
def withHeight (height : Nat) : Outcome (MmrError D) Forest :=
  if height < usizeBits then .expect (new (1 <<< height)) else .panic

/-- `Forest::smallest_tree_unchecked`. -/
def smallestTreeUnchecked : Outcome (MmrError D) Forest :=
  withHeight forest.smallestTreeHeightUnchecked

/-- `Forest::trees_larger_than`. -/
def treesLargerThan (treeIdx : Nat) : Forest :=
  ⟨forest.numLeaves &&& highBitmask (treeIdx + 1), Nat.le_trans Nat.and_le_left forest.bounded⟩

/-- `Forest::all_smaller_trees_unchecked`, for a forest of one tree. -/
def allSmallerTreesUnchecked : Forest :=
  ⟨forest.numLeaves - 1, Nat.le_trans (Nat.sub_le _ _) forest.bounded⟩

/-- `Forest::next_larger_tree`. -/
def nextLargerTree : Outcome (MmrError D) Forest :=
  if bounded : forest.numLeaves * 2 ≤ maxLeaves then .ok ⟨forest.numLeaves * 2, bounded⟩
  else .err (.forestSizeExceeded (forest.numLeaves * 2) maxLeaves)

/-- `BitAnd`. -/
def and (left right : Forest) : Forest :=
  ⟨left.numLeaves &&& right.numLeaves, Nat.le_trans Nat.and_le_left left.bounded⟩

/-- `BitXor`. -/
def xor (left right : Forest) : Forest :=
  ⟨left.numLeaves ^^^ right.numLeaves, le_maxLeaves_of_lt_two_pow (Nat.xor_lt_two_pow
    (lt_two_pow_of_le_maxLeaves left.bounded) (lt_two_pow_of_le_maxLeaves right.bounded))⟩

/-- `Forest::without_trees`: the digits that `other` does not have. -/
def withoutTrees (forest other : Forest) : Forest := forest.xor (forest.and other)

/-- `Forest::leaf_to_corresponding_tree`. -/
def leafToCorrespondingTree : Option Nat :=
  if leafIdx ≥ forest.numLeaves then none
  else
    let before := forest.numLeaves &&& leafIdx
    let after := forest.numLeaves ^^^ before
    some after.log2

/-- `Forest::leaf_relative_position`. -/
def leafRelativePosition : Option Nat := do
  let treeIdx ← forest.leafToCorrespondingTree leafIdx
  pure (leafIdx - (forest.numLeaves &&& highBitmask (treeIdx + 1)))

/-- `Forest::tree_index`. -/
def treeIndex : Outcome (MmrError D) Nat := do
  let root ← .expect (forest.leafToCorrespondingTree leafIdx)
  let smallerTreeMask ← .expect (new (2 ^ root - 1))
  let numSmallerTrees := (forest.and smallerTreeMask).numTrees
  pure (forest.numTrees - numSmallerTrees - 1)

/-- `TreeSizeIterator`, from the largest tree on. -/
def treesFromLargest : Nat -> Forest -> List Forest
  | 0, _ => []
  | fuel + 1, forest =>
    let tree := forest.largestTree
    if tree.isEmpty then [] else tree :: treesFromLargest fuel (forest.withoutTrees tree)

end Forest

/-- `nodes_from_mask`. -/
def nodesFromMask {D : Type} (mask : Nat) : Outcome (MmrError D) Nat := do
  let forest ← .expect (Forest.new mask)
  pure forest.numNodes

/-- `largest_tree_from_mask`. -/
def largestTreeFromMask {D : Type} (mask : Nat) : Outcome (MmrError D) Forest :=
  if mask = 0 then .ok Forest.empty else .expect (Forest.new (1 <<< mask.log2))

end MidenVm.Crypto.Mmr
