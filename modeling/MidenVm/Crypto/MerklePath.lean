import MidenVm.Core.Goldilocks
import MidenVm.Foundation.Mountain
import MidenVm.Foundation.Outcome

namespace MidenVm.Crypto

open Foundation Outcome

/-!
# Merkle paths

A path lists the siblings from the deepest node up.  An index is checked
against the depth of the path before anything is hashed.  Words are only
compared and merged here, so their type and the merge are parameters.
-/

/-- `NodeIndex`. -/
@[ext] structure NodeIndex where
  depth : Nat
  position : Nat

/-- `MerkleError`, the cases that paths, stores and sparse trees report. -/
inductive MerkleError (D : Type) where
  | depthTooBig (depth : Nat)
  | invalidNodeIndex (depth position : Nat)
  | conflictingRoots (expectedRoot actualRoot : D)
  | rootNotInStore (root : D)
  | nodeIndexNotFoundInStore (hash : D) (index : NodeIndex)
  | nodeIndexNotFoundInTree (index : NodeIndex)
  | duplicateValuesForIndex (index : Nat)
  | tooManyLeafEntries (actual : Nat)
  | untrackedKey (key : Word)
  | invalidPathLength (length : Nat)

variable {D : Type}

namespace NodeIndex

/-- The number of digits of an integer, `64 - leading_zeros`. -/
def bitLength (value : Nat) : Nat := if value = 0 then 0 else value.log2 + 1

/-- `NodeIndex::new`. -/
def new (depth position : Nat) : Outcome (MerkleError D) NodeIndex :=
  if depth > 64 then .err (.depthTooBig depth)
  else if bitLength position > depth then .err (.invalidNodeIndex depth position)
  else .ok ⟨depth, position⟩

/-- `NodeIndex::build_node`. -/
def buildNode (index : NodeIndex) (self sibling : D) : D × D :=
  if index.position % 2 = 1 then (sibling, self) else (self, sibling)

/-- `NodeIndex::move_up` and `NodeIndex::parent`. -/
def moveUp (index : NodeIndex) : NodeIndex := ⟨index.depth - 1, index.position / 2⟩

/-- `NodeIndex::root`. -/
def root : NodeIndex := ⟨0, 0⟩

/-- `NodeIndex::is_root`. -/
def isRoot (index : NodeIndex) : Bool := index.depth == 0

/-- `NodeIndex::sibling`. -/
def sibling (index : NodeIndex) : NodeIndex := ⟨index.depth, index.position ^^^ 1⟩

/-- `NodeIndex::left_child`. -/
def leftChild (index : NodeIndex) : NodeIndex := ⟨index.depth + 1, 2 * index.position⟩

/-- `NodeIndex::right_child`. -/
def rightChild (index : NodeIndex) : NodeIndex := ⟨index.depth + 1, 2 * index.position + 1⟩

/-- `NodeIndex::is_position_odd`. -/
def isPositionOdd (index : NodeIndex) : Bool := index.position % 2 == 1

/-- `NodeIndex::is_nth_bit_odd`. -/
def isNthBitOdd (index : NodeIndex) (n : Nat) : Bool := (index.position >>> n) &&& 1 == 1

/-- `ProofIter`, from the sibling of a node up to the children of the root. -/
def proofIter : Nat -> Nat -> List NodeIndex
  | 0, _ => []
  | depth + 1, position => ⟨depth + 1, position⟩ :: proofIter depth (position / 2 ^^^ 1)

/-- `NodeIndex::proof_indices`. -/
def proofIndices (index : NodeIndex) : List NodeIndex :=
  proofIter index.depth (index.position ^^^ 1)

theorem order_injective :
    Function.Injective (fun index : NodeIndex => toLex (index.depth, index.position)) := by
  rintro ⟨depth, position⟩ ⟨otherDepth, otherPosition⟩ same
  have both := Prod.mk.inj (toLex_inj.mp same)
  exact NodeIndex.ext both.1 both.2

/-- `Ord for NodeIndex`: by depth, then by position. -/
instance : LinearOrder NodeIndex := LinearOrder.lift' _ order_injective

end NodeIndex

/-- `MerklePath`: `MerklePath::new` refuses more than 255 nodes. -/
@[ext] structure MerklePath (D : Type) where
  nodes : List D
  bounded : nodes.length ≤ 255

namespace MerklePath

/-- `MerklePath::new`. -/
def new {ε : Type} (nodes : List D) : Outcome ε (MerklePath D) :=
  if bounded : nodes.length ≤ 255 then .ok ⟨nodes, bounded⟩ else .panic

/-- `FromIterator for MerklePath`: more than 256 nodes are not collected. -/
def fromIter {ε : Type} (nodes : List D) : Outcome ε (MerklePath D) := new (nodes.take 256)

variable (path : MerklePath D)

/-- `MerklePath::depth`. -/
def depth : Nat := path.nodes.length

/-- `MerklePath::at_depth`. -/
def atDepth (depth : Nat) : Option D :=
  if depth ≤ path.depth then path.nodes[path.depth - depth]? else none

variable (merge : D -> D -> D)

/-- One step of the fold in `compute_root`. -/
def climbStep (state : NodeIndex × D) (sibling : D) : NodeIndex × D :=
  let input := state.1.buildNode state.2 sibling
  (state.1.moveUp, merge input.1 input.2)

/-- `MerklePath::compute_root`. -/
def computeRoot (index : Nat) (node : D) : Outcome (MerkleError D) D := do
  let index ← NodeIndex.new path.depth index
  pure (path.nodes.foldl (climbStep merge) (index, node)).2

/-- `MerklePath::verify`. -/
def verify [DecidableEq D] (index : Nat) (node root : D) :
    Outcome (MerkleError D) Unit := do
  let computedRoot ← path.computeRoot merge index node
  if computedRoot ≠ root then .err (.conflictingRoots root computedRoot) else .ok ()

theorem bitLength_le_iff {value depth : Nat} : NodeIndex.bitLength value ≤ depth ↔
    value < 2 ^ depth := by
  unfold NodeIndex.bitLength
  split
  case isTrue zero =>
      rw [zero]
      exact iff_of_true (Nat.zero_le depth) (Nat.two_pow_pos depth)
  case isFalse present => exact Nat.log2_lt present

theorem foldl_climbStep (index : NodeIndex) (value : D) (path : List D) :
    (path.foldl (climbStep merge) (index, value)).2 =
      Mountain.climb merge index.position value path := by
  induction path generalizing index value with
  | nil => rfl
  | cons beside rest ih =>
    rw [List.foldl_cons, climbStep, ih, Mountain.climb, NodeIndex.buildNode, NodeIndex.moveUp]
    by_cases odd : index.position % 2 = 1
    · rw [if_pos odd, if_pos odd]
    · rw [if_neg odd, if_neg odd]

/-- The index of a path has no more digits than the path has nodes. -/
theorem computeRoot_eq_ok {path : MerklePath D} {index : Nat} {value root : D} :
    path.computeRoot merge index value = .ok root ↔
      path.depth ≤ 64 ∧ index < 2 ^ path.depth ∧
        Mountain.climb merge index value path.nodes = root := by
  rw [computeRoot, NodeIndex.new]
  by_cases deep : path.depth > 64
  · rw [if_pos deep, err_bind]
    exact iff_of_false (fun impossible => by cases impossible)
      (fun all => not_le.mpr deep all.1)
  · rw [if_neg deep]
    by_cases wide : NodeIndex.bitLength index > path.depth
    · rw [if_pos wide, err_bind]
      refine iff_of_false (fun impossible => by cases impossible) (fun all => ?_)
      exact not_le.mpr wide (bitLength_le_iff.mpr all.2.1)
    · rw [if_neg wide, ok_bind, foldl_climbStep, pure_eq_ok, Outcome.ok.injEq]
      have small : index < 2 ^ path.depth := bitLength_le_iff.mp (not_lt.mp wide)
      constructor
      · exact fun same => ⟨not_lt.mp deep, small, same⟩
      · exact fun all => all.2.2

end MerklePath

end MidenVm.Crypto
