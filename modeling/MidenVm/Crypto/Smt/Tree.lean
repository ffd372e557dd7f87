import MidenVm.Crypto.Smt.Leaf
import MidenVm.Foundation.Effect

namespace MidenVm.Crypto

open Foundation

/-!
# The sparse Merkle tree

The tree keeps the leaves and inner nodes that are not empty, its root and the
number of its entries.  What is not stored is read as empty.  An insertion
changes one leaf and then recomputes the nodes above it; nodes that become
empty are removed.

A method that changes the tree is an effect on it, so what a failed call did to
the tree before it failed is part of the model.
-/

/-- `InnerNode`. -/
@[ext] structure InnerNode (D : Type) where
  left : D
  right : D
  deriving DecidableEq

variable {D : Type}

/-- `InnerNode::hash`. -/
def InnerNode.hash (hasher : SmtHasher D) (node : InnerNode D) : D :=
  hasher.merge node.left node.right

/-- `EmptySubtreeRoots::get_inner_node`. -/
def EmptySubtreeRoots.getInnerNode (hasher : SmtHasher D) (treeDepth nodeDepth : Nat) : InnerNode D :=
  ⟨entry hasher treeDepth (nodeDepth + 1), entry hasher treeDepth (nodeDepth + 1)⟩

/-! ## Openings -/

/-- `SmtProof`. -/
structure SmtProof (D : Type) where
  path : SparseMerklePath D
  leaf : SmtLeaf

/-- `SmtProofError`, the cases of `verify_presence`. -/
inductive SmtProofError (D : Type) where
  | invalidKeyForProof
  | conflictingRoots (expectedRoot actualRoot : D)
  | valueMismatch (expected actual : Word)

namespace SmtProof

variable (hasher : SmtHasher D)

/-- `SmtProof::compute_root`. -/
def computeRoot {ε : Type} (proof : SmtProof D) : Outcome ε D :=
  (proof.path.computeRoot hasher proof.leaf.index (proof.leaf.hash hasher)).unwrap

/-- `SmtProof::verify_presence`. -/
def verifyPresence [DecidableEq D] (proof : SmtProof D) (key value : Word) (root : D) :
    Outcome (SmtProofError D) Unit := do
  let valueInLeaf ← .okOr (proof.leaf.getValue key) .invalidKeyForProof
  let computedRoot ← proof.computeRoot hasher
  if computedRoot ≠ root then .err (.conflictingRoots root computedRoot)
  else if valueInLeaf ≠ value then .err (.valueMismatch value valueInLeaf)
  else .ok ()

end SmtProof

/-- `Smt`. -/
@[ext] structure Smt (D : Type) where
  root : D
  numEntries : Nat
  leaves : OrderedMap Nat SmtLeaf
  innerNodes : OrderedMap NodeIndex (InnerNode D)

namespace Smt

variable (hasher : SmtHasher D)

/-- `Smt::new`. -/
def new : Smt D := ⟨EmptySubtreeRoots.entry hasher smtDepth 0, 0, .empty, .empty⟩

/-! ## Reading -/

/-- `Smt::get_inner_node`. -/
def getInnerNode (tree : Smt D) (index : NodeIndex) : InnerNode D :=
  (tree.innerNodes.get? index).getD (EmptySubtreeRoots.getInnerNode hasher smtDepth index.depth)

/-- `Smt::get_value`. -/
def getValue (tree : Smt D) (key : Word) : Word :=
  match tree.leaves.get? (leafIndex key) with
  | some leaf => (leaf.getValue key).getD Word.zero
  | none => Word.zero

/-- `Smt::get_leaf`. -/
def getLeaf (tree : Smt D) (key : Word) : SmtLeaf :=
  match tree.leaves.get? (leafIndex key) with
  | some leaf => leaf
  | none => .empty (leafIndex key)

/-- `SparseMerkleTreeReader::get_node_hash`. -/
def getNodeHash (tree : Smt D) (index : NodeIndex) : D :=
  if index.isRoot then tree.root
  else
    let node := tree.getInnerNode hasher index.moveUp
    if index.isPositionOdd then node.right else node.left

section Paths

variable [DecidableEq D]

/-- `SparseMerkleTreeReader::get_path`. -/
def getPath {ε : Type} (tree : Smt D) (key : Word) : Outcome ε (SparseMerklePath D) :=
  let index : NodeIndex := ⟨smtDepth, leafIndex key⟩
  (SparseMerklePath.fromSizedIter hasher
    (index.proofIndices.map (tree.getNodeHash hasher))).unwrap

/-- `SparseMerkleTreeReader::open`. -/
def openAt {ε : Type} (tree : Smt D) (key : Word) : Outcome ε (SmtProof D) := do
  let leaf := tree.getLeaf key
  let merklePath ← tree.getPath hasher key
  pure ⟨merklePath, leaf⟩

end Paths

/-! ## Writing -/

/-- `Smt::remove_inner_node`. -/
def removeInnerNode (tree : Smt D) (index : NodeIndex) : Option (InnerNode D) × Smt D :=
  (tree.innerNodes.get? index, { tree with innerNodes := tree.innerNodes.erase index })

/-- The error of a leaf as the tree reports it. -/
def leafError {α : Type} : SmtLeafError -> Outcome (MerkleError D) α
  | .tooManyLeafEntries actual => .err (.tooManyLeafEntries actual)
  | _ => .panic

variable (key value : Word)

/-- `Smt::perform_insert`.  The leaf is changed where it is stored. -/
def performInsert : Effect (Smt D) (MerkleError D) (Option Word) := fun tree =>
  match tree.leaves.get? (leafIndex key) with
  | some leaf =>
    let (result, changed) := leaf.insert key value
    let tree := { tree with leaves := tree.leaves.insert (leafIndex key) changed }
    match result with
    | .ok previous =>
      match Outcome.checkedSub changed.numEntries leaf.numEntries with
      | .ok more => (.ok previous, { tree with numEntries := tree.numEntries + more })
      | .err error => (.err error, tree)
      | .panic => (.panic, tree)
    | .err error => (leafError error, tree)
    | .panic => (.panic, tree)
  | none =>
    (.ok none, { tree with
      leaves := tree.leaves.insert (leafIndex key) (.single key value)
      numEntries := tree.numEntries + 1 })

/-- `Smt::perform_remove`. -/
def performRemove (key : Word) : Effect (Smt D) (MerkleError D) (Option Word) := fun tree =>
  match tree.leaves.get? (leafIndex key) with
  | some leaf =>
    let ((oldValue, isEmpty), changed) := leaf.remove key
    let leaves := tree.leaves.insert (leafIndex key) changed
    let count : Outcome (MerkleError D) Nat := do
      let fewer ← .checkedSub leaf.numEntries changed.numEntries
      .checkedSub tree.numEntries fewer
    match count with
    | .ok numEntries =>
      let leaves := if isEmpty then leaves.erase (leafIndex key) else leaves
      (.ok oldValue, { tree with leaves, numEntries })
    | .err error => (.err error, { tree with leaves })
    | .panic => (.panic, { tree with leaves })
  | none => (.ok none, tree)

/-- `Smt::insert_value`. -/
def insertValue : Effect (Smt D) (MerkleError D) (Option Word) :=
  if value ≠ Word.zero then performInsert key value else performRemove key

variable [DecidableEq D]

/-- `Smt::insert_inner_node`. -/
def insertInnerNode (tree : Smt D) (index : NodeIndex) (innerNode : InnerNode D) :
    Option (InnerNode D) × Smt D :=
  if innerNode = EmptySubtreeRoots.getInnerNode hasher smtDepth index.depth then tree.removeInnerNode index
  else
    (tree.innerNodes.get? index, { tree with innerNodes := tree.innerNodes.insert index innerNode })

/-- An inner node with one child replaced. -/
def replaceChild (node : InnerNode D) (position : Nat) (child : D) : InnerNode D :=
  if position % 2 = 1 then ⟨node.left, child⟩ else ⟨child, node.right⟩

/-- The loop of `recompute_nodes_from_index_to_root`, from a depth and a
position up. -/
def recomputeNodes : Nat -> Nat -> D -> Smt D -> Smt D
  | 0, _, nodeHash, tree => { tree with root := nodeHash }
  | depth + 1, position, nodeHash, tree =>
    let index : NodeIndex := ⟨depth, position / 2⟩
    let node := replaceChild (tree.getInnerNode hasher index) position nodeHash
    let nodeHash := node.hash hasher
    let tree :=
      if nodeHash = EmptySubtreeRoots.entry hasher smtDepth depth then (tree.removeInnerNode index).2
      else (tree.insertInnerNode hasher index node).2
    recomputeNodes depth (position / 2) nodeHash tree

/-- `SparseMerkleTree::insert`. -/
def insert : Effect (Smt D) (MerkleError D) Word := do
  let oldValue ← insertValue key value
  let oldValue := oldValue.getD Word.zero
  if value = oldValue then pure value
  else do
    let leaf ← Effect.check (fun tree => .ok (tree.getLeaf key))
    Effect.update (recomputeNodes hasher smtDepth (leafIndex key) (leaf.hash hasher))
    pure oldValue

end Smt

end MidenVm.Crypto
