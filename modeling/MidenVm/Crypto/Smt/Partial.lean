import MidenVm.Crypto.Smt.Tree

namespace MidenVm.Crypto

open Foundation

/-!
# Partial sparse Merkle trees

A partial tree keeps the leaves and nodes of some paths of a tree.  A key is
tracked if its leaf is stored, or if a walk from the root over stored nodes
meets an empty subtree on the way to it.  Only tracked keys can be read and
updated; what is not stored is read as empty when nodes are recomputed.
-/

/-- `PartialSmt`. -/
@[ext] structure PartialSmt (D : Type) where
  root : D
  numEntries : Nat
  leaves : OrderedMap Nat SmtLeaf
  innerNodes : OrderedMap NodeIndex (InnerNode D)

namespace PartialSmt

variable {D : Type}

/-- `PartialSmt::new`. -/
def new (root : D) : PartialSmt D := ⟨root, 0, .empty, .empty⟩

variable (hasher : SmtHasher D)

/-- `PartialSmt::default`. -/
def default : PartialSmt D := new (EmptySubtreeRoots.entry hasher smtDepth 0)

/-! ## Reading -/

/-- `PartialSmt::get_inner_node_or_empty`. -/
def getInnerNodeOrEmpty (tree : PartialSmt D) (index : NodeIndex) : InnerNode D :=
  (tree.innerNodes.get? index).getD (EmptySubtreeRoots.getInnerNode hasher smtDepth index.depth)

/-- `PartialSmt::get_node_hash`. -/
def getNodeHash (tree : PartialSmt D) (index : NodeIndex) : D :=
  if index.isRoot then tree.root
  else
    let node := tree.getInnerNodeOrEmpty hasher index.moveUp
    if index.isPositionOdd then node.right else node.left

variable [DecidableEq D]

/-- The walk of `get_tracked_leaf` from a node down to a leaf, over as many
levels as are left: whether it meets an empty subtree. -/
def meetsEmpty (tree : PartialSmt D) (target : NodeIndex) : Nat -> NodeIndex -> Bool
  | 0, _ => false
  | bit + 1, index =>
    match tree.innerNodes.get? index with
    | none => false
    | some innerNode =>
      let isRight := target.isNthBitOdd bit
      let childHash := if isRight then innerNode.right else innerNode.left
      if childHash = EmptySubtreeRoots.entry hasher smtDepth (smtDepth - bit) then true
      else meetsEmpty tree target bit (if isRight then index.rightChild else index.leftChild)

/-- `PartialSmt::get_tracked_leaf`. -/
def getTrackedLeaf (tree : PartialSmt D) (key : Word) : Option SmtLeaf :=
  match tree.leaves.get? (leafIndex key) with
  | some leaf => some leaf
  | none =>
    if tree.root = EmptySubtreeRoots.entry hasher smtDepth 0 then some (.empty (leafIndex key))
    else if tree.meetsEmpty hasher ⟨smtDepth, leafIndex key⟩ smtDepth .root then some (.empty (leafIndex key))
    else none

/-- `PartialSmt::get_leaf`. -/
def getLeaf (tree : PartialSmt D) (key : Word) : Outcome (MerkleError D) SmtLeaf :=
  .okOr (tree.getTrackedLeaf hasher key) (.untrackedKey key)

/-- `PartialSmt::get_value`. -/
def getValue (tree : PartialSmt D) (key : Word) : Outcome (MerkleError D) Word :=
  .okOr ((tree.getTrackedLeaf hasher key).map (fun leaf => (leaf.getValue key).getD Word.zero))
    (.untrackedKey key)

/-- `PartialSmt::get_path`. -/
def getPath {ε : Type} (tree : PartialSmt D) (key : Word) : Outcome ε (SparseMerklePath D) :=
  let index : NodeIndex := ⟨smtDepth, leafIndex key⟩
  (SparseMerklePath.fromSizedIter hasher
    (index.proofIndices.map (tree.getNodeHash hasher))).unwrap

/-- `PartialSmt::open`. -/
def openAt (tree : PartialSmt D) (key : Word) : Outcome (MerkleError D) (SmtProof D) := do
  let leaf ← tree.getLeaf hasher key
  let merklePath ← tree.getPath hasher key
  pure ⟨merklePath, leaf⟩

/-! ## Writing -/

/-- `PartialSmt::insert_inner_node`. -/
def insertInnerNode (tree : PartialSmt D) (index : NodeIndex) (innerNode : InnerNode D) : PartialSmt D :=
  if innerNode = EmptySubtreeRoots.getInnerNode hasher smtDepth index.depth then
    { tree with innerNodes := tree.innerNodes.erase index }
  else { tree with innerNodes := tree.innerNodes.insert index innerNode }

/-- The loop of `add_path_unchecked` over the siblings: the hash it ends with. -/
def addSiblings : List D -> NodeIndex -> D -> PartialSmt D -> D × PartialSmt D
  | [], _, nodeHash, tree => (nodeHash, tree)
  | siblingHash :: rest, index, nodeHash, tree =>
    let isSiblingRight := index.sibling.isPositionOdd
    let parent := index.moveUp
    let node : InnerNode D :=
      if isSiblingRight then ⟨nodeHash, siblingHash⟩ else ⟨siblingHash, nodeHash⟩
    addSiblings rest parent (node.hash hasher) (tree.insertInnerNode hasher parent node)

omit [DecidableEq D] in
/-- Store a leaf unless it is empty. -/
def storeLeaf (leaf : SmtLeaf) (tree : PartialSmt D) : PartialSmt D :=
  if 0 < leaf.numEntries then { tree with leaves := tree.leaves.insert leaf.index leaf }
  else { tree with leaves := tree.leaves.erase leaf.index }

/-- `PartialSmt::add_path_unchecked`. -/
def addPathUnchecked {ε : Type} (leaf : SmtLeaf) (path : SparseMerklePath D) :
    Effect (PartialSmt D) ε D := do
  let prevEntries ← .check (fun tree => .ok ((tree.leaves.get? leaf.index).elim 0 SmtLeaf.numEntries))
  Effect.update (storeLeaf leaf)
  let numEntries ← .check (fun tree => .checkedSub (tree.numEntries + leaf.numEntries) prevEntries)
  Effect.update (fun tree => { tree with numEntries := numEntries })
  let siblings ← .check (fun _ => path.iter hasher)
  Effect.modifyGet (addSiblings hasher siblings ⟨smtDepth, leaf.index⟩ (leaf.hash hasher))

/-- `PartialSmt::add_path`. -/
def addPath (leaf : SmtLeaf) (path : SparseMerklePath D) :
    Effect (PartialSmt D) (MerkleError D) Unit := do
  let pathRoot ← addPathUnchecked hasher leaf path
  Effect.check (fun tree =>
    if tree.root ≠ pathRoot then .err (.conflictingRoots tree.root pathRoot) else .ok ())

/-- `PartialSmt::add_proof`. -/
def addProof (proof : SmtProof D) : Effect (PartialSmt D) (MerkleError D) Unit :=
  addPath hasher proof.leaf proof.path

/-- `PartialSmt::from_proofs`. -/
def fromProofs : List (SmtProof D) -> Outcome (MerkleError D) (PartialSmt D)
  | [] => .ok (default hasher)
  | firstProof :: proofs =>
    let build : Effect (PartialSmt D) (MerkleError D) Unit := do
      let pathRoot ← addPathUnchecked hasher firstProof.leaf firstProof.path
      Effect.update (fun tree => { tree with root := pathRoot })
      Effect.forEach (addProof hasher) proofs
    match build (default hasher) with
    | (.ok _, tree) => .ok tree
    | (.err error, _) => .err error
    | (.panic, _) => .panic

/-- `recompute_nodes_from_leaf_to_root`, from a depth and a position up. -/
def recomputeNodes : Nat -> Nat -> D -> PartialSmt D -> PartialSmt D
  | 0, _, nodeHash, tree => { tree with root := nodeHash }
  | depth + 1, position, nodeHash, tree =>
    let index : NodeIndex := ⟨depth, position / 2⟩
    let node := Smt.replaceChild (tree.getInnerNodeOrEmpty hasher index) position nodeHash
    recomputeNodes depth (position / 2) (node.hash hasher) (tree.insertInnerNode hasher index node)

/-- The change of a leaf in `insert`. -/
def changeLeaf (leaf : SmtLeaf) (key value : Word) : Outcome (MerkleError D) Unit × SmtLeaf :=
  if value ≠ Word.zero then
    let (result, changed) := leaf.insert key value
    match result with
    | .ok _ => (.ok (), changed)
    | .err error => (Smt.leafError error, changed)
    | .panic => (.panic, changed)
  else (.ok (), (leaf.remove key).2)

/-- `PartialSmt::insert`. -/
def insert (key value : Word) : Effect (PartialSmt D) (MerkleError D) Word := do
  let currentLeaf ← .check (fun tree => tree.getLeaf hasher key)
  let previousValue := (currentLeaf.getValue key).getD Word.zero
  let leaf ← .check (fun tree =>
    .ok ((tree.leaves.get? currentLeaf.index).getD (.empty currentLeaf.index)))
  let changed := changeLeaf leaf key value
  Effect.update (fun tree => { tree with leaves := tree.leaves.insert currentLeaf.index changed.2 })
  Effect.check (fun _ => changed.1)
  let numEntries ← .check (fun tree =>
    .checkedSub (tree.numEntries + changed.2.numEntries) currentLeaf.numEntries)
  Effect.update (fun tree => { tree with numEntries := numEntries })
  Effect.update (fun tree =>
    if changed.2.numEntries = 0 then { tree with leaves := tree.leaves.erase currentLeaf.index }
    else tree)
  Effect.update (recomputeNodes hasher smtDepth currentLeaf.index (changed.2.hash hasher))
  pure previousValue

end PartialSmt

end MidenVm.Crypto
