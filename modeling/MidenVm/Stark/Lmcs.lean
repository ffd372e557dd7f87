import MidenVm.Foundation.HeapLayers
import MidenVm.Foundation.OrderedMap
import MidenVm.Stark.Deep
import MidenVm.Stark.TreeIndices

namespace MidenVm.Stark

open Foundation

/-!
# The lifted matrix commitment scheme

Matrices of different heights are committed in one Merkle tree.  Sponge states
absorb the rows of the matrices from the shortest to the tallest and are
repeated whenever the height grows; the digests of the states, in domain order,
are the leaves.  An opening streams the rows of the queried leaves and the
digests that are missing to recompute the root.

The sponge and the compression function are parameters, and packed values are
not modelled.  A transcript is the two streams of field elements and digests
that hints are taken from; rows and digests are not observed.
-/

/-! ## Hashers -/

/-- `StatefulHasher`, with the state it starts from. -/
structure StatefulHasher (S F D : Type) where
  initial : S
  absorbInto : S -> List F -> S
  squeeze : S -> D

namespace StatefulSponge

variable {F : Type} [Zero F]

/-- `StatefulSponge::absorb_into`: blocks of `rate` elements overwrite the state,
the last one filled up with zeros. -/
def absorbInto (permute : List F -> List F) (rate : Nat) : Nat -> List F -> List F -> List F
  | 0, state, _ => state
  | fuel + 1, state, input =>
    if input = [] then state
    else
      let block := input.take rate
      absorbInto permute rate fuel
        (permute (block ++ List.replicate (rate - block.length) 0 ++ state.drop rate)) (input.drop rate)

/-- `StatefulSponge`. -/
def hasher (permute : List F -> List F) (width rate out : Nat) :
    StatefulHasher (List F) F (List F) where
  initial := List.replicate width 0
  absorbInto state input := absorbInto permute rate input.length state input
  squeeze state := state.take out

end StatefulSponge

/-! ## Nodes and rows -/

/-- `NodeId`: heap numbering of the nodes. -/
abbrev NodeId := Nat

namespace NodeId

/-- `NodeId::new`. -/
def new (depth position : Nat) : NodeId := 2 ^ depth + position

variable (id : NodeId)

/-- `NodeId::depth`. -/
def depth : Nat := Nat.log2 id

/-- `NodeId::position`. -/
def position : Nat := id - 2 ^ depth id

/-- `NodeId::sibling`. -/
def sibling : NodeId := Heap.sibling id

/-- `NodeId::parent`. -/
def parent : NodeId := Heap.parent id

end NodeId

/-- `RowList`. -/
structure RowList (F : Type) where
  elems : List F
  widths : List Nat
  size : widths.sum = elems.length

namespace RowList

variable {F : Type}

/-- `RowList::new`. -/
def new {ε : Type} (elems : List F) (widths : List Nat) : Outcome ε (RowList F) :=
  if size : widths.sum = elems.length then .ok ⟨elems, widths, size⟩ else .panic

/-- `RowList::iter_rows`. -/
def iterRows (rows : RowList F) : List (List F) := DeepPoly.splitWidths rows.widths rows.elems

end RowList

/-! ## Hints -/

/-- The streams that hints are read from and written to. -/
structure Hints (F D : Type) where
  fields : List F
  commitments : List D

namespace Hints

variable {F D : Type}

/-- `receive_hint_field_slice`. -/
def receiveFieldSlice (hints : Hints F D) (count : Nat) : Outcome LmcsError (List F × Hints F D) :=
  if count ≤ hints.fields.length then
    .ok (hints.fields.take count, ⟨hints.fields.drop count, hints.commitments⟩)
  else .err .transcriptError

/-- `receive_hint_commitment`. -/
def receiveCommitment (hints : Hints F D) : Outcome LmcsError (D × Hints F D) :=
  match hints.commitments with
  | [] => .err .transcriptError
  | first :: rest => .ok (first, ⟨hints.fields, rest⟩)

/-- One stream after the other. -/
def append (first second : Hints F D) : Hints F D :=
  ⟨first.fields ++ second.fields, first.commitments ++ second.commitments⟩

end Hints

/-! ## Missing siblings -/

/-- `MissingSiblingsIter`: one buffer holds the parents found so far at its start
and the nodes still to process behind them. -/
structure MissingSiblingsIter where
  nodes : List NodeId
  start : Nat
  stop : Nat
  nextLen : Nat

/-- What one round of the loop in `MissingSiblingsIter::next` does. -/
inductive IterStep where
  | yields (sibling : NodeId) (iter : MissingSiblingsIter)
  | continues (iter : MissingSiblingsIter)
  | ends

namespace MissingSiblingsIter

/-- `MissingSiblingsIter::new`. -/
def new (positions : List Nat) (treeDepth : Nat) : MissingSiblingsIter where
  nodes := positions.map (NodeId.new treeDepth)
  start := 0
  stop := if treeDepth > 0 then positions.length else 0
  nextLen := 0

/-- One round of the loop in `MissingSiblingsIter::next`. -/
def step (iter : MissingSiblingsIter) : IterStep :=
  match (iter.nodes.take iter.stop).drop iter.start with
  | node :: rest =>
    let sibling := node.sibling
    let siblingPresent := rest.head? = some sibling
    let parent := node.parent
    let promote := iter.nextLen = 0 ∨ iter.nodes[iter.nextLen - 1]? ≠ some parent
    let next : MissingSiblingsIter :=
      { iter with
        nodes := if promote then iter.nodes.set iter.nextLen parent else iter.nodes
        nextLen := if promote then iter.nextLen + 1 else iter.nextLen
        start := iter.start + if siblingPresent then 2 else 1 }
    if siblingPresent then .continues next else .yields sibling next
  | [] =>
    match (iter.nodes.take iter.nextLen).head? with
    | none => .ends
    | some next =>
      if next.depth = 0 then .ends else .continues ⟨iter.nodes, 0, iter.nextLen, 0⟩

/-- All that the iterator yields, with a bound on the rounds. -/
def collect : Nat -> MissingSiblingsIter -> Option (List NodeId)
  | 0, _ => none
  | fuel + 1, iter =>
    match iter.step with
    | .ends => some []
    | .continues next => collect fuel next
    | .yields sibling next => (collect fuel next).map (sibling :: ·)

end MissingSiblingsIter

/-- `TreeIndices::missing_siblings`, with as many rounds as the layers can need. -/
def TreeIndices.missingSiblings (indices : TreeIndices) : Option (List NodeId) :=
  MissingSiblingsIter.collect ((indices.indices.length + 1) * (indices.depth + 1))
    (MissingSiblingsIter.new indices.indices indices.depth)

/-! ## The witness of a batch -/

/-- `MerkleWitness`, with its nodes in the order they were found. -/
structure MerkleWitness (D : Type) where
  nodes : List (NodeId × D)
  treeDepth : Nat

namespace MerkleWitness

variable {F D : Type}

/-- The two children that one round compresses, in order. -/
def ordered (node : NodeId) (hash sibHash : D) : (NodeId × D) × (NodeId × D) :=
  if node < node.sibling then ((node, hash), (node.sibling, sibHash))
  else ((node.sibling, sibHash), (node, hash))

/-- One layer of `MerkleWitness::build`: the parents, the children, and the hints
that are left. -/
def buildLayer (compress : D -> D -> D) : List (NodeId × D) -> Hints F D ->
    Outcome LmcsError (List (NodeId × D) × List (NodeId × D) × Hints F D)
  | [], hints => .ok ([], [], hints)
  | [(node, hash)], hints => do
      let fetched ← hints.receiveCommitment
      let children := ordered node hash fetched.1
      .ok ([(node.parent, compress children.1.2 children.2.2)], [children.1, children.2], fetched.2)
  | (node, hash) :: (id, known) :: rest, hints =>
    if id = node.sibling then do
      let children := ordered node hash known
      let above ← buildLayer compress rest hints
      .ok ((node.parent, compress children.1.2 children.2.2) :: above.1,
        children.1 :: children.2 :: above.2.1, above.2.2)
    else do
      let fetched ← hints.receiveCommitment
      let children := ordered node hash fetched.1
      let above ← buildLayer compress ((id, known) :: rest) fetched.2
      .ok ((node.parent, compress children.1.2 children.2.2) :: above.1,
        children.1 :: children.2 :: above.2.1, above.2.2)

/-- All layers of `MerkleWitness::build`. -/
def buildLayers (compress : D -> D -> D) : Nat -> List (NodeId × D) -> Hints F D ->
    Outcome LmcsError (List (NodeId × D) × Hints F D)
  | 0, current, hints => .ok (current, hints)
  | layers + 1, current, hints => do
      let built ← buildLayer compress current hints
      let above ← buildLayers compress layers built.1 built.2.2
      .ok (built.2.1 ++ above.1, above.2)

/-- `MerkleWitness::build`, with siblings fetched from the hints. -/
def build (leaves : List (Nat × D)) (treeDepth : Nat) (hints : Hints F D) (compress : D -> D -> D) :
    Outcome LmcsError (MerkleWitness D × Hints F D) := do
  let built ← buildLayers compress treeDepth (leaves.map (fun leaf => (NodeId.new treeDepth leaf.1, leaf.2))) hints
  .ok (⟨built.1, treeDepth⟩, built.2)

/-- `MerkleWitness::get`. -/
def get (witness : MerkleWitness D) (id : NodeId) : Option D := witness.nodes.lookup id

/-- `MerkleWitness::root`. -/
def root (witness : MerkleWitness D) : Option D := witness.get (NodeId.new 0 0)

end MerkleWitness

/-! ## The tree -/

section Tree

variable {S F D : Type} [Zero F] {ε : Type}

/-- `BitReversibleMatrix::bit_reverse_rows`. -/
def Matrix.bitReverseRows (matrix : Matrix F) : Matrix F where
  logHeight := matrix.logHeight
  width := matrix.width
  entry row column := matrix.entry (reverseBits matrix.logHeight row) column

/-- `LmcsConfig`. -/
structure LmcsConfig (S F D : Type) where
  sponge : StatefulHasher S F D
  compress : D -> D -> D

namespace LmcsConfig

/-- `LmcsConfig::hash`. -/
def hash (lmcs : LmcsConfig S F D) (rows : List (List F)) : D :=
  lmcs.sponge.squeeze (rows.foldl lmcs.sponge.absorbInto lmcs.sponge.initial)

end LmcsConfig

/-- `LiftedMerkleTree`: the matrices as stored, the layers of digests from the root
down, the salt, and the alignment of opened rows. -/
structure LiftedMerkleTree (F D : Type) where
  leaves : List (Matrix F)
  digestLayers : List (List D)
  salt : Option (Matrix F)
  alignment : Nat

namespace LiftedMerkleTree

/-- `validate_heights`, on heights that are powers of two. -/
def validateHeights (matrices : List (Matrix F)) : Outcome ε Nat := do
  let active ← matrices.foldlM (fun active matrix => do
    Outcome.require (matrix.height ≥ active)
    .ok matrix.height) 0
  Outcome.require (active ≠ 0)
  .ok active

/-- `absorb_matrix`. -/
def absorbMatrix (sponge : StatefulHasher S F D) (states : List S)
    (matrix : Matrix F) : Outcome ε (List S) := do
  Outcome.require (matrix.height = states.length)
  .ok (List.zipWith sponge.absorbInto states (table matrix.height matrix.row))

/-- The loop of `build_leaf_states_upsampled`: states are repeated when the height
grows. -/
def absorbMatrices (sponge : StatefulHasher S F D) : List (Matrix F) -> Nat -> List S ->
    Outcome ε (List S)
  | [], _, states => .ok states
  | matrix :: rest, activeHeight, states => do
      let lifted := if matrix.height > activeHeight then
        states.flatMap (List.replicate (matrix.height / activeHeight)) else states
      let absorbed ← absorbMatrix sponge lifted matrix
      absorbMatrices sponge rest matrix.height absorbed

/-- `build_leaf_states_upsampled`. -/
def buildLeafStatesUpsampled (sponge : StatefulHasher S F D) (matrices : List (Matrix F)) :
    Outcome ε (List S) := do
  let _ ← (validateHeights matrices : Outcome ε Nat)
  let first ← Outcome.expect matrices.head?
  absorbMatrices sponge matrices first.height (List.replicate first.height sponge.initial)

/-- `compress_uniform`. -/
def compressUniform (compress : D -> D -> D) : List D -> List D
  | left :: right :: rest => compress left right :: compressUniform compress rest
  | _ => []

/-- The layers of digests from the leaves up, with a bound on their number. -/
def compressLayers (compress : D -> D -> D) : Nat -> List D -> Outcome ε (List (List D))
  | 0, _ => .panic
  | fuel + 1, layer =>
    if layer.length = 1 then .ok [layer]
    else do
      let above ← compressLayers compress fuel (compressUniform compress layer)
      .ok (layer :: above)

/-- `LiftedMerkleTree::build_with_alignment`. -/
def buildWithAlignment (lmcs : LmcsConfig S F D) (leaves : List (Matrix F))
    (salt : Option (Matrix F)) (alignment : Nat) : Outcome ε (LiftedMerkleTree F D) := do
  Outcome.require (leaves ≠ [])
  let stored := leaves.map Matrix.bitReverseRows
  let states ← buildLeafStatesUpsampled lmcs.sponge stored
  let salted ← match salt with
    | some saltMatrix => absorbMatrix lmcs.sponge states saltMatrix
    | none => .ok states
  let logN ← log2Strict salted.length
  let leafDigests := table salted.length (fun index =>
    lmcs.sponge.squeeze (salted.getD (reverseBits logN index) lmcs.sponge.initial))
  let layers ← compressLayers lmcs.compress (logN + 1) leafDigests
  .ok ⟨stored, layers.reverse, salt, max alignment 1⟩

variable (tree : LiftedMerkleTree F D)

/-- `LiftedMerkleTree::height`. -/
def height : Outcome ε Nat := do
  let last ← Outcome.expect tree.leaves.getLast?
  .ok last.height

/-- An entry of the layers of digests. -/
def digestAt (depth position : Nat) : Outcome ε D := do
  let layer ← Outcome.expect tree.digestLayers[depth]?
  Outcome.expect layer[position]?

/-- `LiftedMerkleTree::root`. -/
def root : Outcome ε D := tree.digestAt 0 0

/-- `LmcsTree::aligned_widths`. -/
def alignedWidths : List Nat :=
  tree.leaves.map (fun matrix => alignedLen matrix.width tree.alignment)

/-- `LiftedMerkleTree::collect_rows`. -/
def collectRows (domainIndex : Nat) (widths : List Nat) :
    Outcome ε (RowList F) := do
  let last ← Outcome.expect tree.leaves.getLast?
  let bitReversed := reverseBits last.logHeight domainIndex
  let rows ← Outcome.collect (tree.leaves.zip widths) (fun (matrix, paddedLen) => do
    let logScaling ← log2Strict (last.height / matrix.height)
    let index := bitReversed / 2 ^ logScaling
    Outcome.require (index < matrix.height)
    .ok (matrix.row index ++ List.replicate (paddedLen - matrix.width) 0))
  RowList.new rows.flatten widths

/-- `LiftedMerkleTree::aligned_rows`. -/
def alignedRows (index : Nat) : Outcome ε (RowList F) :=
  tree.collectRows index tree.alignedWidths

/-- `LiftedMerkleTree::salt`. -/
def saltAt (saltElems domainIndex : Nat) : Outcome ε (List F) :=
  match tree.salt with
  | some saltMatrix =>
    let physicalIndex := reverseBits saltMatrix.logHeight domainIndex
    .ok (table saltElems (saltMatrix.entry physicalIndex))
  | none => .ok (List.replicate saltElems 0)

end LiftedMerkleTree

/-! ## Openings -/

/-- `LeafOpening`. -/
structure LeafOpening (F : Type) where
  rows : RowList F
  salt : List F

namespace LeafOpening

/-- `LeafOpening::read_from_channel`. -/
def readFromChannel (widths : List Nat) (saltElems : Nat) (hints : Hints F D) :
    Outcome LmcsError (LeafOpening F × Hints F D) := do
  let elems ← hints.receiveFieldSlice widths.sum
  let rows ← RowList.new elems.1 widths
  let salt ← elems.2.receiveFieldSlice saltElems
  .ok (⟨rows, salt.1⟩, salt.2)

/-- `LeafOpening::write_to_channel`: the elements streamed. -/
def writeToChannel (opening : LeafOpening F) : List F :=
  opening.rows.iterRows.flatten ++ opening.salt

/-- `LeafOpening::leaf_hash`. -/
def leafHash (opening : LeafOpening F) (lmcs : LmcsConfig S F D) (saltElems : Nat) : D :=
  if saltElems > 0 then lmcs.hash (opening.rows.iterRows ++ [opening.salt])
  else lmcs.hash opening.rows.iterRows

end LeafOpening

namespace LiftedMerkleTree

/-- `LiftedMerkleTree::prove_batch`: the hints that are streamed. -/
def proveBatch (tree : LiftedMerkleTree F D) (saltElems : Nat) (indices : TreeIndices) :
    Outcome ε (Hints F D) := do
  let height ← tree.height
  let treeLogHeight ← log2Strict height
  Outcome.require (indices.depth = treeLogHeight)
  let openings ← Outcome.collect indices.indices (fun index => do
    let rows ← tree.alignedRows index
    let salt ← tree.saltAt saltElems index
    .ok (LeafOpening.writeToChannel ⟨rows, salt⟩))
  let siblings ← Outcome.expect indices.missingSiblings
  let digests ← Outcome.collect siblings (fun sibling => tree.digestAt sibling.depth sibling.position)
  .ok ⟨openings.flatten, digests⟩

/-- `LmcsTree::prove_lifted_batch`. -/
def proveLiftedBatch (tree : LiftedMerkleTree F D) (saltElems : Nat) (queryIndices : TreeIndices) :
    Outcome ε (Hints F D) := do
  let height ← tree.height
  let treeLogHeight ← log2Strict height
  let leafIndices ← Outcome.unwrap (queryIndices.foldToDepth treeLogHeight)
  tree.proveBatch saltElems leafIndices

end LiftedMerkleTree

namespace LmcsConfig

/-- The openings that `open_batch` reads, one for every index. -/
def readOpenings (widths : List Nat) (saltElems : Nat) : List Nat -> Hints F D ->
    Outcome LmcsError (List (Nat × LeafOpening F) × Hints F D)
  | [], hints => .ok ([], hints)
  | leaf :: rest, hints => do
      let opening ← LeafOpening.readFromChannel widths saltElems hints
      let others ← readOpenings widths saltElems rest opening.2
      .ok ((leaf, opening.1) :: others.1, others.2)

variable [DecidableEq D]

/-- `LmcsConfig::open_batch`. -/
def openBatch (lmcs : LmcsConfig S F D) (saltElems : Nat) (commitment : D) (widths : List Nat)
    (indices : TreeIndices) (hints : Hints F D) :
    Outcome LmcsError (OrderedMap Nat (RowList F) × Hints F D) := do
  Outcome.ensure (indices.indices ≠ []) .invalidProof
  let openings ← readOpenings widths saltElems indices.indices hints
  let leafHashes := openings.1.map (fun opening => (opening.1, opening.2.leafHash lmcs saltElems))
  let leafRows :=
    OrderedMap.empty.insertAll (openings.1.map (fun opening => (opening.1, opening.2.rows)))
  let tree ← MerkleWitness.build leafHashes indices.depth openings.2 lmcs.compress
  let computedCommitment ← Outcome.okOr tree.1.root .invalidProof
  Outcome.ensure (computedCommitment = commitment) .rootMismatch
  .ok (leafRows, tree.2)

end LmcsConfig

/-- `TreeIndices::expand_leaf_values`. -/
def TreeIndices.expandLeafValues {α : Type} (set : TreeIndices) (targetDepth : Nat)
    (leafValues : OrderedMap Nat α) : Outcome LmcsError (OrderedMap Nat α) := do
  let values ← Outcome.collect set.indices (fun query => do
    let value ← Outcome.okOr (leafValues.get? (query % 2 ^ targetDepth)) .invalidProof
    .ok (query, value))
  .ok (OrderedMap.empty.insertAll values)

/-- `Lmcs::open_lifted_batch`. -/
def LmcsConfig.openLiftedBatch [DecidableEq D] (lmcs : LmcsConfig S F D) (saltElems : Nat)
    (commitment : D)
    (widths : List Nat) (queryIndices : TreeIndices) (treeLogHeight : Nat) (hints : Hints F D) :
    Outcome LmcsError (OrderedMap Nat (RowList F) × Hints F D) := do
  let leafIndices ← queryIndices.foldToDepth treeLogHeight
  let rowsByLeaf ← lmcs.openBatch saltElems commitment widths leafIndices hints
  let rows ← queryIndices.expandLeafValues treeLogHeight rowsByLeaf.1
  .ok (rows, rowsByLeaf.2)

end Tree

end MidenVm.Stark
