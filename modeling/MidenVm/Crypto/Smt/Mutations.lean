import MidenVm.Crypto.Smt.Tree

namespace MidenVm.Crypto

open Foundation

/-!
# Prepared changes of a sparse Merkle tree

A batch of pairs can be computed against a tree before it is written.  The
result, a mutation set, lists the nodes to store or remove, the pairs to write
and the roots before and after.  Pairs and nodes are kept in hash maps, so the
order in which they are visited is a parameter wherever the code iterates over
one: once for each pair that is computed, and again when the set is applied.
-/

/-- `NodeMutation`. -/
inductive NodeMutation (D : Type) where
  | removal
  | addition (node : InnerNode D)

/-- `MutationSet`. -/
structure MutationSet (D : Type) where
  oldRoot : D
  nodeMutations : OrderedMap NodeIndex (NodeMutation D)
  newPairs : OrderedMap Word Word
  newRoot : D

/-- `construct_prospective_leaf`.  An empty leaf takes the pair as it is. -/
def constructProspectiveLeaf (existingLeaf : SmtLeaf) (key value : Word) : Outcome SmtLeafError SmtLeaf :=
  match existingLeaf with
  | .empty _ => .ok (.single key value)
  | leaf =>
    if value ≠ Word.zero then
      match leaf.insert key value with
      | (.ok _, changed) => .ok changed
      | (.err error, _) => .err error
      | (.panic, _) => .panic
    else .ok (leaf.remove key).2

namespace Smt

variable {D : Type} [DecidableEq D] (hasher : SmtHasher D) (order : MapOrder Word Word)

/-! ## Computing a set -/

/-- What `compute_mutations_sequential` keeps between two pairs. -/
structure Pending (D : Type) where
  seenKeys : List Word
  newRoot : D
  newPairs : OrderedMap Word Word
  nodeMutations : OrderedMap NodeIndex (NodeMutation D)

omit [DecidableEq D] in
/-- The node at an index with the changes so far. -/
def prospectiveNode (tree : Smt D) (nodeMutations : OrderedMap NodeIndex (NodeMutation D))
    (index : NodeIndex) : InnerNode D :=
  match nodeMutations.get? index with
  | some (.addition node) => node
  | some .removal => EmptySubtreeRoots.getInnerNode hasher smtDepth index.depth
  | none => tree.getInnerNode hasher index

/-- The loop over the depths, from a depth and a position up: the new root and
the nodes that change. -/
def mutateNodes (tree : Smt D) : Nat -> Nat -> D -> OrderedMap NodeIndex (NodeMutation D) ->
    D × OrderedMap NodeIndex (NodeMutation D)
  | 0, _, newChildHash, nodeMutations => (newChildHash, nodeMutations)
  | nodeDepth + 1, position, newChildHash, nodeMutations =>
    let index : NodeIndex := ⟨nodeDepth, position / 2⟩
    let oldNode := prospectiveNode hasher tree nodeMutations index
    let newNode := replaceChild oldNode position newChildHash
    let newChildHash := newNode.hash hasher
    let newEntry :=
      if newChildHash = EmptySubtreeRoots.entry hasher smtDepth nodeDepth then .removal
      else .addition newNode
    mutateNodes tree nodeDepth (position / 2) newChildHash (nodeMutations.insert index newEntry)

omit [DecidableEq D] in
/-- `map_err` on the errors of leaves. -/
def mapLeafError {α : Type} : Outcome SmtLeafError α -> Outcome (MerkleError D) α
  | .ok value => .ok value
  | .err error => leafError error
  | .panic => .panic

/-- The leaf and the nodes that a pair with a new value changes. -/
def computeChange (tree : Smt D) (pending : Pending D)
    (key value : Word) : Outcome (MerkleError D) (Pending D) := do
  let pairsAtIndex := (order.list pending.newPairs).filter
    (fun newPair => leafIndex newPair.1 = leafIndex key)
  -- The pairs that were taken before are expected to fit in any order.
  let oldLeaf ← (pairsAtIndex.foldlM
    (fun leaf newPair => constructProspectiveLeaf leaf newPair.1 newPair.2)
    (tree.getLeaf key)).unwrap
  let newLeaf ← mapLeafError (constructProspectiveLeaf oldLeaf key value)
  let above := mutateNodes hasher tree smtDepth (leafIndex key) (newLeaf.hash hasher)
    pending.nodeMutations
  pure ⟨pending.seenKeys, above.1, pending.newPairs.insert key value, above.2⟩

/-- One pair of `compute_mutations_sequential`. -/
def computePair (tree : Smt D) (pending : Pending D)
    (pair : Word × Word) : Outcome (MerkleError D) (Pending D) :=
  let (key, value) := pair
  if key ∈ pending.seenKeys then .err (.duplicateValuesForIndex (leafIndex key))
  else
    let pending := { pending with seenKeys := key :: pending.seenKeys }
    let oldValue := (pending.newPairs.get? key).getD (tree.getValue key)
    if value = oldValue then .ok pending
    else computeChange hasher order tree pending key value

/-- `compute_mutations_sequential`. -/
def computeMutationsSequential (kvPairs : List (Word × Word))
    (tree : Smt D) : Outcome (MerkleError D) (MutationSet D) := do
  let pending ← kvPairs.foldlM (computePair hasher order tree) ⟨[], tree.root, .empty, .empty⟩
  pure ⟨tree.root, pending.nodeMutations, pending.newPairs, pending.newRoot⟩

/-! ## Applying a set -/

/-- One node of a set, with the node that was there before. -/
def applyNode (tree : Smt D) : NodeIndex × NodeMutation D -> Option (InnerNode D) × Smt D
  | (index, .removal) => tree.removeInnerNode index
  | (index, .addition node) => tree.insertInnerNode hasher index node

/-- The guard against sets of another tree. -/
def checkRoot (set : MutationSet D) : Effect (Smt D) (MerkleError D) Unit :=
  Effect.check (fun tree =>
    if set.oldRoot ≠ tree.root then .err (.conflictingRoots tree.root set.oldRoot) else .ok ())

/-- `apply_mutations`. -/
def applyMutations (nodeOrder : MapOrder NodeIndex (NodeMutation D))
    (pairOrder : MapOrder Word Word) (set : MutationSet D) :
    Effect (Smt D) (MerkleError D) Unit := do
  checkRoot set
  Effect.update (fun tree => (nodeOrder.list set.nodeMutations).foldl
    (fun tree entry => (applyNode hasher tree entry).2) tree)
  Effect.forEach (fun pair => (insertValue pair.1 pair.2).done) (pairOrder.list set.newPairs)
  Effect.update (fun tree => { tree with root := set.newRoot })

omit [DecidableEq D] in
/-- What undoes the change of a node. -/
def reverseNode (oldNode : Option (InnerNode D)) : NodeMutation D -> Option (NodeMutation D)
  | .removal => oldNode.map .addition
  | .addition _ =>
    match oldNode with
    | some node => some (.addition node)
    | none => some .removal

/-- The nodes of a set applied one by one, with the changes that undo them. -/
def applyNodesReversing : List (NodeIndex × NodeMutation D) ->
    OrderedMap NodeIndex (NodeMutation D) -> Smt D ->
    OrderedMap NodeIndex (NodeMutation D) × Smt D
  | [], reverse, tree => (reverse, tree)
  | (index, mutation) :: rest, reverse, tree =>
    let (oldNode, after) := applyNode hasher tree (index, mutation)
    match reverseNode oldNode mutation with
    | some undo => applyNodesReversing rest (reverse.insert index undo) after
    | none => applyNodesReversing rest reverse after

omit [DecidableEq D] in
/-- The pairs of a set written one by one, with the values they replace. -/
def applyPairsReversing : List (Word × Word) -> OrderedMap Word Word ->
    Effect (Smt D) (MerkleError D) (OrderedMap Word Word)
  | [], reversePairs => pure reversePairs
  | (key, value) :: rest, reversePairs => do
      let oldValue ← insertValue key value
      match oldValue with
      | some oldValue => applyPairsReversing rest (reversePairs.insert key oldValue)
      | none => applyPairsReversing rest (reversePairs.insert key Word.zero)

/-- `apply_mutations_with_reversion`. -/
def applyMutationsWithReversion (nodeOrder : MapOrder NodeIndex (NodeMutation D))
    (pairOrder : MapOrder Word Word) (set : MutationSet D) :
    Effect (Smt D) (MerkleError D) (MutationSet D) := do
  checkRoot set
  let reverseMutations ← Effect.modifyGet
    (applyNodesReversing hasher (nodeOrder.list set.nodeMutations) .empty)
  let reversePairs ← applyPairsReversing (pairOrder.list set.newPairs) .empty
  Effect.update (fun tree => { tree with root := set.newRoot })
  pure ⟨set.newRoot, reverseMutations, reversePairs, set.oldRoot⟩

end Smt

end MidenVm.Crypto
