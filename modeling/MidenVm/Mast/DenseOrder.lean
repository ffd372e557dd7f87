import MidenVm.Mast.Forest

namespace MidenVm.Mast

open Foundation Outcome

/-!
# Finalizing a forest

Nodes are collected in any order that names children.  Finalization brings
them into the dense order: external nodes by digest, then basic blocks in the
order they were built, then the other nodes with children before parents.  The
last part is a topological sort that always takes the smallest id whose
children are all in place.
-/

/-! ## Moving nodes -/

/-- A dense map from ids to ids, as `DenseIdMap`. -/
abbrev IdMap := List (Option Nat)

namespace IdMap

/-- `DenseIdMap::with_len`. -/
def withLen (length : Nat) : IdMap := List.replicate length none

/-- `DenseIdMap::get`. -/
def get (map : IdMap) (id : Nat) : Option Nat := map[id]?.join

/-- `DenseIdMap::insert`; an id outside the map aborts. -/
def insert {ε : Type} (map : IdMap) (id target : Nat) : Outcome ε IdMap := do
  require (id < map.length)
  ok (map.set id (some target))

/-- A child that is not mapped stays. -/
def move (map : IdMap) (id : Nat) : Nat := (map.get id).getD id

end IdMap

/-- `remap_children` of the builder of a node, which keeps the digest. -/
def MastNode.remapChildren (map : IdMap) : MastNode -> MastNode
  | .join first second digest => .join (map.move first) (map.move second) digest
  | .split onTrue onFalse digest => .split (map.move onTrue) (map.move onFalse) digest
  | .loop body digest => .loop (map.move body) digest
  | .call callee isSyscall digest => .call (map.move callee) isSyscall digest
  | node => node

/-- `MastNodeBuilder::build_linked` of a builder that carries its digest. -/
def buildLinkedNode : MastNode -> Outcome MastForestError MastNode
  | .block [] _ => err .emptyBasicBlock
  | node => ok node

/-! ## The order of the nodes -/

variable (nodes : List MastNode)

/-- The nodes of one class with their ids, in the order they were built. -/
def nodesOfClass (orderClass : MastNodeOrderClass) : List (MastNode × Nat) :=
  nodes.zipIdx.filter (fun entry => entry.1.orderClass = orderClass)

/-- External nodes are compared by digest, then by id. -/
def externalBefore (left right : MastNode × Nat) : Prop :=
  left.1.digest < right.1.digest ∨ (left.1.digest = right.1.digest ∧ left.2 ≤ right.2)

instance : DecidableRel externalBefore := fun _ _ => inferInstanceAs (Decidable (_ ∨ _))

/-- Two external nodes with one digest are refused. -/
def checkExternalDigests : Option Word -> List (MastNode × Nat) -> Outcome MastForestError Unit
  | _, [] => ok ()
  | previous, (node, nodeId) :: rest => do
      ensure (forall previousDigest, previous = some previousDigest -> previousDigest < node.digest)
        (.invalidNodeOrder nodeId "external node digests must be strictly increasing")
      checkExternalDigests (some node.digest) rest

/-- How many children of each node are still to come, and the nodes that wait
for each node. -/
structure PendingNodes where
  counts : List Nat
  parentsByChild : List (List Nat)

/-- A child that is not in place is waited for. -/
def PendingNodes.waitFor (ordered : List Nat) (nodeCount nodeId : Nat) (pending : PendingNodes)
    (childId : Nat) : PendingNodes :=
  if childId < nodeCount ∧ childId ∉ ordered then {
    counts := pending.counts.modify nodeId (· + 1)
    parentsByChild := pending.parentsByChild.modify childId (· ++ [nodeId]) }
  else pending

def countPending (ordered : List Nat) (internals : List (MastNode × Nat)) : PendingNodes :=
  internals.foldl (fun pending (node, nodeId) =>
    node.children.foldl (PendingNodes.waitFor ordered nodes.length nodeId) pending)
    ⟨List.replicate nodes.length 0, List.replicate nodes.length []⟩

/-- The last child outside the forest is reported. -/
def checkInternalChildren (nodeCount : Nat) (internals : List (MastNode × Nat)) :
    Outcome MastForestError Unit :=
  forEach internals (fun (node, _) =>
    match (node.children.filter (fun childId => nodeCount ≤ childId)).getLast? with
    | some childId => err (.nodeIdOverflow childId nodeCount)
    | none => ok ())

/-- `BTreeSet::insert` on a set kept as an increasing list. -/
def insertReady (nodeId : Nat) (ready : List Nat) : List Nat :=
  if nodeId ∈ ready then ready else ready.orderedInsert (· ≤ ·) nodeId

/-- A parent waits for one child less, and is ready when it waits for none. -/
def releaseParent {ε : Type} (state : List Nat × List Nat) (parentId : Nat) :
    Outcome ε (List Nat × List Nat) := do
  let count ← expect state.1[parentId]?
  let count ← checkedSub count 1
  ok (state.1.set parentId count,
    if count = 0 then insertReady parentId state.2 else state.2)

/-- The loop that takes ready nodes; `fuel` bounds its iterations. -/
def takeReady {ε : Type} : Nat -> PendingNodes -> List Nat -> Outcome ε (List Nat)
  | _, _, [] => ok []
  | 0, _, _ :: _ => panic
  | fuel + 1, pending, nodeId :: ready => do
      let parents ← expect pending.parentsByChild[nodeId]?
      let (counts, ready) ← parents.foldlM releaseParent (pending.counts, ready)
      let rest ← takeReady fuel ⟨counts, pending.parentsByChild.set nodeId []⟩ ready
      ok (nodeId :: rest)

/-- `final_dense_node_order`. -/
def finalDenseNodeOrder : Outcome MastForestError (List Nat) := do
  let externals := (nodesOfClass nodes .external).insertionSort externalBefore
  let blocks := nodesOfClass nodes .basicBlock
  let internals := nodesOfClass nodes .internal
  checkExternalDigests none externals
  let leaves := externals.map Prod.snd ++ blocks.map Prod.snd
  let pending := countPending nodes leaves internals
  checkInternalChildren nodes.length internals
  let ready := (internals.map Prod.snd).filter (fun nodeId => pending.counts[nodeId]? = some 0)
  let ordered ← takeReady internals.length pending ready
  if ordered.length = internals.length then ok (leaves ++ ordered)
  else do
    let nodeId ← expect ((internals.map Prod.snd).find? (fun nodeId => nodeId ∉ ordered))
    err (.invalidNodeOrder nodeId
      "internal nodes must form an acyclic child-before-parent graph")

/-! ## Finalization -/

/-- The map to the new ids. -/
def finalRemapping {ε : Type} (nodeCount : Nat) (orderedIds : List Nat) : Outcome ε IdMap :=
  orderedIds.zipIdx.foldlM (fun map (oldId, newId) => map.insert oldId newId)
    (IdMap.withLen nodeCount)

/-- `canonicalize_parts`, with its debug assertions. -/
def canonicalizeParts (parts : MastForest) : Outcome MastForestError (MastForest × IdMap) := do
  let orderedIds ← finalDenseNodeOrder parts.nodes
  let remapping ← finalRemapping parts.nodes.length orderedIds
  if orderedIds = List.range orderedIds.length then do
    require (validateDenseNodeOrder parts.nodes = ok ())
    ok (parts, remapping)
  else do
    let nodes ← collect orderedIds (fun oldId => do
      let node ← expect parts.nodes[oldId]?
      buildLinkedNode (node.remapChildren remapping))
    let roots ← collect parts.roots (fun rootId =>
      okOr (remapping.get rootId) (.nodeIdOverflow rootId parts.nodes.length))
    require (validateDenseNodeOrder nodes = ok ())
    ok ({ parts with nodes, roots }, remapping)

end MidenVm.Mast
