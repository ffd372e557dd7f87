import MidenVm.Crypto.Smt.Partial
import MidenVm.Mast.Forest

namespace MidenVm.Crypto

open Foundation Parser Serde

/-!
# Partial trees as bytes

`UniqueNodes` is the form in which a partial tree is sent: its root, its leaves,
and the hashes of the nodes and leaves that cannot be computed from them.
Reading it rebuilds the inner nodes from the bottom up and then validates what
was stored against the root.

Digests have a type of their own, so the reader of a digest is a parameter; in
the source it is the one of words.
-/

/-! ## Leaves as bytes -/

/-- `LeafIndex` as it is displayed. -/
def displayLeafIndex (position : Nat) : String := s!"DEPTH={smtDepth}, position={position}"

/-- `LeafIndex` as its `Debug` prints it. -/
def debugLeafIndex (position : Nat) : String :=
  "LeafIndex \x7b index: NodeIndex \x7b depth: 64, position: " ++ toString position ++ " \x7d \x7d"

/-- The text of an error. -/
def SmtLeafError.message : SmtLeafError -> String
  | inconsistentSingleLeafIndices key expected actual =>
    s!"single leaf key {Mast.hexWord key} maps to leaf {displayLeafIndex actual} " ++
      s!"but was expected to map to leaf {displayLeafIndex expected}"
  | inconsistentMultipleLeafIndices fromKeys supplied =>
    s!"supplied leaf index {debugLeafIndex supplied} does not match " ++
      s!"{debugLeafIndex fromKeys} for multiple leaf"
  | inconsistentMultipleLeafKeys first second =>
    s!"multiple leaf requires all keys to map to the same leaf index but key1 " ++
      s!"{Mast.hexWord first} and key2 {Mast.hexWord second} map to different indices"
  | multipleLeafRequiresTwoEntries actual =>
    s!"multiple leaf requires at least two entries but only {actual} were given"
  | tooManyLeafEntries actual =>
    s!"multiple leaf contains {actual} entries but the maximum allowed is {maxLeafEntries}"
  | decodingError message => s!"decoding error: {message}"

namespace SmtLeaf

/-- `SmtLeaf::new`. -/
def new (entries : List (Word × Word)) (leafIdx : Nat) : Outcome SmtLeafError SmtLeaf :=
  match entries with
  | [] => .ok (.empty leafIdx)
  | [(key, value)] =>
    if leafIndex key ≠ leafIdx then .err (.inconsistentSingleLeafIndices key leafIdx (leafIndex key))
    else .ok (.single key value)
  | first :: second :: rest => do
      let leaf ← newMultiple (first :: second :: rest)
      if leaf.index ≠ leafIdx then .err (.inconsistentMultipleLeafIndices leaf.index leafIdx)
      else pure leaf

/-- The entries in a list of elements, a key and a value in eight elements. -/
def entriesOf : List Felt -> List (Word × Word)
  | a :: b :: c :: d :: e :: f :: g :: h :: rest => (⟨a, b, c, d⟩, ⟨e, f, g, h⟩) :: entriesOf rest
  | _ => []

/-- `SmtLeaf::try_from_elements`. -/
def tryFromElements (elements : List Felt) (leafIdx : Nat) : Outcome SmtLeafError SmtLeaf :=
  if elements.isEmpty then .ok (.empty leafIdx)
  else if elements.length % 8 ≠ 0 then .err (.decodingError "elements length is not a multiple of 8")
  else new (entriesOf elements) leafIdx

/-- A pair of words. -/
def readEntry : Reader (Word × Word) := do
  let key ← Word.readFrom
  let value ← Word.readFrom
  pure (key, value)

/-- The index and the entries that the bytes of a leaf list. -/
def readListed : Reader (Nat × List (Word × Word)) := do
  let numEntries ← readUsize
  let index ← readU64
  let entries ← readMany readEntry (Word.serializedSize + Word.serializedSize) numEntries
  pure (index, entries)

/-- `SmtLeaf::read_from`. -/
def readFrom : Reader SmtLeaf := do
  let listed ← readListed
  lift ((new listed.2 listed.1).mapErr (fun error => .invalidValue error.message))

/-- `SmtLeaf::write_into`. -/
def writeInto (leaf : SmtLeaf) : List UInt8 :=
  writeUsize leaf.numEntries ++
    (writeU64 leaf.index ++ leaf.entries.flatMap (fun entry => entry.1.writeInto ++ entry.2.writeInto))

end SmtLeaf

/-! ## Unique nodes -/

/-- `UniqueNodes`. -/
structure UniqueNodes (D : Type) where
  root : D
  nodes : OrderedMap NodeIndex D
  leaves : OrderedMap Nat SmtLeaf
  valueOnlyLeaves : OrderedMap Nat D

variable {D : Type}

/-- The text of the errors of `NodeIndex::new`. -/
def nodeIndexMessage : MerkleError D -> String
  | .depthTooBig depth => s!"provided merkle tree depth {depth} is too big"
  | .invalidNodeIndex depth position =>
    s!"node index position {position} is not valid for depth {depth}"
  | _ => ""

/-- `NodeIndex::new` in a reader. -/
def newIndex (D : Type) (depth position : Nat) : Outcome DeserializationError NodeIndex :=
  (NodeIndex.new depth position : Outcome (MerkleError D) NodeIndex).mapErr
    (fun error => .invalidValue (nodeIndexMessage error))

namespace UniqueNodes

variable (hasher : SmtHasher D) (readDigest : Reader D) (unique : UniqueNodes D)

/-- `UniqueNodes::get_leaf_hash`. -/
def getLeafHash (position : Nat) : D :=
  (((unique.leaves.get? position).map (SmtLeaf.hash hasher)).or
    (unique.valueOnlyLeaves.get? position)).getD ((SmtLeaf.empty position).hash hasher)

/-- `UniqueNodes::get_node_hash`. -/
def getNodeHash (index : NodeIndex) : D :=
  (unique.nodes.get? index).getD (EmptySubtreeRoots.entry hasher smtDepth index.depth)

/-- `UniqueNodes::validate`. -/
def validate : Outcome DeserializationError Unit :=
  .forEach unique.leaves.entries (fun entry =>
    .ensure (entry.1 = entry.2.index) (.invalidValue
      (s!"Node index {entry.1} did not match the embedded leaf index " ++ s!"{entry.2.index}")))

/-- A node of a level. -/
def readNode (depth : Nat) : Reader (NodeIndex × D) := do
  let position ← readU64
  let index ← lift (newIndex D depth position)
  let value ← readDigest
  pure (index, value)

/-- A level of nodes. -/
def readLevel : Reader (List (NodeIndex × D)) := do
  let depth ← readU8
  let nodeCount ← readU64
  (readNode readDigest depth.toNat).many nodeCount

/-- A leaf with its position. -/
def readLeaf : Reader (Nat × SmtLeaf) := do
  let position ← readU64
  let leaf ← SmtLeaf.readFrom
  pure (position, leaf)

/-- The hash of a leaf with its position. -/
def readValueOnlyLeaf : Reader (Nat × D) := do
  let position ← readU64
  let value ← readDigest
  pure (position, value)

/-- `UniqueNodes::read_from`: of what is listed twice, the last counts. -/
def readFrom : Reader (UniqueNodes D) := do
  let root ← readDigest
  let levelCount ← readU64
  let levels ← (readLevel readDigest).many levelCount
  let leafCount ← readU64
  let leaves ← readLeaf.many leafCount
  let valueOnlyLeafCount ← readU64
  let valueOnlyLeaves ← (readValueOnlyLeaf readDigest).many valueOnlyLeafCount
  let unique : UniqueNodes D :=
    ⟨root, OrderedMap.empty.insertAll levels.flatten, OrderedMap.empty.insertAll leaves,
      OrderedMap.empty.insertAll valueOnlyLeaves⟩
  lift unique.validate
  pure unique

end UniqueNodes

/-! ## Rebuilding the tree -/

/-- Nodes whose parents are to be rebuilt, by depth. -/
abbrev ActiveNodes := OrderedMap Nat (OrderedMap NodeIndex Unit)

/-- Mark nodes of a depth. -/
def ActiveNodes.extend (active : ActiveNodes) (depth : Nat) (nodes : List NodeIndex) : ActiveNodes :=
  active.insert depth
    (((active.get? depth).getD .empty).insertAll (nodes.map (fun index => (index, ()))))

namespace PartialSmt

variable [DecidableEq D] (hasher : SmtHasher D) (unique : UniqueNodes D)

/-- The starting positions of `from_unique_nodes`. -/
def startingNodes : Outcome DeserializationError ActiveNodes := do
  let indices ← .collect
    (unique.leaves.entries.map Prod.fst ++ unique.valueOnlyLeaves.entries.map Prod.fst)
    (newIndex D smtDepth)
  pure ((indices ++ unique.nodes.entries.map Prod.fst).foldl
    (fun active index => active.extend index.depth [index]) .empty)

/-- The hash of a child while the level of its parent is rebuilt. -/
def childHash (tree : PartialSmt D) (child : NodeIndex) : D :=
  if child.depth = smtDepth then unique.getLeafHash hasher child.position
  else ((tree.innerNodes.get? child).map (InnerNode.hash hasher)).getD
    (unique.getNodeHash hasher child)

/-- Rebuild a node from its children. -/
def rebuildNode (tree : PartialSmt D) (parent : NodeIndex) : PartialSmt D :=
  tree.insertInnerNode hasher parent
    ⟨childHash hasher unique tree parent.leftChild, childHash hasher unique tree parent.rightChild⟩

/-- The layers of `from_unique_nodes`, from a depth of children up. -/
def rebuildLayers (unique : UniqueNodes D) : Nat -> ActiveNodes -> PartialSmt D -> PartialSmt D
  | 0, _, tree => tree
  | depth + 1, active, tree =>
    match active.get? (depth + 1) with
    | none => rebuildLayers unique depth active tree
    | some activeNodes =>
      let parents : OrderedMap NodeIndex Unit := OrderedMap.empty.insertAll
        (activeNodes.entries.map (fun entry => (entry.1.moveUp, ())))
      let indices := parents.entries.map Prod.fst
      let active := active.erase (depth + 1)
      rebuildLayers unique depth (if 1 < depth + 1 then ActiveNodes.extend active depth indices else active)
        (indices.foldl (rebuildNode hasher unique) tree)

/-- `PartialSmt::validate`. -/
def validate (tree : PartialSmt D) : Outcome DeserializationError Unit := do
  .forEach tree.innerNodes.entries (fun entry =>
    .ensure (entry.2.hash hasher = tree.getNodeHash hasher entry.1)
      (.invalidValue "inner node hash is inconsistent with parent"))
  .forEach tree.leaves.entries (fun entry =>
    .ensure (entry.2.hash hasher = tree.getNodeHash hasher ⟨smtDepth, entry.1⟩)
      (.invalidValue "leaf hash is inconsistent with parent inner node"))

/-- The leaves of the input are stored as they are. -/
def withLeaves (tree : PartialSmt D) : PartialSmt D :=
  { tree with
    numEntries := unique.leaves.entries.foldl (fun count entry => count + entry.2.numEntries)
      tree.numEntries
    leaves := tree.leaves.insertAll unique.leaves.entries }

/-- `PartialSmt::from_unique_nodes`. -/
def fromUniqueNodes : Outcome DeserializationError (PartialSmt D) := do
  unique.validate
  let active ← startingNodes unique
  let tree := withLeaves unique (rebuildLayers hasher unique smtDepth active (new unique.root))
  tree.validate hasher
  pure tree

/-- `PartialSmt::read_from`: the error is wrapped with its text. -/
def readFrom (readDigest : Reader D) : Reader (PartialSmt D) := do
  let uniqueRep ← UniqueNodes.readFrom readDigest
  lift ((fromUniqueNodes hasher uniqueRep).mapErr (fun error => .invalidValue error.message))

end PartialSmt

end MidenVm.Crypto
