import MidenVm.Crypto.Mmr.Forest

namespace MidenVm.Crypto.Mmr

open Foundation

/-!
# The full mountain range

All nodes of all trees stand in one array, each tree in post order and the
trees one after the other, so an append only ever adds to the array.  Openings
and peaks of an earlier state are read from the array of a later one.
-/

variable {D : Type}

/-- `MmrPath`. -/
structure MmrPath (D : Type) where
  forest : Forest
  position : Nat
  merklePath : MerklePath D

/-- `MmrProof`. -/
structure MmrProof (D : Type) where
  path : MmrPath D
  leaf : D

namespace MmrPath

variable (path : MmrPath D)

/-- `MmrPath::relative_pos`. -/
def relativePos : Outcome (MmrError D) Nat :=
  .expect (path.forest.leafRelativePosition path.position)

/-- `MmrPath::peak_index`. -/
def peakIndex : Outcome (MmrError D) Nat := path.forest.treeIndex path.position

/-- `MmrPath::with_forest`. -/
def withForest (targetForest : Forest) : Outcome (MmrError D) (MmrPath D) :=
  if targetForest.numLeaves ≤ path.position then .err (.positionNotFound path.position)
  else if targetForest.numLeaves > path.forest.numLeaves then
    .err (.forestOutOfBounds targetForest.numLeaves path.forest.numLeaves)
  else do
    let targetPathLen ← .expect (targetForest.leafToCorrespondingTree path.position)
    let trimmedPath ← MerklePath.new (path.merklePath.nodes.take targetPathLen)
    pure ⟨targetForest, path.position, trimmedPath⟩

end MmrPath

/-- `MmrPeaks`. -/
structure MmrPeaks (D : Type) where
  forest : Forest
  peaks : List D

namespace MmrPeaks

/-- `MmrPeaks::new`. -/
def new (forest : Forest) (peaks : List D) : Outcome (MmrError D) (MmrPeaks D) :=
  if forest.numTrees ≠ peaks.length then
    .err (.invalidPeaks s!"number of one bits in leaves is {forest.numTrees} which does not equal peak length {peaks.length}")
  else .ok ⟨forest, peaks⟩

/-- `MmrPeaks::get_peak`. -/
def getPeak (peaks : MmrPeaks D) (peakIdx : Nat) : Outcome (MmrError D) D :=
  .okOr peaks.peaks[peakIdx]? (.peakOutOfBounds peakIdx peaks.peaks.length)

/-- `MmrPeaks::verify`. -/
def verify [DecidableEq D] (merge : D -> D -> D) (peaks : MmrPeaks D) (value : D)
    (opening : MmrProof D) : Outcome (MmrError D) Unit := do
  let peakIndex ← opening.path.peakIndex
  let root ← peaks.getPeak peakIndex
  let relativePos ← opening.path.relativePos
  (opening.path.merklePath.verify merge relativePos value root).mapErr .invalidMerklePath

end MmrPeaks

/-- `MmrDelta`. -/
structure MmrDelta (D : Type) where
  forest : Forest
  data : List D

/-- `Mmr`, with the chunks of the node store joined. -/
structure Full (D : Type) where
  forest : Forest
  nodes : List D

namespace Full

/-- `Mmr::new`. -/
def new : Full D := ⟨Forest.empty, []⟩

section Add

variable (merge : D -> D -> D)

/-- The loop of `add`.  A tree of the old forest stands to the left of the
tree just completed while its digit is one.  After 64 shifts the tree size is
zero. -/
def mergeTrees (oldLeaves : Nat) : Nat -> Nat -> D -> Nat -> List D -> Outcome (MmrError D) (List D)
  | 0, _, _, _, nodes => .ok nodes
  | fuel + 1, leftOffset, right, leftTree, nodes =>
    if oldLeaves &&& leftTree ≠ 0 then do
      let left ← .expect nodes[leftOffset]?
      let right := merge left right
      let leftNodes := leftTree * 2 - 1
      mergeTrees oldLeaves fuel (leftOffset - leftNodes) right (leftTree * 2 % 2 ^ usizeBits)
        (nodes ++ [right])
    else .ok nodes

/-- `Mmr::add`. -/
def add (mmr : Full D) (el : D) : Outcome (MmrError D) (Full D) := do
  let forest ← mmr.forest.appendLeaf
  let nodes := mmr.nodes ++ [el]
  let nodes ← mergeTrees merge mmr.forest.numLeaves usizeBits (nodes.length - 2) el 1 nodes
  pure ⟨forest, nodes⟩

/-- Leaves added one by one. -/
def addAll (mmr : Full D) (leaves : List D) : Outcome (MmrError D) (Full D) :=
  leaves.foldlM (fun mmr leaf => mmr.add merge leaf) mmr

end Add

/-- Read the roots of the trees: each one is the last node of its tree. -/
def rootsFrom (nodes : List D) : Nat -> List Forest -> Outcome (MmrError D) (List D)
  | _, [] => .ok []
  | offset, tree :: rest => do
      let offset := offset + tree.numNodes
      let root ← .expect nodes[offset - 1]?
      let others ← rootsFrom nodes offset rest
      pure (root :: others)

variable (mmr : Full D)

/-- `Mmr::peaks_at`. -/
def peaksAt (forest : Forest) : Outcome (MmrError D) (MmrPeaks D) :=
  if forest.numLeaves > mmr.forest.numLeaves then
    .err (.forestOutOfBounds forest.numLeaves mmr.forest.numLeaves)
  else do
    let peaks ← rootsFrom mmr.nodes 0 (forest.treesFromLargest usizeBits)
    MmrPeaks.new forest peaks

/-- The walk of `collect_merkle_path_and_value`, from the root of a tree to a
leaf, with the siblings passed so far, the last one first.  Heights stand for
the sizes of subtrees. -/
def walkDown (nodes : List D) (indexOffset relativePos : Nat) :
    Nat -> Nat -> List D -> Outcome (MmrError D) (D × List D)
  | 0, index, path => do
      let value ← .expect nodes[indexOffset + index]?
      pure (value, path)
  | height + 1, index, path => do
      let forestTarget := 2 ^ height
      let rightOffset ← .checkedSub index 1
      let subtreeNodes ← nodesFromMask forestTarget
      let leftOffset ← .checkedSub rightOffset subtreeNodes
      if relativePos &&& forestTarget ≠ 0 then do
        let sibling ← .expect nodes[indexOffset + leftOffset]?
        walkDown nodes indexOffset relativePos height rightOffset (sibling :: path)
      else do
        let sibling ← .expect nodes[indexOffset + rightOffset]?
        walkDown nodes indexOffset relativePos height leftOffset (sibling :: path)

/-- `Mmr::collect_merkle_path_and_value`. -/
def collectMerklePathAndValue (leafIdx : Nat) (forest : Forest) :
    Outcome (MmrError D) (D × List D) := do
  let treeBit ← .okOr (forest.leafToCorrespondingTree leafIdx) (.positionNotFound leafIdx)
  let forestBefore := forest.treesLargerThan treeBit
  let indexOffset := forestBefore.numNodes
  let relativePos ← .checkedSub leafIdx forestBefore.numLeaves
  let rootNodes ← nodesFromMask (1 <<< treeBit)
  let index ← .checkedSub rootNodes 1
  walkDown mmr.nodes indexOffset relativePos treeBit index []

/-- `Mmr::open_at`. -/
def openAt (pos : Nat) (forest : Forest) : Outcome (MmrError D) (MmrProof D) :=
  if forest.numLeaves > mmr.forest.numLeaves then
    .err (.forestOutOfBounds forest.numLeaves mmr.forest.numLeaves)
  else do
    let (leaf, path) ← mmr.collectMerklePathAndValue pos forest
    let merklePath ← MerklePath.new path
    pure ⟨⟨forest, pos, merklePath⟩, leaf⟩

/-- `Mmr::get`. -/
def get (pos : Nat) : Outcome (MmrError D) D := do
  let (value, _) ← mmr.collectMerklePathAndValue pos mmr.forest
  pure value

/-! ## Updates for a partial range -/

/-- The inner loop of `get_delta`: trees of the old forest merge without an
update. -/
def skipMerged (merges : Forest) : Nat -> Forest -> Outcome (MmrError D) Forest
  | 0, _ => .panic
  | fuel + 1, target =>
    if (merges.and target).isEmpty then .ok target
    else do
      let target ← target.nextLargerTree
      skipMerged merges fuel target

/-- The loop of `get_delta` that collects the siblings needed to merge trees. -/
def mergeSiblings (nodes : List D) (commonTrees newHigh : Forest) :
    Nat -> Forest -> Forest -> Outcome (MmrError D) (List D)
  | 0, _, _ => .panic
  | fuel + 1, target, merges =>
    if target.numLeaves < newHigh.numLeaves then do
      let known ← nodesFromMask (commonTrees.numLeaves ||| merges.numLeaves ||| target.numLeaves)
      let sibling := target.numNodes
      let value ← .expect nodes[known + sibling - 1]?
      let target ← target.nextLargerTree
      let target ← skipMerged merges usizeBits target
      let merges := merges.xor (merges.and target.allSmallerTreesUnchecked)
      let rest ← mergeSiblings nodes commonTrees newHigh fuel target merges
      pure (value :: rest)
    else .ok []

/-- The loop of `get_delta` that collects the new peaks. -/
def newPeakRoots (nodes : List D) : Nat -> Nat -> Forest -> Outcome (MmrError D) (List D)
  | 0, _, _ => .panic
  | fuel + 1, offset, newPeaks =>
    if newPeaks.isEmpty then .ok []
    else do
      let target := newPeaks.largestTree
      let offset := offset + target.numNodes
      let root ← .expect nodes[offset - 1]?
      let rest ← newPeakRoots nodes fuel offset (newPeaks.xor target)
      pure (root :: rest)

/-- The siblings that merge trees of the old forest into the new high tree.
Without such trees there is no new high tree. -/
def mergedTrees (merges commonTrees newHigh : Forest) :
    Outcome (MmrError D) (List D × Forest) :=
  if merges.isEmpty = false then do
    let target ← merges.smallestTreeUnchecked
    let siblings ← mergeSiblings mmr.nodes commonTrees newHigh usizeBits target merges
    pure (siblings, newHigh)
  else .ok ([], Forest.empty)

/-- `Mmr::get_delta`. -/
def getDelta (fromForest toForest : Forest) : Outcome (MmrError D) (MmrDelta D) :=
  if toForest.numLeaves > mmr.forest.numLeaves then
    .err (.forestOutOfBounds toForest.numLeaves mmr.forest.numLeaves)
  else if fromForest.numLeaves > toForest.numLeaves then
    .err (.forestOutOfBounds fromForest.numLeaves toForest.numLeaves)
  else if fromForest = toForest then .ok ⟨toForest, []⟩
  else do
    let candidateMask := toForest.numLeaves ^^^ fromForest.numLeaves
    let newHigh ← largestTreeFromMask candidateMask
    let merges := fromForest.and newHigh.allSmallerTreesUnchecked
    let commonTrees := fromForest.xor merges
    let (siblings, newHigh) ← mmr.mergedTrees merges commonTrees newHigh
    let newPeaks := (toForest.xor commonTrees).xor newHigh
    let oldPeaks := toForest.xor newPeaks
    let roots ← newPeakRoots mmr.nodes usizeBits oldPeaks.numNodes newPeaks
    pure ⟨toForest, siblings ++ roots⟩

end Full

end MidenVm.Crypto.Mmr
