import MidenVm.Crypto.Mmr.Full
import MidenVm.Crypto.Mmr.InOrder
import MidenVm.Foundation.Effect

namespace MidenVm.Crypto.Mmr

open Foundation

/-!
# The partial mountain range

A partial range keeps the peaks of a forest, a set of tracked leaves, and the
nodes that their openings need.  The map of nodes is the function from indices
to stored words.  Assertions of debug builds are part of the operations.
-/

/-- `NodeMap`. -/
def NodeMap (D : Type) : Type := InOrderIndex -> Option D

namespace NodeMap

variable {D : Type}

def empty : NodeMap D := fun _ => none

/-- `BTreeMap::insert`. -/
def insert (nodes : NodeMap D) (index : InOrderIndex) (value : D) : NodeMap D :=
  fun other => if other = index then some value else nodes other

/-- `BTreeMap::remove`. -/
def remove (nodes : NodeMap D) (index : InOrderIndex) : NodeMap D :=
  fun other => if other = index then none else nodes other

/-- `BTreeMap::contains_key`. -/
def containsKey (nodes : NodeMap D) (index : InOrderIndex) : Bool := (nodes index).isSome

end NodeMap

/-- `PartialMmr`. -/
structure PartialMmr (D : Type) where
  forest : Forest
  peaks : List D
  nodes : NodeMap D
  trackedLeaves : Finset Nat

namespace PartialMmr

variable {D : Type}

/-- `PartialMmr::from_peaks`. -/
def fromPeaks (peaks : MmrPeaks D) : PartialMmr D := ⟨peaks.forest, peaks.peaks, .empty, ∅⟩

/-- `PartialMmr::is_tracked_node`. -/
def isTrackedNode (nodes : NodeMap D) (trackedLeaves : Finset Nat) (index : InOrderIndex) : Bool :=
  match index.toLeafPos with
  | some leafPos => decide (leafPos ∈ trackedLeaves)
  | none => nodes.containsKey index.leftChild || nodes.containsKey index.rightChild

/-! ## Openings -/

/-- The loop of `open`. -/
def openSiblings (nodes : NodeMap D) (pos : Nat) :
    Nat -> InOrderIndex -> Outcome (MmrError D) (List D)
  | 0, _ => .ok []
  | depth + 1, index => do
      let node ← .okOr (nodes index.sibling)
        (.inconsistentPartialMmr s!"missing sibling for tracked leaf at position {pos}")
      let rest ← openSiblings nodes pos depth index.parent
      pure (node :: rest)

/-- `PartialMmr::open`. -/
def openLeaf (mmr : PartialMmr D) (pos : Nat) : Outcome (MmrError D) (Option (MmrProof D)) := do
  let treeBit ← .okOr (mmr.forest.leafToCorrespondingTree pos) (.positionNotFound pos)
  if pos ∉ mmr.trackedLeaves then pure none
  else do
    let leafIdx ← InOrderIndex.fromLeafPos pos
    let leaf ← .expect (mmr.nodes leafIdx)
    let nodes ← openSiblings mmr.nodes pos treeBit leafIdx
    let merklePath ← MerklePath.new nodes
    pure (some ⟨⟨mmr.forest, pos, merklePath⟩, leaf⟩)

/-! ## Adding a leaf -/

section Add

variable [DecidableEq D]

/-- Nodes stored by an operation, in the order of their insertion. -/
structure Stored (D : Type) where
  nodes : NodeMap D
  newNodes : List (InOrderIndex × D)

/-- An insertion of `add`: a node that is there already has the same value. -/
def Stored.insert (stored : Stored D) (index : InOrderIndex) (value : D) :
    Outcome (MmrError D) (Stored D) := do
  let old := stored.nodes index
  .require (old = none ∨ old = some value)
  let newNodes :=
    if old.isNone then stored.newNodes ++ [(index, value)] else stored.newNodes
  pure ⟨stored.nodes.insert index value, newNodes⟩

/-- An insertion for a side that is tracked. -/
def Stored.insertIf (stored : Stored D) (tracked : Bool) (index : InOrderIndex) (value : D) :
    Outcome (MmrError D) (Stored D) :=
  if tracked then stored.insert index value else .ok stored

/-- The variables of the loop of `add`. -/
structure AddState (D : Type) where
  peaks : List D
  stored : Stored D
  trackRight : Bool
  trackLeft : Bool
  right : D
  rightIdx : InOrderIndex

variable (merge : D -> D -> D) (trackedLeaves : Finset Nat)

/-- One merge of `add`. -/
def addMerge (state : AddState D) : Outcome (MmrError D) (AddState D) := do
  let left ← .expect state.peaks.getLast?
  let leftIdx := state.rightIdx.sibling
  let stored ← state.stored.insertIf state.trackRight leftIdx left
  let stored ← stored.insertIf state.trackLeft state.rightIdx state.right
  let rightIdx := state.rightIdx.parent
  pure {
    peaks := state.peaks.dropLast
    stored := stored
    trackRight := state.trackRight || state.trackLeft
    trackLeft := isTrackedNode stored.nodes trackedLeaves rightIdx.sibling
    right := merge left state.right
    rightIdx := rightIdx }

/-- The loop of `add`. -/
def addMerges : Nat -> AddState D -> Outcome (MmrError D) (AddState D)
  | 0, state => .ok state
  | count + 1, state => do
      let state ← addMerge merge trackedLeaves state
      addMerges count state

/-- `PartialMmr::add`. -/
def add (mmr : PartialMmr D) (leaf : D) (track : Bool) :
    Outcome (MmrError D) (PartialMmr D × List (InOrderIndex × D)) := do
  let forest ← mmr.forest.appendLeaf
  let numMerges := forest.smallestTreeHeightUnchecked
  let leafPos := forest.numLeaves - 1
  let leafIdx ← InOrderIndex.fromLeafPos leafPos
  let trackedLeaves := if track then insert leafPos mmr.trackedLeaves else mmr.trackedLeaves
  let stored : Stored D :=
    if track then ⟨mmr.nodes.insert leafIdx leaf, [(leafIdx, leaf)]⟩ else ⟨mmr.nodes, []⟩
  if numMerges = 0 then pure (⟨forest, mmr.peaks ++ [leaf], stored.nodes, trackedLeaves⟩,
    stored.newNodes)
  else do
    let prevLastPos := forest.numLeaves - 2
    let trackLeft := decide (prevLastPos ∈ trackedLeaves)
    let rightIdx ← forest.rightmostInOrderIndexUnchecked
    let state ← addMerges merge trackedLeaves numMerges
      ⟨mmr.peaks, stored, track, trackLeft, leaf, rightIdx⟩
    pure (⟨forest, state.peaks ++ [state.right], state.stored.nodes, trackedLeaves⟩,
      state.stored.newNodes)

end Add

/-! ## Tracking and untracking -/

/-- The loop of `track`. -/
def storePath : NodeMap D -> InOrderIndex -> List D -> NodeMap D
  | nodes, _, [] => nodes
  | nodes, index, node :: rest => storePath (nodes.insert index.sibling node) index.parent rest

/-- The checks of `track`: there is a tree of the depth of the path, and the
path leads to its peak. -/
def checkPath [DecidableEq D] (merge : D -> D -> D) (mmr : PartialMmr D) (leafPos : Nat) (leaf : D)
    (path : MerklePath D) : Outcome (MmrError D) Unit := do
  let pathDepth := path.depth
  let treeLeaves ←
    .okOr (if pathDepth < usizeBits then some (1 <<< pathDepth) else none) (.unknownPeak pathDepth)
  let tree ← .okOr (Forest.new treeLeaves) (.unknownPeak pathDepth)
  .ensure ((tree.and mmr.forest).isEmpty = false) (.unknownPeak pathDepth)
  let targetForest := mmr.forest.xor (mmr.forest.and tree.allSmallerTreesUnchecked)
  let peakPos := targetForest.numTrees - 1
  let before := (targetForest.xor tree).numLeaves
  .require (before ≤ leafPos)
  let pathIdx := leafPos - before
  let computed ← (path.computeRoot merge pathIdx leaf).mapErr .merkleRootComputationFailed
  let peak ← .expect mmr.peaks[peakPos]?
  .ensure (peak = computed) .peakPathMismatch

/-- `PartialMmr::track`. -/
def track [DecidableEq D] (merge : D -> D -> D) (leafPos : Nat) (leaf : D) (path : MerklePath D) :
    Effect (PartialMmr D) (MmrError D) Unit := do
  Effect.check (fun mmr => mmr.checkPath merge leafPos leaf path)
  Effect.update (fun mmr => { mmr with trackedLeaves := insert leafPos mmr.trackedLeaves })
  let leafIdx ← .check (fun _ => InOrderIndex.fromLeafPos leafPos)
  Effect.update (fun mmr =>
    { mmr with nodes := storePath (mmr.nodes.insert leafIdx leaf) leafIdx path.nodes })

/-- The loop of `untrack`. -/
def pruneFrom (trackedLeaves : Finset Nat) (treeStart relPos : Nat) :
    Nat -> InOrderIndex -> NodeMap D -> List (InOrderIndex × D) ->
      Outcome (MmrError D) (NodeMap D × List (InOrderIndex × D))
  | 0, _, _, _ => .panic
  | fuel + 1, index, nodes, removed =>
    let level := index.level
    let subtreeSize := 1 <<< level
    let subtreeStartRel := (relPos >>> level) <<< level
    let subtreeStart := treeStart + subtreeStartRel
    let subtreeEnd := subtreeStart + subtreeSize
    if (trackedLeaves.filter (fun pos => subtreeStart ≤ pos ∧ pos < subtreeEnd)).Nonempty then
      .ok (nodes, removed)
    else
      let siblingIdx := index.sibling
      match nodes siblingIdx with
      | none => .ok (nodes, removed)
      | some word =>
        let nodes := nodes.remove siblingIdx
        let removed := removed ++ [(siblingIdx, word)]
        if nodes.containsKey index then .ok (nodes, removed)
        else pruneFrom trackedLeaves treeStart relPos fuel index.parent nodes removed

/-- `PartialMmr::untrack`. -/
def untrack (mmr : PartialMmr D) (leafPos : Nat) :
    Outcome (MmrError D) (PartialMmr D × List (InOrderIndex × D)) := do
  let trackedLeaves := mmr.trackedLeaves.erase leafPos
  let mmr := { mmr with trackedLeaves := trackedLeaves }
  let index ← InOrderIndex.fromLeafPos leafPos
  let siblingPos ← .expect index.sibling.toLeafPos
  if siblingPos ∈ trackedLeaves then pure (mmr, [])
  else
    match mmr.forest.leafRelativePosition leafPos with
    | none => pure (mmr, [])
    | some relPos => do
        let treeStart := leafPos - relPos
        let removed := ((mmr.nodes index).map (fun word => (index, word))).toList
        let (nodes, removed) ← pruneFrom trackedLeaves treeStart relPos usizeBits index
          (mmr.nodes.remove index) removed
        pure ({ mmr with nodes := nodes }, removed)

/-! ## Applying an update -/

section Apply

variable (merge : D -> D -> D) (trackedLeaves : Finset Nat)

/-- The variables of the loop of `apply`. -/
structure ApplyState (D : Type) where
  nodes : NodeMap D
  insertedNodes : List (InOrderIndex × D)
  peakIdx : InOrderIndex
  track : Bool
  peakCount : Nat
  updateCount : Nat
  target : Forest
  new : D

/-- An insertion of `apply` behind a test. -/
def ApplyState.insertIf (state : ApplyState D) (test : Bool) (index : InOrderIndex) (value : D) :
    ApplyState D :=
  if test then
    { state with
      nodes := state.nodes.insert index value
      insertedNodes := state.insertedNodes ++ [(index, value)] }
  else state

/-- The children of a merge of `apply`: a peak and the node under way, or the
node under way and its sibling from the update. -/
def mergeChildren (peaks data : List D) (treesToMerge : Forest) (state : ApplyState D) :
    Outcome (MmrError D) (ApplyState D × D × D) :=
  if (state.target.and treesToMerge).isEmpty = false then do
    let peak ← .expect peaks[state.peakCount]?
    let siblingIdx := state.peakIdx.sibling
    let after := state.insertIf (isTrackedNode state.nodes trackedLeaves siblingIdx)
      state.peakIdx state.new
    pure ({ after with peakCount := state.peakCount + 1 }, peak, state.new)
  else do
    let update ← .expect data[state.updateCount]?
    pure ({ state with updateCount := state.updateCount + 1 }, state.new, update)

/-- One merge of `apply`, with the peaks from the smallest one on. -/
def applyMerge (peaks data : List D) (treesToMerge : Forest) (state : ApplyState D) :
    Outcome (MmrError D) (ApplyState D) := do
  let track := state.track || isTrackedNode state.nodes trackedLeaves state.peakIdx
  let (state, left, right) ← mergeChildren trackedLeaves peaks data treesToMerge
    { state with track := track }
  let siblingIdx := state.peakIdx.sibling
  let state := state.insertIf track siblingIdx (if state.peakIdx.isLeftChild then right else left)
  let target ← state.target.nextLargerTree
  pure { state with peakIdx := state.peakIdx.parent, new := merge left right, target := target }

/-- The loop of `apply`. -/
def applyMerges (peaks data : List D) (treesToMerge largest : Forest) :
    Nat -> ApplyState D -> Outcome (MmrError D) (ApplyState D)
  | 0, _ => .panic
  | fuel + 1, state =>
    if state.target.numLeaves < largest.numLeaves then do
      let state ← applyMerge merge trackedLeaves peaks data treesToMerge state
      applyMerges peaks data treesToMerge largest fuel state
    else .ok state

/-- The number of siblings that an update brings, and the trees it adds. -/
def updateShape (treesToMerge largest forest : Forest) (changes : Nat) :
    Outcome (MmrError D) (Nat × Forest) :=
  if treesToMerge.isEmpty = false then
    let depth := largest.smallestTreeHeightUnchecked
    let skipped := treesToMerge.smallestTreeHeightUnchecked
    let computed := treesToMerge.numTrees - 1
    let mergeCount := depth - skipped - computed
    let newPeaks := forest.and largest.allSmallerTreesUnchecked
    .ok (mergeCount, newPeaks)
  else do
    let newPeaks ← .expect (Forest.new changes)
    pure (0, newPeaks)

/-- The part of `apply` that merges trees: the peaks and the nodes after it,
and how much of the update it used. -/
def mergePeaks (mmr : PartialMmr D) (data : List D) (treesToMerge largest : Forest) :
    Outcome (MmrError D) (List D × ApplyState D) := do
  let peakIdx ← mmr.forest.rootInOrderIndexUnchecked
  let target ← treesToMerge.smallestTreeUnchecked
  let new ← .expect data[0]?
  let state ← applyMerges merge trackedLeaves mmr.peaks.reverse data treesToMerge largest usizeBits
    ⟨mmr.nodes, [], peakIdx, false, 0, 1, target, new⟩
  .require (state.peakCount = treesToMerge.numTrees)
  pure (mmr.peaks.take (mmr.peaks.length - state.peakCount) ++ [state.new], state)

/-- `PartialMmr::apply`. -/
def apply (mmr : PartialMmr D) (delta : MmrDelta D) :
    Outcome (MmrError D) (PartialMmr D × List (InOrderIndex × D)) :=
  if delta.forest.numLeaves < mmr.forest.numLeaves then
    .err (.invalidPeaks s!"forest of mmr delta {delta.forest.numLeaves} is less than current forest {mmr.forest.numLeaves}")
  else if delta.forest = mmr.forest then
    if delta.data.isEmpty = false then .err .invalidUpdate else .ok (mmr, [])
  else do
    let changes := mmr.forest.numLeaves ^^^ delta.forest.numLeaves
    let largest ← largestTreeFromMask changes
    let treesToMerge := mmr.forest.and largest.allSmallerTreesUnchecked
    let (mergeCount, newPeaks) ← updateShape treesToMerge largest delta.forest changes
    .ensure (delta.data.length = mergeCount + newPeaks.numTrees) .invalidUpdate
    let (peaks, nodes, insertedNodes, updateCount) ←
      if treesToMerge.isEmpty = false then do
        let (peaks, state) ← mergePeaks merge mmr.trackedLeaves mmr delta.data treesToMerge largest
        pure (peaks, state.nodes, state.insertedNodes, state.updateCount)
      else pure (mmr.peaks, mmr.nodes, [], 0)
    let peaks := peaks ++ delta.data.drop updateCount
    .require (peaks.length = delta.forest.numTrees)
    pure (⟨delta.forest, peaks, nodes, mmr.trackedLeaves⟩, insertedNodes)

end Apply

end PartialMmr

end MidenVm.Crypto.Mmr
