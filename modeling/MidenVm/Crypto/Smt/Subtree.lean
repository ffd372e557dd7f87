import MidenVm.Crypto.Smt.Tree

namespace MidenVm.Crypto

open Foundation

/-!
# Subtrees of eight levels

Bulk operations compute a tree eight levels at a time.  The nodes of a level
that matter are kept as a list ordered by column, cut into the subtrees they
belong to, and each subtree is combined level by level up to its root.  The
roots are the list for the next eight levels.
-/

variable {D : Type}

/-- `SubtreeLeaf`. -/
structure SubtreeLeaf (D : Type) where
  col : Nat
  hash : D

/-- `SUBTREE_DEPTH`. -/
def subtreeDepth : Nat := 8

/-- `COLS_PER_SUBTREE`. -/
def colsPerSubtree : Nat := 2 ^ subtreeDepth

/-! ## Cutting a level into subtrees -/

/-- `u64::next_multiple_of`. -/
def nextMultipleOf (value factor : Nat) : Nat := (value + factor - 1) / factor * factor

/-- The first column after the subtree of a column. -/
def nextSubtreeCol (lastSubtreeCol : Nat) : Nat :=
  let lastSubtreeCol := max 1 lastSubtreeCol
  if lastSubtreeCol % colsPerSubtree = 0 then nextMultipleOf (lastSubtreeCol + 1) colsPerSubtree
  else nextMultipleOf lastSubtreeCol colsPerSubtree

namespace SubtreeLeavesIter

/-- The loop of `SubtreeLeavesIter::next`: one subtree and the leaves after it. -/
def takeSubtree : Nat -> List (SubtreeLeaf D) -> List (SubtreeLeaf D) ->
    List (SubtreeLeaf D) × List (SubtreeLeaf D)
  | _, subtree, [] => (subtree, [])
  | lastSubtreeCol, subtree, leaf :: rest =>
    if leaf.col < nextSubtreeCol lastSubtreeCol then takeSubtree leaf.col (subtree ++ [leaf]) rest
    else if !subtree.isEmpty then (subtree, leaf :: rest)
    -- The loop meets the leaf again, now with its own column as the last one, and takes it.
    else takeSubtree leaf.col [leaf] rest

/-- The subtrees that the iterator yields, at most as many as its fuel. -/
def yield : Nat -> List (SubtreeLeaf D) -> List (List (SubtreeLeaf D))
  | 0, _ => []
  | fuel + 1, leaves =>
    match takeSubtree 0 [] leaves with
    | ([], _) => []
    | (first :: others, rest) => (first :: others) :: yield fuel rest

/-- `SubtreeLeavesIter::from_leaves(..).collect()`.  Every subtree has a leaf. -/
def collect (leaves : List (SubtreeLeaf D)) : List (List (SubtreeLeaf D)) :=
  yield leaves.length leaves

end SubtreeLeavesIter

/-! ## Combining a level -/

/-- The inner node over a leaf and its sibling, which is the next leaf or is
taken from the parent, with the column of the parent.  This is
`fetch_sibling_pair`, and with empty parents the loop of `build_subtree`. -/
def siblingPairs (parentNode : Nat -> InnerNode D) : List (SubtreeLeaf D) ->
    List (Nat × InnerNode D)
  | [] => []
  | [first] =>
    let parent := parentNode (first.col / 2)
    if first.col % 2 = 1 then [(first.col / 2, ⟨parent.left, first.hash⟩)]
    else [(first.col / 2, ⟨first.hash, parent.right⟩)]
  | first :: second :: rest =>
    let parent := parentNode (first.col / 2)
    if first.col % 2 = 1 then
      (first.col / 2, ⟨parent.left, first.hash⟩) :: siblingPairs parentNode (second :: rest)
    else if second.col = first.col + 1 then
      (first.col / 2, ⟨first.hash, second.hash⟩) :: siblingPairs parentNode rest
    else (first.col / 2, ⟨first.hash, parent.right⟩) :: siblingPairs parentNode (second :: rest)

variable [DecidableEq D] (hasher : SmtHasher D)

/-- The loop of `build_subtree` over a number of depths, from a depth up: the
inner nodes so far and the leaves of the last level. -/
def buildLevels : Nat -> Nat -> OrderedMap NodeIndex (InnerNode D) -> List (SubtreeLeaf D) ->
    OrderedMap NodeIndex (InnerNode D) × List (SubtreeLeaf D)
  | 0, _, innerNodes, leaves => (innerNodes, leaves)
  | levels + 1, currentDepth, innerNodes, leaves =>
    let nextDepth := currentDepth - 1
    let empty := EmptySubtreeRoots.getInnerNode hasher smtDepth nextDepth
    let combined := (siblingPairs (fun _ => empty) leaves).filter (fun entry =>
      entry.2.hash hasher ≠ EmptySubtreeRoots.entry hasher smtDepth nextDepth)
    buildLevels levels nextDepth
      (innerNodes.insertAll (combined.map (fun entry => (⟨nextDepth, entry.1⟩, entry.2))))
      (combined.map (fun entry => ⟨entry.1, entry.2.hash hasher⟩))

/-- `build_subtree`, in a tree of the full depth. -/
def buildSubtree {ε : Type} (bottomDepth : Nat) (leaves : List (SubtreeLeaf D)) :
    Outcome ε (OrderedMap NodeIndex (InnerNode D) × SubtreeLeaf D) := do
  let built := buildLevels hasher subtreeDepth bottomDepth .empty leaves
  let root ← .expect built.2.getLast?
  pure (built.1, root)

/-! ## Grouping pairs into leaves -/

section Pairs

variable {σ ε : Type}

/-- The loop of `process_sorted_pairs_to_leaves`: the leaves by column.  The
callback may keep a state of its own. -/
def processPairs (processLeaf : List (Word × Word) -> σ -> Outcome ε (Option SmtLeaf × σ)) :
    List (Word × Word) -> List (Word × Word) -> OrderedMap Nat SmtLeaf -> σ ->
    Outcome ε (OrderedMap Nat SmtLeaf × σ)
  | _, [], nodes, state => .ok (nodes, state)
  | currentLeafBuffer, pair :: rest, nodes, state =>
    let col := leafIndex pair.1
    let buffer := currentLeafBuffer ++ [pair]
    if rest.head?.map (fun next => leafIndex next.1) = some col then
      processPairs processLeaf buffer rest nodes state
    else do
      let processed ← processLeaf buffer state
      match processed.1 with
      | some leaf => processPairs processLeaf [] rest (nodes.insert col leaf) processed.2
      | none => processPairs processLeaf [] rest nodes processed.2

end Pairs

/-- The hashes of leaves, ordered by column. -/
def hashedLeaves (nodes : OrderedMap Nat SmtLeaf) : List (SubtreeLeaf D) :=
  nodes.entries.map (fun entry => ⟨entry.1, entry.2.hash hasher⟩)

end MidenVm.Crypto
