import MidenVm.Crypto.Smt.Subtree

namespace MidenVm.Crypto

open Foundation

/-!
# Building a tree from entries

`with_entries_sequential` inserts the entries one by one.
`with_entries_concurrent` sorts them by leaf, builds each leaf from its entries
and then the nodes above in bulk.  Sorting, mapping and collecting are those of
the sequential library; the sort is not stable, so entries of one leaf come in
any order.
-/

/-- A sort by leaf, in any order within a leaf. -/
structure ColumnSort where
  sort : List (Word × Word) -> List (Word × Word)
  perm : forall entries, (sort entries).Perm entries
  ordered : forall entries, (sort entries).Pairwise (fun left right => leafIndex left.1 ≤ leafIndex right.1)

/-- `check_for_duplicate_keys`. -/
def checkForDuplicateKeys {D : Type} : List (Word × Word) -> Outcome (MerkleError D) Unit
  | first :: second :: rest =>
    if first.1 = second.1 then .err (.duplicateValuesForIndex (leafIndex first.1))
    else checkForDuplicateKeys (second :: rest)
  | _ => .ok ()

/-- `pairs_to_leaf`. -/
def pairsToLeaf {D : Type} (pairs : List (Word × Word)) : Outcome (MerkleError D) (Option SmtLeaf) :=
  match pairs with
  | [] => .panic
  | [(key, value)] => if value = Word.zero then .ok none else .ok (some (.single key value))
  | first :: second :: rest => do
      let pairs := SmtLeaf.sortByKey (first :: second :: rest)
      checkForDuplicateKeys pairs
      let leaf ← (SmtLeaf.newMultiple pairs).unwrap
      pure (some leaf)

namespace Smt

variable {D : Type} [DecidableEq D] (hasher : SmtHasher D)

/-- The rounds of eight levels of `build_subtrees_from_sorted_entries`, from the
bottom up. -/
def buildRounds {ε : Type} : Nat -> List (List (SubtreeLeaf D)) ->
    OrderedMap NodeIndex (InnerNode D) -> Outcome ε (OrderedMap NodeIndex (InnerNode D))
  | 0, _, accumulatedNodes => .ok accumulatedNodes
  | round + 1, leafSubtrees, accumulatedNodes => do
      let built ← .collect leafSubtrees (buildSubtree hasher (subtreeDepth * (round + 1)))
      buildRounds round (SubtreeLeavesIter.collect (built.map Prod.snd))
        (built.foldl (fun nodes subtree => nodes.insertAll subtree.1.entries) accumulatedNodes)

/-- `build_subtrees_from_sorted_entries`: the inner nodes and the leaves. -/
def buildSubtreesFromSortedEntries (entries : List (Word × Word)) :
    Outcome (MerkleError D) (OrderedMap NodeIndex (InnerNode D) × OrderedMap Nat SmtLeaf) := do
  let (initialLeaves, _) ← processPairs
    (fun pairs state => (fun leaf => (leaf, state)) <$> pairsToLeaf pairs) [] entries .empty ()
  if initialLeaves.entries = [] then pure (.empty, initialLeaves)
  else do
    let accumulatedNodes ← buildRounds hasher (smtDepth / subtreeDepth)
      (SubtreeLeavesIter.collect (hashedLeaves hasher initialLeaves)) .empty
    pure (accumulatedNodes, initialLeaves)

/-- `Smt::from_raw_parts`. -/
def fromRawParts (innerNodes : OrderedMap NodeIndex (InnerNode D))
    (leaves : OrderedMap Nat SmtLeaf) (root : D) : Smt D :=
  ⟨root, (leaves.entries.map (fun entry => entry.2.numEntries)).sum, leaves, innerNodes⟩

/-- `Smt::with_entries_concurrent`. -/
def withEntriesConcurrent (sort : ColumnSort) (entries : List (Word × Word)) :
    Outcome (MerkleError D) (Smt D) :=
  if entries = [] then .ok (new hasher)
  else do
    let (innerNodes, leaves) ← buildSubtreesFromSortedEntries hasher (sort.sort entries)
    if innerNodes.entries = [] then pure (new hasher)
    else do
      let rootNode ← .expect (innerNodes.get? .root)
      pure (fromRawParts innerNodes leaves (rootNode.hash hasher))

/-- `Smt::with_entries_sequential`, from a tree and the keys that were set to
the empty value so far. -/
def insertEntries : List (Word × Word) -> List Word -> Smt D -> Outcome (MerkleError D) (Smt D)
  | [], _, tree => .ok tree
  | (key, value) :: rest, keySetToZero, tree => do
      let (oldValue, tree) ←
        match Smt.insert hasher key value tree with
        | (.ok oldValue, tree) => .ok (oldValue, tree)
        | (.err error, _) => .err error
        | (.panic, _) => .panic
      if oldValue ≠ Word.zero ∨
        key ∈ keySetToZero then .err (.duplicateValuesForIndex (leafIndex key))
      else
        insertEntries rest (if value = Word.zero then key :: keySetToZero else keySetToZero) tree

/-- `Smt::with_entries_sequential`. -/
def withEntriesSequential (entries : List (Word × Word)) : Outcome (MerkleError D) (Smt D) :=
  insertEntries hasher entries [] (new hasher)

end Smt

end MidenVm.Crypto
