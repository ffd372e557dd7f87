import MidenVm.Crypto.Smt.Content

namespace MidenVm.Crypto

open Foundation Outcome EmptySubtreeRoots OrderedMap SmtLeaf SmtMap Option
open Foundation.Mountain
open Foundation.SparseTree

/-!
# The tree of a map

`Smt.Represents` ties a tree to the map it stands for.  Each write restores it:
the leaf of the key is that of the new map, and the recomputation of the nodes
above replaces, level by level, the nodes of the old map by those of the new
one.  The loop invariant is that the levels below are those of the new map and
the levels above still those of the old.
-/

variable {D : Type} {height depth : Nat}

/-! ## Stored nodes of a tree of leaf hashes -/

section Stored

variable (hasher : SmtHasher D)
variable {leaf : Nat -> D}

/-- The two nodes of a height below a node. -/
def childrenOf (leaf : Nat -> D) (height position : Nat) : InnerNode D :=
  ⟨node hasher.merge leaf height (2 * position), node hasher.merge leaf height (2 * position + 1)⟩

theorem hash_childrenOf (leaf : Nat -> D) (height position : Nat) :
    (childrenOf hasher leaf height position).hash hasher =
      node hasher.merge leaf (height + 1) position := rfl

/-- The root of an empty tree of a height. -/
def emptyOf (height : Nat) : D := emptyRoot hasher.merge hasher.emptyWord height

theorem entry_eq (level : depth + height = smtDepth) :
    entry hasher smtDepth depth = emptyOf hasher height := by
  rw [entry, ← level, Nat.add_sub_cancel_left]
  rfl

theorem getInnerNode_eq (level : depth + (height + 1) = smtDepth) :
    getInnerNode hasher smtDepth depth = ⟨emptyOf hasher height, emptyOf hasher height⟩ := by
  rw [getInnerNode, entry_eq hasher (show depth + 1 + height = smtDepth by omega)]

variable [DecidableEq D]

/-- The inner node stored at an index: the children of a node that is not
empty. -/
def innerNodeOf (leaf : Nat -> D) (index : NodeIndex) : Option (InnerNode D) :=
  if index.depth < smtDepth ∧
      node hasher.merge leaf (smtDepth - index.depth) index.position ≠
        emptyOf hasher (smtDepth - index.depth) then
    some (childrenOf hasher leaf (smtDepth - index.depth - 1) index.position)
  else none

theorem innerNodeOf_eq {position : Nat} (level : depth + (height + 1) = smtDepth) :
    innerNodeOf hasher leaf ⟨depth, position⟩ =
      if node hasher.merge leaf (height + 1) position = emptyOf hasher (height + 1) then none
      else some (childrenOf hasher leaf height position) := by
  have inside : depth < smtDepth := by omega
  have above : smtDepth - depth = height + 1 := by omega
  rw [innerNodeOf, above, Nat.add_sub_cancel]
  by_cases empty : node hasher.merge leaf (height + 1) position = emptyOf hasher (height + 1)
  · rw [if_pos empty, if_neg (fun both => both.2 empty)]
  · rw [if_neg empty, if_pos ⟨inside, empty⟩]

theorem innerNodeOf_of_ge {index : NodeIndex} (deep : smtDepth ≤ index.depth) :
    innerNodeOf hasher leaf index = none :=
  if_neg (fun both => absurd both.1 (not_lt.mpr deep))

/-- Leaves are below every inner node. -/
theorem innerNodeOf_ite (new : Nat -> D) (index : NodeIndex) :
    innerNodeOf hasher (if smtDepth ≤ index.depth then new else leaf) index =
      innerNodeOf hasher leaf index := by
  split
  · next deep => rw [innerNodeOf_of_ge hasher deep, innerNodeOf_of_ge hasher deep]
  · rfl

/-- A change of one leaf does not reach the nodes beside its path. -/
theorem innerNodeOf_update_apart {place position : Nat} (value : D)
    (level : depth + (height + 1) = smtDepth) (apart : place / 2 ^ (height + 1) ≠ position) :
    innerNodeOf hasher (Function.update leaf place value) ⟨depth, position⟩ =
      innerNodeOf hasher leaf ⟨depth, position⟩ := by
  have child {below : Nat} (of : below / 2 = position) : place / 2 ^ height ≠ below := by
    intro same
    rw [div_two_pow_succ, same] at apart
    exact apart of
  rw [innerNodeOf_eq hasher level, innerNodeOf_eq hasher level, childrenOf, childrenOf,
    node_update_apart _ _ apart, node_update_apart _ _ (child (by omega)),
    node_update_apart _ _ (child (by omega))]

variable {hasher} (free : hasher.EmptyFree)
include free

/-- Reading a node that is not stored as empty gives the children all the
same. -/
theorem innerNodeOf_getD {position : Nat} (level : depth + (height + 1) = smtDepth) :
    (innerNodeOf hasher leaf ⟨depth, position⟩).getD
        (getInnerNode hasher smtDepth depth) =
      childrenOf hasher leaf height position := by
  rw [innerNodeOf_eq hasher level]
  split
  · rename_i empty
    rcases free.node _ _ _ empty with ⟨left, right⟩
    rw [getD_none, getInnerNode_eq hasher level, childrenOf, left, right]
    rfl
  · rfl

end Stored

namespace Smt

variable [DecidableEq D] {hasher : SmtHasher D}

/-! ## Recomputing the nodes above a leaf -/

variable {place : Nat} {value key : Word} {tree : Smt D} {leaf new : Nat -> D}

/-- Storing the children of a node, or removing it when it is empty. -/
theorem get?_storeNode (hasher : SmtHasher D) (leaf : Nat -> D) (position : Nat) (tree : Smt D)
    (level : depth + (height + 1) = smtDepth) (index : NodeIndex) :
    (if node hasher.merge leaf (height + 1) position =
        entry hasher smtDepth depth then
      (tree.removeInnerNode ⟨depth, position⟩).2
    else (tree.insertInnerNode hasher ⟨depth, position⟩
      (childrenOf hasher leaf height position)).2).innerNodes.get? index =
      if index = ⟨depth, position⟩ then innerNodeOf hasher leaf ⟨depth, position⟩
      else tree.innerNodes.get? index := by
  rw [entry_eq hasher level, innerNodeOf_eq hasher level]
  by_cases empty : node hasher.merge leaf (height + 1) position = emptyOf hasher (height + 1)
  · rw [if_pos empty, if_pos empty, removeInnerNode, get?_erase]
  · have filled : childrenOf hasher leaf height position ≠
        EmptySubtreeRoots.getInnerNode hasher smtDepth depth := by
      intro same
      have hash := congrArg (InnerNode.hash hasher) same
      rw [getInnerNode_eq hasher level] at hash
      exact empty hash
    rw [if_neg empty, if_neg empty, insertInnerNode, if_neg filled, get?_insert]

omit [DecidableEq D] in
/-- The children of a node on the path of the changed leaf. -/
theorem replaceChild_update {value : D}
    (changed : new = Function.update leaf place value) (height : Nat) :
    replaceChild (childrenOf hasher leaf height (place / 2 ^ (height + 1))) (place / 2 ^ height)
        (node hasher.merge new height (place / 2 ^ height)) =
      childrenOf hasher new height (place / 2 ^ (height + 1)) := by
  set child := place / 2 ^ height
  have beside {index : Nat} (apart : child ≠ index) :
      node hasher.merge new height index = node hasher.merge leaf height index := by
    rw [changed, node_update_apart _ _ apart]
  rw [replaceChild, childrenOf, childrenOf, div_two_pow_succ]
  by_cases odd : child % 2 = 1
  · have right : 2 * (child / 2) + 1 = child := by omega
    have left : child ≠ 2 * (child / 2) := by omega
    rw [if_pos odd, beside left, right]
  · have left : 2 * (child / 2) = child := by omega
    have right : child ≠ 2 * (child / 2) + 1 := by omega
    rw [if_neg odd, beside right, left]

/-- One level of a recomputation.  The levels below are those of the new leaves
and the levels above still those of the old ones, and writing the node on the
path moves the border one level up. -/
theorem stored_level {value : D} (changed : new = Function.update leaf place value)
    (level : depth + (height + 1) = smtDepth) {before after : NodeIndex -> Option (InnerNode D)}
    (stored : forall index, before index = innerNodeOf hasher (if depth + 1 ≤ index.depth then new else leaf) index)
    (written : forall index, after index = if index = ⟨depth, place / 2 ^ (height + 1)⟩ then innerNodeOf hasher new ⟨depth, place / 2 ^ (height + 1)⟩ else before index)
    (index : NodeIndex) :
    after index = innerNodeOf hasher (if depth ≤ index.depth then new else leaf) index := by
  rw [written, stored]
  by_cases here : index = ⟨depth, place / 2 ^ (height + 1)⟩
  · rw [if_pos here, here, if_pos (le_refl depth)]
  · rw [if_neg here]
    rcases lt_trichotomy index.depth depth with above | same | below
    · rw [if_neg (by omega), if_neg (by omega)]
    · rcases index with ⟨indexDepth, position⟩
      change indexDepth = depth at same
      subst same
      have apart : place / 2 ^ (height + 1) ≠ position := fun equal => here (by rw [equal])
      rw [if_neg (Nat.not_succ_le_self _), if_pos (le_refl _), changed,
        innerNodeOf_update_apart hasher value level apart]
    · rw [if_pos (by omega), if_pos (by omega)]

theorem recomputeNodes_spec (free : hasher.EmptyFree) {value : D}
    (changed : new = Function.update leaf place value) (level : depth + height = smtDepth)
    (stored : forall index, tree.innerNodes.get? index = innerNodeOf hasher (if depth ≤ index.depth then new else leaf) index) :
    let result := recomputeNodes hasher depth (place / 2 ^ height)
      (node hasher.merge new height (place / 2 ^ height)) tree
    result.root = node hasher.merge new smtDepth (place / 2 ^ smtDepth) ∧
      result.numEntries = tree.numEntries ∧ result.leaves = tree.leaves ∧
      forall index, result.innerNodes.get? index = innerNodeOf hasher new index := by
  induction depth generalizing height tree with
  | zero =>
    rw [Nat.zero_add] at level
    rw [level]
    refine ⟨rfl, rfl, rfl, fun index => ?_⟩
    exact (stored index).trans (by rw [if_pos (Nat.zero_le _)])
  | succ depth ih =>
    have next : depth + (height + 1) = smtDepth := by omega
    have up := (div_two_pow_succ place height).symm
    -- The node on the path still has the children of the old tree.
    have read : tree.getInnerNode hasher ⟨depth, place / 2 ^ (height + 1)⟩ =
        childrenOf hasher leaf height (place / 2 ^ (height + 1)) := by
      rw [getInnerNode, stored, if_neg (Nat.not_succ_le_self depth), innerNodeOf_getD free next]
    rw [recomputeNodes]
    simp only [up, read, replaceChild_update changed, hash_childrenOf]
    have after := get?_storeNode hasher new (place / 2 ^ (height + 1)) tree next
    generalize stepped : (if node hasher.merge new (height + 1) (place / 2 ^ (height + 1)) =
      entry hasher smtDepth depth then _ else _ : Smt D) = later
    rw [stepped] at after
    have fields : later.numEntries = tree.numEntries ∧ later.leaves = tree.leaves := by
      rw [← stepped]
      split
      · exact ⟨rfl, rfl⟩
      · unfold insertInnerNode
        split
        · exact ⟨rfl, rfl⟩
        · exact ⟨rfl, rfl⟩
    have invariant := stored_level changed next stored after
    rcases ih next invariant with ⟨root, count, leaves, nodes⟩
    exact ⟨root, count.trans fields.1, leaves.trans fields.2, nodes⟩

/-! ## The values of a tree -/

/-- The leaves and the entry count of a tree are those of a map. -/
structure HoldsLeaves (tree : Smt D) (content : SmtMap) : Prop where
  numEntries : tree.numEntries = content.size
  leaves : forall index, tree.leaves.get? index = content.leafAt index

/-- A write that would bring a leaf above the maximum. -/
def Overflows (content : SmtMap) (key value : Word) : Prop :=
  value ≠ Word.zero ∧ SmtLeaf.Full key (content.entriesAt (leafIndex key))

instance (content : SmtMap) (key value : Word) : Decidable (Overflows content key value) :=
  inferInstanceAs (Decidable (_ ∧ _))

section Values

omit [DecidableEq D]

variable {tree : Smt D} {content : SmtMap} (holds : tree.HoldsLeaves content)
include holds

theorem HoldsLeaves.get?_of_nil (none : content.entriesAt (leafIndex key) = []) :
    tree.leaves.get? (leafIndex key) = .none := by
  rw [holds.leaves, leafAt, if_pos none]

theorem HoldsLeaves.get?_of_ne (some : content.entriesAt (leafIndex key) ≠ []) :
    tree.leaves.get? (leafIndex key) =
    .some (ofEntries (leafIndex key) (content.entriesAt (leafIndex key))) := by
  rw [holds.leaves, leafAt, if_neg some]

theorem HoldsLeaves.getLeaf (key : Word) :
    tree.getLeaf key = ofEntries (leafIndex key) (content.entriesAt (leafIndex key)) := by
  rw [Smt.getLeaf, holds.leaves, leafAt]
  split
  · rename_i found
    split at found
    · cases found
    · exact (some.inj found).symm
  · rename_i found
    split at found
    · rename_i none
      rw [none]
      rfl
    · cases found

theorem HoldsLeaves.getValue (key : Word) : tree.getValue key = content.value key := by
  rw [Smt.getValue, holds.leaves, leafAt, value_eq_entriesAt]
  by_cases none : content.entriesAt (leafIndex key) = []
  · rw [if_pos none, none]
    rfl
  · have answer := getValue_ofEntries (content.holds_entriesAt (leafIndex key))
    simp only [if_neg none, answer, getD_some]

/-- Replacing the leaf of a key by the one after a write. -/
theorem HoldsLeaves.insert (filled : (content.write key value).entriesAt (leafIndex key) ≠ [])
    (index : Nat) : (tree.leaves.insert (leafIndex key) (ofEntries (leafIndex key)
      ((content.write key value).entriesAt (leafIndex key)))).get? index =
      (content.write key value).leafAt index := by
  rw [get?_insert]
  split
  · rename_i here
    rw [here, leafAt, if_neg filled]
  · rename_i apart
    rw [holds.leaves, leafAt, leafAt, entriesAt_write, if_neg (Ne.symm apart)]

theorem HoldsLeaves.erase (leaf : SmtLeaf)
    (gone : (content.write key value).entriesAt (leafIndex key) = []) (index : Nat) :
    ((tree.leaves.insert (leafIndex key) leaf).erase (leafIndex key)).get? index =
      (content.write key value).leafAt index := by
  rw [get?_erase, get?_insert]
  split
  · rename_i here
    rw [here, leafAt, if_pos gone]
  · rename_i apart
    rw [holds.leaves, leafAt, leafAt, entriesAt_write, if_neg (Ne.symm apart)]

/-- A full leaf refuses a new key and stays as it is. -/
theorem HoldsLeaves.insertValue_full (overflows : Overflows content key value) :
    Smt.insertValue key value tree =
      (.err (.tooManyLeafEntries ((content.entriesAt (leafIndex key)).length + 1)), tree) := by
  rcases overflows with ⟨filled, full⟩
  have some : content.entriesAt (leafIndex key) ≠ [] := fun none =>
    not_full_of_short (by rw [none]; exact Nat.zero_le 1) full
  have found := holds.get?_of_ne some
  have same : tree.leaves.insert (leafIndex key)
      (ofEntries (leafIndex key) (content.entriesAt (leafIndex key))) = tree.leaves := by
    refine ext_get? (fun index => ?_)
    rw [get?_insert]
    split
    · rename_i here
      rw [here, found]
    · rfl
  have refused := insert_full (leafIndex key) value
    (content.holds_entriesAt (leafIndex key)).sorted full
  rw [Smt.insertValue, if_pos filled, performInsert, found]
  simp only [refused, same]
  rfl

/-- What a write to a leaf with room for it does. -/
def Wrote (tree after : Smt D) (content : SmtMap) (key value : Word) : Prop :=
  after.HoldsLeaves (content.write key value) ∧ after.root = tree.root ∧
    after.innerNodes = tree.innerNodes

theorem HoldsLeaves.performInsert_room (filled : value ≠ Word.zero)
    (room : ¬ SmtLeaf.Full key (content.entriesAt (leafIndex key))) :
    ∃ after, performInsert key value tree = (.ok (content.map.get? key), after) ∧
      Wrote tree after content key value := by
  have entries : (content.write key value).entriesAt (leafIndex key) =
      insertEntry key value (content.entriesAt (leafIndex key)) := by
    rw [entriesAt_write, if_pos rfl, if_neg filled]
  have some : (content.write key value).entriesAt (leafIndex key) ≠ [] := by
    rw [entries]
    exact insertEntry_ne_nil key value _
  have lookup := content.lookup_entriesAt key
  have size := content.size_write_add key value
  by_cases none : content.entriesAt (leafIndex key) = []
  · have found := holds.get?_of_nil none
    rw [none] at lookup entries
    rw [entries, none] at size
    refine ⟨{ tree with
      leaves := tree.leaves.insert (leafIndex key) (.single key value)
      numEntries := tree.numEntries + 1 }, ?_, ⟨?_, fun index => ?_⟩, rfl, rfl⟩
    · rw [performInsert, found, ← lookup]
      rfl
    · rw [holds.numEntries]
      exact size.symm
    · rw [← holds.insert some, entries]
      rfl
  · have found := holds.get?_of_ne none
    have accepted := insert_room value (content.holds_entriesAt (leafIndex key)).sorted room
    have longer := (length_insertEntry_bounds key value (content.entriesAt (leafIndex key))).1
    refine ⟨{ tree with
      leaves := tree.leaves.insert (leafIndex key)
        (ofEntries (leafIndex key) ((content.write key value).entriesAt (leafIndex key)))
      numEntries :=
        tree.numEntries + ((insertEntry key value (content.entriesAt (leafIndex key))).length -
        (content.entriesAt (leafIndex key)).length) }, ?_, ⟨?_, holds.insert some⟩, rfl, rfl⟩
    · rw [performInsert, found]
      simp only [accepted, numEntries_ofEntries, checkedSub_of_le longer, lookup, entries]
    · rw [entries] at size
      change tree.numEntries + _ = _
      rw [holds.numEntries]
      omega

theorem HoldsLeaves.performRemove (key : Word) :
    ∃ after, Smt.performRemove key tree = (.ok (content.map.get? key), after) ∧
      Wrote tree after content key Word.zero := by
  have entries : (content.write key Word.zero).entriesAt (leafIndex key) =
      eraseEntry key (content.entriesAt (leafIndex key)) := by
    rw [entriesAt_write, if_pos rfl, if_pos rfl]
  have sorted := (content.holds_entriesAt (leafIndex key)).sorted
  have lookup := content.lookup_entriesAt key
  have size := content.size_write_add key Word.zero
  rw [entries] at size
  set here := content.entriesAt (leafIndex key)
  by_cases none : here = []
  · have found := holds.get?_of_nil none
    rw [none] at lookup
    have absent : content.value key = Word.zero := by rw [value, ← lookup]; rfl
    have same : content.write key Word.zero = content := by
      rw [← absent, content.write_same]
    refine ⟨tree, ?_, ?_, rfl, rfl⟩
    · rw [Smt.performRemove, found, ← lookup]
      rfl
    · rw [same]
      exact holds
  · have found : _ = some (ofEntries _ here) := holds.get?_of_ne none
    have removed := remove_ofEntries key sorted
    have shorter : (eraseEntry key here).length ≤ here.length := List.length_filter_le _ _
    have difference : ((do
        let fewer ← Outcome.checkedSub here.length (eraseEntry key here).length
        Outcome.checkedSub tree.numEntries fewer) : Outcome (MerkleError D) Nat) =
        .ok (content.write key Word.zero).size := by
      rw [checkedSub_of_le shorter, ok_bind, holds.numEntries, checkedSub_of_le (by omega)]
      congr 1
      omega
    by_cases gone : eraseEntry key here = []
    · refine ⟨{ tree with
        leaves := (tree.leaves.insert (leafIndex key) (ofEntries (leafIndex key)
          (eraseEntry key here))).erase (leafIndex key)
        numEntries := (content.write key Word.zero).size }, ?_,
        ⟨rfl, holds.erase _ (entries.trans gone)⟩, rfl, rfl⟩
      rw [Smt.performRemove, found]
      simp only [removed, numEntries_ofEntries, difference, lookup,
        decide_eq_true (show _ ∧ _ from ⟨none, gone⟩), if_true]
    · have flag : decide (here ≠ [] ∧ eraseEntry key here = []) = false :=
        decide_eq_false (fun both => gone both.2)
      refine ⟨{ tree with
        leaves := tree.leaves.insert (leafIndex key) (ofEntries (leafIndex key)
          ((content.write key Word.zero).entriesAt (leafIndex key)))
        numEntries := (content.write key Word.zero).size }, ?_,
        ⟨rfl, holds.insert (by rw [entries]; exact gone)⟩, rfl, rfl⟩
      rw [Smt.performRemove, found]
      simp only [removed, numEntries_ofEntries, difference, lookup, flag,
        Bool.false_eq_true, if_false, entries]

/-- A write that does not overflow its leaf. -/
theorem HoldsLeaves.insertValue_room (room : ¬ Overflows content key value) :
    ∃ after, Smt.insertValue key value tree = (.ok (content.map.get? key), after) ∧
      Wrote tree after content key value := by
  rw [Smt.insertValue]
  by_cases zero : value = Word.zero
  · rw [if_neg (not_not.mpr zero), zero]
    exact holds.performRemove key
  · rw [if_pos zero]
    exact holds.performInsert_room zero (fun full => room ⟨zero, full⟩)

end Values

/-! ## Trees of maps -/

/-- The tree of a map. -/
structure Represents (hasher : SmtHasher D) (tree : Smt D) (content : SmtMap) : Prop
    extends tree.HoldsLeaves content where
  root : tree.root = content.root hasher
  innerNodes : forall index, tree.innerNodes.get? index =
    innerNodeOf hasher (content.leafHash hasher) index

variable {content : SmtMap}

/-- A map has one tree. -/
theorem Represents.unique {other : Smt D} (first : tree.Represents hasher content)
    (second : other.Represents hasher content) : tree = other :=
  Smt.ext (first.root.trans second.root.symm) (first.numEntries.trans second.numEntries.symm)
    (ext_get? (fun index => (first.leaves index).trans (second.leaves index).symm))
    (ext_get? (fun index =>
      (first.innerNodes index).trans (second.innerNodes index).symm))

/-- The children of the root commit to the map. -/
theorem innerNodeOf_root_injective (free : hasher.CollisionFree) {left right : SmtMap}
    (same : innerNodeOf hasher (left.leafHash hasher) .root =
      innerNodeOf hasher (right.leafHash hasher) .root) : left = right := by
  have level : 0 + (63 + 1) = smtDepth := rfl
  have children (content : SmtMap) :
      (innerNodeOf hasher (content.leafHash hasher) .root).getD
        (EmptySubtreeRoots.getInnerNode hasher smtDepth 0) =
      childrenOf hasher (content.leafHash hasher) 63 0 := innerNodeOf_getD free.emptyFree level
  have nodes := (children left).symm.trans ((congrArg (fun stored => getD stored
    (EmptySubtreeRoots.getInnerNode hasher smtDepth 0)) same).trans (children right))
  exact root_injective free (congrArg (InnerNode.hash hasher) nodes)

theorem new_represents (hasher : SmtHasher D) : (Smt.new hasher).Represents hasher .empty where
  numEntries := rfl
  leaves _ := rfl
  root := (node_empty hasher.merge hasher.emptyWord smtDepth 0).symm
  innerNodes index := by
    refine Eq.symm (if_neg (fun both => both.2 ?_))
    exact node_empty hasher.merge hasher.emptyWord _ _

theorem Represents.insert_full (represents : tree.Represents hasher content)
    (overflows : Overflows content key value) :
    Smt.insert hasher key value tree =
      (.err (.tooManyLeafEntries ((content.entriesAt (leafIndex key)).length + 1)), tree) := by
  have refused := represents.toHoldsLeaves.insertValue_full overflows
  change Effect.bind (insertValue key value) _ tree = _
  rw [Effect.bind, refused]

theorem leafIndex_div (key : Word) : leafIndex key / 2 ^ smtDepth = 0 :=
  Nat.div_eq_of_lt (leafIndex_lt key)

/-- An insertion that its leaf has room for gives the tree of the new map. -/
theorem Represents.insert_room (free : hasher.EmptyFree)
    (represents : tree.Represents hasher content) (room : ¬ Overflows content key value) :
    ∃ after, Smt.insert hasher key value tree = (.ok (content.value key), after) ∧
      after.Represents hasher (content.write key value) := by
  rcases represents.toHoldsLeaves.insertValue_room room with ⟨stored, ran, leaves, root, nodes⟩
  rw [Smt.insert, Effect.run_bind_ok ran]
  change ∃ after, (if value = content.value key then _ else _ : Effect (Smt D) _ Word) stored = _ ∧ _
  by_cases same : value = content.value key
  · have unchanged : content.write key value = content := by rw [same, content.write_same]
    rw [if_pos same]
    refine ⟨stored, congrArg (fun old => (Outcome.ok old, stored)) same, leaves, ?_,
      fun index => ?_⟩
    · rw [unchanged, root, represents.root]
    · rw [unchanged, nodes, represents.innerNodes]
  · have leafHash : (stored.getLeaf key).hash hasher =
        node hasher.merge ((content.write key value).leafHash hasher) 0 (leafIndex key / 2 ^ 0) := by
      rw [leaves.getLeaf, hash_eq, entries_ofEntries, pow_zero, Nat.div_one]
      rfl
    rw [if_neg same]
    refine ⟨recomputeNodes hasher smtDepth (leafIndex key) ((stored.getLeaf key).hash hasher) stored,
      rfl, ?_⟩
    have before (index : NodeIndex) : stored.innerNodes.get? index = _ :=
      (nodes ▸ represents.innerNodes index).trans
        (innerNodeOf_ite hasher ((content.write key value).leafHash hasher) index).symm
    have levels := recomputeNodes_spec free (content.leafHash_write hasher key value)
      (add_zero smtDepth) before
    rw [← leafHash, pow_zero, Nat.div_one, leafIndex_div] at levels
    rcases levels with ⟨newRoot, count, sameLeaves, newNodes⟩
    refine ⟨⟨count.trans leaves.numEntries, fun index => ?_⟩, newRoot, newNodes⟩
    rw [sameLeaves, leaves.leaves]

end Smt

end MidenVm.Crypto
