import MidenVm.Crypto.Smt.Tree

namespace MidenVm.Crypto

open Foundation List

/-!
# What a sparse Merkle tree stands for

A tree is a commitment to a finite map from keys to values other than the empty
word.  `SmtMap` is such a map, and writing the empty word removes a key.  The
map fixes the entries of every leaf, hence the hash of every node, the root and
the nodes that are stored.  `Represents` says that a tree is the one of a map.

The only assumption on the hash is that its inputs, pairs of nodes and contents
of leaves, can be told from its values.
-/

/-! ## The hash of leaves and nodes -/

/-- The hash of the entries of a leaf. -/
def hashEntries {D : Type} (hasher : SmtHasher D) : List (Word × Word) -> D
  | [] => hasher.emptyWord
  | [entry] => hasher.mergeInDomain entry.1 entry.2
  | first :: second :: rest =>
    hasher.hashElementsInDomain ((first :: second :: rest).flatMap SmtLeaf.kvToElements)

theorem SmtLeaf.hash_eq {D : Type} (hasher : SmtHasher D) (leaf : SmtLeaf) :
    leaf.hash hasher = hashEntries hasher leaf.entries := by
  cases leaf with
  | empty index => rfl
  | single key value => rfl
  | multiple entries several =>
    rcases entries with _ | ⟨first, _ | ⟨second, rest⟩⟩
    · exact absurd several (by decide)
    · exact absurd several (by simp)
    · rfl

/-- What is hashed in a tree. -/
inductive Preimage (D : Type) where
  | node (left right : D)
  | leaf (entries : List (Word × Word))

/-- The hash of an input. -/
def SmtHasher.digest {D : Type} (hasher : SmtHasher D) : Preimage D -> D
  | .node left right => hasher.merge left right
  | .leaf entries => hashEntries hasher entries

/-- No two inputs of the hash have the same value. -/
def SmtHasher.CollisionFree {D : Type} (hasher : SmtHasher D) : Prop :=
  Function.Injective hasher.digest

namespace SmtHasher.CollisionFree

variable {D : Type} {hasher : SmtHasher D} (free : hasher.CollisionFree)
include free

theorem merge (a b c d : D) (same : hasher.merge a b = hasher.merge c d) : a = c ∧ b = d := by
  have inputs := free (show hasher.digest (.node a b) = hasher.digest (.node c d) from same)
  exact Preimage.node.inj inputs

theorem leaf {left right : List (Word × Word)}
    (same : hashEntries hasher left = hashEntries hasher right) : left = right := by
  have inputs := free (show hasher.digest (.leaf left) = hasher.digest (.leaf right) from same)
  exact Preimage.leaf.inj inputs

theorem merge_ne (a b : D) (entries : List (Word × Word)) :
    hasher.merge a b ≠ hashEntries hasher entries := by
  intro same
  cases free (show hasher.digest (.node a b) = hasher.digest (.leaf entries) from same)

theorem leaf_empty {entries : List (Word × Word)} :
    hashEntries hasher entries = hasher.emptyWord ↔ entries = [] :=
  ⟨fun same => free.leaf same, fun none => by rw [none]; rfl⟩

end SmtHasher.CollisionFree

/-- Only what is empty has the hash of it: no leaf with entries that of an
empty leaf, and no node with a child that is not empty that of an empty
subtree. -/
structure SmtHasher.EmptyFree {D : Type} (hasher : SmtHasher D) : Prop where
  node : forall height left right,
    hasher.merge left right = SparseTree.emptyRoot hasher.merge hasher.emptyWord (height + 1) ->
      left = SparseTree.emptyRoot hasher.merge hasher.emptyWord height ∧
        right = SparseTree.emptyRoot hasher.merge hasher.emptyWord height
  leaf : forall entries, hashEntries hasher entries = hasher.emptyWord -> entries = []

theorem SmtHasher.CollisionFree.emptyFree {D : Type} {hasher : SmtHasher D}
    (free : hasher.CollisionFree) : hasher.EmptyFree where
  node _ left right same := free.merge left right _ _ same
  leaf _ same := free.leaf_empty.mp same

/-! ## A hash that keeps its inputs -/

/-- The values of a hash that keeps its inputs.  An empty subtree is kept as its
height, so that trees can be evaluated. -/
inductive FreeDigest where
  | empty (height : Nat)
  | entry (key value : Word)
  | elements (elements : List Felt)
  | node (left right : FreeDigest)
  deriving DecidableEq

/-- The node over two digests, an empty one over empty ones of one height. -/
def FreeDigest.merge (left right : FreeDigest) : FreeDigest :=
  match left, right with
  | .empty height, .empty other => if height = other then .empty (height + 1) else .node left right
  | _, _ => .node left right

def freeHasher : SmtHasher FreeDigest where
  emptyWord := .empty 0
  merge := .merge
  mergeInDomain := .entry
  hashElementsInDomain := .elements

theorem kvToElements_append_inj {first second : Word × Word} {rest others : List Felt}
    (same : SmtLeaf.kvToElements first ++ rest = SmtLeaf.kvToElements second ++ others) :
    first = second ∧ rest = others := by
  rcases first with ⟨⟨a, b, c, d⟩, ⟨e, f, g, h⟩⟩
  rcases second with ⟨⟨a', b', c', d'⟩, ⟨e', f', g', h'⟩⟩
  simp only [SmtLeaf.kvToElements, Word.toList, cons_append, nil_append, List.cons.injEq] at same
  rcases same with ⟨rfl, rfl, rfl, rfl, rfl, rfl, rfl, rfl, rfl⟩
  exact ⟨rfl, rfl⟩

theorem flatMap_kvToElements_inj {left right : List (Word × Word)}
    (same : left.flatMap SmtLeaf.kvToElements = right.flatMap SmtLeaf.kvToElements) :
    left = right := by
  induction left generalizing right with
  | nil =>
    cases right with
    | nil => rfl
    | cons head tail => cases same
  | cons head tail ih =>
    cases right with
    | nil => cases same
    | cons other others =>
      rw [flatMap_cons, flatMap_cons] at same
      rcases kvToElements_append_inj same with ⟨first, rest⟩
      rw [first, ih rest]

theorem freeHasher_leaf_inj {left right : List (Word × Word)}
    (same : hashEntries freeHasher left = hashEntries freeHasher right) : left = right := by
  rcases left with _ | ⟨first, _ | ⟨second, rest⟩⟩ <;>
    rcases right with _ | ⟨other, _ | ⟨next, others⟩⟩ <;>
    simp only [hashEntries, freeHasher, reduceCtorEq, FreeDigest.entry.injEq,
      FreeDigest.elements.injEq] at same
  · rfl
  · rw [Prod.ext same.1 same.2]
  · exact flatMap_kvToElements_inj same

theorem FreeDigest.merge_cases (left right : FreeDigest) :
    (∃ height, left = .empty height ∧ right = .empty height ∧
      left.merge right = .empty (height + 1)) ∨ left.merge right = .node left right := by
  fun_cases FreeDigest.merge left right with
  | case1 height => exact .inl ⟨height, rfl, rfl, rfl⟩
  | case2 | case3 => exact .inr rfl

theorem freeHasher_collisionFree : freeHasher.CollisionFree := by
  have apart (left right : FreeDigest) (entries : List (Word × Word)) :
      left.merge right ≠ hashEntries freeHasher entries := by
    rcases left.merge_cases right with ⟨_, _, _, made⟩ | made <;> rw [made] <;>
      rcases entries with _ | ⟨first, _ | ⟨second, rest⟩⟩ <;> exact fun same => by cases same
  intro first second same
  cases first with
  | node left right =>
    cases second with
    | node otherLeft otherRight =>
      change left.merge right = otherLeft.merge otherRight at same
      rcases left.merge_cases right with ⟨_, rfl, rfl, made⟩ | made <;>
        rcases otherLeft.merge_cases otherRight with ⟨_, rfl, rfl, other⟩ | other <;>
        rw [made, other] at same <;> cases same <;> rfl
    | leaf entries => exact absurd same (apart left right entries)
  | leaf entries =>
    cases second with
    | node left right => exact absurd same.symm (apart left right entries)
    | leaf others => rw [freeHasher_leaf_inj same]

/-! ## Maps without empty values -/

/-- A finite map from keys to values other than the empty word. -/
@[ext] structure SmtMap where
  map : OrderedMap Word Word
  present : forall key, map.get? key ≠ some Word.zero

namespace SmtMap

def empty : SmtMap := ⟨.empty, fun _ impossible => by cases impossible⟩

/-- The value of a key. -/
def value (content : SmtMap) (key : Word) : Word := (content.map.get? key).getD Word.zero

/-- The number of keys. -/
def size (content : SmtMap) : Nat := content.map.entries.length

/-- Write a value; the empty word removes the key. -/
def write (content : SmtMap) (key value : Word) : SmtMap :=
  if zero : value = Word.zero then ⟨content.map.erase key, fun wanted => by
      rw [OrderedMap.get?_erase]
      split
      · exact fun impossible => by cases impossible
      · exact content.present wanted⟩
  else
    ⟨content.map.insert key value, fun wanted => by
      rw [OrderedMap.get?_insert]
      split
      · exact fun same => zero (Option.some.inj same)
      · exact content.present wanted⟩

section Content

variable (content : SmtMap) (key value : Word)

theorem value_write (key value wanted : Word) :
    (content.write key value).value wanted = if wanted = key then value else content.value wanted := by
  unfold write SmtMap.value
  split
  · rename_i zero
    rw [OrderedMap.get?_erase]
    split
    · exact zero.symm
    · rfl
  · rw [OrderedMap.get?_insert]
    split <;> rfl

theorem get?_eq (key : Word) :
    content.map.get? key = if content.value key = Word.zero then none else some (content.value key) := by
  unfold SmtMap.value
  cases found : content.map.get? key with
  | none => simp
  | some value =>
    have present : value ≠ Word.zero := fun zero => content.present key (zero ▸ found)
    simp [present]

/-- Maps with the same values are equal. -/
theorem ext_value {left right : SmtMap} (same : forall key, left.value key = right.value key) :
    left = right := by
  refine SmtMap.ext (OrderedMap.ext_get? (fun key => ?_))
  rw [get?_eq, get?_eq, same]

theorem write_same (key : Word) : content.write key (content.value key) = content := by
  refine ext_value (fun wanted => ?_)
  rw [value_write]
  split
  · rename_i same
    rw [same]
  · rfl

/-! ## Leaves and nodes of a map -/

/-- The entries of the leaf at an index. -/
def entriesAt (content : SmtMap) (index : Nat) : List (Word × Word) :=
  select (fun key => decide (leafIndex key = index)) content.map.entries

theorem holds_entriesAt (index : Nat) : SmtLeaf.Holds index (content.entriesAt index) :=
  ⟨sorted_select _ content.map.sorted, fun _ member => of_decide_eq_true (mem_filter.mp member).2⟩

theorem lookup_entriesAt (key : Word) :
    (content.entriesAt (leafIndex key)).lookup key = content.map.get? key :=
  (lookup_select _ _ key).trans (if_pos (decide_eq_true rfl))

theorem value_eq_entriesAt (key : Word) :
    content.value key = ((content.entriesAt (leafIndex key)).lookup key).getD Word.zero := by
  rw [lookup_entriesAt, value]

/-- A write changes the entries of one leaf. -/
theorem entriesAt_write (index : Nat) :
    (content.write key value).entriesAt index =
      if leafIndex key = index then
        if value = Word.zero then eraseEntry key (content.entriesAt index)
        else insertEntry key value (content.entriesAt index)
      else content.entriesAt index := by
  unfold write entriesAt
  by_cases here : leafIndex key = index
  · rw [if_pos here]
    split
    · exact select_eraseEntry _ key content.map.entries
    · exact select_insertEntry content.map.sorted (decide_eq_true here)
  · have apart : ¬ decide (leafIndex key = index) = true := by simpa using here
    rw [if_neg here]
    split
    · exact select_eraseEntry_apart apart
    · exact select_insertEntry_apart apart

/-- Equal leaves make equal maps. -/
theorem ext_entriesAt {left right : SmtMap}
    (same : forall index, left.entriesAt index = right.entriesAt index) : left = right := by
  refine ext_value (fun key => ?_)
  rw [value_eq_entriesAt, value_eq_entriesAt, same]

/-- No key of a map has a leaf beyond the last one. -/
theorem entriesAt_of_ge {index : Nat} (beyond : 2 ^ smtDepth ≤ index) :
    content.entriesAt index = [] := by
  refine eq_nil_iff_forall_not_mem.mpr (fun entry member => ?_)
  have here := (content.holds_entriesAt index).here entry member
  exact absurd (leafIndex_lt entry.1) (not_lt.mpr (here ▸ beyond))

/-- A write changes the size of a map by as much as that of one leaf. -/
theorem size_write_add :
    (content.write key value).size + (content.entriesAt (leafIndex key)).length =
      content.size + ((content.write key value).entriesAt (leafIndex key)).length := by
  have sorted := (content.holds_entriesAt (leafIndex key)).sorted
  have lookup := content.lookup_entriesAt key
  rw [entriesAt_write, if_pos rfl]
  unfold write size
  cases found : content.map.get? key with
  | none =>
    have absent := lookup.trans found
    split
    · have whole := congrArg List.length (eraseEntry_of_none found)
      rw [eraseEntry_of_none absent]
      exact congrArg (· + _) whole
    · have whole : (insertEntry key value content.map.entries).length = _ :=
        length_insertEntry_of_none found
      rw [length_insertEntry_of_none absent, ← add_assoc, add_right_comm]
      exact congrArg (· + _) whole
  | some old =>
    have present := lookup.trans found
    split
    · have whole := length_eraseEntry_of_some content.map.sorted found
      rw [← length_eraseEntry_of_some sorted present, ← add_assoc, add_right_comm]
      exact congrArg (· + _) whole
    · have whole : (insertEntry key value content.map.entries).length = _ :=
        length_insertEntry_of_some content.map.sorted found
      rw [length_insertEntry_of_some sorted present]
      exact congrArg (· + _) whole

end Content

section Hash

variable {D : Type} (hasher : SmtHasher D)

/-- The hash of the leaf at an index. -/
def leafHash (content : SmtMap) (index : Nat) : D := hashEntries hasher (content.entriesAt index)

/-- The root of the tree over a map. -/
def root (content : SmtMap) : D := Mountain.node hasher.merge (content.leafHash hasher) smtDepth 0

/-- The stored leaf at an index. -/
def leafAt (content : SmtMap) (index : Nat) : Option SmtLeaf :=
  if content.entriesAt index = [] then none
  else some (SmtLeaf.ofEntries index (content.entriesAt index))

/-- A write changes the hash of one leaf. -/
theorem leafHash_write (content : SmtMap) (key value : Word) :
    (content.write key value).leafHash hasher =
      Function.update (content.leafHash hasher) (leafIndex key)
        ((content.write key value).leafHash hasher (leafIndex key)) := by
  funext index
  by_cases here : index = leafIndex key
  · rw [here, Function.update_self]
  · rw [Function.update_of_ne here, leafHash, entriesAt_write, if_neg (Ne.symm here), leafHash]

/-- A root commits to one map. -/
theorem root_injective {hasher : SmtHasher D} (free : hasher.CollisionFree) {left right : SmtMap}
    (same : left.root hasher = right.root hasher) : left = right := by
  have leaves := SparseTree.leaves_of_node free.merge same
  refine ext_entriesAt (fun index => ?_)
  by_cases inside : index < 2 ^ smtDepth
  · exact free.leaf (leaves index (Nat.div_eq_of_lt inside))
  · rw [left.entriesAt_of_ge (not_lt.mp inside), right.entriesAt_of_ge (not_lt.mp inside)]

end Hash

end SmtMap

end MidenVm.Crypto
