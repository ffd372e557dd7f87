import MidenVm.Crypto.SparseMerklePath
import MidenVm.Foundation.OrderedMap

namespace MidenVm.Crypto

open Foundation List

/-!
# Leaves of a sparse Merkle tree

The last element of a key says which leaf holds it, so a leaf can hold any
number of keys.  It is empty, or has one entry, or keeps a list of entries in
the order of their keys.  The three shapes are one thing, an ordered list of
entries, and `SmtLeaf.ofEntries` gives the shape of a list.  Every operation on
a leaf is an operation on its list.
-/

variable {key : Word}

/-- `SMT_DEPTH`. -/
def smtDepth : Nat := 64

/-- `MAX_LEAF_ENTRIES`. -/
def maxLeafEntries : Nat := 1024

/-- `key_to_leaf_index`, the position. -/
def leafIndex (key : Word) : Nat := key.d.asCanonicalU64

theorem leafIndex_lt (key : Word) : leafIndex key < 2 ^ smtDepth :=
  lt_trans (Felt.asCanonicalU64_lt key.d) (by decide)

/-- `SmtLeaf`.  A leaf with several entries has at least two. -/
inductive SmtLeaf where
  | empty (index : Nat)
  | single (key value : Word)
  | multiple (entries : List (Word × Word)) (several : 1 < entries.length)
  deriving DecidableEq

/-- `SmtLeafError`, the cases that leaves of a tree report. -/
inductive SmtLeafError where
  | inconsistentSingleLeafIndices (key : Word) (expected actual : Nat)
  | inconsistentMultipleLeafIndices (fromKeys supplied : Nat)
  | inconsistentMultipleLeafKeys (first second : Word)
  | multipleLeafRequiresTwoEntries (actual : Nat)
  | tooManyLeafEntries (actual : Nat)
  | decodingError (message : String)
  deriving DecidableEq

namespace SmtLeaf

/-- `SmtLeaf::entries`. -/
def entries : SmtLeaf -> List (Word × Word)
  | empty _ => []
  | single key value => [(key, value)]
  | multiple entries _ => entries

/-- `SmtLeaf::index`. -/
def index : SmtLeaf -> Nat
  | empty index => index
  | single key _ => leafIndex key
  | multiple (first :: _) _ => leafIndex first.1

/-- `SmtLeaf::num_entries`. -/
def numEntries : SmtLeaf -> Nat
  | empty _ => 0
  | single _ _ => 1
  | multiple entries _ => entries.length

/-- `SmtLeaf::new_multiple`. -/
def newMultiple : List (Word × Word) -> Outcome SmtLeafError SmtLeaf
  | first :: second :: rest =>
    let entries := first :: second :: rest
    if entries.length > maxLeafEntries then .err (.tooManyLeafEntries entries.length)
    else
      match (second :: rest).find? (fun next => leafIndex next.1 ≠ leafIndex first.1) with
      | some next => .err (.inconsistentMultipleLeafKeys first.1 next.1)
      | none => .ok (multiple entries (by simp [entries]))
  | entries => .err (.multipleLeafRequiresTwoEntries entries.length)

/-- The search of `get_value` through a list of entries. -/
def findValue (key : Word) : List (Word × Word) -> Word
  | [] => Word.zero
  | (keyInLeaf, valueInLeaf) :: rest => if key = keyInLeaf then valueInLeaf else findValue key rest

variable (leaf : SmtLeaf)

/-- `SmtLeaf::get_value`. -/
def getValue (key : Word) : Option Word :=
  if leaf.index ≠ leafIndex key then none
  else
    match leaf with
    | empty _ => some Word.zero
    | single keyInLeaf valueInLeaf =>
      if key = keyInLeaf then some valueInLeaf else some Word.zero
    | multiple entries _ => some (findValue key entries)

/-- `kv_to_elements`. -/
def kvToElements (entry : Word × Word) : List Felt := entry.1.toList ++ entry.2.toList

/-- `SmtLeaf::hash`. -/
def hash {D : Type} (hasher : SmtHasher D) : SmtLeaf -> D
  | empty _ => hasher.emptyWord
  | single key value => hasher.mergeInDomain key value
  | multiple entries _ => hasher.hashElementsInDomain (entries.flatMap kvToElements)

/-- `sort_by_key` on entries. -/
def sortByKey (entries : List (Word × Word)) : List (Word × Word) :=
  entries.insertionSort (Order.Preimage Prod.fst (· ≤ ·))

/-- `SmtLeaf::insert`. -/
def insert (key value : Word) : Outcome SmtLeafError (Option Word) × SmtLeaf :=
  match leaf with
  | empty _ => (.ok none, single key value)
  | single keyInLeaf oldValue =>
    if keyInLeaf = key then (.ok (some oldValue), single keyInLeaf value)
    else
      (.ok none, multiple (sortByKey [(keyInLeaf, oldValue), (key, value)])
        (by rw [sortByKey, List.length_insertionSort]; exact Nat.one_lt_two))
  | multiple entries several =>
    match binarySearch key entries with
    | .ok position =>
      (.ok (entries[position]?.map Prod.snd),
        multiple (entries.modify position (fun entry => (entry.1, value)))
          (by rwa [List.length_modify]))
    | .error position =>
      if entries.length ≥ maxLeafEntries then
        (.err (.tooManyLeafEntries (entries.length + 1)), multiple entries several)
      else
        (.ok none, multiple (entries.insertIdx position (key, value))
          (by rw [List.length_insertIdx]; split <;> omega))

/-- `SmtLeaf::remove`: the old value, and whether the leaf became empty. -/
def remove (key : Word) : (Option Word × Bool) × SmtLeaf :=
  match leaf with
  | empty index => ((none, false), empty index)
  | single keyInLeaf oldValue =>
    if keyInLeaf = key then ((some oldValue, true), empty (leafIndex key))
    else ((none, false), single keyInLeaf oldValue)
  | multiple entries several =>
    match binarySearch key entries with
    | .ok position =>
      let oldValue := entries[position]?.map Prod.snd
      -- One of at least two entries goes, so the list that is left is not empty.
      match entries.eraseIdx position with
      | first :: second :: rest =>
        ((oldValue, false), multiple (first :: second :: rest) (by simp))
      | [last] => ((oldValue, false), single last.1 last.2)
      | [] => ((oldValue, false), multiple entries several)
    | .error _ => ((none, false), multiple entries several)

/-! ## Leaves as lists -/

/-- The leaf at an index with the given entries. -/
def ofEntries (index : Nat) : List (Word × Word) -> SmtLeaf
  | [] => empty index
  | [entry] => single entry.1 entry.2
  | first :: second :: rest => multiple (first :: second :: rest) (by simp)

@[simp] theorem entries_ofEntries (index : Nat) (entries : List (Word × Word)) :
    (ofEntries index entries).entries = entries := by
  rcases entries with _ | ⟨first, _ | ⟨second, rest⟩⟩
  · rfl
  · rfl
  · rfl

theorem numEntries_eq : leaf.numEntries = leaf.entries.length := by
  cases leaf <;> rfl

@[simp] theorem numEntries_ofEntries (index : Nat) (entries : List (Word × Word)) :
    (ofEntries index entries).numEntries = entries.length := by
  rw [numEntries_eq, entries_ofEntries]

variable {entries : List (Word × Word)}

theorem ofEntries_of_several (index : Nat) (several : 1 < entries.length) :
    ofEntries index entries = multiple entries several := by
  rcases entries with _ | ⟨first, _ | ⟨second, rest⟩⟩
  · exact absurd several (by decide)
  · exact absurd several (by simp)
  · rfl

/-- The entries at an index: in order, all of them of that index. -/
structure Holds (index : Nat) (entries : List (Word × Word)) : Prop where
  sorted : SortedEntries entries
  here : forall entry, entry ∈ entries -> leafIndex entry.1 = index

theorem index_ofEntries_of {index : Nat}
    (here : forall entry, entry ∈ entries -> leafIndex entry.1 = index) :
    (ofEntries index entries).index = index := by
  rcases entries with _ | ⟨first, _ | ⟨second, rest⟩⟩
  · rfl
  · exact here first mem_cons_self
  · exact here first mem_cons_self

theorem index_ofEntries {index : Nat} (holds : Holds index entries) : (ofEntries index entries).index = index :=
  index_ofEntries_of holds.here

theorem findValue_eq (key : Word) (entries : List (Word × Word)) :
    findValue key entries = (entries.lookup key).getD Word.zero := by
  induction entries with
  | nil => rfl
  | cons head tail ih =>
    rcases head with ⟨headKey, headValue⟩
    rw [findValue, lookup_cons]
    by_cases same : key = headKey
    · rw [if_pos same, beq_iff_eq.mpr same]
      rfl
    · rw [if_neg same, beq_eq_false_iff_ne.mpr same, ih]

theorem getValue_eq (here : leaf.index = leafIndex key) :
    leaf.getValue key = some ((leaf.entries.lookup key).getD Word.zero) := by
  unfold getValue
  rw [if_neg (not_not.mpr here)]
  cases leaf with
  | empty index => rfl
  | single keyInLeaf oldValue =>
    by_cases same : key = keyInLeaf
    · simp [entries, same]
    · simp [entries, same, beq_eq_false_iff_ne.mpr same]
  | multiple entries several =>
    exact congrArg some (findValue_eq key entries)

theorem getValue_ofEntries (holds : Holds (leafIndex key) entries) :
    (ofEntries (leafIndex key) entries).getValue key =
      some ((entries.lookup key).getD Word.zero) := by
  rw [getValue_eq _ (index_ofEntries holds), entries_ofEntries]

/-- Entries of one index, not too many of them, make a leaf. -/
theorem newMultiple_eq {index : Nat} (several : 1 < entries.length)
    (fits : entries.length ≤ maxLeafEntries)
    (here : forall entry, entry ∈ entries -> leafIndex entry.1 = index) :
    newMultiple entries = .ok (ofEntries index entries) := by
  rcases entries with _ | ⟨first, _ | ⟨second, rest⟩⟩
  · exact absurd several (by decide)
  · exact absurd several (by simp)
  · have same : (second :: rest).find? (fun next => leafIndex next.1 ≠ leafIndex first.1) = none := by
      refine find?_eq_none.mpr (fun next member => ?_)
      rw [here first mem_cons_self, here next (mem_cons_of_mem _ member)]
      simp
    simp only [newMultiple, if_neg (not_lt.mpr fits), same, ofEntries]

theorem newMultiple_too_many (above : maxLeafEntries < entries.length) :
    newMultiple entries = .err (.tooManyLeafEntries entries.length) := by
  rcases entries with _ | ⟨first, _ | ⟨second, rest⟩⟩
  · exact absurd above (by decide)
  · exact absurd above (by simp [maxLeafEntries])
  · simp only [newMultiple, if_pos above]

/-! ## Sorting -/

theorem sortByKey_perm (entries : List (Word × Word)) : (sortByKey entries).Perm entries :=
  perm_insertionSort _ _

theorem ordered_sortByKey (entries : List (Word × Word)) :
    (sortByKey entries).Pairwise (fun left right => left.1 ≤ right.1) :=
  pairwise_insertionSort _ _

/-- Sorting entries with different keys gives an ordered list. -/
theorem sorted_sortByKey (distinct : (entries.map Prod.fst).Nodup) :
    SortedEntries (sortByKey entries) := by
  have apart : (sortByKey entries).Pairwise (fun left right => left.1 ≠ right.1) :=
    pairwise_map.mp (((sortByKey_perm entries).map Prod.fst).nodup_iff.mpr distinct)
  exact ((ordered_sortByKey entries).and apart).imp (fun both => lt_of_le_of_ne both.1 both.2)

/-- An ordered list is determined by its entries. -/
theorem sorted_eq_of_perm {left right : List (Word × Word)} (leftSorted : SortedEntries left)
    (rightSorted : SortedEntries right) (same : left.Perm right) : left = right := by
  refine List.Perm.eq_of_pairwise ?_ leftSorted rightSorted same
  intro first second _ _ before after
  exact absurd (lt_trans before after) (lt_irrefl _)

theorem sortByKey_pair {value otherKey otherValue : Word} (different : otherKey ≠ key) :
    sortByKey [(otherKey, otherValue), (key, value)] =
      insertEntry key value [(otherKey, otherValue)] := by
  have pair : SortedEntries [(otherKey, otherValue)] := pairwise_singleton _ _
  refine sorted_eq_of_perm (sorted_sortByKey (by simpa using different))
    (sorted_insertEntry key value pair) ((sortByKey_perm _).trans ?_)
  rw [insertEntry]
  split
  · exact List.Perm.swap _ _ _
  · rw [if_neg (Ne.symm different)]
    exact List.Perm.refl _

/-! ## Insertion and removal -/

/-- A leaf takes a new key unless it is full. -/
def Full (key : Word) (entries : List (Word × Word)) : Prop :=
  entries.lookup key = none ∧ maxLeafEntries ≤ entries.length

instance (key : Word) (entries : List (Word × Word)) : Decidable (Full key entries) :=
  inferInstanceAs (Decidable (_ ∧ _))

theorem not_full_of_short (short : entries.length ≤ 1) : ¬ Full key entries :=
  fun full => absurd (le_trans full.2 short) (by decide)

theorem insert_full (index : Nat) (value : Word) (sorted : SortedEntries entries)
    (full : Full key entries) : (ofEntries index entries).insert key value =
      (.err (.tooManyLeafEntries (entries.length + 1)), ofEntries index entries) := by
  have several : 1 < entries.length := lt_of_lt_of_le (by decide) full.2
  rw [ofEntries_of_several index several, insert]
  cases found : binarySearch key entries with
  | ok position =>
    rcases binarySearch_ok sorted found with ⟨old, answer, _⟩
    exact absurd (full.1.symm.trans answer) (by simp)
  | error position => exact if_pos full.2

theorem insert_room (value : Word) (sorted : SortedEntries entries) (room : ¬ Full key entries) :
    (ofEntries (leafIndex key) entries).insert key value =
      (.ok (entries.lookup key), ofEntries (leafIndex key) (insertEntry key value entries)) := by
  rcases entries with _ | ⟨first, _ | ⟨second, rest⟩⟩
  · rfl
  · rw [ofEntries, insert, lookup_cons]
    by_cases same : first.1 = key
    · rw [if_pos same, beq_iff_eq.mpr same.symm, insertEntry,
        if_neg (not_lt.mpr (le_of_eq same)), if_pos same.symm, same]
      rfl
    · have two : 1 < (insertEntry key value [(first.1, first.2)]).length := by
        rw [length_insertEntry_of_none (lookup_eq_none.mpr (by simpa using same))]
        exact one_lt_two
      rw [if_neg same, beq_eq_false_iff_ne.mpr (Ne.symm same), lookup_nil]
      simp only [sortByKey_pair same]
      rw [← ofEntries_of_several (leafIndex key) two]
  · have several : 1 < (first :: second :: rest).length := by simp
    have more :=
      lt_of_lt_of_le several (length_insertEntry_bounds key value (first :: second :: rest)).1
    rw [ofEntries_of_several (leafIndex key) several, insert]
    cases found : binarySearch key (first :: second :: rest) with
    | ok position =>
      rcases binarySearch_ok sorted found with ⟨old, answer, entry, written, _⟩
      rw [ofEntries_of_several _ more, answer]
      simp only [entry, written, Option.map_some]
    | error position =>
      rcases binarySearch_error sorted found with ⟨absent, inserted⟩
      have space : ¬ (first :: second :: rest).length ≥ maxLeafEntries :=
        fun enough => room ⟨absent, enough⟩
      simp only [if_neg space, inserted]
      rw [ofEntries_of_several _ more, absent]

/-- Removal always succeeds; the flag says that the last entry went. -/
theorem remove_ofEntries (key : Word) (sorted : SortedEntries entries) :
    (ofEntries (leafIndex key) entries).remove key =
      ((entries.lookup key,
        decide (entries ≠ [] ∧ eraseEntry key entries = [])),
        ofEntries (leafIndex key) (eraseEntry key entries)) := by
  rcases entries with _ | ⟨first, _ | ⟨second, rest⟩⟩
  · rfl
  · rw [ofEntries, remove, lookup_cons]
    by_cases same : first.1 = key
    · rw [if_pos same, beq_iff_eq.mpr same.symm, eraseEntry_cons_self sorted same]
      simp [ofEntries]
    · rw [if_neg same, beq_eq_false_iff_ne.mpr (Ne.symm same), eraseEntry_cons_of_ne same]
      simp [ofEntries, eraseEntry]
  · have several : 1 < (first :: second :: rest).length := by simp
    rw [ofEntries_of_several (leafIndex key) several, remove]
    cases found : binarySearch key (first :: second :: rest) with
    | ok position =>
      rcases binarySearch_ok sorted found with ⟨old, answer, entry, _, erased⟩
      have size := length_eraseEntry_of_some sorted answer
      simp only [erased, entry, Option.map_some, answer]
      rcases left : eraseEntry key (first :: second :: rest) with
        _ | ⟨last, _ | ⟨next, others⟩⟩
      · rw [left, length_nil] at size
        exact absurd size.symm (by simp)
      · simp [ofEntries]
      · simp [ofEntries]
    | error position =>
      have absent := (binarySearch_error sorted found).1
      rw [absent, eraseEntry_of_none absent]
      simp [ofEntries]

end SmtLeaf

end MidenVm.Crypto
