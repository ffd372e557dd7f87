import MidenVm.Crypto.Smt.Concurrent
import MidenVm.Crypto.Smt.SubtreeSpec
import MidenVm.Crypto.Smt.Batch

namespace MidenVm.Crypto

open Foundation List Outcome Nat Option OrderedMap SmtLeaf SubtreeLeavesIter
open Foundation.Mountain
open Foundation.SparseTree

/-!
# The tree that is built in bulk

Grouping, cutting and combining give the tree over the leaves that were built,
whatever these leaves are.  The leaves are those of the map of the entries
unless two entries of one leaf have an empty value among them: such a leaf
keeps the empty value as an entry of its own.
-/

variable {leaves : OrderedMap Nat SmtLeaf} {entriesOf : Nat -> List (Word × Word)}

namespace Smt

variable {D : Type} [DecidableEq D] {hasher : SmtHasher D}

/-! ## All rounds -/

theorem buildRounds_spec {ε : Type} (free : hasher.EmptyFree) {leaf : Nat -> D} {round height : Nat}
    (level : subtreeDepth * round + height = smtDepth) {leaves : List (SubtreeLeaf D)}
    (changed : Changed (levelOf hasher leaf height) (emptyLevel hasher height) (fun _ => True) leaves)
    (solid : forall other, other ∈ leaves -> other.hash ≠ emptyOf hasher height)
    (before : OrderedMap NodeIndex (InnerNode D)) :
    ∃ nodes, (buildRounds hasher round (collect leaves) before : Outcome ε _) =
        .ok nodes ∧
      forall index, nodes.get? index =
        (if index.depth < subtreeDepth * round then innerNodeOf hasher leaf index else none).or
          (before.get? index) := by
  induction round generalizing height leaves before with
  | zero => exact ⟨before, rfl, fun index => rfl⟩
  | succ count ih =>
    have deep : subtreeDepth ≤ subtreeDepth * (count + 1) := Nat.le_mul_of_pos_right _ (succ_pos _)
    have next : subtreeDepth * count + (height + subtreeDepth) = smtDepth := by
      rw [← level, mul_succ]
      omega
    rcases buildRound_spec level (changed.congr (fun col => (iff_of_true trivial (Nat.zero_le _))))
      free deep (Nat.le_refl leaves.length) solid with ⟨built, ran, round⟩
    rcases ih next (round.roots.congr (fun col => (iff_of_true (Nat.zero_le _) trivial))) round.solid
      (built.foldl (fun nodes subtree => nodes.insertAll subtree.1.entries) before) with
      ⟨nodes, continued, stored⟩
    refine ⟨nodes, ?_, fun index => ?_⟩
    · rw [buildRounds, SubtreeLeavesIter.collect, ran, ok_bind]
      exact continued
    · rw [stored, round.nodes]
      by_cases lower : index.depth < subtreeDepth * count
      · have above : index.depth < subtreeDepth * (count + 1) := by
          rw [mul_succ]
          omega
        have apart : ¬ InRound (subtreeDepth * (count + 1)) 0 index := fun inside => by
          have bound := inside.1
          rw [mul_succ] at bound
          omega
        rw [if_pos lower, if_pos above, if_neg apart, none_or]
      · rw [if_neg lower, none_or]
        by_cases above : index.depth < subtreeDepth * (count + 1)
        · have inside : InRound (subtreeDepth * (count + 1)) 0 index := by
            refine ⟨?_, above, Nat.zero_le _⟩
            rw [mul_succ]
            omega
          rw [if_pos above, if_pos inside]
        · rw [if_neg above, if_neg (fun inside => above inside.2.1)]

/-! ## Leaves that were built -/

/-- The leaves of a map, given by the entries of each. -/
def LeavesOf (entriesOf : Nat -> List (Word × Word)) (leaves : OrderedMap Nat SmtLeaf) : Prop :=
  forall index, leaves.get? index =
    if entriesOf index = [] then none else some (.ofEntries index (entriesOf index))

omit [DecidableEq D] in
/-- The hashes of the leaves are the bottom level. -/
theorem LeavesOf.changed (of : LeavesOf entriesOf leaves) :
    Changed (levelOf hasher (fun index => hashEntries hasher (entriesOf index)) 0)
      (emptyLevel hasher 0) (fun _ => True) (hashedLeaves hasher leaves) where
  sorted := pairwise_map.mpr leaves.sorted
  here leaf member := by
    rcases mem_map.mp member with ⟨⟨col, stored⟩, listed, rfl⟩
    have found := of col
    rw [mem_entries.mp listed] at found
    split at found
    · cases found
    · cases found
      refine ⟨trivial, ?_⟩
      rw [hash_eq, entries_ofEntries]
      rfl
  others col _ absent := by
    have none : entriesOf col = [] := by
      by_contra some
      have found := of col
      rw [if_neg some] at found
      exact absent _ (mem_map.mpr ⟨_, mem_entries.mpr found, rfl⟩) rfl
    change hashEntries hasher (entriesOf col) = _
    rw [none]
    rfl

omit [DecidableEq D] in
theorem LeavesOf.solid (free : hasher.EmptyFree) (of : LeavesOf entriesOf leaves)
    (leaf : SubtreeLeaf D)
    (member : leaf ∈ hashedLeaves hasher leaves) : leaf.hash ≠ emptyOf hasher 0 := by
  rcases mem_map.mp member with ⟨⟨col, stored⟩, listed, rfl⟩
  have found := of col
  rw [mem_entries.mp listed] at found
  split at found
  · cases found
  · rename_i some
    cases found
    intro empty
    rw [hash_eq, entries_ofEntries] at empty
    exact some (free.leaf _ empty)

/-- The nodes over the leaves that were built. -/
theorem LeavesOf.build {ε : Type} (free : hasher.EmptyFree) (of : LeavesOf entriesOf leaves) :
    ∃ nodes, (buildRounds hasher (smtDepth / subtreeDepth)
        (collect (hashedLeaves hasher leaves)) .empty : Outcome ε _) = .ok nodes ∧
      forall index, nodes.get? index =
        innerNodeOf hasher (fun index => hashEntries hasher (entriesOf index)) index := by
  have level : subtreeDepth * (smtDepth / subtreeDepth) + 0 = smtDepth := rfl
  rcases buildRounds_spec free level of.changed (of.solid free) .empty with ⟨nodes, ran, stored⟩
  refine ⟨nodes, ran, fun index => ?_⟩
  rw [stored, get?_empty, or_none]
  split
  · rfl
  · rename_i deep
    exact (innerNodeOf_of_ge hasher (not_lt.mp deep)).symm

end Smt

/-! ## Columns of entries -/

variable {entries column : List (Word × Word)} {index : Nat}

/-- The entries of a leaf, in the order they are listed. -/
def columnOf (entries : List (Word × Word)) (index : Nat) : List (Word × Word) :=
  entries.filter (fun entry => leafIndex entry.1 = index)

/-- The entries of the leaf that is built from a column.  A single empty value
makes no leaf; among several entries it is kept. -/
def leafEntries : List (Word × Word) -> List (Word × Word)
  | [(key, value)] => if value = Word.zero then [] else [(key, value)]
  | column => SmtLeaf.sortByKey column

/-- Entries in the order of their leaves. -/
def ByColumn (entries : List (Word × Word)) : Prop :=
  entries.Pairwise (fun left right => leafIndex left.1 ≤ leafIndex right.1)

theorem mem_columnOf {entry : Word × Word} :
    entry ∈ columnOf entries index ↔ entry ∈ entries ∧ leafIndex entry.1 = index := by
  rw [columnOf, mem_filter, decide_eq_true_eq]

/-- Ordered entries are the column of the first leaf followed by those of later
leaves. -/
theorem ByColumn.split (sorted : ByColumn entries)
    (after : forall entry, entry ∈ entries -> index ≤ leafIndex entry.1) :
    entries = columnOf entries index ++ entries.filter (fun entry => index < leafIndex entry.1) := by
  induction entries with
  | nil => rfl
  | cons entry rest ih =>
    rcases pairwise_cons.mp sorted with ⟨least, others⟩
    by_cases here : leafIndex entry.1 = index
    · have tail := ih others (fun other member => after other (mem_cons_of_mem _ member))
      have taken : columnOf (entry :: rest) index = entry :: columnOf rest index := by
        simp [columnOf, here]
      have kept : (entry :: rest).filter (fun entry => index < leafIndex entry.1) =
          rest.filter (fun entry => index < leafIndex entry.1) := by simp [here]
      rw [taken, kept, cons_append, ← tail]
    · have above : forall other, other ∈ entry :: rest -> index < leafIndex other.1 := by
        intro other member
        have bound := after entry mem_cons_self
        rcases mem_cons.mp member with same | later
        · rw [same]
          omega
        · have further := least other later
          omega
      have none : columnOf (entry :: rest) index = [] :=
        filter_eq_nil_iff.mpr (fun other member same =>
          ne_of_gt (above other member) (of_decide_eq_true same))
      rw [none, nil_append]
      exact (filter_eq_self.mpr (fun other member => decide_eq_true (above other member))).symm

/-- Ordered entries are built up from whole columns. -/
theorem ByColumn.induction {motive : List (Word × Word) -> Prop} (nil : motive [])
    (block : forall index group rest, group ≠ [] -> (forall entry, entry ∈ group -> leafIndex entry.1 =
        index) -> (forall entry, entry ∈ rest -> index < leafIndex entry.1) -> motive rest ->
        motive (group ++ rest))
    (sorted : ByColumn entries) : motive entries := by
  induction size : entries.length using Nat.strong_induction_on generalizing entries with
  | _ length ih =>
    rcases entries with _ | ⟨first, rest⟩
    · exact nil
    · have least : forall entry, entry ∈ first :: rest ->
          leafIndex first.1 ≤ leafIndex entry.1 := by
        intro entry member
        rcases mem_cons.mp member with same | later
        · rw [same]
        · exact (pairwise_cons.mp sorted).1 entry later
      have split := sorted.split least
      have shorter : ((first :: rest).filter
          (fun entry => leafIndex first.1 < leafIndex entry.1)).length < length := by
        rw [← size, filter_cons_of_neg (by simp)]
        exact lt_succ_of_le (length_filter_le _ _)
      rw [split]
      refine block (leafIndex first.1) _ _ (fun none => ?_)
        (fun entry member => (mem_columnOf.mp member).2)
        (fun entry member => of_decide_eq_true (mem_filter.mp member).2)
        (ih _ shorter (List.Pairwise.filter _ sorted) rfl)
      have member : first ∈ columnOf (first :: rest) (leafIndex first.1) :=
        mem_columnOf.mpr ⟨mem_cons_self, rfl⟩
      rw [none] at member
      exact absurd member not_mem_nil

/-! ## The leaf of a column -/

section Column

variable {D : Type}

/-- Adjacent keys of an ordered list tell whether a key is repeated. -/
theorem checkForDuplicateKeys_spec (D : Type)
    (ordered : entries.Pairwise (fun left right => left.1 ≤ right.1)) :
    (SmtMap.Distinct entries -> (checkForDuplicateKeys entries : Outcome (MerkleError D) Unit) = .ok ()) ∧
      (¬ SmtMap.Distinct entries ->
        ∃ error, (checkForDuplicateKeys entries : Outcome (MerkleError D) Unit) = .err error) := by
  induction entries with
  | nil => exact ⟨fun _ => rfl, fun repeated => absurd nodup_nil repeated⟩
  | cons first rest ih =>
    rcases pairwise_cons.mp ordered with ⟨least, others⟩
    rcases rest with _ | ⟨second, rest⟩
    · exact ⟨fun _ => rfl, fun repeated => absurd (nodup_singleton first.1) repeated⟩
    · rw [checkForDuplicateKeys]
      by_cases same : first.1 = second.1
      · rw [if_pos same]
        refine ⟨fun distinct => ?_, fun _ => ⟨_, rfl⟩⟩
        exact absurd same.symm ((SmtMap.distinct_cons.mp distinct).1 second mem_cons_self)
      · rw [if_neg same]
        rcases ih others with ⟨passes, fails⟩
        refine ⟨fun distinct => passes (SmtMap.distinct_cons.mp distinct).2,
          fun repeated => fails (fun distinct => repeated (SmtMap.distinct_cons.mpr
            ⟨fun other member equal => ?_, distinct⟩))⟩
        -- A later key is at least the second one, which is above the first.
        have next := lt_of_le_of_ne (least second mem_cons_self) same
        rcases mem_cons.mp member with here | later
        · rw [here] at equal
          exact same equal.symm
        · have bound := (pairwise_cons.mp others).1 other later
          exact absurd (lt_of_lt_of_le next bound) (equal ▸ lt_irrefl _)

/-- A column with a repeated key is an error. -/
theorem pairsToLeaf_repeated (repeated : ¬ SmtMap.Distinct column) :
    ∃ error, (pairsToLeaf column : Outcome (MerkleError D) (Option SmtLeaf)) = .err error := by
  rcases column with _ | ⟨first, _ | ⟨second, rest⟩⟩
  · exact absurd nodup_nil repeated
  · exact absurd (nodup_singleton first.1) repeated
  · have sorted : ¬ SmtMap.Distinct (sortByKey (first :: second :: rest)) :=
      fun distinct => repeated (distinct.perm (sortByKey_perm _))
    rcases (checkForDuplicateKeys_spec D (ordered_sortByKey _)).2 sorted with ⟨error, failed⟩
    exact ⟨error, by rw [pairsToLeaf, failed]; rfl⟩

/-- Too many different keys abort. -/
theorem pairsToLeaf_overfull (distinct : SmtMap.Distinct column)
    (overfull : maxLeafEntries < column.length) :
    (pairsToLeaf column : Outcome (MerkleError D) (Option SmtLeaf)) = .panic := by
  rcases column with _ | ⟨first, _ | ⟨second, rest⟩⟩
  · exact absurd overfull (by decide)
  · exact absurd overfull (by simp [maxLeafEntries])
  · have length := (sortByKey_perm (first :: second :: rest)).length_eq
    have passed := (checkForDuplicateKeys_spec D (ordered_sortByKey _)).1
      (distinct.perm (sortByKey_perm (first :: second :: rest)).symm)
    rw [pairsToLeaf, passed, ok_bind, newMultiple_too_many (length ▸ overfull)]
    rfl

theorem pairsToLeaf_eq (some : column ≠ [])
    (here : forall entry, entry ∈ column -> leafIndex entry.1 = index)
    (distinct : SmtMap.Distinct column) (fits : column.length ≤ maxLeafEntries) :
    (pairsToLeaf column : Outcome (MerkleError D) (Option SmtLeaf)) =
      .ok (if leafEntries column = [] then none
        else .some (.ofEntries index (leafEntries column))) := by
  rcases column with _ | ⟨first, _ | ⟨second, rest⟩⟩
  · exact absurd rfl some
  · rcases first with ⟨key, value⟩
    rw [pairsToLeaf, leafEntries]
    by_cases zero : value = Word.zero
    · rw [if_pos zero, if_pos zero, if_pos rfl]
    · rw [if_neg zero, if_neg zero, if_neg (cons_ne_nil _ _)]
      rfl
  · have perm := sortByKey_perm (first :: second :: rest)
    have length : (sortByKey (first :: second :: rest)).length = rest.length + 2 := perm.length_eq
    have several : 1 < (sortByKey (first :: second :: rest)).length := by
      rw [length]
      exact Nat.le_add_left 2 _
    have filled : sortByKey (first :: second :: rest) ≠ [] := fun none => by
      rw [none] at several
      exact absurd several (by decide)
    have passed := (checkForDuplicateKeys_spec D (ordered_sortByKey _)).1 (distinct.perm perm.symm)
    have made := newMultiple_eq several (perm.length_eq ▸ fits)
      (fun entry member => here entry (perm.mem_iff.mp member))
    rw [pairsToLeaf, passed, ok_bind, made, leafEntries, if_neg filled]
    · rfl
    · intro key value single
      cases single

/-! ## Grouping -/

/-- Store a leaf if there is one. -/
def storeLeaf (nodes : OrderedMap Nat SmtLeaf) (index : Nat) :
    Option SmtLeaf -> OrderedMap Nat SmtLeaf
  | some leaf => nodes.insert index leaf
  | none => nodes

theorem get?_storeLeaf (nodes : OrderedMap Nat SmtLeaf) (index : Nat) (leaf : Option SmtLeaf)
    (wanted : Nat) :
    (storeLeaf nodes index leaf).get? wanted =
      if wanted = index then leaf.or (nodes.get? index) else nodes.get? wanted := by
  cases leaf with
  | none =>
    rw [storeLeaf, none_or]
    split
    · rename_i same
      rw [same]
    · rfl
  | some leaf => rw [storeLeaf, get?_insert, some_or]

variable {σ ε : Type} {processLeaf : List (Word × Word) -> σ -> Outcome ε (Option SmtLeaf × σ)}

/-- A column is handed over as a whole. -/
theorem processPairs_group {group rest : List (Word × Word)} (some : group ≠ [])
    (here : forall entry, entry ∈ group -> leafIndex entry.1 = index)
    (above : forall entry, entry ∈ rest -> index < leafIndex entry.1) (buffer : List (Word × Word))
    (nodes : OrderedMap Nat SmtLeaf) (state : σ) :
    processPairs processLeaf buffer (group ++ rest) nodes state =
      processLeaf (buffer ++ group) state >>= fun processed =>
        processPairs processLeaf [] rest (storeLeaf nodes index processed.1) processed.2 := by
  induction group generalizing buffer with
  | nil => exact absurd rfl some
  | cons first group ih =>
    have same := here first mem_cons_self
    rcases group with _ | ⟨second, group⟩
    · have next : ¬ rest.head?.map (fun next => leafIndex next.1) = .some (leafIndex first.1) := by
        rcases rest with _ | ⟨second, rest⟩
        · exact fun impossible => by cases impossible
        · rw [head?_cons, Option.map_some, Option.some.injEq, same]
          exact ne_of_gt (above second mem_cons_self)
      rw [cons_append, nil_append, processPairs]
      simp only [if_neg next]
      refine congrArg (Outcome.bind (processLeaf (buffer ++ [first]) state)) (funext (fun processed => ?_))
      rcases processed with ⟨_ | leaf, after⟩
      · rfl
      · rw [← same]
        rfl
    · have next : ((second :: group) ++ rest).head?.map (fun next => leafIndex next.1) =
          .some (leafIndex first.1) := by
        rw [cons_append, head?_cons, map_some, same, here second (mem_cons_of_mem _ mem_cons_self)]
      rw [cons_append, processPairs]
      simp only [if_pos next]
      rw [ih (cons_ne_nil _ _) (fun entry member => here entry (mem_cons_of_mem _ member)), append_assoc]
      rfl

end Column

end MidenVm.Crypto
