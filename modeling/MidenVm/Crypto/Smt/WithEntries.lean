import MidenVm.Crypto.Smt.BatchCalls
import MidenVm.Crypto.Smt.ConcurrentSpec

namespace MidenVm.Crypto

open Foundation List Outcome OrderedMap SmtLeaf SmtMap
open Foundation.Mountain

/-!
# Two ways to build a tree

Inserting entries one by one and building the tree in bulk agree on most lists.
They part in two cases.  A column with several entries keeps its empty values
when it is built in bulk, and inserting drops them.  A column with more
different keys than a leaf can hold makes the bulk construction abort, unless a
repeated key in an earlier column is reported first; inserting reports an
error.
-/

/-! ## What can be wrong with a column -/

variable {other index : Nat} {entries column : List (Word × Word)} {nodes leaves : OrderedMap Nat SmtLeaf}
  {entriesOf : Nat -> List (Word × Word)} {content : SmtMap} {entry : Word × Word} {keySetToZero : List Word}

/-- A key of the leaf is listed twice. -/
def Repeats (entries : List (Word × Word)) (index : Nat) : Prop :=
  ¬ SmtMap.Distinct (columnOf entries index)

/-- More entries than a leaf can hold. -/
def Overfull (entries : List (Word × Word)) (index : Nat) : Prop :=
  maxLeafEntries < (columnOf entries index).length

/-- Several entries, one of them with an empty value. -/
def Mixed (entries : List (Word × Word)) (index : Nat) : Prop :=
  1 < (columnOf entries index).length ∧ ∃ entry ∈ columnOf entries index, entry.2 = Word.zero

theorem leafEntries_nil : leafEntries [] = [] := by
  rw [leafEntries, sortByKey, insertionSort_nil]
  intro key value single
  cases single

/-- The leaf that is built from a column. -/
def builtLeaf (entries : List (Word × Word)) (index : Nat) : Option SmtLeaf :=
  if leafEntries (columnOf entries index) = [] then none
  else some (.ofEntries index (leafEntries (columnOf entries index)))

section Group

variable {group rest : List (Word × Word)}
  (here : forall entry, entry ∈ group -> leafIndex entry.1 = index)
  (above : forall entry, entry ∈ rest -> index < leafIndex entry.1)
include above

theorem columnOf_before (lower : other ≤ index) : columnOf rest other = [] :=
  filter_eq_nil_iff.mpr (fun entry member same => by
    have bound := above entry member
    rw [of_decide_eq_true same] at bound
    omega)

include here

theorem columnOf_append (other : Nat) :
    columnOf (group ++ rest) other = if other = index then group else columnOf rest other := by
  rw [columnOf, filter_append]
  split
  · rename_i same
    have own :=
      filter_eq_self.mpr (fun entry member => decide_eq_true ((here entry member).trans same.symm))
    have none := columnOf_before above (le_of_eq same)
    rw [columnOf] at none
    rw [own, none, append_nil]
  · rename_i apart
    have none : group.filter (fun entry => leafIndex entry.1 = other) = [] :=
      filter_eq_nil_iff.mpr (fun entry member same =>
        apart ((of_decide_eq_true same).symm.trans (here entry member)))
    rw [none, nil_append, columnOf]

end Group

/-! ## The leaves of all columns -/

section Leaves

variable {D : Type}

/-- The leaves that `sorted_pairs_to_leaves` builds. -/
def leavesOf (D : Type) (entries : List (Word × Word)) (nodes : OrderedMap Nat SmtLeaf) :
    Outcome (MerkleError D) (OrderedMap Nat SmtLeaf × Unit) :=
  processPairs (fun pairs state => (fun leaf => (leaf, state)) <$> pairsToLeaf pairs) [] entries
    nodes ()

theorem leavesOf_group {group rest : List (Word × Word)} (some : group ≠ [])
    (here : forall entry, entry ∈ group -> leafIndex entry.1 = index)
    (above : forall entry, entry ∈ rest -> index < leafIndex entry.1)
    (nodes : OrderedMap Nat SmtLeaf) :
    leavesOf D (group ++ rest) nodes =
      pairsToLeaf group >>= fun leaf => leavesOf D rest (storeLeaf nodes index leaf) := by
  rw [leavesOf, processPairs_group some here above, nil_append]
  cases (pairsToLeaf group : Outcome (MerkleError D) (Option SmtLeaf)) with
  | ok leaf => rfl
  | err error => rfl
  | panic => rfl

/-- Every column can be made a leaf. -/
def Sound (entries : List (Word × Word)) : Prop :=
  forall index, ¬ Repeats entries index ∧ ¬ Overfull entries index

/-- A key is repeated, and no leaf before is overfull. -/
def Refused (entries : List (Word × Word)) : Prop :=
  ∃ index, Repeats entries index ∧ forall other, other < index -> ¬ Overfull entries other

/-- A leaf is overfull, and no key is repeated in it or before. -/
def Aborts (entries : List (Word × Word)) : Prop :=
  ∃ index, Overfull entries index ∧ forall other, other ≤ index -> ¬ Repeats entries other

theorem not_aborts_of_refused (refused : Refused entries) : ¬ Aborts entries := by
  rintro ⟨index, overfull, distinct⟩
  rcases refused with ⟨first, repeated, fits⟩
  rcases lt_or_ge index first with before | after
  · exact fits index before overfull
  · exact distinct first after repeated

/-- How making the leaves of all columns can end. -/
inductive LeavesEnd (entries : List (Word × Word)) (nodes : OrderedMap Nat SmtLeaf) :
    Outcome (MerkleError D) (OrderedMap Nat SmtLeaf × Unit) -> Prop
  | made (sound : Sound entries) (leaves : OrderedMap Nat SmtLeaf)
      (stored : forall index, leaves.get? index =
        (builtLeaf entries index).or (nodes.get? index)) : LeavesEnd entries nodes (.ok (leaves, ()))
  | refused (fault : Refused entries) (error : MerkleError D) : LeavesEnd entries nodes (.err error)
  | aborted (fault : Aborts entries) : LeavesEnd entries nodes .panic

/-- Entries with the same faults and the same leaves end alike. -/
theorem LeavesEnd.transfer {others : List (Word × Word)} {before : OrderedMap Nat SmtLeaf}
    {outcome : Outcome (MerkleError D) (OrderedMap Nat SmtLeaf × Unit)}
    (ends : LeavesEnd others before outcome)
    (repeats : Repeats others = Repeats entries) (overfull : Overfull others = Overfull entries)
    (built : Sound others -> forall index, (builtLeaf others index).or (before.get? index) =
      (builtLeaf entries index).or (nodes.get? index)) : LeavesEnd entries nodes outcome := by
  cases ends with
  | made sound leaves stored =>
    refine .made ?_ leaves (fun index => (stored index).trans (built sound index))
    rwa [Sound, repeats, overfull] at sound
  | refused fault error =>
    rw [Refused, repeats, overfull] at fault
    exact .refused fault error
  | aborted fault =>
    rw [Aborts, repeats, overfull] at fault
    exact .aborted fault

section Block

variable {group rest : List (Word × Word)}
  (here : forall entry, entry ∈ group -> leafIndex entry.1 = index)
  (above : forall entry, entry ∈ rest -> index < leafIndex entry.1)
include here above

theorem repeats_append (distinct : SmtMap.Distinct group) :
    Repeats rest = Repeats (group ++ rest) := by
  funext other
  rw [Repeats, Repeats, columnOf_append here above]
  split
  · rename_i same
    rw [columnOf_before above (le_of_eq same)]
    exact propext (iff_of_false (not_not.mpr nodup_nil) (not_not.mpr distinct))
  · rfl

theorem overfull_append (fits : group.length ≤ maxLeafEntries) :
    Overfull rest = Overfull (group ++ rest) := by
  funext other
  rw [Overfull, Overfull, columnOf_append here above]
  split
  · rename_i same
    rw [columnOf_before above (le_of_eq same)]
    exact propext (iff_of_false (Nat.not_lt.mpr (Nat.zero_le _)) (Nat.not_lt.mpr fits))
  · rfl

/-- The leaf of the first column is stored before the others are made. -/
theorem LeavesEnd.append (distinct : SmtMap.Distinct group) (fits : group.length ≤ maxLeafEntries)
    {outcome : Outcome (MerkleError D) (OrderedMap Nat SmtLeaf × Unit)}
    (later : LeavesEnd rest (storeLeaf nodes index (if leafEntries group = [] then none
        else some (.ofEntries index (leafEntries group)))) outcome) :
    LeavesEnd (group ++ rest) nodes outcome := by
  refine later.transfer (repeats_append here above distinct) (overfull_append here above fits)
    (fun _ other => ?_)
  rw [get?_storeLeaf, builtLeaf, builtLeaf, columnOf_append here above]
  by_cases same : other = index
  · rw [if_pos same, if_pos same, same, columnOf_before above (le_refl index), leafEntries_nil,
      if_pos rfl, Option.none_or]
  · rw [if_neg same, if_neg same]

end Block

/-- Columns become leaves one after the other, until the first that is at
fault. -/
theorem leavesOf_ends (sorted : ByColumn entries) :
    forall nodes : OrderedMap Nat SmtLeaf, LeavesEnd entries nodes (leavesOf D entries nodes) := by
  refine ByColumn.induction (motive := fun entries => forall nodes : OrderedMap Nat SmtLeaf,
    LeavesEnd entries nodes (leavesOf D entries nodes)) ?_ ?_ sorted
  · intro nodes
    have fine : Sound [] := fun index =>
      ⟨fun repeated => repeated nodup_nil, Nat.not_lt.mpr (Nat.zero_le _)⟩
    refine .made fine nodes (fun index => ?_)
    rw [builtLeaf, columnOf, filter_nil, leafEntries_nil, if_pos rfl, Option.none_or]
  · intro index group rest some here above ih nodes
    have before {other : Nat} (lower : other < index) : columnOf (group ++ rest) other = [] := by
      rw [columnOf_append here above, if_neg (Nat.ne_of_lt lower)]
      exact columnOf_before above (Nat.le_of_lt lower)
    rw [leavesOf_group some here above]
    by_cases distinct : SmtMap.Distinct group
    · rcases Nat.lt_or_ge maxLeafEntries group.length with full | fits
      · rw [pairsToLeaf_overfull distinct full]
        refine .aborted ⟨index, ?_, fun other lower repeated => ?_⟩
        · rw [Overfull, columnOf_append here above, if_pos rfl]
          exact full
        · rw [Repeats, columnOf_append here above] at repeated
          split at repeated
          · exact repeated distinct
          · rw [columnOf_before above lower] at repeated
            exact repeated nodup_nil
      · rw [pairsToLeaf_eq some here distinct fits, ok_bind]
        exact (ih _).append here above distinct fits
    · rcases pairsToLeaf_repeated (D := D) distinct with ⟨error, failed⟩
      rw [failed]
      refine .refused ⟨index, ?_, fun other lower full => ?_⟩ error
      · rw [Repeats, columnOf_append here above, if_pos rfl]
        exact distinct
      · rw [Overfull, before lower] at full
        exact absurd full (Nat.not_lt.mpr (Nat.zero_le _))

end Leaves

/-! ## Entries in another order -/

theorem leafEntries_several (several : 1 < column.length) :
    leafEntries column = sortByKey column := by
  rw [leafEntries]
  rintro key value rfl
  exact absurd several (lt_irrefl 1)

theorem leafEntries_few (few : column.length ≤ 1) :
    leafEntries column = column.filter (fun entry => entry.2 ≠ Word.zero) := by
  rcases column with _ | ⟨⟨key, value⟩, _ | ⟨second, rest⟩⟩
  · exact leafEntries_nil
  · rw [leafEntries, filter_singleton, decide_not, Bool.cond_not, Bool.cond_decide]
  · exact absurd few (by simp)

theorem leafEntries_perm {left right : List (Word × Word)} (distinct : SmtMap.Distinct left)
    (same : left.Perm right) : leafEntries left = leafEntries right := by
  rcases lt_or_ge 1 left.length with several | few
  · rw [leafEntries_several several, leafEntries_several (same.length_eq ▸ several)]
    refine sorted_eq_of_perm (sorted_sortByKey distinct)
      (sorted_sortByKey (distinct.perm same)) ?_
    exact (sortByKey_perm left).trans (same.trans (sortByKey_perm right).symm)
  · rcases left with _ | ⟨first, _ | ⟨second, rest⟩⟩
    · rw [same.nil_eq]
    · rw [singleton_perm.mp same]
    · exact absurd few (by simp)

section Order

variable {sorted entries : List (Word × Word)} (same : sorted.Perm entries)
include same

theorem columnOf_perm (index : Nat) : (columnOf sorted index).Perm (columnOf entries index) :=
  same.filter _

theorem repeats_perm : Repeats sorted = Repeats entries :=
  funext (fun index => propext (not_congr ⟨fun distinct => distinct.perm (columnOf_perm same index),
    fun distinct => distinct.perm (columnOf_perm same index).symm⟩))

theorem overfull_perm : Overfull sorted = Overfull entries :=
  funext (fun index => by rw [Overfull, (columnOf_perm same index).length_eq, Overfull])

theorem LeavesEnd.perm {D : Type}
    {outcome : Outcome (MerkleError D) (OrderedMap Nat SmtLeaf × Unit)}
    (ends : LeavesEnd sorted nodes outcome) : LeavesEnd entries nodes outcome := by
  refine ends.transfer (repeats_perm same) (overfull_perm same) (fun sound index => ?_)
  rw [builtLeaf, builtLeaf, leafEntries_perm (not_not.mp (sound index).1) (columnOf_perm same index)]

end Order

namespace Smt

variable {D : Type} [DecidableEq D] {hasher : SmtHasher D}

/-! ## The tree of the bulk construction -/

/-- The tree over given leaves. -/
structure Built (hasher : SmtHasher D) (tree : Smt D) (entriesOf : Nat -> List (Word × Word)) :
    Prop where
  leaves : LeavesOf entriesOf tree.leaves
  numEntries : tree.numEntries = (tree.leaves.entries.map (fun entry => entry.2.numEntries)).sum
  root : tree.root = node hasher.merge (fun index => hashEntries hasher (entriesOf index)) smtDepth 0
  innerNodes : forall index, tree.innerNodes.get? index =
    innerNodeOf hasher (fun index => hashEntries hasher (entriesOf index)) index

theorem new_built (hasher : SmtHasher D) (none : forall index, entriesOf index = []) :
    (Smt.new hasher).Built hasher entriesOf := by
  have constant : entriesOf = fun _ => [] := funext none
  rw [constant]
  exact ⟨fun index => rfl, rfl, (new_represents hasher).root, (new_represents hasher).innerNodes⟩

/-- How the bulk construction can end. -/
inductive ConcurrentEnd (hasher : SmtHasher D) (entries : List (Word × Word)) :
    Outcome (MerkleError D) (Smt D) -> Prop
  | made (sound : Sound entries) (tree : Smt D)
      (built : tree.Built hasher (fun index => leafEntries (columnOf entries index))) :
      ConcurrentEnd hasher entries (.ok tree)
  | refused (fault : Refused entries) (error : MerkleError D) : ConcurrentEnd hasher entries (.err error)
  | aborted (fault : Aborts entries) : ConcurrentEnd hasher entries .panic

/-- The node over a leaf with entries is stored at the root. -/
theorem LeavesOf.root_stored (free : hasher.EmptyFree) (of : LeavesOf entriesOf leaves)
    (some : leaves.entries ≠ [])
    (inside : forall index, entriesOf index ≠ [] -> index < 2 ^ smtDepth) :
    innerNodeOf hasher (fun index => hashEntries hasher (entriesOf index)) .root =
      .some (childrenOf hasher (fun index => hashEntries hasher (entriesOf index)) 63 0) := by
  rcases exists_mem_of_ne_nil _ some with ⟨⟨col, leaf⟩, listed⟩
  have found := of col
  rw [mem_entries.mp listed] at found
  have filled : entriesOf col ≠ [] := fun none => by
    rw [if_pos none] at found
    cases found
  have solid : levelOf hasher (fun index => hashEntries hasher (entriesOf index)) 0 col ≠
      emptyOf hasher 0 := fun empty => filled (free.leaf _ empty)
  have above := level_ne_empty free solid smtDepth
  rw [zero_add, Nat.div_eq_of_lt (inside col filled)] at above
  have level : 0 + (63 + 1) = smtDepth := rfl
  exact (innerNodeOf_eq hasher level).trans (if_neg above)

theorem leafEntries_column_lt (some : leafEntries (columnOf entries index) ≠ []) :
    index < 2 ^ smtDepth := by
  have filled : columnOf entries index ≠ [] := fun none => some (by rw [none, leafEntries_nil])
  rcases exists_mem_of_ne_nil _ filled with ⟨entry, member⟩
  rw [← (mem_columnOf.mp member).2]
  exact leafIndex_lt entry.1

/-- The tree over the leaves that were made. -/
theorem LeavesOf.assemble (free : hasher.EmptyFree)
    (of : LeavesOf (fun index => leafEntries (columnOf entries index)) leaves) :
    ∃ nodes, ((if leaves.entries = [] then pure (.empty, leaves)
        else do
          let accumulatedNodes ← buildRounds hasher (smtDepth / subtreeDepth)
            (SubtreeLeavesIter.collect (hashedLeaves hasher leaves)) .empty
          pure (accumulatedNodes, leaves)) : Outcome (MerkleError D) _) = .ok (nodes, leaves) ∧
      ∃ tree, ((if nodes.entries = [] then pure (new hasher)
          else do
            let rootNode ← .expect (nodes.get? .root)
            pure (fromRawParts nodes leaves (rootNode.hash hasher))) :
              Outcome (MerkleError D) (Smt D)) = .ok tree ∧
        tree.Built hasher (fun index => leafEntries (columnOf entries index)) := by
  by_cases none : leaves.entries = []
  · refine ⟨.empty, if_pos none, new hasher, if_pos rfl, new_built hasher (fun index => ?_)⟩
    by_contra some
    have found := of index
    have absent : leaves.get? index = .none := by
      rw [get?, none]
      rfl
    rw [absent, if_neg some] at found
    cases found
  · rcases of.build free with ⟨nodes, ran, stored⟩
    have root := (stored .root).trans (of.root_stored free none (fun _ => leafEntries_column_lt))
    have some : nodes.entries ≠ [] := fun empty => by
      rw [get?, empty] at root
      cases root
    refine ⟨nodes, ?_, fromRawParts nodes leaves _, ?_, of, rfl, rfl, stored⟩
    · rw [if_neg none, ran]
      rfl
    · rw [if_neg some, root]
      rfl

theorem withEntriesConcurrent_ends (free : hasher.EmptyFree) (sort : ColumnSort)
    (entries : List (Word × Word)) :
    ConcurrentEnd hasher entries (withEntriesConcurrent hasher sort entries) := by
  have ends := (leavesOf_ends (D := D) (sort.ordered entries) .empty).perm (sort.perm entries)
  rw [withEntriesConcurrent]
  split
  · rename_i none
    refine .made (fun index => ?_) _ (new_built hasher (fun index => ?_))
    · rw [none]
      exact ⟨fun repeated => repeated nodup_nil, Nat.not_lt.mpr (Nat.zero_le _)⟩
    · rw [none]
      exact leafEntries_nil
  · rw [leavesOf] at ends
    simp only [buildSubtreesFromSortedEntries]
    generalize processPairs _ [] (sort.sort entries) .empty () = outcome at ends ⊢
    cases ends with
    | made sound leaves stored =>
      have of : LeavesOf (fun index => leafEntries (columnOf entries index)) leaves := fun index =>
        (stored index).trans Option.or_none
      rcases of.assemble free with ⟨nodes, ran, tree, finished, built⟩
      simp only [ok_bind, ran, finished]
      exact .made sound tree built
    | refused fault error => exact .refused fault error
    | aborted fault => exact .aborted fault

end Smt

/-! ## The map of the entries -/

namespace SmtMap

theorem mem_entriesAt :
    entry ∈ content.entriesAt index ↔
      content.map.get? entry.1 = some entry.2 ∧ leafIndex entry.1 = index := by
  rw [entriesAt, select, mem_filter, decide_eq_true_eq]
  exact and_congr_left (fun _ => mem_entries)

/-- A map has no empty values. -/
theorem ne_zero_of_mem_entriesAt (member : entry ∈ content.entriesAt index) :
    entry.2 ≠ Word.zero := fun zero =>
  content.present entry.1 (zero ▸ (mem_entriesAt.mp member).1)

/-- The map of a list of entries holds those with a value. -/
theorem get?_writeAll_empty (distinct : Distinct entries) {key value : Word} :
    (empty.writeAll entries).map.get? key = some value ↔ (key, value) ∈ entries ∧
      value ≠ Word.zero := by
  rw [get?_eq]
  constructor
  · intro found
    split at found
    · cases found
    · rename_i filled
      cases found
      refine ⟨?_, filled⟩
      by_contra absent
      refine filled (value_writeAll_apart (fun pair member same => absent ?_) _)
      have held := value_writeAll_of_mem distinct member empty
      rw [same] at held
      rw [held, ← same]
      exact member
  · rintro ⟨member, filled⟩
    have held := value_writeAll_of_mem distinct member empty
    change (empty.writeAll entries).value key = value at held
    rw [held, if_neg filled]

/-- The number of keys is the sum over the leaves. -/
theorem size_eq_sum (stored : forall index, leaves.get? index = content.leafAt index) :
    (leaves.entries.map (fun entry => entry.2.numEntries)).sum = content.size := by
  have sizes : leaves.entries.map (fun entry => entry.2.numEntries) =
      (leaves.entries.map Prod.fst).map (fun col => (content.entriesAt col).length) := by
    rw [map_map]
    refine map_congr_left (fun entry member => ?_)
    have found := stored entry.1
    rw [mem_entries.mp member, leafAt] at found
    split at found
    · cases found
    · rw [Option.some.inj found, numEntries_ofEntries]
      rfl
  have distinct : content.map.entries.Nodup := Nodup.of_map _ content.map.nodup_keys
  have apart : ((leaves.entries.map Prod.fst).flatMap content.entriesAt).Nodup := by
    refine nodup_flatMap.mpr ⟨fun _ _ => distinct.filter _, leaves.nodup_keys.imp ?_⟩
    intro first second other entry here there
    exact other ((mem_entriesAt.mp here).2.symm.trans (mem_entriesAt.mp there).2)
  have all : ((leaves.entries.map Prod.fst).flatMap content.entriesAt).Perm content.map.entries := by
    refine (perm_ext_iff_of_nodup apart distinct).mpr (fun entry => ?_)
    rw [mem_flatMap]
    constructor
    · rintro ⟨col, _, here⟩
      exact mem_entries.mpr (mem_entriesAt.mp here).1
    · intro member
      have here := mem_entriesAt.mpr ⟨mem_entries.mp member, rfl⟩
      have found := stored (leafIndex entry.1)
      rw [leafAt, if_neg (ne_nil_of_mem here)] at found
      exact ⟨_, mem_map_of_mem (mem_entries.mpr found), here⟩
  rw [sizes, ← length_flatMap, all.length_eq, size]

end SmtMap

/-- Entries are different if those of every leaf are. -/
theorem distinct_of_columns (columns : forall index, SmtMap.Distinct (columnOf entries index)) :
    SmtMap.Distinct entries := by
  induction entries with
  | nil => exact nodup_nil
  | cons entry rest ih =>
    have inside (index : Nat) : (columnOf rest index).Sublist (columnOf (entry :: rest) index) :=
      (sublist_cons_self entry rest).filter _
    refine distinct_cons.mpr ⟨fun other member same => ?_,
      ih (fun index => (columns index).sublist (inside index))⟩
    have column : columnOf (entry :: rest) (leafIndex entry.1) =
        entry :: columnOf rest (leafIndex entry.1) := by
      simp [columnOf]
    have distinct := columns (leafIndex entry.1)
    rw [column] at distinct
    exact (distinct_cons.mp distinct).1 other (mem_columnOf.mpr ⟨member, by rw [same]⟩) same

theorem Sound.distinct (sound : Sound entries) : SmtMap.Distinct entries :=
  distinct_of_columns (fun index => not_not.mp (sound index).1)

theorem not_distinct_of_repeats (repeated : Repeats entries index) :
    ¬ SmtMap.Distinct entries :=
  fun distinct => repeated (distinct.sublist filter_sublist)

theorem Sound.room (sound : Sound entries) : empty.Room entries := by
  intro index
  refine le_trans ?_ (not_lt.mp (sound index).2)
  change 0 + _ ≤ _
  rw [zero_add, brought, columnOf, ← countP_eq_length_filter]
  refine countP_mono_left (fun entry _ brings => ?_)
  exact decide_eq_true (of_decide_eq_true brings).1

theorem sorted_leafEntries (distinct : SmtMap.Distinct column) :
    SortedEntries (leafEntries column) := by
  rcases lt_or_ge 1 column.length with several | few
  · rw [leafEntries_several several]
    exact sorted_sortByKey distinct
  · rw [leafEntries_few few]
    refine List.Pairwise.filter _ ?_
    rcases column with _ | ⟨only, _ | ⟨second, rest⟩⟩
    · exact List.Pairwise.nil
    · exact pairwise_singleton _ _
    · exact absurd few (by simp)

theorem mem_leafEntries (pure : ¬ Mixed entries index) :
    entry ∈ leafEntries (columnOf entries index) ↔ entry ∈ columnOf entries index ∧
      entry.2 ≠ Word.zero := by
  rcases lt_or_ge 1 (columnOf entries index).length with several | few
  · rw [leafEntries_several several, (sortByKey_perm _).mem_iff]
    exact ⟨fun member => ⟨member, fun zero => pure ⟨several, entry, member, zero⟩⟩, And.left⟩
  · rw [leafEntries_few few, mem_filter, decide_eq_true_eq]

/-- Without empty values beside others, the leaves are those of the map. -/
theorem Sound.entriesAt (sound : Sound entries) (pure : ¬ Mixed entries index) :
    leafEntries (columnOf entries index) = (empty.writeAll entries).entriesAt index := by
  have left := sorted_leafEntries (not_not.mp (sound index).1)
  have right := ((empty.writeAll entries).holds_entriesAt index).sorted
  refine sorted_ext left right (fun key => Option.ext (fun value => ?_))
  rw [← mem_iff_lookup left, ← mem_iff_lookup right, mem_leafEntries pure, mem_columnOf,
    mem_entriesAt, get?_writeAll_empty sound.distinct]
  exact ⟨fun both => ⟨⟨both.1.1, both.2⟩, both.1.2⟩, fun both => ⟨⟨both.1.1, both.2⟩, both.1.2⟩⟩

/-- An empty value beside others is kept. -/
theorem Mixed.entriesAt_ne (mixed : Mixed entries index) (content : SmtMap) :
    leafEntries (columnOf entries index) ≠ content.entriesAt index := by
  rcases mixed with ⟨several, entry, member, zero⟩
  intro same
  rw [leafEntries_several several] at same
  have kept := (sortByKey_perm (columnOf entries index)).mem_iff.mpr member
  rw [same] at kept
  exact ne_zero_of_mem_entriesAt kept zero

namespace Smt

variable {D : Type} [DecidableEq D] {hasher : SmtHasher D}
variable {tree : Smt D}

theorem Built.represents (built : tree.Built hasher entriesOf)
    (same : forall index, entriesOf index = content.entriesAt index) :
    tree.Represents hasher content := by
  rcases funext same with rfl
  exact {
    numEntries := built.numEntries.trans (size_eq_sum built.leaves)
    leaves := built.leaves
    root := built.root
    innerNodes := built.innerNodes }

omit [DecidableEq D] in
theorem LeavesOf.unique {first second : Nat -> List (Word × Word)} (left : LeavesOf first leaves)
    (right : LeavesOf second leaves) (index : Nat) : first index = second index := by
  have same := (left index).symm.trans (right index)
  split at same
  · rename_i none
    split at same
    · rename_i other
      rw [none, other]
    · cases same
  · split at same
    · cases same
    · have entries := congrArg entries (Option.some.inj same)
      rwa [entries_ofEntries, entries_ofEntries] at entries

/-- The two trees are the same when no leaf has an empty value beside others. -/
theorem Built.eq_iff {other : Smt D} (sound : Sound entries)
    (built : tree.Built hasher (fun index => leafEntries (columnOf entries index)))
    (represents : other.Represents hasher (empty.writeAll entries)) :
    tree = other ↔ forall index, ¬ Mixed entries index := by
  constructor
  · rintro rfl index mixed
    exact mixed.entriesAt_ne _ (built.leaves.unique represents.leaves index)
  · intro pure
    exact (built.represents (fun index => sound.entriesAt (pure index))).unique represents

/-! ## The tree of the insertions -/

/-- What `with_entries_sequential` accepts after the entries of a map were
inserted and some keys were set to the empty value. -/
def Accepts (content : SmtMap) (keySetToZero : List Word) (entries : List (Word × Word)) : Prop :=
  SmtMap.Distinct entries ∧
    (forall entry, entry ∈ entries -> content.value entry.1 = Word.zero ∧ entry.1 ∉ keySetToZero) ∧
    content.Fitting entries

theorem accepts_cons {key value : Word} {rest : List (Word × Word)} :
    Accepts content keySetToZero ((key, value) :: rest) ↔
      ¬ Overflows content key value ∧ (content.value key = Word.zero ∧ key ∉ keySetToZero) ∧
        Accepts (content.write key value)
          (if value = Word.zero then key :: keySetToZero else keySetToZero) rest := by
  have later {entry : Word × Word} (apart : entry.1 ≠ key) :
      ((content.write key value).value entry.1 = Word.zero ∧
        entry.1 ∉ (if value = Word.zero then key :: keySetToZero else keySetToZero)) ↔
      content.value entry.1 = Word.zero ∧ entry.1 ∉ keySetToZero := by
    rw [value_write, if_neg apart]
    split
    · rw [mem_cons, or_iff_right apart]
    · rfl
  constructor
  · rintro ⟨distinct, fresh, room, fitting⟩
    rcases distinct_cons.mp distinct with ⟨apart, others⟩
    rcases forall_mem_cons.mp fresh with ⟨here, rest⟩
    exact ⟨room, here, others,
      fun entry member => (later (apart entry member)).mpr (rest entry member), fitting⟩
  · rintro ⟨room, here, others, fresh, fitting⟩
    -- A later entry with the same key would have been seen by now.
    have apart : forall entry, entry ∈ rest -> entry.1 ≠ key := by
      intro entry member same
      rcases fresh entry member with ⟨absent, unset⟩
      rw [same, value_write, if_pos rfl] at absent
      rw [same, if_pos absent] at unset
      exact unset mem_cons_self
    exact ⟨distinct_cons.mpr ⟨apart, others⟩, forall_mem_cons.mpr
      ⟨here, fun entry member => (later (apart entry member)).mp (fresh entry member)⟩,
        room, fitting⟩

theorem insertEntries_cons {key value old : Word} {rest : List (Word × Word)} {after : Smt D}
    (ran : Smt.insert hasher key value tree = (.ok old, after)) :
    insertEntries hasher ((key, value) :: rest) keySetToZero tree =
      if old ≠ Word.zero ∨ key ∈ keySetToZero then .err (.duplicateValuesForIndex (leafIndex key))
      else insertEntries hasher rest
        (if value = Word.zero then key :: keySetToZero else keySetToZero) after := by
  simp only [insertEntries, ran, ok_bind]

theorem insertEntries_spec (free : hasher.EmptyFree) (entries : List (Word × Word))
    (keySetToZero : List Word) (represents : tree.Represents hasher content) :
    (Accepts content keySetToZero entries ->
      ∃ final, insertEntries hasher entries keySetToZero tree = .ok final ∧
        final.Represents hasher (content.writeAll entries)) ∧
    (¬ Accepts content keySetToZero entries ->
      ∃ error, insertEntries hasher entries keySetToZero tree = .err error) := by
  induction entries generalizing keySetToZero tree content with
  | nil =>
    refine ⟨fun _ => ⟨tree, rfl, represents⟩, fun refused => absurd ?_ refused⟩
    exact ⟨nodup_nil, forall_mem_nil _, trivial⟩
  | cons entry rest ih =>
    rcases entry with ⟨key, value⟩
    rw [accepts_cons]
    rcases represents.insert_cases free key value with
      ⟨error, overflows, ran⟩ | ⟨after, room, ran, stays⟩
    · refine ⟨fun accepts => absurd overflows accepts.1, fun _ => ⟨error, ?_⟩⟩
      rw [insertEntries, ran]
      rfl
    · rw [insertEntries_cons ran]
      by_cases seen : content.value key ≠ Word.zero ∨ key ∈ keySetToZero
      · rw [if_pos seen]
        refine ⟨fun accepts => ?_, fun _ => ⟨_, rfl⟩⟩
        rcases seen with held | set
        · exact absurd accepts.2.1.1 held
        · exact absurd set accepts.2.1.2
      · rw [if_neg seen]
        push Not at seen
        rcases ih (if value = Word.zero then key :: keySetToZero else keySetToZero) stays with
          ⟨succeeds, fails⟩
        exact ⟨fun accepts => succeeds accepts.2.2,
          fun refused => fails (fun accepts => refused ⟨room, seen, accepts⟩)⟩

theorem accepts_empty : Accepts .empty [] entries ↔ SmtMap.Distinct entries ∧ empty.Fitting entries :=
  and_congr_right (fun _ => and_iff_right (fun _ _ => ⟨rfl, not_mem_nil⟩))

/-! ## Agreement -/

/-- Both end with the same value, or both with an error. -/
def Agree {ε α : Type} (left right : Outcome ε α) : Prop :=
  (∃ value, left = .ok value ∧ right = .ok value) ∨ ∃ error other, left = .err error ∧
    right = .err other

/-- Entries that both constructions accept. -/
theorem agree_of_sound (free : hasher.EmptyFree) (sort : ColumnSort) (sound : Sound entries) :
    ∃ left right, withEntriesConcurrent hasher sort entries = .ok left ∧
      withEntriesSequential hasher entries = .ok right ∧
      (left = right ↔ forall index, ¬ Mixed entries index) := by
  rcases insertEntries_spec free entries [] (new_represents hasher) with ⟨succeeds, _⟩
  rcases succeeds (accepts_empty.mpr ⟨sound.distinct, sound.room.fitting sound.distinct⟩) with
    ⟨right, ran, represents⟩
  have ends := withEntriesConcurrent_ends free sort entries
  generalize withEntriesConcurrent hasher sort entries = concurrent at ends ⊢
  cases ends with
  | made _ left built => exact ⟨left, right, rfl, ran, built.eq_iff sound represents⟩
  | refused fault error =>
    rcases fault with ⟨index, repeated, _⟩
    exact absurd repeated (sound index).1
  | aborted fault =>
    rcases fault with ⟨index, full, _⟩
    exact absurd full (sound index).2

theorem panics_of_aborts (free : hasher.EmptyFree) (sort : ColumnSort) (aborts : Aborts entries) :
    withEntriesConcurrent hasher sort entries = .panic := by
  have ends := withEntriesConcurrent_ends free sort entries
  generalize withEntriesConcurrent hasher sort entries = concurrent at ends ⊢
  cases ends with
  | made sound left built =>
    rcases aborts with ⟨index, full, _⟩
    exact absurd full (sound index).2
  | refused fault error => exact absurd aborts (not_aborts_of_refused fault)
  | aborted fault => rfl

/-- The two constructions agree exactly when a repeated key is found before any
overfull leaf, or there is none of the two and no leaf has an empty value beside
other entries. -/
theorem with_entries_agree_iff (free : hasher.EmptyFree) (sort : ColumnSort)
    (entries : List (Word × Word)) :
    Agree (withEntriesConcurrent hasher sort entries) (withEntriesSequential hasher entries) ↔
      (∃ index, Repeats entries index ∧ forall other, other < index -> ¬ Overfull entries other) ∨
      forall index, ¬ Repeats entries index ∧ ¬ Overfull entries index ∧ ¬ Mixed entries index := by
  have ends := withEntriesConcurrent_ends free sort entries
  constructor
  · intro agree
    cases ended : withEntriesConcurrent hasher sort entries with
    | ok tree =>
      rw [ended] at ends agree
      cases ends with
      | made sound _ built =>
        rcases agree_of_sound free sort sound with ⟨left, right, first, second, same⟩
        rcases agree with ⟨value, here, there⟩ | ⟨error, other, here, there⟩
        · have equal : left = right := by
            rw [← Outcome.ok.inj (ended.symm.trans first), Outcome.ok.inj here,
              Outcome.ok.inj (there.symm.trans second)]
          exact .inr (fun index => ⟨(sound index).1, (sound index).2, same.mp equal index⟩)
        · cases here
    | err error =>
      rw [ended] at ends
      cases ends with
      | refused fault _ => exact .inl fault
    | panic =>
      rw [ended] at agree
      rcases agree with ⟨_, here, _⟩ | ⟨_, _, here, _⟩
      · cases here
      · cases here
  · rintro (refused | pure)
    · rcases refused with ⟨index, repeated, early⟩
      rcases insertEntries_spec free entries [] (new_represents hasher) with ⟨_, fails⟩
      rcases fails (fun accepted =>
        not_distinct_of_repeats repeated (accepts_empty.mp accepted).1) with ⟨other, failed⟩
      generalize withEntriesConcurrent hasher sort entries = concurrent at ends ⊢
      cases ends with
      | made sound _ _ => exact absurd repeated (sound index).1
      | refused _ error => exact .inr ⟨error, other, rfl, failed⟩
      | aborted fault => exact absurd fault (not_aborts_of_refused ⟨index, repeated, early⟩)
    · have sound : Sound entries := fun index => ⟨(pure index).1, (pure index).2.1⟩
      rcases agree_of_sound free sort sound with ⟨left, right, first, second, same⟩
      exact .inl ⟨left, first, (same.mpr (fun index => (pure index).2.2)) ▸ second⟩

/-- A stable sort by leaf. -/
def stableColumns : ColumnSort where
  sort entries := entries.insertionSort (Order.Preimage (fun entry => leafIndex entry.1) (· ≤ ·))
  perm entries := perm_insertionSort _ entries
  ordered entries := pairwise_insertionSort _ entries

theorem with_entries_agree_iff_shared_leaf :
    freeHasher.EmptyFree ∧
      Agree
        (withEntriesConcurrent freeHasher stableColumns
          [(⟨1, 0, 0, 5⟩, ⟨7, 0, 0, 0⟩), (⟨0, 0, 0, 6⟩, ⟨9, 0, 0, 0⟩),
            (⟨0, 0, 0, 5⟩, ⟨8, 0, 0, 0⟩)])
        (withEntriesSequential freeHasher
          [(⟨1, 0, 0, 5⟩, ⟨7, 0, 0, 0⟩), (⟨0, 0, 0, 6⟩, ⟨9, 0, 0, 0⟩),
            (⟨0, 0, 0, 5⟩, ⟨8, 0, 0, 0⟩)]) := by
  have free := freeHasher_collisionFree.emptyFree
  refine ⟨free, (with_entries_agree_iff free stableColumns _).mpr (.inr (fun index => ⟨?_, ?_, ?_⟩))⟩
  · exact not_not.mpr (SmtMap.Distinct.sublist (by decide) filter_sublist)
  · exact not_lt.mpr (le_trans (length_filter_le _ _) (by decide))
  · rintro ⟨_, entry, member, zero⟩
    have filled : forall entry, entry ∈ ([(⟨1, 0, 0, 5⟩, ⟨7, 0, 0, 0⟩), (⟨0, 0, 0, 6⟩, ⟨9, 0, 0, 0⟩),
        (⟨0, 0, 0, 5⟩, ⟨8, 0, 0, 0⟩)] : List (Word × Word)) -> entry.2 ≠ Word.zero := by decide
    exact filled entry (mem_columnOf.mp member).1 zero

/-- An empty value beside another entry of its leaf makes two different trees,
and one key more than a leaf can hold aborts the bulk construction. -/
theorem with_entries_disagree :
    (∃ left right,
      withEntriesConcurrent freeHasher stableColumns [(heldKey, otherValue),
      (otherKey, Word.zero)] = .ok left ∧
      withEntriesSequential freeHasher [(heldKey, otherValue), (otherKey, Word.zero)] = .ok right ∧
      left ≠ right) ∧
    withEntriesConcurrent freeHasher stableColumns ((otherKey, otherValue) :: fullLeaf) = .panic := by
  have free := freeHasher_collisionFree.emptyFree
  constructor
  · have sound : Sound [(heldKey, otherValue), (otherKey, Word.zero)] := fun index =>
      ⟨not_not.mpr (SmtMap.Distinct.sublist (by decide) filter_sublist),
        not_lt.mpr (le_trans (length_filter_le _ _) (by decide))⟩
    rcases agree_of_sound free stableColumns sound with ⟨left, right, first, second, same⟩
    refine ⟨left, right, first, second, fun equal => same.mp equal 5 ⟨by decide, ?_⟩⟩
    exact ⟨(otherKey, Word.zero), by decide, rfl⟩
  · have apart : forall entry, entry ∈ fullLeaf -> entry.1 ≠ otherKey := fun entry member same =>
      (mem_fullLeaf member).2.1 (congrArg Word.a same)
    have distinct : SmtMap.Distinct ((otherKey, otherValue) :: fullLeaf) :=
      distinct_cons.mpr ⟨apart, distinct_fullLeaf⟩
    have column : columnOf ((otherKey, otherValue) :: fullLeaf) 5 =
        (otherKey, otherValue) :: fullLeaf :=
      filter_eq_self.mpr (forall_mem_cons.mpr
        ⟨by decide, fun entry member => decide_eq_true (brings_fullLeaf member).1⟩)
    refine panics_of_aborts free stableColumns ⟨5, ?_, fun other _ => not_not.mpr (distinct.sublist filter_sublist)⟩
    rw [Overfull, column, length_cons, size_fullLeaf]
    exact Nat.lt_succ_self _

end Smt

end MidenVm.Crypto
