import Mathlib

namespace Foundation

open List Option

/-!
# Finite maps as ordered lists

A map whose entries are kept in strictly increasing order of their keys, so
that equal maps are equal lists and iteration follows the order of the keys.
-/

variable {κ ν μ : Type} [LinearOrder κ]
variable {key : κ} {value : ν} {entries tail : List (κ × ν)} {entry head : κ × ν} {selected : κ -> Bool}
  {position : Nat}

/-- Put an entry in its place, in place of an entry with the same key. -/
def insertEntry (key : κ) (value : ν) : List (κ × ν) -> List (κ × ν)
  | [] => [(key, value)]
  | head :: tail =>
    if key < head.1 then (key, value) :: head :: tail
    else if key = head.1 then (key, value) :: tail
    else head :: insertEntry key value tail

theorem insertEntry_ne_nil (key : κ) (value : ν) (entries : List (κ × ν)) :
    insertEntry key value entries ≠ [] := by
  fun_cases insertEntry key value entries with
  | case1 | case2 | case3 | case4 => exact cons_ne_nil _ _

theorem mem_insertEntry (member : entry ∈ insertEntry key value entries) :
    entry = (key, value) ∨ entry ∈ entries := by
  fun_induction insertEntry key value entries with
  | case1 => exact .inl (mem_singleton.mp member)
  | case2 => exact mem_cons.mp member
  | case3 head tail => exact (mem_cons.mp member).imp_right (mem_cons_of_mem head)
  | case4 head tail _ _ ih =>
    rcases mem_cons.mp member with same | old
    · exact .inr (same ▸ mem_cons_self)
    · exact (ih old).imp_right (mem_cons_of_mem head)

/-- Keys in strictly increasing order. -/
def SortedEntries (entries : List (κ × ν)) : Prop :=
  entries.Pairwise (fun left right => left.1 < right.1)

theorem sorted_insertEntry (key : κ) (value : ν) (sorted : SortedEntries entries) :
    SortedEntries (insertEntry key value entries) := by
  fun_induction insertEntry key value entries with
  | case1 => exact pairwise_singleton _ _
  | case2 head tail before =>
    refine pairwise_cons.mpr ⟨fun entry member => ?_, sorted⟩
    rcases mem_cons.mp member with same | old
    · exact same ▸ before
    · exact lt_trans before ((pairwise_cons.mp sorted).1 entry old)
  | case3 head tail _ same =>
    rcases pairwise_cons.mp sorted with ⟨headFirst, tailSorted⟩
    exact pairwise_cons.mpr ⟨fun entry member => same ▸ headFirst entry member, tailSorted⟩
  | case4 head tail notBefore different ih =>
    rcases pairwise_cons.mp sorted with ⟨headFirst, tailSorted⟩
    refine pairwise_cons.mpr ⟨fun entry member => ?_, ih tailSorted⟩
    rcases mem_insertEntry member with same | old
    · rw [same]
      exact lt_of_le_of_ne (not_lt.mp notBefore) (Ne.symm different)
    · exact headFirst entry old

theorem lookup_cons_eq (head : κ × ν) (tail : List (κ × ν)) (wanted : κ) :
    (head :: tail).lookup wanted = if wanted = head.1 then some head.2 else tail.lookup wanted := by
  rw [lookup_cons]
  by_cases here : wanted = head.1
  · simp [here]
  · simp [here, beq_eq_false_iff_ne.mpr here]

theorem lookup_insertEntry (key : κ) (value : ν) (entries : List (κ × ν)) (wanted : κ) :
    (insertEntry key value entries).lookup wanted =
      if wanted = key then some value else entries.lookup wanted := by
  fun_induction insertEntry key value entries with
  | case1 | case2 => exact lookup_cons_eq _ _ wanted
  | case3 head tail _ same =>
    rw [lookup_cons_eq, lookup_cons_eq, ← same]
    split <;> rfl
  | case4 head tail _ different ih =>
    rw [lookup_cons_eq, ih, lookup_cons_eq]
    by_cases here : wanted = head.1
    · rw [if_pos here, if_neg (here ▸ Ne.symm different), if_pos here]
    · rw [if_neg here, if_neg here]

/-- An entry behind all others goes to the end. -/
theorem insertEntry_last (key : κ) (value : ν)
    (last : forall entry, entry ∈ entries -> entry.1 < key) :
    insertEntry key value entries = entries ++ [(key, value)] := by
  induction entries with
  | nil => rfl
  | cons head tail ih =>
    have after := last head mem_cons_self
    rw [insertEntry, if_neg (not_lt.mpr (le_of_lt after)), if_neg (ne_of_gt after),
      ih (fun entry member => last entry (mem_cons_of_mem head member)), cons_append]

/-! ## Removal, lookup and selection -/

/-- The entries whose keys are selected. -/
def select (selected : κ -> Bool) (entries : List (κ × ν)) : List (κ × ν) :=
  entries.filter (fun entry => selected entry.1)

omit [LinearOrder κ] in
theorem select_cons_of_pos (here : selected head.1 = true) :
    select selected (head :: tail) = head :: select selected tail :=
  filter_cons_of_pos here

omit [LinearOrder κ] in
theorem select_cons_of_neg (apart : ¬ selected head.1 = true) :
    select selected (head :: tail) = select selected tail :=
  filter_cons_of_neg apart

theorem lookup_select (selected : κ -> Bool) (entries : List (κ × ν)) (key : κ) :
    (select selected entries).lookup key = if selected key then entries.lookup key else none := by
  induction entries with
  | nil => exact (ite_self none).symm
  | cons head tail ih =>
    by_cases kept : selected head.1 = true
    · rw [select_cons_of_pos kept, lookup_cons_eq, lookup_cons_eq, ih]
      by_cases here : key = head.1
      · rw [if_pos here, if_pos here, here, if_pos kept]
      · rw [if_neg here, if_neg here]
    · rw [select_cons_of_neg kept, lookup_cons_eq, ih]
      by_cases here : key = head.1
      · rw [here, if_neg kept, if_neg kept]
      · rw [if_neg here]

/-- Take out the entry of a key. -/
def eraseEntry (key : κ) (entries : List (κ × ν)) : List (κ × ν) :=
  entries.filter (fun entry => entry.1 ≠ key)

theorem sorted_eraseEntry (key : κ) (sorted : SortedEntries entries) :
    SortedEntries (eraseEntry key entries) :=
  sorted.sublist filter_sublist

theorem lookup_eraseEntry (key : κ) (entries : List (κ × ν)) (wanted : κ) :
    (eraseEntry key entries).lookup wanted =
      if wanted = key then none else entries.lookup wanted := by
  refine (lookup_select (fun other => other ≠ key) entries wanted).trans ?_
  by_cases here : wanted = key
  · simp [here]
  · simp [here]

/-- The entries of a list with different keys are what it answers. -/
theorem mem_iff_lookup_of_nodup (distinct : (entries.map Prod.fst).Nodup) :
    entries.lookup key = some value ↔ (key, value) ∈ entries := by
  induction entries with
  | nil => simp
  | cons head tail ih =>
    rcases head with ⟨headKey, headValue⟩
    rw [map_cons, nodup_cons] at distinct
    rw [lookup_cons, mem_cons, Prod.mk.injEq]
    by_cases same : key = headKey
    · have absent : (key, value) ∉ tail := fun member =>
        distinct.1 (mem_map.mpr ⟨_, member, same⟩)
      simp [same, eq_comm, same ▸ absent]
    · rw [beq_eq_false_iff_ne.mpr same]
      simp [same, ih distinct.2]

/-- The entries of an ordered list are what it answers. -/
theorem mem_iff_lookup (sorted : SortedEntries entries) :
    (key, value) ∈ entries ↔ entries.lookup key = some value :=
  (mem_iff_lookup_of_nodup (pairwise_map.mpr (sorted.imp ne_of_lt))).symm

theorem lookup_eq_none : entries.lookup key = none ↔ forall entry, entry ∈ entries ->
    entry.1 ≠ key := by
  rw [lookup_eq_none_iff]
  exact forall₂_congr (fun entry _ => by rw [bne_iff_ne, ne_comm])

/-- Ordered lists with the same answers are equal. -/
theorem sorted_ext {left right : List (κ × ν)} (leftSorted : SortedEntries left)
    (rightSorted : SortedEntries right)
    (same : forall key, left.lookup key = right.lookup key) : left = right := by
  have members : forall entry, entry ∈ left ↔ entry ∈ right := fun entry => by
    rw [show entry = (entry.1, entry.2) from rfl, mem_iff_lookup leftSorted,
      mem_iff_lookup rightSorted, same]
  have distinct {entries : List (κ × ν)} (sorted : SortedEntries entries) : entries.Nodup :=
    List.Pairwise.imp (fun less => ne_of_apply_ne Prod.fst (ne_of_lt less)) sorted
  refine List.Perm.eq_of_pairwise ?_ leftSorted rightSorted
    ((perm_ext_iff_of_nodup (distinct leftSorted) (distinct rightSorted)).mpr members)
  intro first second _ _ before after
  exact absurd (lt_trans before after) (lt_irrefl _)

theorem length_insertEntry_of_none (absent : entries.lookup key = none) :
    (insertEntry key value entries).length = entries.length + 1 := by
  fun_induction insertEntry key value entries with
  | case1 | case2 => rfl
  | case3 head tail _ same => exact absurd same.symm (lookup_eq_none.mp absent head mem_cons_self)
  | case4 head tail _ different ih =>
    rw [lookup_cons_eq, if_neg different] at absent
    rw [length_cons, ih absent, length_cons]

theorem length_insertEntry_bounds (key : κ) (value : ν) (entries : List (κ × ν)) :
    entries.length ≤ (insertEntry key value entries).length ∧
      (insertEntry key value entries).length ≤ entries.length + 1 := by
  fun_induction insertEntry key value entries with
  | case1 => exact ⟨Nat.zero_le 1, Nat.le_refl 1⟩
  | case2 => exact ⟨Nat.le_succ _, Nat.le_refl _⟩
  | case3 => exact ⟨Nat.le_refl _, Nat.le_succ _⟩
  | case4 head tail _ _ ih => exact ⟨Nat.succ_le_succ ih.1, Nat.succ_le_succ ih.2⟩

theorem eraseEntry_of_none (absent : entries.lookup key = none) : eraseEntry key entries = entries :=
  filter_eq_self.mpr (fun entry member => decide_eq_true (lookup_eq_none.mp absent entry member))

theorem eraseEntry_cons_of_ne (other : head.1 ≠ key) :
    eraseEntry key (head :: tail) = head :: eraseEntry key tail :=
      filter_cons_of_pos (decide_eq_true other)

theorem eraseEntry_cons_self (sorted : SortedEntries (head :: tail)) (same : head.1 = key) :
    eraseEntry key (head :: tail) = tail := by
  have first := (pairwise_cons.mp sorted).1
  rw [eraseEntry, filter_cons_of_neg (by simpa using same)]
  exact eraseEntry_of_none (lookup_eq_none.mpr (fun entry member => ne_of_gt (same ▸ first entry member)))

theorem length_eraseEntry_of_some {old : ν} (sorted : SortedEntries entries)
    (found : entries.lookup key = some old) : (eraseEntry key entries).length + 1 =
      entries.length := by
  induction entries with
  | nil => cases found
  | cons head tail ih =>
    by_cases same : head.1 = key
    · rw [eraseEntry_cons_self sorted same, length_cons]
    · rw [lookup_cons_eq, if_neg (Ne.symm same)] at found
      rw [eraseEntry_cons_of_ne same, length_cons, ih (pairwise_cons.mp sorted).2 found, length_cons]

/-- An insertion replaces the entry of its key. -/
theorem insertEntry_eraseEntry (key : κ) (value : ν) (sorted : SortedEntries entries) :
    insertEntry key value (eraseEntry key entries) = insertEntry key value entries := by
  refine sorted_ext (sorted_insertEntry key value (sorted_eraseEntry key sorted))
    (sorted_insertEntry key value sorted) (fun wanted => ?_)
  rw [lookup_insertEntry, lookup_insertEntry, lookup_eraseEntry]
  split <;> rfl

theorem length_insertEntry_of_some {old : ν} (sorted : SortedEntries entries)
    (found : entries.lookup key = some old) :
    (insertEntry key value entries).length = entries.length := by
  have gone : (eraseEntry key entries).lookup key = none := by rw [lookup_eraseEntry, if_pos rfl]
  rw [← insertEntry_eraseEntry key value sorted, length_insertEntry_of_none gone,
    length_eraseEntry_of_some sorted found]

theorem sorted_select (selected : κ -> Bool) (sorted : SortedEntries entries) :
    SortedEntries (select selected entries) :=
  sorted.sublist filter_sublist

/-- Selection sees an insertion of a selected key only. -/
theorem select_insertEntry (sorted : SortedEntries entries) (here : selected key = true) :
    select selected (insertEntry key value entries) =
      insertEntry key value (select selected entries) := by
  refine sorted_ext (sorted_select _ (sorted_insertEntry key value sorted))
    (sorted_insertEntry key value (sorted_select _ sorted)) (fun wanted => ?_)
  rw [lookup_select, lookup_insertEntry, lookup_insertEntry, lookup_select]
  by_cases same : wanted = key
  · rw [if_pos same, if_pos same, same, if_pos here]
  · rw [if_neg same, if_neg same]

theorem select_insertEntry_apart (apart : ¬ selected key = true) :
    select selected (insertEntry key value entries) = select selected entries := by
  fun_induction insertEntry key value entries with
  | case1 | case2 => exact select_cons_of_neg apart
  | case3 head tail _ same =>
    have dropped : select selected ((key, value) :: tail) = select selected tail :=
      select_cons_of_neg apart
    rw [dropped, select_cons_of_neg (same ▸ apart)]
  | case4 head tail _ _ ih =>
    by_cases kept : selected head.1 = true
    · rw [select_cons_of_pos kept, select_cons_of_pos kept, ih]
    · rw [select_cons_of_neg kept, select_cons_of_neg kept, ih]

theorem select_eraseEntry (selected : κ -> Bool) (key : κ) (entries : List (κ × ν)) :
    select selected (eraseEntry key entries) = eraseEntry key (select selected entries) :=
  filter_comm _ _ entries

theorem select_eraseEntry_apart (apart : ¬ selected key = true) :
    select selected (eraseEntry key entries) = select selected entries := by
  rw [select_eraseEntry]
  refine eraseEntry_of_none (lookup_eq_none.mpr (fun entry member same => ?_))
  exact apart (same ▸ (mem_filter.mp member).2)

/-! ## The place of a key -/

/-- The number of smaller keys before a key. -/
def insertionPoint (key : κ) (entries : List (κ × ν)) : Nat :=
  (entries.takeWhile (fun entry => decide (entry.1 < key))).length

/-- `slice::binary_search_by` on the keys of an ordered list: where the key is,
or where it belongs. -/
def binarySearch (key : κ) (entries : List (κ × ν)) : Except Nat Nat :=
  if entries[insertionPoint key entries]?.map Prod.fst = some key then .ok (insertionPoint key entries)
  else .error (insertionPoint key entries)

theorem insertionPoint_cons_of_lt (before : head.1 < key) :
    insertionPoint key (head :: tail) = insertionPoint key tail + 1 := by
  simp [insertionPoint, before]

theorem insertionPoint_cons_of_le (after : key ≤ head.1) :
    insertionPoint key (head :: tail) = 0 := by
  simp [insertionPoint, not_lt.mpr after]

/-- A search that finds the key: what is there, and what writing and removing
there do. -/
theorem binarySearch_ok (sorted : SortedEntries entries)
    (found : binarySearch key entries = .ok position) :
    ∃ old, entries.lookup key = some old ∧ entries[position]? = some (key, old) ∧
      (forall value, entries.modify position (fun entry => (entry.1, value)) =
        insertEntry key value entries) ∧
      entries.eraseIdx position = eraseEntry key entries := by
  rw [binarySearch] at found
  split at found
  · rename_i here
    cases found
    induction entries with
    | nil => cases here
    | cons head tail ih =>
      rcases lt_or_ge head.1 key with before | after
      · rw [insertionPoint_cons_of_lt before, getElem?_cons_succ] at here
        rcases ih (pairwise_cons.mp sorted).2 here with ⟨old, answer, entry, written, erased⟩
        refine ⟨old, ?_, ?_, fun value => ?_, ?_⟩
        · rw [lookup_cons_eq, if_neg (ne_of_gt before)]
          exact answer
        · rw [insertionPoint_cons_of_lt before, getElem?_cons_succ, entry]
        · rw [insertionPoint_cons_of_lt before, modify_succ_cons, written, insertEntry,
            if_neg (not_lt.mpr (le_of_lt before)), if_neg (ne_of_gt before)]
        · rw [insertionPoint_cons_of_lt before, eraseIdx_cons_succ, erased,
            eraseEntry_cons_of_ne (ne_of_lt before)]
      · rw [insertionPoint_cons_of_le after, getElem?_cons_zero, map_some,
          some.injEq] at here
        refine ⟨head.2, ?_, ?_, fun value => ?_, ?_⟩
        · rw [lookup_cons_eq, if_pos here.symm]
        · rw [insertionPoint_cons_of_le after, getElem?_cons_zero, ← here]
        · rw [insertionPoint_cons_of_le after, modify_zero_cons, insertEntry,
            if_neg (not_lt.mpr (le_of_eq here)), if_pos here.symm, here]
        · rw [insertionPoint_cons_of_le after, eraseIdx_cons_zero, eraseEntry_cons_self sorted here]
  · cases found

/-- A search that finds nothing: the key is absent, and its place is free. -/
theorem binarySearch_error (sorted : SortedEntries entries)
    (found : binarySearch key entries = .error position) :
    entries.lookup key = none ∧
      forall value, entries.insertIdx position (key, value) = insertEntry key value entries := by
  rw [binarySearch] at found
  split at found
  · cases found
  · rename_i missing
    cases found
    induction entries with
    | nil => exact ⟨rfl, fun value => rfl⟩
    | cons head tail ih =>
      rcases pairwise_cons.mp sorted with ⟨headFirst, tailSorted⟩
      rcases lt_or_ge head.1 key with before | after
      · rw [insertionPoint_cons_of_lt before, getElem?_cons_succ] at missing
        rcases ih tailSorted missing with ⟨answer, inserted⟩
        refine ⟨?_, fun value => ?_⟩
        · rw [lookup_cons_eq, if_neg (ne_of_gt before)]
          exact answer
        · rw [insertionPoint_cons_of_lt before, insertIdx_succ_cons, inserted, insertEntry,
            if_neg (not_lt.mpr (le_of_lt before)), if_neg (ne_of_gt before)]
      · rw [insertionPoint_cons_of_le after, getElem?_cons_zero, map_some,
          some.injEq] at missing
        have less : key < head.1 := lt_of_le_of_ne after (Ne.symm missing)
        refine ⟨lookup_eq_none.mpr (fun entry member => ?_), fun value => ?_⟩
        · rcases mem_cons.mp member with same | later
          · exact same ▸ missing
          · exact ne_of_gt (lt_trans less (headFirst entry later))
        · rw [insertionPoint_cons_of_le after, insertIdx_zero, insertEntry, if_pos less]

structure OrderedMap (κ ν : Type) [LinearOrder κ] where
  entries : List (κ × ν)
  sorted : SortedEntries entries

variable {map : OrderedMap κ ν}

namespace OrderedMap

theorem eq_of_entries {left right : OrderedMap κ ν}
    (same : left.entries = right.entries) : left = right := by
  cases left
  cases right
  cases same
  rfl

instance [DecidableEq ν] : DecidableEq (OrderedMap κ ν) := fun left right =>
  decidable_of_iff (left.entries = right.entries) ⟨eq_of_entries, fun same => same ▸ rfl⟩

def empty : OrderedMap κ ν := ⟨[], List.Pairwise.nil⟩

def insert (map : OrderedMap κ ν) (key : κ) (value : ν) : OrderedMap κ ν :=
  ⟨insertEntry key value map.entries, sorted_insertEntry key value map.sorted⟩

def get? (map : OrderedMap κ ν) (key : κ) : Option ν := map.entries.lookup key

/-- Remove a key. -/
def erase (map : OrderedMap κ ν) (key : κ) : OrderedMap κ ν :=
  ⟨eraseEntry key map.entries, sorted_eraseEntry key map.sorted⟩

/-- Insert entries one after the other; a later entry replaces an earlier one. -/
def insertAll (map : OrderedMap κ ν) (entries : List (κ × ν)) : OrderedMap κ ν :=
  entries.foldl (fun map entry => map.insert entry.1 entry.2) map

@[simp] theorem get?_empty (key : κ) : (empty : OrderedMap κ ν).get? key = none := rfl

theorem get?_insert (map : OrderedMap κ ν) (key : κ) (value : ν) (wanted : κ) :
    (map.insert key value).get? wanted = if wanted = key then some value else map.get? wanted :=
  lookup_insertEntry key value map.entries wanted

theorem get?_erase (map : OrderedMap κ ν) (key wanted : κ) :
    (map.erase key).get? wanted = if wanted = key then none else map.get? wanted :=
  lookup_eraseEntry key map.entries wanted

/-- Maps with the same answers are equal. -/
theorem ext_get? {left right : OrderedMap κ ν} (same : forall key, left.get? key = right.get? key) :
    left = right :=
  eq_of_entries (sorted_ext left.sorted right.sorted same)

theorem erase_insert (map : OrderedMap κ ν) (key : κ) (value : ν) :
    (map.insert key value).erase key = map.erase key := ext_get? (fun wanted => by
  rw [get?_erase, get?_erase, get?_insert]
  split <;> rfl)

/-- Maps whose values are related key by key stay so when related entries are
inserted. -/
theorem get?_insertAll_related {related : Option ν -> Option μ -> Prop}
    {left : List (κ × ν)} {right : List (κ × μ)}
    (entries : List.Forall₂ (fun first second => first.1 = second.1 ∧
      related (some first.2) (some second.2)) left right)
    {leftMap : OrderedMap κ ν} {rightMap : OrderedMap κ μ}
    (before : forall key, related (leftMap.get? key) (rightMap.get? key)) (key : κ) :
    related ((leftMap.insertAll left).get? key) ((rightMap.insertAll right).get? key) := by
  induction entries generalizing leftMap rightMap with
  | nil => exact before key
  | cons head tail ih =>
    apply ih
    intro wanted
    rw [get?_insert, get?_insert, ← head.1]
    split
    · exact head.2
    · exact before wanted

/-- Entries with different keys replace what was there. -/
theorem get?_insertAll (distinct : (entries.map Prod.fst).Nodup) (map : OrderedMap κ ν) (key : κ) :
    (map.insertAll entries).get? key = (entries.lookup key).or (map.get? key) := by
  induction entries generalizing map with
  | nil => rfl
  | cons head tail ih =>
    rw [map_cons, nodup_cons] at distinct
    refine (ih distinct.2 (map.insert head.1 head.2)).trans ?_
    rw [get?_insert, lookup_cons_eq]
    by_cases here : key = head.1
    · have absent : tail.lookup key = none := lookup_eq_none.mpr (fun other member same =>
        distinct.1 (mem_map.mpr ⟨other, member, same.trans here⟩))
      rw [absent, if_pos here, if_pos here]
      rfl
    · rw [if_neg here, if_neg here]

/-- Entries in increasing order, all behind the map, are appended. -/
theorem insertAll_sorted (map : OrderedMap κ ν) (more : List (κ × ν))
    (sorted : SortedEntries (map.entries ++ more)) :
    (map.insertAll more).entries = map.entries ++ more := by
  induction more generalizing map with
  | nil => simp [insertAll]
  | cons head tail ih =>
    have last : (map.insert head.1 head.2).entries = map.entries ++ [head] := by
      apply insertEntry_last
      intro entry member
      exact (pairwise_append.mp sorted).2.2 entry member head mem_cons_self
    have shape : map.entries ++ head :: tail = map.entries ++ [head] ++ tail := by simp
    rw [shape, ← last] at sorted
    rw [insertAll, foldl_cons, shape, ← last]
    exact ih (map.insert head.1 head.2) sorted

/-- Every entry was there before or was inserted. -/
theorem mem_insertAll {more : List (κ × ν)} (member : entry ∈ (map.insertAll more).entries) :
    entry ∈ more ∨ entry ∈ map.entries := by
  induction more generalizing map with
  | nil => exact .inr member
  | cons head tail ih =>
    rcases ih member with later | before
    · exact .inl (mem_cons_of_mem head later)
    · rcases mem_insertEntry before with same | old
      · exact .inl (same ▸ mem_cons_self)
      · exact .inr old

/-- Rebuilding a map from its entries gives it back. -/
theorem insertAll_entries (map : OrderedMap κ ν) : empty.insertAll map.entries = map :=
  eq_of_entries (insertAll_sorted empty map.entries map.sorted)

theorem mem_entries : (key, value) ∈ map.entries ↔ map.get? key = some value :=
  mem_iff_lookup map.sorted

theorem forall_entries {holds : κ × ν -> Prop} :
    (forall entry, entry ∈ map.entries -> holds entry) ↔
    forall key value, map.get? key = some value -> holds (key, value) :=
  ⟨fun all _ _ found => all _ (mem_entries.mpr found), fun all _ member => all _ _ (mem_entries.mp member)⟩

theorem nodup_keys (map : OrderedMap κ ν) : (map.entries.map Prod.fst).Nodup :=
  pairwise_map.mpr (map.sorted.imp ne_of_lt)

/-- A new key adds one entry. -/
theorem perm_insert (absent : map.get? key = none) (value : ν) :
    (map.insert key value).entries.Perm ((key, value) :: map.entries) := by
  have other : forall entry, entry ∈ map.entries -> entry.1 ≠ key := lookup_eq_none.mp absent
  have distinct {entries : List (κ × ν)} (keys : (entries.map Prod.fst).Nodup) : entries.Nodup :=
    List.Nodup.of_map Prod.fst keys
  have apart : (key, value) ∉ map.entries := fun member => other _ member rfl
  refine (perm_ext_iff_of_nodup (distinct (nodup_keys _))
    (nodup_cons.mpr ⟨apart, distinct (nodup_keys _)⟩)).mpr (fun entry => ?_)
  rw [show entry = (entry.1, entry.2) from rfl, mem_entries, get?_insert, mem_cons,
    mem_entries, Prod.mk.injEq]
  by_cases here : entry.1 = key
  · rw [if_pos here, here, absent]
    simp [eq_comm]
  · simp [here]

/-! ## Sums over the values -/

variable (size : ν -> Nat)

/-- The sizes of all values together. -/
def total (map : OrderedMap κ ν) : Nat := (map.entries.map (fun entry => size entry.2)).sum

theorem total_insert_of_none (absent : map.get? key = none) (value : ν) :
    (map.insert key value).total size = map.total size + size value := by
  have sum := ((perm_insert absent value).map (fun entry => size entry.2)).sum_nat
  rw [map_cons, sum_cons, Nat.add_comm] at sum
  exact sum

theorem total_erase (map : OrderedMap κ ν) (key : κ) :
    (map.erase key).total size + (map.get? key).elim 0 size = map.total size := by
  have gone : (map.erase key).get? key = none := by rw [get?_erase, if_pos rfl]
  cases found : map.get? key with
  | none =>
    have same : map.erase key = map := eq_of_entries (eraseEntry_of_none found)
    rw [same, elim_none, Nat.add_zero]
  | some old =>
    have back : (map.erase key).insert key old = map := ext_get? (fun wanted => by
      rw [get?_insert, get?_erase]
      split
      · rename_i here
        rw [here, found]
      · rfl)
    rw [elim_some, ← total_insert_of_none size gone, back]

theorem total_insert (map : OrderedMap κ ν) (key : κ) (value : ν) :
    (map.insert key value).total size + (map.get? key).elim 0 size =
      map.total size + size value := by
  have gone : (map.erase key).get? key = none := by rw [get?_erase, if_pos rfl]
  have same : (map.erase key).insert key value = map.insert key value :=
    eq_of_entries (insertEntry_eraseEntry key value map.sorted)
  rw [← same, total_insert_of_none size gone, ← total_erase size map key]
  exact Nat.add_right_comm _ _ _

end OrderedMap

/-! ## Iteration in any order -/

/-- An order in which the entries of a map may be visited. -/
structure MapOrder (κ ν : Type) [LinearOrder κ] where
  list : OrderedMap κ ν -> List (κ × ν)
  perm : forall map, (list map).Perm map.entries

namespace MapOrder

/-- The order of the keys. -/
def sorted : MapOrder κ ν := ⟨OrderedMap.entries, fun _ => List.Perm.refl _⟩

variable (order : MapOrder κ ν) (map : OrderedMap κ ν)

theorem nodup_keys : ((order.list map).map Prod.fst).Nodup :=
  ((order.perm map).map Prod.fst).nodup_iff.mpr map.nodup_keys

variable {map}

theorem mem_list : (key, value) ∈ order.list map ↔ map.get? key = some value := by
  rw [(order.perm map).mem_iff, OrderedMap.mem_entries]

/-- A map answers the same in every order. -/
theorem lookup_list (key : κ) : (order.list map).lookup key = map.get? key := by
  refine ext (fun value => ?_)
  rw [mem_iff_lookup_of_nodup (order.nodup_keys map), order.mem_list]

end MapOrder

end Foundation
