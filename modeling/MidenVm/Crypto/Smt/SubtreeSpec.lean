import MidenVm.Crypto.Smt.Subtree
import MidenVm.Crypto.Smt.TreeSpec

namespace MidenVm.Crypto

open Foundation List Outcome Nat
open Foundation.Mountain
open Foundation.SparseTree

/-!
# Levels computed from lists

A level of a tree is a function of columns.  A list of leaves describes how a
new level differs from an old one: it holds the new hashes, in the order of
their columns, and every other column is as before.  Combining siblings turns
such a list into one for the level above.  A tree is built by comparing it with
the empty one, and then only nodes that are not empty have to be kept.
-/

variable {D : Type}

/-! ## One level -/

variable {leaves rest : List (SubtreeLeaf D)} {parent depth block : Nat} {entries : List (Nat × InnerNode D)}
  {parentNode : Nat -> InnerNode D} {first : SubtreeLeaf D} {index : NodeIndex}

/-- The children of a position in the level above. -/
def childrenAt (level : Nat -> D) (position : Nat) : InnerNode D :=
  ⟨level (2 * position), level (2 * position + 1)⟩

/-- The leaves in which a new level differs from an old one, inside a part of
the level. -/
structure Changed (new old : Nat -> D) (inside : Nat -> Prop) (leaves : List (SubtreeLeaf D)) :
    Prop where
  sorted : leaves.Pairwise (fun left right => left.col < right.col)
  here : forall leaf, leaf ∈ leaves -> inside leaf.col ∧ leaf.hash = new leaf.col
  others : forall col, inside col -> (forall leaf, leaf ∈ leaves -> leaf.col ≠ col) ->
    new col = old col

/-- The nodes over the leaves in which two levels differ. -/
structure Combined (new old : Nat -> D) (inside : Nat -> Prop)
    (entries : List (Nat × InnerNode D)) : Prop where
  sorted : entries.Pairwise (fun left right => left.1 < right.1)
  here : forall entry, entry ∈ entries -> inside entry.1 ∧ entry.2 = childrenAt new entry.1
  others : forall position, inside position -> (forall entry,
    entry ∈ entries -> entry.1 ≠ position) -> childrenAt new position = childrenAt old position

section Level

variable {new old : Nat -> D} {inside : Nat -> Prop}

theorem Changed.congr {other : Nat -> Prop} (same : forall col, inside col ↔ other col)
    (changed : Changed new old inside leaves) : Changed new old other leaves where
  sorted := changed.sorted
  here leaf member := ⟨(same _).mp (changed.here leaf member).1, (changed.here leaf member).2⟩
  others col place := changed.others col ((same col).mpr place)

/-- The leaves after those of one parent. -/
theorem Changed.after (taken : List (SubtreeLeaf D)) {rest : List (SubtreeLeaf D)}
    (changed : Changed new old (fun col => inside (col / 2)) (taken ++ rest))
    (same : forall leaf, leaf ∈ taken -> leaf.col / 2 = parent)
    (above : forall leaf, leaf ∈ rest -> parent < leaf.col / 2) :
    Changed new old (fun col => inside (col / 2) ∧ parent < col / 2) rest where
  sorted := (pairwise_append.mp changed.sorted).2.1
  here leaf member := by
    rcases changed.here leaf (mem_append_right _ member) with ⟨place, hash⟩
    exact ⟨⟨place, above leaf member⟩, hash⟩
  others col place absent := by
    refine changed.others col place.1 (fun leaf member equal => ?_)
    rcases mem_append.mp member with before | later
    · exact absurd (same leaf before) (ne_of_gt (equal ▸ place.2))
    · exact absent leaf later equal

/-- Parents before all leaves have the children they had. -/
theorem Changed.before (changed : Changed new old (fun col => inside (col / 2)) leaves)
    (least : forall leaf, leaf ∈ leaves -> parent ≤ leaf.col / 2) (position : Nat)
    (place : inside position)
    (lower : position < parent) : childrenAt new position = childrenAt old position := by
  have child {col : Nat} (half : col / 2 = position) : new col = old col := by
    refine changed.others col (half ▸ place) (fun leaf member equal => ?_)
    have bound := least leaf member
    rw [equal, half] at bound
    exact absurd lower (not_lt.mpr bound)
  rw [childrenAt, child (by omega), child (by omega)]
  rfl

theorem Combined.nil (changed : Changed new old (fun col => inside (col / 2)) []) :
    Combined new old inside [] where
  sorted := List.Pairwise.nil
  here _ member := absurd member not_mem_nil
  others position place _ := changed.before (forall_mem_nil _)
    position place (lt_succ_self position)

theorem Combined.cons (place : inside parent)
    (tail : Combined new old (fun position => inside position ∧ parent < position) entries)
    (lower : forall position, inside position -> position < parent ->
      childrenAt new position = childrenAt old position) :
    Combined new old inside ((parent, childrenAt new parent) :: entries) where
  sorted := pairwise_cons.mpr ⟨fun entry member => (tail.here entry member).1.2, tail.sorted⟩
  here entry member := by
    rcases mem_cons.mp member with same | later
    · rw [same]
      exact ⟨place, rfl⟩
    · exact ⟨(tail.here entry later).1.1, (tail.here entry later).2⟩
  others position inPlace absent := by
    rcases lt_trichotomy position parent with before | same | after
    · exact lower position inPlace before
    · exact absurd same.symm (absent _ mem_cons_self)
    · exact tail.others position ⟨inPlace, after⟩
        (fun entry member => absent entry (mem_cons_of_mem _ member))

variable (parents : forall position, inside position -> parentNode position = childrenAt old position)

section Alone

/-- The node over a leaf whose sibling is not in the list. -/
def loneNode (parentNode : Nat -> InnerNode D) (leaf : SubtreeLeaf D) : InnerNode D :=
  if leaf.col % 2 = 1 then ⟨(parentNode (leaf.col / 2)).left, leaf.hash⟩
  else ⟨leaf.hash, (parentNode (leaf.col / 2)).right⟩

variable (changed : Changed new old (fun col => inside (col / 2)) (first :: rest))
  (above : forall leaf, leaf ∈ rest -> first.col / 2 < leaf.col / 2)
include parents changed above

theorem Changed.alone : loneNode parentNode first = childrenAt new (first.col / 2) := by
  rcases changed.here first mem_cons_self with ⟨place, hash⟩
  have other (col : Nat) (half : col / 2 = first.col / 2) (apart : first.col ≠ col) :
      new col = old col := by
    refine changed.others col (half.symm ▸ place) (fun leaf member equal => ?_)
    rcases mem_cons.mp member with same | later
    · exact apart (same ▸ equal)
    · have bound := above leaf later
      rw [equal, half] at bound
      exact absurd bound (lt_irrefl _)
  rw [loneNode, childrenAt, parents _ place, hash]
  by_cases odd : first.col % 2 = 1
  · have right : 2 * (first.col / 2) + 1 = first.col := by omega
    rw [if_pos odd, other (2 * (first.col / 2)) (by omega) (by omega), right]
    rfl
  · have left : 2 * (first.col / 2) = first.col := by omega
    rw [if_neg odd, childrenAt, left, other (first.col + 1) (by omega) (by omega)]

/-- The node over a leaf whose sibling is not in the list, before the rest. -/
theorem Combined.alone {node : InnerNode D} (is : loneNode parentNode first = node)
    (tail : Changed new old (fun col => inside (col / 2) ∧ first.col / 2 < col / 2) rest ->
      Combined new old (fun position => inside position ∧ first.col / 2 < position) entries) :
    Combined new old inside ((first.col / 2, node) :: entries) := by
  rw [← is, changed.alone parents above]
  have others := changed.after [first] (fun leaf member => by rw [mem_singleton.mp member]) above
  refine Combined.cons (changed.here first mem_cons_self).1 (tail others)
    (changed.before (fun leaf member => ?_))
  rcases mem_cons.mp member with same | later
  · rw [same]
  · exact le_of_lt (above leaf later)

end Alone

include parents in
/-- Combining siblings gives the nodes of the level above. -/
theorem siblingPairs_spec (changed : Changed new old (fun col => inside (col / 2)) leaves) :
    Combined new old inside (siblingPairs parentNode leaves) := by
  -- Each case takes the leaves of one parent; the rest lies above it.
  induction leaves using siblingPairs.induct parentNode generalizing inside with
  | case1 => exact Combined.nil changed
  | case2 first odd =>
    simp only [siblingPairs, if_pos odd]
    exact .alone parents changed (forall_mem_nil _) (if_pos odd)
      (fun others => Combined.nil others)
  | case3 first even =>
    simp only [siblingPairs, if_neg even]
    exact .alone parents changed (forall_mem_nil _) (if_neg even)
      (fun others => Combined.nil others)
  | case4 first second rest odd ih =>
    have least := (pairwise_cons.mp changed.sorted).1
    have above : forall leaf, leaf ∈ second :: rest -> first.col / 2 < leaf.col / 2 := by
      intro leaf member
      have bound := least leaf member
      omega
    simp only [siblingPairs, if_pos odd]
    exact .alone parents changed above (if_pos odd)
      (fun others => ih (fun position place => parents position place.1) others)
  | case5 first second rest even next ih =>
    rcases pairwise_cons.mp changed.sorted with ⟨least, sorted⟩
    have above : forall leaf, leaf ∈ rest -> first.col / 2 < leaf.col / 2 := by
      intro leaf member
      have bound := (pairwise_cons.mp sorted).1 leaf member
      omega
    have both : forall leaf, leaf ∈ [first, second] -> leaf.col / 2 = first.col / 2 := by
      intro leaf member
      rcases mem_cons.mp member with same | later
      · rw [same]
      · rw [mem_singleton.mp later]
        omega
    have left : 2 * (first.col / 2) = first.col := by omega
    have node : (⟨first.hash, second.hash⟩ : InnerNode D) = childrenAt new (first.col / 2) := by
      rw [childrenAt, left, ← next, (changed.here first mem_cons_self).2,
        (changed.here second (mem_cons_of_mem _ mem_cons_self)).2]
    simp only [siblingPairs, if_neg even, if_pos next, node]
    refine Combined.cons (changed.here first mem_cons_self).1
      (ih (fun position place => parents position place.1)
        (changed.after [first, second] both above))
      (changed.before (fun leaf member => ?_))
    rcases mem_cons.mp member with same | later
    · rw [same]
    · have bound := least leaf later
      omega
  | case6 first second rest even apart ih =>
    rcases pairwise_cons.mp changed.sorted with ⟨least, sorted⟩
    have after := least second mem_cons_self
    have above : forall leaf, leaf ∈ second :: rest -> first.col / 2 < leaf.col / 2 := by
      intro leaf member
      rcases mem_cons.mp member with same | later
      · rw [same]
        omega
      · have further := (pairwise_cons.mp sorted).1 leaf later
        omega
    simp only [siblingPairs, if_neg even, if_neg apart]
    exact .alone parents changed above (if_neg even)
      (fun others => ih (fun position place => parents position place.1) others)

end Level

/-! ## Building levels -/

section Build

variable {hasher : SmtHasher D} {leaf : Nat -> D}

/-- The nodes of a height, as a level. -/
abbrev levelOf (hasher : SmtHasher D) (leaf : Nat -> D) (height : Nat) : Nat -> D :=
  node hasher.merge leaf height

/-- The level of an empty tree. -/
abbrev emptyLevel (hasher : SmtHasher D) (height : Nat) : Nat -> D := fun _ => emptyOf hasher height

variable [DecidableEq D]

/-- The nodes that are kept: those that are not empty. -/
def filled (hasher : SmtHasher D) (height : Nat) (entries : List (Nat × InnerNode D)) :
    List (Nat × InnerNode D) :=
  entries.filter (fun entry => entry.2.hash hasher ≠ emptyOf hasher height)

/-- They stand at a depth. -/
def filledAt (hasher : SmtHasher D) (depth height : Nat) (entries : List (Nat × InnerNode D)) :
    List (NodeIndex × InnerNode D) :=
  (filled hasher (height + 1) entries).map (fun entry => (⟨depth, entry.1⟩, entry.2))

section Combined

variable {height : Nat} {inside : Nat -> Prop} {entries : List (Nat × InnerNode D)}
  (combined : Combined (levelOf hasher leaf height) (emptyLevel hasher height) inside entries)
include combined

omit [DecidableEq D] in
theorem Combined.hash_eq {entry : Nat × InnerNode D} (member : entry ∈ entries) :
    entry.2.hash hasher = levelOf hasher leaf (height + 1) entry.1 := by
  rw [(combined.here entry member).2]
  rfl

/-- A parent that is not in the list is empty. -/
theorem Combined.empty_of_absent {position : Nat} (place : inside position)
    (absent : forall entry, entry ∈ filled hasher (height + 1) entries -> entry.1 ≠ position) :
    levelOf hasher leaf (height + 1) position = emptyOf hasher (height + 1) := by
  by_cases listed : ∃ entry ∈ entries, entry.1 = position
  · rcases listed with ⟨entry, member, rfl⟩
    by_contra other
    refine absent entry (mem_filter.mpr ⟨member, decide_eq_true ?_⟩) rfl
    rwa [combined.hash_eq member]
  · push Not at listed
    exact congrArg (InnerNode.hash hasher) (combined.others position place listed)

theorem Combined.changed :
    Changed (levelOf hasher leaf (height + 1)) (emptyLevel hasher (height + 1)) inside
      ((filled hasher (height + 1) entries).map (fun entry => ⟨entry.1, entry.2.hash hasher⟩)) where
  sorted := pairwise_map.mpr (combined.sorted.filter _)
  here leaf member := by
    rcases mem_map.mp member with ⟨entry, kept, rfl⟩
    have original := (mem_filter.mp kept).1
    exact ⟨(combined.here entry original).1, combined.hash_eq original⟩
  others col place absent := combined.empty_of_absent place (fun entry kept =>
    absent ⟨entry.1, entry.2.hash hasher⟩ (mem_map.mpr ⟨entry, kept, rfl⟩))

theorem Combined.distinct (depth : Nat) : ((filledAt hasher depth height entries).map Prod.fst).Nodup := by
  rw [filledAt, map_map]
  refine pairwise_map.mpr ((combined.sorted.filter _).imp (fun less same => ?_))
  exact Nat.ne_of_lt less (congrArg NodeIndex.position same)

/-- The nodes that are kept are those that a tree stores. -/
theorem Combined.lookup (level : depth + (height + 1) = smtDepth) (index : NodeIndex)
    [Decidable (inside index.position)] :
    (filledAt hasher depth height entries).lookup index =
      if index.depth = depth ∧
        inside index.position then innerNodeOf hasher leaf index else none := by
  refine Option.ext (fun stored => ?_)
  rw [mem_iff_lookup_of_nodup (combined.distinct depth), filledAt, mem_map]
  constructor
  · rintro ⟨entry, kept, same⟩
    rcases mem_filter.mp kept with ⟨original, other⟩
    rcases Prod.mk.inj same with ⟨rfl, rfl⟩
    rcases combined.here entry original with ⟨place, children⟩
    have apart : ¬ levelOf hasher leaf (height + 1) entry.1 = emptyOf hasher (height + 1) := by
      rw [← combined.hash_eq original]
      exact of_decide_eq_true other
    rw [if_pos ⟨rfl, place⟩, innerNodeOf_eq hasher level, if_neg apart, children]
    rfl
  · intro found
    split at found
    · rename_i here
      rcases index with ⟨indexDepth, position⟩
      rcases here with ⟨same, place⟩
      change indexDepth = depth at same
      subst same
      rw [innerNodeOf_eq hasher level] at found
      split at found
      · cases found
      · rename_i other
        by_contra missing
        push Not at missing
        refine other (combined.empty_of_absent place (fun entry kept equal => ?_))
        have original := (mem_filter.mp kept).1
        refine missing entry kept ?_
        rw [(combined.here entry original).2, equal]
        exact Prod.ext rfl (Option.some.inj found)
    · cases found

end Combined

/-- The node at an index lies in a subtree that is built from a depth upwards. -/
def InSubtree (levels depth block : Nat) (index : NodeIndex) : Prop :=
  depth ≤ index.depth + levels ∧ index.depth < depth ∧
    index.position / 2 ^ (index.depth + levels - depth) = block

instance (levels depth block : Nat) (index : NodeIndex) :
    Decidable (InSubtree levels depth block index) := inferInstanceAs (Decidable (_ ∧ _ ∧ _))

/-- The first level of a subtree and those above. -/
theorem inSubtree_succ {levels : Nat} :
    InSubtree (levels + 1) (depth + 1) block index ↔
      InSubtree levels depth block index ∨ index.depth = depth ∧
        index.position / 2 ^ levels = block := by
  have exponent : index.depth + (levels + 1) - (depth + 1) =
      index.depth + levels - depth := by omega
  rw [InSubtree, InSubtree, exponent]
  by_cases same : index.depth = depth
  · have own : index.depth + levels - depth = levels := by omega
    rw [own]
    omega
  · omega

/-- Building a number of levels gives the nodes of the subtree and its root. -/
theorem buildLevels_spec {levels height : Nat} (level : depth + height = smtDepth)
    (deep : levels ≤ depth) (innerNodes : OrderedMap NodeIndex (InnerNode D))
    (changed : Changed (levelOf hasher leaf height) (emptyLevel hasher height) (fun col => col / 2 ^ levels
        = block) leaves) :
    let built := buildLevels hasher levels depth innerNodes leaves
    Changed (levelOf hasher leaf (height + levels)) (emptyLevel hasher (height + levels))
        (fun col => col = block) built.2 ∧
      forall index, built.1.get? index =
        (if InSubtree levels depth block index then innerNodeOf hasher leaf index else none).or
          (innerNodes.get? index) := by
  induction levels generalizing depth height innerNodes leaves with
  | zero =>
    refine ⟨changed.congr (fun col => by rw [pow_zero, Nat.div_one]), fun index => ?_⟩
    have outside : ¬ InSubtree 0 depth block index := fun all => by
      have bounds := all.1
      have upper := all.2.1
      omega
    rw [if_neg outside]
    rfl
  | succ levels ih =>
    rcases depth with _ | depth
    · exact absurd deep (not_succ_le_zero levels)
    · have next : depth + (height + 1) = smtDepth := by omega
      have combined : Combined (levelOf hasher leaf height) (emptyLevel hasher height)
          (fun position => position / 2 ^ levels = block)
          (siblingPairs (fun _ => EmptySubtreeRoots.getInnerNode hasher smtDepth depth) leaves) := by
        refine siblingPairs_spec (fun position _ => ?_) (changed.congr (fun col => ?_))
        · exact getInnerNode_eq hasher next
        · rw [pow_succ', Nat.div_div_eq_div_mul]
      rw [buildLevels]
      simp only [Nat.add_sub_cancel]
      generalize siblingPairs (fun _ => EmptySubtreeRoots.getInnerNode hasher smtDepth depth)
        leaves = entries at combined ⊢
      have kept : entries.filter (fun entry =>
          entry.2.hash hasher ≠ EmptySubtreeRoots.entry hasher smtDepth depth) =
            filled hasher (height + 1) entries := by
        rw [entry_eq hasher next]
        rfl
      rw [kept]
      have above : height + (levels + 1) = height + 1 + levels := by omega
      rw [above]
      rcases ih next (le_of_succ_le_succ deep)
        (innerNodes.insertAll (filledAt hasher depth height entries)) combined.changed with
          ⟨root, stored⟩
      refine ⟨root, fun index => (stored index).trans ?_⟩
      rw [ OrderedMap.get?_insertAll (combined.distinct depth), combined.lookup next]
      by_cases later : InSubtree levels depth block index
      · have apart : ¬ (index.depth = depth ∧ index.position / 2 ^ levels = block) := fun here =>
          Nat.ne_of_lt later.2.1 here.1
        rw [if_pos later, if_pos (inSubtree_succ.mpr (.inl later)), if_neg apart, Option.none_or]
      · rw [if_neg later, Option.none_or]
        by_cases here : index.depth = depth ∧ index.position / 2 ^ levels = block
        · rw [if_pos here, if_pos (inSubtree_succ.mpr (.inr here))]
        · rw [if_neg here, if_neg (fun all => (inSubtree_succ.mp all).elim later here)]

/-- A subtree with a root that is not empty. -/
theorem buildSubtree_spec {ε : Type} {height : Nat} (level : depth + height = smtDepth)
    (deep : subtreeDepth ≤ depth)
    (changed : Changed (levelOf hasher leaf height) (emptyLevel hasher height) (fun col => col /
        colsPerSubtree = block) leaves)
    (solid : levelOf hasher leaf (height + subtreeDepth) block ≠ emptyOf hasher (height + subtreeDepth)) :
    ∃ nodes, (buildSubtree hasher depth leaves : Outcome ε _) =
        .ok (nodes, ⟨block, levelOf hasher leaf (height + subtreeDepth) block⟩) ∧
      forall index, nodes.get? index =
        if InSubtree subtreeDepth depth block index then innerNodeOf hasher leaf index else none := by
  rcases buildLevels_spec level deep .empty changed with ⟨root, stored⟩
  have single : (buildLevels hasher subtreeDepth depth .empty leaves).2 =
      [⟨block, levelOf hasher leaf (height + subtreeDepth) block⟩] := by
    generalize (buildLevels hasher subtreeDepth depth .empty leaves).2 = roots at root
    rcases roots with _ | ⟨first, _ | ⟨second, rest⟩⟩
    · exact absurd (root.others block rfl (forall_mem_nil _)) solid
    · rcases root.here first mem_cons_self with ⟨rfl, hash⟩
      rw [← hash]
    · have less := (pairwise_cons.mp root.sorted).1 second mem_cons_self
      rw [(root.here first mem_cons_self).1, (root.here second (mem_cons_of_mem _ mem_cons_self)).1] at less
      exact absurd less (lt_irrefl block)
  refine ⟨(buildLevels hasher subtreeDepth depth .empty leaves).1, ?_, fun index => ?_⟩
  · rw [buildSubtree]
    simp only [single, getLast?_singleton, expect_some, ok_bind, pure_eq_ok]
  · rw [stored, OrderedMap.get?_empty, Option.or_none]

end Build

/-! ## Cutting into subtrees -/

theorem nextSubtreeCol_eq (col : Nat) : nextSubtreeCol col = 256 * (col / 256 + 1) := by
  simp only [nextSubtreeCol, nextMultipleOf, colsPerSubtree, subtreeDepth]
  rcases Nat.eq_zero_or_pos col with zero | positive
  · rw [zero]
    rfl
  · rw [Nat.max_eq_right positive]
    change (if col % 256 = 0 then (col + 1 + 256 - 1) / 256 * 256 else (col + 256 - 1) / 256 * 256) = _
    split <;> omega

namespace SubtreeLeavesIter

/-- The leaves of the subtree of a column. -/
def ofBlock (block : Nat) (leaf : SubtreeLeaf D) : Bool := decide (leaf.col / 256 = block)

theorem takeSubtree_spec {last : Nat} {subtree : List (SubtreeLeaf D)} (some : subtree ≠ [])
    (sorted : leaves.Pairwise (fun left right => left.col < right.col))
    (after : forall leaf, leaf ∈ leaves -> last ≤ leaf.col) :
    takeSubtree last subtree leaves =
      (subtree ++ leaves.takeWhile (ofBlock (last / 256)),
        leaves.dropWhile (ofBlock (last / 256))) := by
  induction leaves generalizing last subtree with
  | nil => simp [takeSubtree]
  | cons leaf rest ih =>
    rcases pairwise_cons.mp sorted with ⟨least, others⟩
    have bound := after leaf mem_cons_self
    rw [takeSubtree, nextSubtreeCol_eq]
    by_cases inside : leaf.col < 256 * (last / 256 + 1)
    · have same : leaf.col / 256 = last / 256 := by omega
      have taken : ofBlock (last / 256) leaf = true := decide_eq_true same
      rw [if_pos inside, ih (append_ne_nil_of_right_ne_nil _ (cons_ne_nil _ _)) others
        (fun other member => le_of_lt (least other member)), same,
        takeWhile_cons_of_pos taken, dropWhile_cons_of_pos taken, append_assoc]
      rfl
    · have apart : ¬ ofBlock (last / 256) leaf = true := by
        rw [ofBlock, decide_eq_true_eq]
        omega
      rw [if_neg inside, takeWhile_cons_of_neg apart, dropWhile_cons_of_neg apart]
      simp [some]

/-- In an ordered list the leaves of the first subtree come first. -/
theorem takeWhile_ofBlock (sorted : leaves.Pairwise (fun left right => left.col < right.col))
    (after : forall leaf, leaf ∈ leaves -> block ≤ leaf.col / 256) :
    leaves.takeWhile (ofBlock block) = leaves.filter (fun leaf => leaf.col / 256 = block) ∧
      leaves.dropWhile (ofBlock block) = leaves.filter (fun leaf => block < leaf.col / 256) := by
  induction leaves with
  | nil => exact ⟨rfl, rfl⟩
  | cons leaf rest ih =>
    rcases pairwise_cons.mp sorted with ⟨least, others⟩
    by_cases here : leaf.col / 256 = block
    · rcases ih others (fun other member => after other (mem_cons_of_mem _ member)) with
        ⟨taken, dropped⟩
      have inside : ofBlock block leaf = true := decide_eq_true here
      rw [takeWhile_cons_of_pos inside, dropWhile_cons_of_pos inside, taken, dropped]
      simp [here]
    · have outside : ¬ ofBlock block leaf = true := by simpa [ofBlock] using here
      have above : forall other, other ∈ leaf :: rest -> block < other.col / 256 := by
        intro other member
        have bound := after leaf mem_cons_self
        rcases mem_cons.mp member with same | later
        · rw [same]
          omega
        · have further := least other later
          omega
      rw [takeWhile_cons_of_neg outside, dropWhile_cons_of_neg outside]
      refine ⟨(filter_eq_nil_iff.mpr (fun other member same => ?_)).symm,
        (filter_eq_self.mpr (fun other member => decide_eq_true (above other member))).symm⟩
      exact ne_of_gt (above other member) (of_decide_eq_true same)

/-- The iterator takes the leaves of the subtree of the first leaf. -/
theorem yield_cons (fuel : Nat)
    (sorted : (first :: rest).Pairwise (fun left right => left.col < right.col)) :
    yield (fuel + 1) (first :: rest) =
      (first :: rest).filter (fun leaf => leaf.col / 256 = first.col / 256) ::
        yield fuel ((first :: rest).filter (fun leaf => first.col / 256 < leaf.col / 256)) := by
  rcases pairwise_cons.mp sorted with ⟨least, others⟩
  have taken : takeSubtree 0 [] (first :: rest) = takeSubtree first.col [first] rest := by
    rw [takeSubtree]
    split <;> rfl
  have after : forall leaf, leaf ∈ rest -> first.col ≤ leaf.col :=
    fun leaf member => le_of_lt (least leaf member)
  rcases takeWhile_ofBlock others (fun leaf member => Nat.div_le_div_right (after leaf member)) with
    ⟨block, later⟩
  rw [yield, taken, takeSubtree_spec (cons_ne_nil _ _) others after, block, later]
  simp

theorem yield_nil (fuel : Nat) : yield fuel ([] : List (SubtreeLeaf D)) = [] := by
  cases fuel with
  | zero => rfl
  | succ fuel => rfl

end SubtreeLeavesIter

/-! ## One round -/

section Round

variable [DecidableEq D] {hasher : SmtHasher D} {leaf : Nat -> D}

omit [DecidableEq D] in
/-- What is above a node that is not empty is not empty. -/
theorem level_ne_empty (free : hasher.EmptyFree) {height col : Nat}
    (solid : levelOf hasher leaf height col ≠ emptyOf hasher height) (extra : Nat) :
    levelOf hasher leaf (height + extra) (col / 2 ^ extra) ≠ emptyOf hasher (height + extra) := by
  induction extra with
  | zero => rwa [pow_zero, Nat.div_one]
  | succ extra ih =>
    intro same
    rcases free.node _ _ _ same with ⟨left, right⟩
    rw [div_two_pow_succ] at left right
    rcases mod_two_eq_zero_or_one (col / 2 ^ extra) with even | odd
    · have child : 2 * (col / 2 ^ extra / 2) = col / 2 ^ extra := by omega
      rw [child] at left
      exact ih left
    · have child : 2 * (col / 2 ^ extra / 2) + 1 = col / 2 ^ extra := by omega
      rw [child] at right
      exact ih right

omit [DecidableEq D] in
/-- A part of a level. -/
theorem Changed.filter {new old : Nat -> D} {inside : Nat -> Prop}
    (changed : Changed new old inside leaves) (part : Nat -> Prop) [DecidablePred part] :
    Changed new old (fun col => inside col ∧ part col)
      (leaves.filter (fun leaf => part leaf.col)) where
  sorted := changed.sorted.filter _
  here leaf member := by
    rcases mem_filter.mp member with ⟨original, kept⟩
    exact ⟨⟨(changed.here leaf original).1, of_decide_eq_true kept⟩, (changed.here leaf original).2⟩
  others col place absent := changed.others col place.1 (fun leaf member same =>
    absent leaf (mem_filter.mpr ⟨member, decide_eq_true (same ▸ place.2)⟩) same)

/-- The node at an index lies in a round of subtrees, from a block on. -/
def InRound (depth low : Nat) (index : NodeIndex) : Prop :=
  depth ≤ index.depth + subtreeDepth ∧ index.depth < depth ∧
    low ≤ index.position / 2 ^ (index.depth + subtreeDepth - depth)

instance (depth low : Nat) (index : NodeIndex) : Decidable (InRound depth low index) :=
  inferInstanceAs (Decidable (_ ∧ _ ∧ _))

/-- Nothing is stored over a subtree without leaves. -/
theorem innerNodeOf_of_vacant {height : Nat} (level : depth + height = smtDepth)
    (vacant : forall col, col / 256 = block -> levelOf hasher leaf height col = emptyOf hasher height)
    (inside : InSubtree subtreeDepth depth block index) : innerNodeOf hasher leaf index = none := by
  rcases index with ⟨indexDepth, position⟩
  rcases inside with ⟨deep, upper, under⟩
  change depth ≤ indexDepth + subtreeDepth at deep
  change indexDepth < depth at upper
  change position / 2 ^ (indexDepth + subtreeDepth - depth) = block at under
  rcases Nat.exists_eq_add_of_lt upper with ⟨extra, rfl⟩
  have power : (2 : Nat) ^ (extra + 1) *
      2 ^ (indexDepth + subtreeDepth - (indexDepth + extra + 1)) = 256 := by
    rw [← Nat.pow_add]
    have exponent : extra + 1 + (indexDepth + subtreeDepth - (indexDepth + extra + 1)) = 8 := by
      change indexDepth + extra + 1 ≤ indexDepth + 8 at deep
      change extra + 1 + (indexDepth + 8 - (indexDepth + extra + 1)) = 8
      omega
    rw [exponent]
  have empty : levelOf hasher leaf (height + (extra + 1)) position =
      emptyOf hasher (height + (extra + 1)) := by
    refine node_of_vacant_level hasher.merge (fun col below => vacant col ?_)
    rw [← under, ← below, Nat.div_div_eq_div_mul, power]
  have above : indexDepth + (height + extra + 1) = smtDepth := by omega
  rw [innerNodeOf_eq hasher above]
  exact if_pos empty

omit [DecidableEq D] in
/-- A block without leaves is empty. -/
theorem Changed.vacant {low : Nat} {height : Nat}
    (changed : Changed (levelOf hasher leaf height) (emptyLevel hasher height) (fun col => low ≤ col / 256)
        leaves)
    (absent : forall other, other ∈ leaves -> other.col / 256 ≠ block) (bound : low ≤ block) :
    forall col, col / 256 = block -> levelOf hasher leaf height col = emptyOf hasher height := by
  intro col under
  refine changed.others col (under ▸ bound) (fun other member same => ?_)
  exact absent other member (same ▸ under)

/-- What a round builds from a block on: the roots of the subtrees are the leaves
eight levels up, and the nodes of the subtrees are those in between. -/
structure Round (hasher : SmtHasher D) (leaf : Nat -> D) (depth height low : Nat)
    (built : List (OrderedMap NodeIndex (InnerNode D) × SubtreeLeaf D)) : Prop where
  roots : Changed (levelOf hasher leaf (height + subtreeDepth))
    (emptyLevel hasher (height + subtreeDepth)) (fun col => low ≤ col) (built.map Prod.snd)
  solid : forall root, root ∈ built.map Prod.snd ->
    root.hash ≠ emptyOf hasher (height + subtreeDepth)
  nodes : forall (nodes : OrderedMap NodeIndex (InnerNode D)) index,
    (built.foldl (fun nodes subtree => nodes.insertAll subtree.1.entries) nodes).get? index =
      (if InRound depth low index then innerNodeOf hasher leaf index else none).or (nodes.get? index)

section Blocks

variable {depth height low : Nat} (level : depth + height = smtDepth)
  {leaves : List (SubtreeLeaf D)}
  (changed : Changed (levelOf hasher leaf height) (emptyLevel hasher height)
    (fun col => low ≤ col / 256) leaves)
include level changed

omit [DecidableEq D] level in
theorem Changed.root_vacant (bound : low ≤ block)
    (absent : forall other, other ∈ leaves -> other.col / 256 ≠ block) :
    levelOf hasher leaf (height + subtreeDepth) block = emptyOf hasher (height + subtreeDepth) :=
  node_of_vacant_level hasher.merge (changed.vacant absent bound)

/-- No node of a round is stored over a block without leaves. -/
theorem Changed.inner_vacant (inside : InRound depth low index)
    (absent : forall other, other ∈ leaves -> other.col / 256 ≠ index.position / 2 ^ (index.depth +
        subtreeDepth - depth)) :
    innerNodeOf hasher leaf index = none :=
  innerNodeOf_of_vacant level (changed.vacant absent inside.2.2) ⟨inside.1, inside.2.1, rfl⟩

theorem Round.nil (none : leaves = []) : Round hasher leaf depth height low [] := by
  have absent (block : Nat) : forall other, other ∈ leaves -> other.col / 256 ≠ block := by
    rw [none]
    exact forall_mem_nil _
  refine ⟨⟨List.Pairwise.nil, forall_mem_nil _,
    fun col bound _ => changed.root_vacant bound (absent col)⟩,
    forall_mem_nil _, fun nodes index => ?_⟩
  rw [foldl_nil]
  split
  · rename_i inside
    rw [changed.inner_vacant level inside (absent _), Option.none_or]
  · rw [Option.none_or]

/-- The subtree of the first block, in front of those of the later blocks. -/
theorem Round.cons (bound : low ≤ block)
    (least : forall other, other ∈ leaves -> block ≤ other.col / 256)
    {stored : OrderedMap NodeIndex (InnerNode D)}
    (nodes : forall index, stored.get? index = if InSubtree subtreeDepth depth block index then
        innerNodeOf hasher leaf index else none)
    (solid : levelOf hasher leaf (height + subtreeDepth) block ≠ emptyOf hasher (height + subtreeDepth))
    {built : List (OrderedMap NodeIndex (InnerNode D) × SubtreeLeaf D)}
    (later : Round hasher leaf depth height (block + 1) built) :
    Round hasher leaf depth height low
      ((stored, ⟨block, levelOf hasher leaf (height + subtreeDepth) block⟩) :: built) := by
  have before {other : Nat} (lower : other < block) : forall leaf, leaf ∈ leaves ->
      leaf.col / 256 ≠ other :=
    fun leaf member => ne_of_gt (lt_of_lt_of_le lower (least leaf member))
  refine ⟨⟨?_, fun root member => ?_, fun col inside absent => ?_⟩, fun root member => ?_,
    fun nodesBefore index => ?_⟩
  · exact pairwise_cons.mpr ⟨fun root member => (later.roots.here root member).1,
      later.roots.sorted⟩
  · rcases mem_cons.mp member with same | further
    · rw [same]
      exact ⟨bound, rfl⟩
    · rcases later.roots.here root further with ⟨place, hash⟩
      exact ⟨le_trans bound (le_of_succ_le place), hash⟩
  · rcases lt_trichotomy col block with lower | same | above
    · exact changed.root_vacant inside (before lower)
    · exact absurd same.symm (absent _ mem_cons_self)
    · exact later.roots.others col above
        (fun root member => absent root (mem_cons_of_mem _ member))
  · rcases mem_cons.mp member with same | further
    · rw [same]
      exact solid
    · exact later.solid root further
  · rw [foldl_cons, later.nodes, OrderedMap.get?_insertAll stored.nodup_keys]
    have found : stored.entries.lookup index = stored.get? index := rfl
    rw [found, nodes]
    have lower : InRound depth (block + 1) index -> InRound depth low index := fun inside =>
      ⟨inside.1, inside.2.1, le_trans bound (le_of_succ_le inside.2.2)⟩
    have here : InSubtree subtreeDepth depth block index -> InRound depth low index := fun inside =>
      ⟨inside.1, inside.2.1, inside.2.2.symm ▸ bound⟩
    by_cases inside : InRound depth low index
    · rw [if_pos inside]
      rcases lt_trichotomy block
        (index.position / 2 ^ (index.depth + subtreeDepth - depth)) with above | same | below
      · have apart : ¬ InSubtree subtreeDepth depth block index := fun other =>
          ne_of_gt above other.2.2
        rw [if_pos (show InRound depth (block + 1) index from ⟨inside.1, inside.2.1, above⟩),
          if_neg apart, Option.none_or]
      · have apart : ¬ InRound depth (block + 1) index := fun other =>
          not_succ_le_self block (same ▸ other.2.2)
        rw [if_neg apart, if_pos (show InSubtree _ _ _ index from ⟨inside.1, inside.2.1, same.symm⟩),
          Option.none_or]
      · have apart : ¬ InRound depth (block + 1) index := fun other =>
          Nat.lt_asymm below other.2.2
        have other : ¬ InSubtree subtreeDepth depth block index := fun other =>
          Nat.ne_of_lt below other.2.2
        rw [if_neg apart, if_neg other, changed.inner_vacant level inside (before below),
          Option.none_or]
    · rw [if_neg inside, if_neg (fun other => inside (lower other)),
        if_neg (fun other => inside (here other)), Option.none_or]

/-- A round builds every subtree that has a leaf. -/
theorem buildRound_spec {ε : Type} (free : hasher.EmptyFree) (deep : subtreeDepth ≤ depth)
    {fuel : Nat} (enough : leaves.length ≤ fuel)
    (solid : forall other, other ∈ leaves -> other.hash ≠ emptyOf hasher height) :
    ∃ built, Outcome.collect (SubtreeLeavesIter.yield fuel leaves)
        (buildSubtree hasher depth : _ -> Outcome ε _) = .ok built ∧
      Round hasher leaf depth height low built := by
  induction fuel generalizing low leaves with
  | zero =>
    have none := length_eq_zero_iff.mp (le_zero.mp enough)
    refine ⟨[], ?_, Round.nil level changed none⟩
    rw [none]
    rfl
  | succ fuel ih =>
    rcases leaves with _ | ⟨first, rest⟩
    · exact ⟨[], by rw [SubtreeLeavesIter.yield_nil]; rfl, Round.nil level changed rfl⟩
    · rcases changed.here first mem_cons_self with ⟨bound, hash⟩
      have least : forall other, other ∈ first :: rest -> first.col / 256 ≤ other.col / 256 := by
        intro other member
        rcases mem_cons.mp member with same | later
        · rw [same]
        · exact Nat.div_le_div_right
            (le_of_lt ((pairwise_cons.mp changed.sorted).1 other later))
      have top := level_ne_empty free (hash ▸ solid first mem_cons_self) subtreeDepth
      have group := (changed.filter (fun col => col / 256 = first.col / 256)).congr
        (fun col => (and_iff_right_of_imp (fun same => same ▸ bound)))
      have others := (changed.filter (fun col => first.col / 256 < col / 256)).congr
        (fun col => (and_iff_right_of_imp (fun less => le_trans bound (le_of_lt less))))
      have shorter : ((first :: rest).filter
          (fun other => first.col / 256 < other.col / 256)).length ≤ fuel := by
        rw [filter_cons_of_neg (by simp)]
        exact le_trans (length_filter_le _ _) (le_of_succ_le_succ enough)
      rcases ih others shorter (fun other member => solid other (mem_filter.mp member).1) with
        ⟨built, ran, later⟩
      rcases buildSubtree_spec level deep group top with ⟨stored, root, nodes⟩
      refine ⟨_, ?_, Round.cons level changed bound least nodes top later⟩
      rw [SubtreeLeavesIter.yield_cons fuel changed.sorted, Outcome.collect, root,
        ok_bind, ran, ok_bind]

end Blocks

end Round

end MidenVm.Crypto
