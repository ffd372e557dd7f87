import MidenVm.Crypto.Mmr.ForestSpec
import MidenVm.Crypto.Mmr.Full

namespace MidenVm.Crypto.Mmr

open Foundation Mountain List Outcome Nat Forest MerklePath

/-!
# Appends, peaks and openings of the full range

The array of a range holds each complete node at its place.  An append adds
the nodes that the new leaf completes, and peaks and openings of any earlier
forest read nodes at the places of that forest.
-/

variable {D : Type} (merge : D -> D -> D)

variable {leaf : Nat -> D} {count height pos : Nat} {nodes leaves : List D} {mmr : Full D}
    {forest : Forest}
namespace Full

/-- The array holds the nodes over the leaves, each at its place. -/
structure Holds (leaf : Nat -> D) (mmr : Full D) : Prop where
  size : mmr.nodes.length = nodeCount mmr.forest.numLeaves
  stored : forall height index, (index + 1) * 2 ^ height ≤ mmr.forest.numLeaves ->
    mmr.nodes[place height index]? = some (node merge leaf height index)

theorem new_holds (leaf : Nat -> D) : (new : Full D).Holds merge leaf := by
  refine ⟨rfl, ?_⟩
  intro height index complete
  have positive : 0 < (index + 1) * 2 ^ height :=
    Nat.mul_pos (succ_pos index) (Nat.two_pow_pos height)
  exact absurd complete (not_le.mpr positive)

/-! ## Appending -/

/-- The array after a leaf and the nodes it completes up to a height. -/
structure Adding (leaf : Nat -> D) (count height : Nat) (nodes : List D) : Prop where
  size : nodes.length = nodeCount count + height + 1
  ones : count % 2 ^ height = 2 ^ height - 1
  stored : forall level index, (index + 1) * 2 ^ level ≤ count ->
    nodes[place level index]? = some (node merge leaf level index)
  added : forall level, level ≤ height ->
    nodes[nodeCount count + level]? = some (node merge leaf level (count / 2 ^ level))

variable {merge}

section Adding

variable (adding : Adding merge leaf count height nodes)
include adding

/-- The digits of a count whose last ones end below a height. -/
theorem Adding.split : count = count / 2 ^ height * 2 ^ height + (2 ^ height - 1) := by
  have split := div_add_mod count (2 ^ height)
  rw [adding.ones, mul_comm] at split
  exact split.symm

theorem Adding.step (odd : count / 2 ^ height % 2 = 1) :
    Adding merge leaf count (height + 1)
      (nodes ++ [node merge leaf (height + 1) (count / 2 ^ (height + 1))]) := by
  have positive := Nat.two_pow_pos height
  refine ⟨?_, ?_, ?_, ?_⟩
  · rw [length_append, adding.size]
    rfl
  · rw [mod_pow_succ, adding.ones, odd, pow_succ]
    omega
  · intro level index complete
    have inside : place level index < nodes.length := by
      have below := place_lt complete
      rw [adding.size]
      omega
    rw [getElem?_append_left inside]
    exact adding.stored level index complete
  · intro level below
    rcases Nat.lt_or_eq_of_le below with less | rfl
    · have inside : nodeCount count + level < nodes.length := by
        rw [adding.size]
        omega
      rw [getElem?_append_left inside]
      exact adding.added level (le_of_lt_succ less)
    · rw [getElem?_append_right (by rw [adding.size]; omega), adding.size,
        add_assoc, Nat.sub_self]
      rfl

/-- Once the digit at a height is zero, the nodes over one more leaf are there. -/
theorem Adding.done (even : count / 2 ^ height % 2 = 0) :
    nodes.length = nodeCount (count + 1) ∧
      forall level index, (index + 1) * 2 ^ level ≤ count + 1 ->
        nodes[place level index]? = some (node merge leaf level index) := by
  have positive := Nat.two_pow_pos height
  have split := adding.split
  have halves : count / 2 ^ height = 2 * (count / 2 ^ height / 2) := by omega
  have next : count + 1 = (2 * (count / 2 ^ height / 2) + 1) * 2 ^ height := by
    rw [add_mul, one_mul, ← halves]
    omega
  constructor
  · have after := nodeCount_after_even height (count / 2 ^ height / 2)
    rw [← halves, ← split] at after
    rw [adding.size, next, ← halves, after]
  · intro level index complete
    rcases Nat.lt_or_eq_of_le complete with less | ends
    · exact adding.stored level index (le_of_lt_succ less)
    · -- the node ends with the new leaf, so it is not higher than the carry reached
      rcases (ends_iff next).mp ends with ⟨below, own⟩
      have last : count = index * 2 ^ level + (2 ^ level - 1) := by
        have levelPositive := Nat.two_pow_pos level
        rw [add_mul, one_mul] at ends
        omega
      rw [place_eq, ← last, own]
      exact adding.added level below

end Adding

/-- Where the left sibling of the last node stands, while a digit is one. -/
theorem place_before (odd : count / 2 ^ height % 2 = 1) (next : count / 2 ^ (height + 1) % 2 = 1) :
    place height (count / 2 ^ height - 1) - (2 ^ height * 2 - 1) =
      place (height + 1) (count / 2 ^ (height + 1) - 1) := by
  have positive := Nat.two_pow_pos height
  rw [div_two_pow_succ] at next ⊢
  generalize count / 2 ^ height = index at odd next
  rcases (show ∃ quarter, index = 2 * (2 * quarter + 1) + 1 from ⟨index / 4, by omega⟩) with
    ⟨quarter, rfl⟩
  have half : (2 * (2 * quarter + 1) + 1) / 2 = 2 * quarter + 1 := by omega
  rw [half, Nat.add_sub_cancel, Nat.add_sub_cancel]
  have left := place_left height (2 * quarter + 1)
  have right := place_right (height + 1) quarter
  have before := place_left (height + 1) quarter
  rw [nodeCount_two_pow, pow_succ] at left before
  rw [pow_succ] at before
  omega

/-- A digit that is one has its power below the number. -/
theorem height_lt_of_odd (small : count < 2 ^ 32)
    (odd : count / 2 ^ height % 2 = 1) : height < 32 := by
  rcases lt_or_ge height 32 with less | more
  · exact less
  · have zero : count / 2 ^ height = 0 := div_eq_of_lt
      (lt_of_lt_of_le small (Nat.pow_le_pow_right (by decide) more))
    rw [zero] at odd
    cases odd

theorem mergeTrees_spec (small : count < 2 ^ 32) {fuel leftOffset : Nat}
    (enough : fuel + height = usizeBits) (adding : Adding merge leaf count height nodes)
    (left : count / 2 ^ height % 2 = 1 -> leftOffset = place height (count / 2 ^ height - 1)) :
    ∃ after, mergeTrees merge count fuel leftOffset (node merge leaf height (count / 2 ^ height))
        (2 ^ height) nodes = .ok after ∧
      after.length = nodeCount (count + 1) ∧
      forall level index, (index + 1) * 2 ^ level ≤ count + 1 ->
        after[place level index]? = some (node merge leaf level index) := by
  set index := count / 2 ^ height
  induction fuel generalizing height leftOffset nodes with
  | zero =>
    have zero : index % 2 = 0 := by
      rcases mod_two_eq_zero_or_one index with zero | odd
      · exact zero
      · have low := height_lt_of_odd small odd
        unfold usizeBits at enough
        omega
    exact ⟨nodes, rfl, adding.done zero⟩
  | succ fuel ih =>
    rw [mergeTrees]
    by_cases odd : index % 2 = 1
    · -- the tree of this height stands left of the node just added
      have low := height_lt_of_odd small odd
      have nested := (div_two_pow_succ count height).symm
      have right : index = 2 * (count / 2 ^ (height + 1)) + 1 := by omega
      have complete : (index - 1 + 1) * 2 ^ height ≤ count := by
        rw [right, Nat.add_sub_cancel, ← right]
        exact div_mul_le_self count _
      have found := adding.stored _ _ complete
      have joined : merge (node merge leaf height (index - 1))
          (node merge leaf height index) =
            node merge leaf (height + 1) (count / 2 ^ (height + 1)) := by
        rw [right, Nat.add_sub_cancel, node]
      have shifted : 2 ^ height * 2 % 2 ^ usizeBits = 2 ^ (height + 1) := by
        rw [← pow_succ]
        exact mod_eq_of_lt (Nat.pow_lt_pow_right (by decide) (by unfold usizeBits; omega))
      rw [if_pos ((and_two_pow_ne_zero_iff _ _).mpr odd), left odd, found, expect_some, ok_bind]
      simp only [joined, shifted]
      exact ih (by omega) (adding.step odd) (fun next => place_before odd next)
    · have zero : index % 2 = 0 := by omega
      rw [if_neg (fun set => odd ((and_two_pow_ne_zero_iff _ _).mp set))]
      exact ⟨nodes, rfl, adding.done zero⟩

theorem add_spec (holds : mmr.Holds merge leaf) (room : mmr.forest.numLeaves < maxLeaves) :
    ∃ after, mmr.add merge (leaf mmr.forest.numLeaves) = .ok after ∧
      after.forest.numLeaves = mmr.forest.numLeaves + 1 ∧ after.Holds merge leaf := by
  have adding : Adding merge leaf mmr.forest.numLeaves 0
      (mmr.nodes ++ [leaf mmr.forest.numLeaves]) := by
    refine ⟨?_, mod_one _, ?_, ?_⟩
    · rw [length_append, holds.size]
      rfl
    · intro level index complete
      have inside : place level index < mmr.nodes.length := by
        rw [holds.size]
        exact place_lt complete
      rw [getElem?_append_left inside]
      exact holds.stored level index complete
    · intro level below
      rw [le_zero.mp below, add_zero, ← holds.size, getElem?_concat_length, node,
        pow_zero, Nat.div_one]
  have left : mmr.forest.numLeaves / 2 ^ 0 % 2 = 1 ->
      (mmr.nodes ++ [leaf mmr.forest.numLeaves]).length - 2 =
        place 0 (mmr.forest.numLeaves / 2 ^ 0 - 1) := by
    intro odd
    rw [pow_zero, Nat.div_one] at odd ⊢
    have half : 2 * (mmr.forest.numLeaves / 2) = mmr.forest.numLeaves - 1 := by omega
    have next : mmr.forest.numLeaves - 1 + 1 = mmr.forest.numLeaves := by omega
    have step := nodeCount_after_even 0 (mmr.forest.numLeaves / 2)
    rw [pow_zero, mul_one, mul_one, half, next] at step
    rw [adding.size, ← step, place, pow_zero, mul_one]
    rfl
  rcases mergeTrees_spec (lt_two_pow_of_le_maxLeaves mmr.forest.bounded) rfl adding left with
    ⟨nodes, merged, size, stored⟩
  rw [pow_zero, Nat.div_one] at merged
  refine ⟨⟨⟨mmr.forest.numLeaves + 1, room⟩, nodes⟩, ?_, rfl, size, stored⟩
  rw [add, appendLeaf, dif_neg (not_le.mpr room), ok_bind]
  exact congrArg (fun outcome => Outcome.bind outcome _) merged

theorem addAll_spec (holds : mmr.Holds merge leaf)
    (room : mmr.forest.numLeaves + leaves.length ≤ maxLeaves)
    (agree : forall place value, leaves[place]? = some value -> value = leaf (mmr.forest.numLeaves + place)) :
    ∃ after, mmr.addAll merge leaves = .ok after ∧
      after.forest.numLeaves = mmr.forest.numLeaves + leaves.length ∧ after.Holds merge leaf := by
  induction leaves generalizing mmr with
  | nil => exact ⟨mmr, rfl, rfl, holds⟩
  | cons first rest ih =>
    rw [length_cons] at room ⊢
    have value : first = leaf mmr.forest.numLeaves := agree 0 first rfl
    rcases add_spec holds (by omega) with ⟨next, added, count, kept⟩
    have rests : forall place value, rest[place]? = some value ->
        value = leaf (next.forest.numLeaves + place) := by
      intro place value found
      rw [count, add_assoc, add_comm 1 place]
      exact agree (place + 1) value found
    rcases ih kept (by omega) rests with ⟨after, all, total, done⟩
    refine ⟨after, ?_, by omega, done⟩
    unfold addAll
    rw [foldlM_cons, value, added, ok_bind]
    exact all

theorem numLeaves_of_add {after : Full D} {el : D} (added : mmr.add merge el = .ok after) :
    after.forest.numLeaves = mmr.forest.numLeaves + 1 := by
  rcases bind_eq_ok.mp added with ⟨forest, grown, added⟩
  rcases bind_eq_ok.mp added with ⟨nodes, _, made⟩
  rw [appendLeaf] at grown
  split at grown
  · cases grown
  · cases grown
    cases made
    rfl

theorem numLeaves_of_addAll {after : Full D} (all : mmr.addAll merge leaves = .ok after) :
    after.forest.numLeaves = mmr.forest.numLeaves + leaves.length := by
  induction leaves generalizing mmr with
  | nil =>
    cases all
    rfl
  | cons first rest ih =>
    rw [addAll, foldlM_cons, bind_eq_ok] at all
    rcases all with ⟨next, added, all⟩
    rw [ih all, numLeaves_of_add added, length_cons]
    omega

theorem new_addAll (merge : D -> D -> D) (leaf : Nat -> D) (bounded : leaves.length ≤ maxLeaves)
    (agree : forall place value, leaves[place]? = some value -> value = leaf place) :
    ∃ mmr, new.addAll merge leaves = .ok mmr ∧ mmr.forest.numLeaves = leaves.length ∧
      mmr.Holds merge leaf := by
  have start : (new : Full D).forest.numLeaves = 0 := rfl
  rcases addAll_spec (new_holds merge leaf) (by rwa [start, zero_add])
      (fun place value found => by rw [start, zero_add]; exact agree place value found) with
    ⟨mmr, all, count, holds⟩
  exact ⟨mmr, all, count.trans (zero_add _), holds⟩

theorem eq_getD (fallback : D) (place : Nat) (value : D)
    (found : leaves[place]? = some value) : value = leaves.getD place fallback := by
  rw [getD_eq_getElem?_getD, found]
  rfl

/-- The range over a list of leaves holds the nodes over any continuation of
the list. -/
theorem holds_of_addAll (all : new.addAll merge leaves = .ok mmr) (leaf : Nat -> D)
    (agree : forall place value, leaves[place]? = some value -> value = leaf place) :
    mmr.Holds merge leaf ∧ mmr.forest.numLeaves = leaves.length := by
  have count : mmr.forest.numLeaves = leaves.length := (numLeaves_of_addAll all).trans (zero_add _)
  have bounded : leaves.length ≤ maxLeaves := count ▸ mmr.forest.bounded
  rcases new_addAll merge leaf bounded agree with ⟨after, again, _, holds⟩
  rw [all, Outcome.ok.injEq] at again
  exact ⟨again ▸ holds, count⟩

/-! ## Peaks of an earlier forest -/

theorem stored_of_le (holds : mmr.Holds merge leaf) {leaves index : Nat}
    (earlier : leaves ≤ mmr.forest.numLeaves) (complete : (index + 1) * 2 ^ height ≤ leaves) :
    mmr.nodes[place height index]? = some (node merge leaf height index) :=
  holds.stored height index (le_trans complete earlier)

/-- Where the nodes of a tree end. -/
theorem next_offset {leaves width : Nat} (set : leaves.testBit width = true) :
    nodeCount (leaves / 2 ^ (width + 1) * 2 ^ (width + 1)) + nodeCount (2 ^ width) =
      nodeCount (leaves / 2 ^ width * 2 ^ width) := by
  have small : 2 ^ width < 2 ^ (width + 1) := Nat.pow_lt_pow_succ (by decide)
  rw [← nodeCount_add _ small, ← root_complete set, add_mul, rootIndex_mul, one_mul]

/-- The last node of a tree is its root. -/
theorem last_place (leaves width : Nat) :
    nodeCount (leaves / 2 ^ (width + 1) * 2 ^ (width + 1)) + nodeCount (2 ^ width) - 1 =
      place width (rootIndex leaves width) := by
  have positive := Nat.two_pow_pos width
  rw [place, rootIndex_mul, nodeCount_two_pow, pow_succ]
  omega

/-- The roots of the trees below a height, by the digits. -/
def peaksBelow (merge : D -> D -> D) (leaf : Nat -> D) (width leaves : Nat) : List D :=
  (setBits width leaves).map (fun height => node merge leaf height (rootIndex leaves height))

theorem length_peaksBelow (merge : D -> D -> D) (leaf : Nat -> D) (width leaves : Nat) :
    (peaksBelow merge leaf width leaves).length = popcount (leaves % 2 ^ width) := by
  rw [peaksBelow, length_map, length_setBits]

theorem rootsFrom_spec (holds : mmr.Holds merge leaf) {leaves width : Nat}
    (earlier : leaves ≤ mmr.forest.numLeaves) {trees : List Forest}
    (sizes : trees.map numLeaves = (setBits width leaves).map (fun height => 2 ^ height)) :
    rootsFrom mmr.nodes (nodeCount (leaves / 2 ^ width * 2 ^ width)) trees =
      .ok (peaksBelow merge leaf width leaves) := by
  unfold peaksBelow
  induction width generalizing trees with
  | zero =>
    rw [setBits, map_nil, map_eq_nil_iff] at sizes
    rw [sizes]
    rfl
  | succ width ih =>
    by_cases set : leaves.testBit width = true
    · rw [setBits, if_pos set, map_cons] at sizes
      rcases map_eq_cons_iff.mp sizes with ⟨tree, rest, rfl, size, sizes⟩
      have next : nodeCount (leaves / 2 ^ (width + 1) * 2 ^ (width + 1)) + tree.numNodes =
          nodeCount (leaves / 2 ^ width * 2 ^ width) := by
        rw [numNodes_eq, size, next_offset set]
      have last : nodeCount (leaves / 2 ^ (width + 1) * 2 ^ (width + 1)) + tree.numNodes - 1 =
          place width (rootIndex leaves width) := by
        rw [numNodes_eq, size, last_place]
      rw [rootsFrom, last, stored_of_le holds earlier (root_complete_le set), expect_some,
        ok_bind, next, ih sizes, setBits, if_pos set]
      rfl
    · rw [setBits, if_neg set] at sizes ⊢
      rw [← div_mul_eq_of_testBit set]
      exact ih sizes

/-- The peaks of a forest: the roots over the leaves, by the digits. -/
def peakNodes (merge : D -> D -> D) (leaf : Nat -> D) (leaves : Nat) : List D :=
  (setBits 32 leaves).map (fun height => node merge leaf height (rootIndex leaves height))

theorem length_peakNodes (merge : D -> D -> D) (leaf : Nat -> D) (forest : Forest) :
    (peakNodes merge leaf forest.numLeaves).length = forest.numTrees := by
  refine (length_peaksBelow merge leaf 32 forest.numLeaves).trans ?_
  rw [mod_eq_of_lt forest.numLeaves_lt]
  rfl

theorem rootIndex_add {high width low : Nat} (small : low < 2 ^ width) (le : width ≤ height) :
    rootIndex (high * 2 ^ width + low) height = rootIndex (high * 2 ^ width) height := by
  rcases Nat.exists_eq_add_of_le le with ⟨more, rfl⟩
  have upper (rest : Nat) (below : rest < 2 ^ width) :
      (high * 2 ^ width + rest) / 2 ^ (width + more + 1) = high / 2 ^ (more + 1) := by
    rw [add_assoc width, pow_add, ← Nat.div_div_eq_div_mul, mul_comm,
      mul_add_div (Nat.two_pow_pos width), div_eq_of_lt below, add_zero]
  have whole := upper 0 (Nat.two_pow_pos width)
  rw [add_zero] at whole
  rw [rootIndex, rootIndex, upper low small, whole]

/-- The peaks of a forest are those of its larger trees and those of its
smaller ones. -/
theorem peakNodes_add (merge : D -> D -> D) (leaf : Nat -> D) (high : Nat) {width low : Nat}
    (small : low < 2 ^ width) (le : width ≤ 32) :
    peakNodes merge leaf (high * 2 ^ width + low) =
      peakNodes merge leaf (high * 2 ^ width) ++ (setBits width low).map
        (fun height => node merge leaf height (rootIndex (high * 2 ^ width + low) height)) := by
  rw [peakNodes, setBits_add small le, map_append, peakNodes]
  congr 1
  refine map_congr_left (fun height member => ?_)
  have set := (mem_setBits.mp member).2
  have above : width ≤ height := by
    rw [testBit_mul_two_pow, Bool.and_eq_true, decide_eq_true_iff] at set
    exact set.1
  rw [rootIndex_add small above]

/-- The smallest tree at or above a height, if it has that height. -/
theorem peakNodes_last (merge : D -> D -> D) (leaf : Nat -> D) {leaves height : Nat}
    (low : height < 32) (set : leaves.testBit height = true) :
    peakNodes merge leaf (leaves / 2 ^ height * 2 ^ height) =
      peakNodes merge leaf (leaves / 2 ^ (height + 1) * 2 ^ (height + 1)) ++
        [node merge leaf height (rootIndex leaves height)] := by
  have small : 2 ^ height < 2 ^ (height + 1) := Nat.pow_lt_pow_succ (by decide)
  have whole : leaves / 2 ^ height * 2 ^ height =
      leaves / 2 ^ (height + 1) * 2 ^ (height + 1) + 2 ^ height := by
    rw [← root_complete set, add_mul, rootIndex_mul, one_mul]
  have only : setBits (height + 1) (2 ^ height) = [height] := by
    have none : setBits height (2 ^ height) = [] := by
      rw [← setBits_mod (le_refl height), mod_self]
      rw [eq_nil_iff_forall_not_mem]
      intro place member
      have one := (mem_setBits.mp member).2
      rw [zero_testBit] at one
      cases one
    rw [setBits, testBit_two_pow_self, if_pos rfl, none]
  have own : rootIndex (leaves / 2 ^ (height + 1) * 2 ^ (height + 1) + 2 ^ height) height =
      rootIndex leaves height := by
    rw [rootIndex, rootIndex, mul_comm _ (2 ^ (height + 1)), mul_add_div (Nat.two_pow_pos _),
      div_eq_of_lt small, add_zero]
  rw [whole, peakNodes_add merge leaf _ small (succ_le_of_lt low), only, map_singleton, own]

section Holds

variable (holds : mmr.Holds merge leaf)
include holds

theorem peaksAt_spec (earlier : forest.numLeaves ≤ mmr.forest.numLeaves) :
    mmr.peaksAt forest = .ok ⟨forest, peakNodes merge leaf forest.numLeaves⟩ := by
  have roots := rootsFrom_spec holds earlier
    (treesFromLargest_eq forest.numLeaves_lt (show 32 ≤ usizeBits by decide))
  rw [div_eq_of_lt forest.numLeaves_lt, zero_mul] at roots
  have start : nodeCount 0 = 0 := rfl
  rw [start] at roots
  have count := (length_peakNodes merge leaf forest).symm
  rw [peaksAt, if_neg (not_lt.mpr earlier), roots, ok_bind]
  exact if_neg (not_not_intro count)

/-! ## Openings in an earlier forest -/

omit holds in
theorem nodesFromMask_eq {mask : Nat} (bounded : mask ≤ maxLeaves) :
    (nodesFromMask mask : Outcome (MmrError D) Nat) = .ok (nodeCount mask) := by
  rw [nodesFromMask, Forest.new, dif_pos bounded, expect_some, ok_bind, Forest.numNodes_eq]
  rfl

omit holds in
theorem nodesFromMask_two_pow (low : height < 32) :
    (nodesFromMask (2 ^ height) : Outcome (MmrError D) Nat) = .ok (2 ^ (height + 1) - 1) := by
  have bounded : 2 ^ height ≤ maxLeaves :=
    le_maxLeaves_of_lt_two_pow (Nat.pow_lt_pow_right (by decide) low)
  rw [nodesFromMask_eq bounded, nodeCount_two_pow]

/-- The walk from a node over a leaf down to it. -/
theorem walkDown_spec (levels : Nat) {indexOffset relativePos pos height index : Nat}
    (low : height < 32)
    (digits : forall level, level < height -> relativePos / 2 ^ level % 2 = pos / 2 ^ level % 2)
    (complete : (pos / 2 ^ height + 1) * 2 ^ height ≤ mmr.forest.numLeaves)
    (deep : 2 ^ (height + 1) - 2 ≤ index)
    (here : indexOffset + index = place height (pos / 2 ^ height)) :
    walkDown mmr.nodes indexOffset relativePos height index
        (siblings merge leaf levels height (pos / 2 ^ height)) =
      .ok (leaf pos, siblings merge leaf (levels + height) 0 pos) := by
  induction height generalizing levels index with
  | zero =>
    have found := holds.stored 0 _ complete
    rw [pow_zero, Nat.div_one] at here found
    rw [walkDown, here, found, expect_some, ok_bind, pow_zero, Nat.div_one]
    rfl
  | succ height ih =>
    have positive := Nat.two_pow_pos height
    have double : 2 ^ (height + 1) = 2 ^ height * 2 := pow_succ 2 height
    have nested : pos / 2 ^ height / 2 = pos / 2 ^ (height + 1) := by
      rw [double, Nat.div_div_eq_div_mul]
    rw [pow_succ 2 (height + 1)] at deep
    rw [walkDown, checkedSub_of_le (by omega), ok_bind, nodesFromMask_two_pow (lt_of_succ_lt low),
      ok_bind, checkedSub_of_le (by omega), ok_bind]
    generalize pos / 2 ^ (height + 1) = above at nested complete here
    have right := place_right height above
    have left := place_left height above
    rw [nodeCount_two_pow] at left
    have inner : (2 * above + 1 + 1) * 2 ^ height ≤ mmr.forest.numLeaves := by
      refine le_trans (le_of_eq ?_) complete
      rw [double]
      ring
    have outer : (2 * above + 1) * 2 ^ height ≤ mmr.forest.numLeaves :=
      le_trans (Nat.mul_le_mul_right _ (le_succ _)) inner
    have path : node merge leaf height (sibling (pos / 2 ^ height)) ::
        siblings merge leaf levels (height + 1) above =
          siblings merge leaf (levels + 1) height (pos / 2 ^ height) := by
      rw [siblings, nested]
    have later (level : Nat) (less : level < height) :
        relativePos / 2 ^ level % 2 = pos / 2 ^ level % 2 := digits level (lt_succ_of_lt less)
    have digit := digits height (lt_succ_self height)
    have total : levels + (height + 1) = levels + 1 + height := by omega
    by_cases odd : pos / 2 ^ height % 2 = 1
    · have own : pos / 2 ^ height = 2 * above + 1 := by omega
      have beside : sibling (pos / 2 ^ height) = 2 * above := by
        rw [sibling, if_pos odd, own, Nat.add_sub_cancel]
      have offset : indexOffset + (index - 1 - (2 ^ (height + 1) - 1)) =
          place height (2 * above) := by omega
      have set : relativePos &&& 2 ^ height ≠ 0 :=
        (and_two_pow_ne_zero_iff _ _).mpr (digit.trans odd)
      rw [if_pos set, offset, holds.stored _ _ outer, expect_some, ok_bind, ← beside, path, total]
      refine ih (levels + 1) (lt_of_succ_lt low) later ?_ (by omega) ?_
      · rw [own]
        exact inner
      · rw [own]
        omega
    · have own : pos / 2 ^ height = 2 * above := by omega
      have beside : sibling (pos / 2 ^ height) = 2 * above + 1 := by
        rw [sibling, if_neg odd, own]
      have offset : indexOffset + (index - 1) = place height (2 * above + 1) := by omega
      have unset : ¬ relativePos &&& 2 ^ height ≠ 0 :=
        fun set => odd (digit.symm.trans ((and_two_pow_ne_zero_iff _ _).mp set))
      rw [if_neg unset, offset, holds.stored _ _ inner, expect_some, ok_bind, ← beside, path, total]
      refine ih (levels + 1) (lt_of_succ_lt low) later ?_ (by omega) ?_
      · rw [own]
        exact outer
      · rw [own]
        omega

theorem collectMerklePathAndValue_spec (earlier : forest.numLeaves ≤ mmr.forest.numLeaves)
    (owns : forest.Owns pos height) :
    mmr.collectMerklePathAndValue pos forest =
      .ok (leaf pos, siblings merge leaf height 0 pos) := by
  have low := owns.height_lt
  have relative : (checkedSub pos (forest.treesLargerThan height).numLeaves : Outcome (MmrError D) _) =
      .ok (pos % 2 ^ height) := by
    have start := owns.start_add
    rw [numLeaves_treesLargerThan, checkedSub_of_le (by omega), Nat.sub_eq_of_eq_add' start.symm]
  have complete : (pos / 2 ^ height + 1) * 2 ^ height ≤ mmr.forest.numLeaves := by
    rw [owns.inside]
    exact le_trans (root_complete_le owns.present) earlier
  have here : (forest.treesLargerThan height).numNodes + (2 ^ (height + 1) - 1 - 1) =
      place height (pos / 2 ^ height) := by
    rw [numNodes_eq, numLeaves_treesLargerThan, place, owns.inside, rootIndex_mul]
    rfl
  have walk := walkDown_spec holds 0 low (fun level less => digit_mod_two_pow pos less) complete
    (le_of_eq (Nat.sub_sub _ 1 1).symm) here
  rw [siblings, zero_add] at walk
  rw [collectMerklePathAndValue, owns.leafToCorrespondingTree, okOr_some, ok_bind]
  dsimp only
  rw [relative, ok_bind, one_shiftLeft, nodesFromMask_two_pow low, ok_bind,
    checkedSub_of_le (Nat.sub_pos_of_lt (Nat.one_lt_two_pow (succ_ne_zero height))), ok_bind, walk]

theorem openAt_spec (earlier : forest.numLeaves ≤ mmr.forest.numLeaves)
    (inside : pos < forest.numLeaves) :
    ∃ height merklePath, forest.leafToCorrespondingTree pos = some height ∧
      forest.Owns pos height ∧ merklePath.nodes = siblings merge leaf height 0 pos ∧
      mmr.openAt pos forest = .ok ⟨⟨forest, pos, merklePath⟩, leaf pos⟩ := by
  rcases owns_of_leafToCorrespondingTree inside with ⟨height, found, owns⟩
  have low := owns.height_lt
  have short : (siblings merge leaf height 0 pos).length ≤ 255 := by
    rw [length_siblings]
    omega
  refine ⟨height, ⟨_, short⟩, found, owns, rfl, ?_⟩
  rw [openAt, if_neg (not_lt.mpr earlier), collectMerklePathAndValue_spec holds earlier owns, ok_bind]
  simp only [MerklePath.new, dif_pos short]
  rfl

theorem get_spec (inside : pos < mmr.forest.numLeaves) : mmr.get pos = .ok (leaf pos) := by
  rcases owns_of_leafToCorrespondingTree inside with ⟨height, _, owns⟩
  rw [get, collectMerklePathAndValue_spec holds (le_refl _) owns, ok_bind]
  rfl

end Holds

end Full

/-! ## The trees over a list of leaves -/

/-- The roots of the trees over consecutive blocks, by the heights of the
trees.  A block that is cut short has no root. -/
def blockRoots (merge : D -> D -> D) : List Nat -> List D -> List (Option D)
  | [], _ => []
  | height :: rest, leaves =>
    perfectRoot merge height (leaves.take (2 ^ height)) ::
      blockRoots merge rest (leaves.drop (2 ^ height))

variable {merge}

theorem blockRoots_eq (width : Nat)
    (agree : forall place value, leaves[place]? = some value -> value = leaf place) :
    blockRoots merge (setBits width leaves.length)
        (leaves.drop (leaves.length / 2 ^ width * 2 ^ width)) =
      (setBits width leaves.length).map
        (fun height => some (node merge leaf height (rootIndex leaves.length height))) := by
  induction width with
  | zero => rfl
  | succ width ih =>
    by_cases set : leaves.length.testBit width = true
    · have complete := root_complete set
      have inside := root_complete_le set
      rw [add_mul, rootIndex_mul, one_mul] at complete inside
      rw [setBits, if_pos set, blockRoots, map_cons, drop_drop, complete, ih]
      congr 1
      refine perfectRoot_eq_node merge ?_ ?_
      · rw [length_take, length_drop]
        omega
      · intro place value found
        rw [getElem?_take] at found
        split at found
        · rw [getElem?_drop] at found
          rw [rootIndex_mul]
          exact agree _ value found
        · cases found
    · rw [setBits, if_neg set, ← div_mul_eq_of_testBit set]
      exact ih

namespace Full

theorem getElem?_peakNodes {leaves peakIndex : Nat}
    (tree : (setBits 32 leaves)[peakIndex]? = some height) :
    (peakNodes merge leaf leaves)[peakIndex]? =
      some (node merge leaf height (rootIndex leaves height)) := by
  rw [peakNodes, getElem?_map, tree]
  rfl

theorem computeRoot_siblings {merklePath : MerklePath D} (owns : forest.Owns pos height)
    (path : merklePath.nodes = siblings merge leaf height 0 pos) :
    merklePath.computeRoot merge (pos % 2 ^ height) (leaf pos) =
      .ok (node merge leaf height (rootIndex forest.numLeaves height)) := by
  have depth : merklePath.depth = height := by
    rw [depth, path, length_siblings]
  have low := owns.height_lt
  refine (computeRoot_eq_ok merge).mpr ⟨by omega, ?_, ?_⟩
  · rw [depth]
    exact mod_lt _ (Nat.two_pow_pos height)
  · have climbed :=
      climb_under merge leaf 0 (pos / 2 ^ height) (mod_lt pos (Nat.two_pow_pos height))
    rw [mul_comm, div_add_mod, zero_add, owns.inside] at climbed
    rw [path]
    exact climbed

/-- Peaks and openings of every earlier state of a range. -/
theorem addAll_peaksAt_openAt [Inhabited D] (merge : D -> D -> D) (leaves : List D)
    (bounded : leaves.length ≤ maxLeaves) :
    ∃ mmr, (new : Full D).addAll merge leaves = .ok mmr ∧
      forall forest : Forest, forest.numLeaves ≤ leaves.length ->
        ∃ peaks, mmr.peaksAt forest = .ok ⟨forest, peaks⟩ ∧
          peaks.map some = blockRoots merge (setBits 32 forest.numLeaves) (leaves.take forest.numLeaves) ∧
          forall pos, pos < forest.numLeaves ->
            ∃ opening peakIndex height relativePos root, mmr.openAt pos forest = .ok opening ∧
              opening.path.forest = forest ∧ opening.path.position = pos ∧
              leaves[pos]? = some opening.leaf ∧
              opening.path.peakIndex = .ok peakIndex ∧ opening.path.relativePos = .ok relativePos ∧
              TreeOf forest.numLeaves pos peakIndex height relativePos ∧
              opening.path.merklePath.depth = height ∧
              opening.path.merklePath.computeRoot merge relativePos opening.leaf = .ok root ∧
              peaks[peakIndex]? = some root := by
  rcases new_addAll merge (fun place => leaves.getD place default) bounded (eq_getD _) with
    ⟨mmr, all, size, holds⟩
  refine ⟨mmr, all, fun forest inside => ?_⟩
  have earlier : forest.numLeaves ≤ mmr.forest.numLeaves := size ▸ inside
  refine ⟨_, peaksAt_spec holds earlier, ?_, ?_⟩
  · have taken : (leaves.take forest.numLeaves).length = forest.numLeaves := by
      rw [length_take, Nat.min_eq_left inside]
    have front (place : Nat) (value : D) (found : (leaves.take forest.numLeaves)[place]? = some value) :
        value = leaves.getD place default := by
      rw [getElem?_take] at found
      split at found
      · exact eq_getD _ place value found
      · cases found
    have roots : blockRoots merge _ _ = _ := blockRoots_eq 32 front
    rw [taken, div_eq_of_lt forest.numLeaves_lt, zero_mul, drop_zero] at roots
    rw [roots, peakNodes, map_map]
    rfl
  · intro pos below
    rcases openAt_spec holds earlier below with ⟨height, merklePath, found, owns, path, opened⟩
    refine ⟨_, _, height, _, _, opened, rfl, rfl, ?_, treeIndex_eq found owns, ?_,
      owns.treeOf, ?_, computeRoot_siblings owns path, getElem?_peakNodes owns.treeOf.tree⟩
    · rw [getD_eq_getElem?_getD, getElem?_eq_getElem (lt_of_lt_of_le below inside)]
      rfl
    · rw [MmrPath.relativePos, leafRelativePosition_eq found owns, expect_some]
    · rw [depth, path, length_siblings]

theorem addAll_peaksAt_openAt_three :
    ∃ mmr, (new : Full Nat).addAll (fun left right => 10 * left + right) [1, 2, 3] = .ok mmr ∧
      ∃ peaks, mmr.peaksAt ⟨3, by decide⟩ = .ok ⟨⟨3, by decide⟩, peaks⟩ ∧
        peaks.map some = [some 12, some 3] := by
  rcases addAll_peaksAt_openAt (fun left right => 10 * left + right) [1, 2, 3] (by decide) with
    ⟨mmr, all, every⟩
  rcases every ⟨3, by decide⟩ (by decide) with ⟨peaks, read, roots, _⟩
  exact ⟨mmr, all, peaks, read, roots⟩

end Full

end MidenVm.Crypto.Mmr
