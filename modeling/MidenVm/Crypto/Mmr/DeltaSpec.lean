import MidenVm.Crypto.Mmr.Needed

namespace MidenVm.Crypto.Mmr

open Foundation Mountain Outcome Nat Forest Bool

/-!
# Updates between two forests

The highest digit in which two forests differ is a tree of the later one.  The
trees of the earlier forest below it merge into it, from the smallest one up.
Where the earlier forest has no tree the update brings the right sibling.  The
rest of an update is the smaller trees of the later forest.
-/

variable {D : Type} {merge : D -> D -> D} {leaf : Nat -> D}
variable {height leaves high : Nat} {mmr : Full D} {newHigh : Forest}

/-- The highest digit in which a forest differs from a later one. -/
structure Grows (fromLeaves toLeaves height : Nat) : Prop where
  above : fromLeaves / 2 ^ (height + 1) = toLeaves / 2 ^ (height + 1)
  unset : fromLeaves.testBit height = false
  set : toLeaves.testBit height = true

theorem even_of_testBit_false {value : Nat} (unset : value.testBit height = false) :
    value / 2 ^ height = 2 * (value / 2 ^ (height + 1)) := by
  rw [testBit_eq_decide_div_mod_eq, decide_eq_false_iff_not] at unset
  rw [div_two_pow_succ]
  omega

theorem odd_of_testBit {value : Nat} (set : value.testBit height = true) :
    value / 2 ^ height = 2 * (value / 2 ^ (height + 1)) + 1 := by
  rw [testBit_eq_decide_div_mod_eq, decide_eq_true_iff] at set
  rw [div_two_pow_succ]
  omega

theorem grows_of_lt {fromLeaves toLeaves : Nat} (less : fromLeaves < toLeaves) :
    Grows fromLeaves toLeaves (toLeaves ^^^ fromLeaves).log2 := by
  have differ : toLeaves ^^^ fromLeaves ≠ 0 := by
    intro same
    exact ne_of_gt less (Nat.xor_eq_zero_iff.mp same)
  have top := testBit_log2 differ
  have beyond := (log2_lt differ (k := _)).mp (lt_succ_self _)
  generalize (toLeaves ^^^ fromLeaves).log2 = height at top beyond
  have above : fromLeaves / 2 ^ (height + 1) = toLeaves / 2 ^ (height + 1) := by
    apply eq_of_testBit_eq
    intro place
    rw [testBit_div_two_pow, testBit_div_two_pow]
    have same := testBit_lt_two_pow (lt_of_lt_of_le beyond
      (Nat.pow_le_pow_right (by decide) (Nat.le_add_left (height + 1) place)))
    rw [testBit_xor] at same
    revert same
    cases toLeaves.testBit (place + (height + 1)) <;>
      cases fromLeaves.testBit (place + (height + 1)) <;> simp
  rw [testBit_xor] at top
  cases set : toLeaves.testBit height with
  | true =>
    rw [set, true_xor, not_eq_true'] at top
    exact ⟨above, top, set⟩
  | false =>
    -- a digit that only the earlier forest has would make it the larger one
    rw [set, false_xor] at top
    have order := Nat.div_le_div_right (c := 2 ^ height) (le_of_lt less)
    rw [odd_of_testBit top, even_of_testBit_false set, above] at order
    omega

namespace Grows

variable {fromLeaves toLeaves height : Nat}

section Grows

variable (grows : Grows fromLeaves toLeaves height)
include grows

theorem div_eq : toLeaves / 2 ^ height = fromLeaves / 2 ^ height + 1 := by
  rw [odd_of_testBit grows.set, even_of_testBit_false grows.unset, grows.above]

/-- The larger trees are common to both. -/
theorem common : fromLeaves / 2 ^ height * 2 ^ height =
    toLeaves / 2 ^ (height + 1) * 2 ^ (height + 1) := by
  rw [even_of_testBit_false grows.unset, grows.above, pow_succ]
  ring

/-- The nodes over the end of the earlier forest, up to the new tree, are
complete in the later one. -/
theorem complete {level : Nat} (le : level ≤ height) :
    Complete toLeaves level (fromLeaves / 2 ^ level) := by
  refine complete_of_le le ?_
  rw [Complete, ← grows.div_eq]
  exact div_mul_le_self _ _

end Grows

theorem height_lt {forest : Forest} (grows : Grows fromLeaves forest.numLeaves height) :
    height < 32 := by
  rcases lt_or_ge height 32 with low | high
  · exact low
  · have unset := testBit_lt_two_pow
      (lt_of_lt_of_le forest.numLeaves_lt (Nat.pow_le_pow_right (by decide) high))
    rw [grows.set] at unset
    cases unset

end Grows

/-! ## New peaks -/

namespace Full

/-- The loop visits the trees from the largest one on. -/
theorem newPeakRoots_eq (nodes : List D) {fuel offset : Nat} {newPeaks : Forest}
    (small : newPeaks.numLeaves < 2 ^ fuel) :
    newPeakRoots nodes (fuel + 1) offset newPeaks =
      rootsFrom nodes offset (newPeaks.treesFromLargest (fuel + 1)) := by
  induction fuel generalizing offset newPeaks with
  | zero =>
    have none : newPeaks.numLeaves = 0 := lt_one_iff.mp small
    rw [newPeakRoots, treesFromLargest, isEmpty, largestTree, dif_pos none, none]
    rfl
  | succ fuel ih =>
    rw [newPeakRoots, treesFromLargest]
    by_cases none : newPeaks.numLeaves = 0
    · rw [isEmpty, largestTree, dif_pos none, none]
      rfl
    · have top := testBit_log2 none
      have wide : newPeaks.numLeaves < 2 ^ (newPeaks.numLeaves.log2 + 1) := lt_log2_self
      have largest := numLeaves_largestTree wide top
      have rest : newPeaks.xor newPeaks.largestTree =
          newPeaks.withoutTrees newPeaks.largestTree := by
        refine Forest.ext ((congrArg (_ ^^^ ·) largest).trans ?_)
        rw [numLeaves_withoutLargest wide top, xor_top wide top]
      have low : (newPeaks.withoutTrees newPeaks.largestTree).numLeaves < 2 ^ fuel := by
        rw [numLeaves_withoutLargest wide top]
        exact lt_of_lt_of_le (mod_lt _ (Nat.two_pow_pos _))
          (Nat.pow_le_pow_right (by decide) (le_of_lt_succ ((log2_lt none).mpr small)))
      have filled : newPeaks.largestTree.isEmpty = false := by
        rw [isEmpty, largest, beq_eq_false_iff_ne]
        exact ne_of_gt (Nat.two_pow_pos _)
      rw [isEmpty, beq_eq_false_iff_ne.mpr none, filled]
      simp only [false_eq_true, if_false]
      rw [rootsFrom, rest, ih low]

theorem newPeakRoots_spec (holds : mmr.Holds merge leaf) {width : Nat}
    (earlier : leaves ≤ mmr.forest.numLeaves) (narrow : width ≤ 32) {newPeaks : Forest}
    (size : newPeaks.numLeaves = leaves % 2 ^ width) :
    newPeakRoots mmr.nodes usizeBits (nodeCount (leaves / 2 ^ width * 2 ^ width)) newPeaks =
      .ok (peaksBelow merge leaf width leaves) := by
  have small : newPeaks.numLeaves < 2 ^ width := size ▸ mod_lt _ (Nat.two_pow_pos _)
  refine (newPeakRoots_eq _ (lt_trans newPeaks.numLeaves_lt (by decide))).trans
    (rootsFrom_spec holds earlier ?_)
  rw [treesFromLargest_eq small (le_trans narrow (by decide)), size, setBits_mod (le_refl width)]

/-! ## Siblings for the merges -/

/-- The right siblings that the merges from a height on need, where the
earlier forest has no tree. -/
def mergeData (merge : D -> D -> D) (leaf : Nat -> D) (leaves : Nat) : Nat -> Nat -> List D
  | 0, _ => []
  | levels + 1, height =>
    if leaves.testBit height then mergeData merge leaf leaves levels (height + 1)
    else node merge leaf height (2 * (leaves / 2 ^ (height + 1)) + 1) ::
      mergeData merge leaf leaves levels (height + 1)

/-- Trees of the earlier forest need no update. -/
theorem mergeData_skip {levels more : Nat}
    (ones : forall place, height ≤ place -> place < height + more -> leaves.testBit place = true) :
    mergeData merge leaf leaves (levels + more) height =
      mergeData merge leaf leaves levels (height + more) := by
  induction more generalizing height with
  | zero => rfl
  | succ more ih =>
    rw [← add_assoc, mergeData, if_pos (ones height (le_refl height) (by omega)),
      ih (fun place le less => ones place (by omega) (by omega)), add_right_comm,
      add_assoc height]

/-- The number of siblings that an update brings. -/
theorem length_mergeData (leaves levels height : Nat) :
    (mergeData merge leaf leaves levels height).length +
      popcount (leaves / 2 ^ height % 2 ^ levels) = levels := by
  induction levels generalizing height with
  | zero => rw [pow_zero, mod_one]; rfl
  | succ levels ih =>
    have digits : leaves / 2 ^ height % 2 ^ (levels + 1) % 2 = leaves / 2 ^ height % 2 :=
      mod_mod_of_dvd _ (pow_succ 2 levels ▸ Nat.dvd_mul_left 2 _)
    have half : leaves / 2 ^ height % 2 ^ (levels + 1) / 2 =
        leaves / 2 ^ (height + 1) % 2 ^ levels := by
      rw [pow_succ' (n := levels), mod_mul_right_div_self, ← div_two_pow_succ]
    have rest := ih (height + 1)
    rw [mergeData, popcount_div_two, digits, half]
    by_cases set : leaves.testBit height = true
    · rw [if_pos set]
      rw [testBit_eq_decide_div_mod_eq, decide_eq_true_iff] at set
      omega
    · rw [if_neg set, List.length_cons]
      rw [testBit_eq_decide_div_mod_eq, decide_eq_true_iff] at set
      omega

theorem nextLargerTree_eq {tree : Forest} (size : tree.numLeaves = 2 ^ height)
    (low : height + 1 < 32) :
    ∃ next : Forest, (tree.nextLargerTree : Outcome (MmrError D) Forest) = .ok next ∧
      next.numLeaves = 2 ^ (height + 1) := by
  have bounded : tree.numLeaves * 2 ≤ maxLeaves := by
    rw [size, ← pow_succ]
    exact le_maxLeaves_of_lt_two_pow (Nat.pow_lt_pow_right (by decide) low)
  refine ⟨⟨tree.numLeaves * 2, bounded⟩, dif_pos bounded, ?_⟩
  change tree.numLeaves * 2 = _
  rw [size, pow_succ]

theorem testBit_high {place : Nat} :
    (leaves / 2 ^ high * 2 ^ high).testBit place = true ↔ high ≤ place ∧
      leaves.testBit place = true := by
  rw [testBit_mul_two_pow, testBit_div_two_pow, and_eq_true, decide_eq_true_iff]
  constructor
  · rintro ⟨le, set⟩
    rw [Nat.sub_add_cancel le] at set
    exact ⟨le, set⟩
  · rintro ⟨le, set⟩
    rw [Nat.sub_add_cancel le]
    exact ⟨le, set⟩

/-- The trees of a forest between two heights. -/
theorem testBit_between {low place : Nat} :
    (leaves % 2 ^ high / 2 ^ low * 2 ^ low).testBit place = true ↔
      low ≤ place ∧ place < high ∧ leaves.testBit place = true := by
  rw [testBit_high, testBit_mod_two_pow, and_eq_true, decide_eq_true_iff]

theorem skipMerged_spec {low fuel : Nat} (top : high < 32) {merges : Forest}
    (trees : merges.numLeaves = leaves % 2 ^ high / 2 ^ low * 2 ^ low) (above : low ≤ height)
    (le : height ≤ high) (enough : high < height + fuel) {target : Forest}
    (size : target.numLeaves = 2 ^ height) :
    ∃ (next : Forest) (more : Nat),
      (skipMerged merges fuel target : Outcome (MmrError D) Forest) = .ok next ∧
      next.numLeaves = 2 ^ (height + more) ∧ height + more ≤ high ∧
      (forall place, height ≤ place -> place < height + more -> leaves.testBit place = true) ∧
      (height + more < high -> leaves.testBit (height + more) = false) := by
  induction fuel generalizing height target with
  | zero => omega
  | succ fuel ih =>
    have digit : (merges.and target).isEmpty = false ↔
        low ≤ height ∧ height < high ∧ leaves.testBit height = true := by
      rw [Forest.and_comm, Forest.isEmpty_and_eq_false_iff merges size, trees, testBit_between]
    rw [skipMerged]
    by_cases set : (merges.and target).isEmpty = true
    · rw [if_pos set]
      refine ⟨target, 0, rfl, size, le, fun place below above => by omega, fun less => ?_⟩
      rw [← not_eq_true]
      intro one
      rw [digit.mpr ⟨above, less, one⟩] at set
      cases set
    · rcases digit.mp (not_eq_true _ ▸ set) with ⟨_, less, one⟩
      rcases nextLargerTree_eq (D := D) size (by omega) with ⟨next, doubled, nextSize⟩
      rcases ih (by omega) less (by omega) nextSize with
        ⟨final, more, skipped, finalSize, inside, ones, zero⟩
      rw [if_neg set, doubled, ok_bind]
      have sum : height + 1 + more = height + (more + 1) := by omega
      rw [sum] at finalSize inside zero ones
      refine ⟨final, more + 1, skipped, finalSize, inside, ?_, zero⟩
      intro place below before
      rcases Nat.eq_or_lt_of_le below with rfl | higher
      · exact one
      · exact ones place higher before

/-- The trees before the sibling of the node under way. -/
theorem known_mask (less : height < high) :
    leaves / 2 ^ high * 2 ^ high ||| leaves % 2 ^ high / 2 ^ height * 2 ^ height ||| 2 ^ height =
      (2 * (leaves / 2 ^ (height + 1)) + 1) * 2 ^ height := by
  have sum : (2 * (leaves / 2 ^ (height + 1)) + 1) * 2 ^ height =
      2 ^ height * 1 + 2 ^ (height + 1) * (leaves / 2 ^ (height + 1)) := by ring
  apply eq_of_testBit_eq
  intro place
  rw [Bool.eq_iff_iff, testBit_or, testBit_or, Bool.or_eq_true, Bool.or_eq_true,
    testBit_between, testBit_high, testBit_two_pow, decide_eq_true_iff]
  have small : 2 ^ height * 1 < 2 ^ (height + 1) := by
    rw [mul_one]
    exact Nat.pow_lt_pow_succ (by decide)
  rw [sum, add_comm, testBit_two_pow_mul_add _ small, mul_one]
  rcases lt_trichotomy place height with below | same | above
  · rw [if_pos (lt_succ_of_lt below), testBit_two_pow, decide_eq_true_iff]
    omega
  · rw [if_pos (by omega), same, testBit_two_pow_self]
    exact iff_of_true (.inr rfl) rfl
  · rw [if_neg (by omega), testBit_div_two_pow, Nat.sub_add_cancel above]
    constructor
    · rintro ((⟨_, set⟩ | ⟨_, _, set⟩) | same)
      · exact set
      · exact set
      · omega
    · intro set
      rcases lt_or_ge place high with inside | outside
      · exact .inl (.inr ⟨le_of_lt above, inside, set⟩)
      · exact .inl (.inl ⟨outside, set⟩)

theorem clear_div_two_pow (value low more : Nat) :
    value / 2 ^ low * 2 ^ low / 2 ^ (low + more) = value / 2 ^ (low + more) := by
  rw [pow_add, ← Nat.div_div_eq_div_mul, Nat.mul_div_cancel _ (Nat.two_pow_pos low),
    Nat.div_div_eq_div_mul]

theorem mergeSiblings_spec (holds : mmr.Holds merge leaf) {later : Nat}
    (grows : Grows leaves later high)
    (top : high < 32) (inside : later ≤ maxLeaves) (earlier : later ≤ mmr.forest.numLeaves)
    {commonTrees : Forest} (common : commonTrees.numLeaves = leaves / 2 ^ high * 2 ^ high)
    (highSize : newHigh.numLeaves = 2 ^ high) {fuel : Nat} (le : height ≤ high)
    (enough : high < height + fuel) {target merges : Forest} (size : target.numLeaves = 2 ^ height)
    (trees : merges.numLeaves = leaves % 2 ^ high / 2 ^ height * 2 ^ height) :
    mergeSiblings mmr.nodes commonTrees newHigh fuel target merges =
      .ok (if height < high then
        node merge leaf height (2 * (leaves / 2 ^ (height + 1)) + 1) ::
          mergeData merge leaf leaves (high - (height + 1)) (height + 1)
      else []) := by
  induction fuel generalizing height target merges with
  | zero => omega
  | succ fuel ih =>
    have below : target.numLeaves < newHigh.numLeaves ↔ height < high := by
      rw [size, highSize]
      exact Nat.pow_lt_pow_iff_right (by decide)
    rw [mergeSiblings]
    by_cases less : height < high
    · have complete := grows.complete less
      have shape : (2 * (leaves / 2 ^ (height + 1)) + 1 + 1) * 2 ^ height =
          (leaves / 2 ^ (height + 1) + 1) * 2 ^ (height + 1) := by ring
      have mask := @known_mask height leaves high less
      set index := 2 * (leaves / 2 ^ (height + 1)) + 1
      have bounded : index * 2 ^ height ≤ maxLeaves := by
        refine le_trans (Nat.mul_le_mul_right _ (le_succ _)) ?_
        rw [succ_eq_add_one, shape]
        exact le_trans complete inside
      have found : mmr.nodes[nodeCount (index * 2 ^ height) + target.numNodes - 1]? =
          some (node merge leaf height index) := by
        have offset : nodeCount (index * 2 ^ height) + target.numNodes - 1 =
            place height index := by
          have positive := Nat.two_pow_pos height
          rw [numNodes_eq, size, nodeCount_two_pow, place, pow_succ]
          omega
        rw [offset]
        refine stored_of_le holds earlier ?_
        rw [shape]
        exact complete
      rcases nextLargerTree_eq (D := D) size (by omega) with ⟨next, doubled, nextSize⟩
      rcases skipMerged_spec (D := D) top trees (Nat.le_add_right height 1) less
          (show high < height + 1 + usizeBits by unfold usizeBits; omega) nextSize with
        ⟨skip, more, skipped, skipSize, within, ones, zero⟩
      have left : (merges.xor (merges.and skip.allSmallerTreesUnchecked)).numLeaves =
          leaves % 2 ^ high / 2 ^ (height + 1 + more) * 2 ^ (height + 1 + more) := by
        rw [merges.numLeaves_without_smaller skipSize, trees, add_assoc height, clear_div_two_pow]
      have rest := ih within (by omega) skipSize left
      have levels : high - (height + 1) = high - (height + 1 + more) + more := by omega
      rw [if_pos (below.mpr less), if_pos less, common, trees, size, mask,
        nodesFromMask_eq bounded, ok_bind]
      simp only [found, expect_some, ok_bind, doubled, skipped, rest]
      rw [levels, mergeData_skip ones]
      by_cases last : height + 1 + more < high
      · have levels : high - (height + 1 + more) = high - (height + 1 + more + 1) + 1 := by omega
        rw [if_pos last, levels, mergeData, zero last, if_neg Bool.false_ne_true]
        rfl
      · have none : high - (height + 1 + more) = 0 := by omega
        rw [if_neg last, none]
        rfl
    · rw [if_neg (fun more => less (below.mp more)), if_neg less]

/-! ## The update between two forests -/

theorem largestTreeFromMask_eq {mask : Nat} (present : mask ≠ 0) (low : mask.log2 < 32) :
    ∃ tree : Forest, (largestTreeFromMask mask : Outcome (MmrError D) Forest) = .ok tree ∧
      tree.numLeaves = 2 ^ mask.log2 := by
  rcases new_two_pow low with ⟨tree, made, size⟩
  refine ⟨tree, ?_, size⟩
  rw [largestTreeFromMask, if_neg present, one_shiftLeft, made, expect_some]

theorem exists_largestTree {fromForest toForest : Forest} {high : Nat}
    (less : fromForest.numLeaves < toForest.numLeaves)
    (top : high = (toForest.numLeaves ^^^ fromForest.numLeaves).log2) :
    ∃ tree : Forest, (largestTreeFromMask (toForest.numLeaves ^^^ fromForest.numLeaves) :
      Outcome (MmrError D) Forest) = .ok tree ∧ tree.numLeaves = 2 ^ high := by
  have grows : Grows fromForest.numLeaves toForest.numLeaves high := top ▸ grows_of_lt less
  have differ : toForest.numLeaves ^^^ fromForest.numLeaves ≠ 0 :=
    fun same => ne_of_gt less (Nat.xor_eq_zero_iff.mp same)
  rw [top]
  exact largestTreeFromMask_eq differ (top ▸ grows.height_lt)

/-- The trees that a later forest adds below a height. -/
theorem xor_high (value width : Nat) : value ^^^ (value / 2 ^ width * 2 ^ width) =
    value % 2 ^ width := by
  rw [← xor_mod_two_pow, ← Nat.xor_assoc, Nat.xor_self, zero_xor]

theorem mod_two_pow_shape {half low : Nat} (shape : leaves = (2 * half + 1) * 2 ^ low)
    (below : low < high) : ∃ rest, leaves % 2 ^ high = (2 * rest + 1) * 2 ^ low := by
  rcases Nat.exists_eq_add_of_le (succ_le_of_lt below) with ⟨more, rfl⟩
  refine ⟨half % 2 ^ more, ?_⟩
  have power : 2 ^ (low + 1 + more) = 2 * 2 ^ more * 2 ^ low := by ring
  have odd : (2 * half + 1) % (2 * 2 ^ more) = 2 * (half % 2 ^ more) + 1 := by
    rw [mod_mul, mul_add_mod, mul_add_div (by decide)]
    exact add_comm _ _
  rw [shape, power, mul_mod_mul_right, odd]

section Delta

variable {mmr : Full D} {fromForest toForest : Forest} {high : Nat}

theorem mergedTrees_merging (holds : mmr.Holds merge leaf)
    (inside : toForest.numLeaves ≤ mmr.forest.numLeaves)
    (grows : Grows fromForest.numLeaves toForest.numLeaves high)
    (size : newHigh.numLeaves = 2 ^ high)
    {half low : Nat} (shape : fromForest.numLeaves = (2 * half + 1) * 2 ^ low)
    (below : low < high) : mmr.mergedTrees (fromForest.and newHigh.allSmallerTreesUnchecked)
        (fromForest.xor (fromForest.and newHigh.allSmallerTreesUnchecked)) newHigh =
      .ok (node merge leaf low (2 * half + 1) ::
        mergeData merge leaf fromForest.numLeaves (high - (low + 1)) (low + 1), newHigh) := by
  have top := grows.height_lt
  have merges := fromForest.numLeaves_and_smaller size
  rcases mod_two_pow_shape shape below with ⟨rest, part⟩
  have trees := merges.trans part
  have present : (fromForest.and newHigh.allSmallerTreesUnchecked).isEmpty = false := by
    refine beq_eq_false_iff_ne.mpr (ne_of_gt ?_)
    rw [trees]
    exact Nat.mul_pos (succ_pos _) (Nat.two_pow_pos low)
  have smallest := (smallestTreeHeight_eq trees).1
  rcases withHeight_eq (D := D) (lt_trans below top) with ⟨target, made, targetSize⟩
  have own : fromForest.numLeaves / 2 ^ (low + 1) = half := by
    rw [div_two_pow_succ, shape, Nat.mul_div_cancel _ (Nat.two_pow_pos low)]
    omega
  have all : (fromForest.and newHigh.allSmallerTreesUnchecked).numLeaves =
      fromForest.numLeaves % 2 ^ high / 2 ^ low * 2 ^ low := by
    rw [merges, part, Nat.mul_div_cancel _ (Nat.two_pow_pos low)]
  have siblings := mergeSiblings_spec holds grows top toForest.bounded inside
    (fromForest.numLeaves_without_smaller size) size (le_of_lt below)
    (show high < low + usizeBits by unfold usizeBits; omega) targetSize all
  rw [if_pos below, own] at siblings
  rw [mergedTrees, if_pos present, smallestTreeUnchecked, smallest, made, ok_bind, siblings]
  rfl

theorem mergedTrees_adding (size : newHigh.numLeaves = 2 ^ high)
    (clear : fromForest.numLeaves % 2 ^ high = 0) :
    mmr.mergedTrees (fromForest.and newHigh.allSmallerTreesUnchecked)
        (fromForest.xor (fromForest.and newHigh.allSmallerTreesUnchecked)) newHigh =
      .ok ([], empty) := by
  have empty : (fromForest.and newHigh.allSmallerTreesUnchecked).isEmpty = true := by
    rw [isEmpty, fromForest.numLeaves_and_smaller size, clear]
    rfl
  rw [mergedTrees, empty]
  rfl

variable (holds : mmr.Holds merge leaf) (inside : toForest.numLeaves ≤ mmr.forest.numLeaves)
  (less : fromForest.numLeaves < toForest.numLeaves)
  (top : high = (toForest.numLeaves ^^^ fromForest.numLeaves).log2)
include holds inside less top

/-- The new peaks are the trees of the later forest below a height, once the
larger ones are taken away. -/
theorem getDelta_of_mergedTrees {siblings : List D} {width : Nat} (narrow : width ≤ 32)
    (merged : forall newHigh : Forest, newHigh.numLeaves = 2 ^ high ->
      ∃ kept : Forest,
        mmr.mergedTrees (fromForest.and newHigh.allSmallerTreesUnchecked)
            (fromForest.xor (fromForest.and newHigh.allSmallerTreesUnchecked)) newHigh =
          .ok (siblings, kept) ∧
        toForest.numLeaves ^^^ (toForest.numLeaves / 2 ^ (high + 1) * 2 ^ (high + 1)) ^^^
            kept.numLeaves = toForest.numLeaves % 2 ^ width) :
    mmr.getDelta fromForest toForest =
      .ok ⟨toForest, siblings ++ peaksBelow merge leaf width toForest.numLeaves⟩ := by
  have grows : Grows fromForest.numLeaves toForest.numLeaves high := top ▸ grows_of_lt less
  have other : fromForest ≠ toForest := fun same => Nat.ne_of_lt less (congrArg numLeaves same)
  rcases exists_largestTree (D := D) less top with ⟨newHigh, largest, size⟩
  rcases merged newHigh size with ⟨kept, run, peaks⟩
  have common := (fromForest.numLeaves_without_smaller size).trans grows.common
  have newPeaks : ((toForest.xor (fromForest.xor
      (fromForest.and newHigh.allSmallerTreesUnchecked))).xor kept).numLeaves =
        toForest.numLeaves % 2 ^ width := by
    rw [← peaks, ← common]
    rfl
  have oldPeaks : (toForest.xor ((toForest.xor (fromForest.xor
      (fromForest.and newHigh.allSmallerTreesUnchecked))).xor kept)).numNodes =
        nodeCount (toForest.numLeaves / 2 ^ width * 2 ^ width) := by
    rw [numNodes_eq, ← xor_mod_two_pow, ← newPeaks]
    rfl
  have roots := newPeakRoots_spec holds inside narrow newPeaks
  rw [getDelta, if_neg (not_lt.mpr inside), if_neg (not_lt.mpr (le_of_lt less)), if_neg other]
  simp only [largest, run, ok_bind, oldPeaks, roots]
  rfl

theorem getDelta_merging {half low : Nat}
    (shape : fromForest.numLeaves = (2 * half + 1) * 2 ^ low) (below : low < high) :
    mmr.getDelta fromForest toForest = .ok ⟨toForest,
      (node merge leaf low (2 * half + 1) ::
        mergeData merge leaf fromForest.numLeaves (high - (low + 1)) (low + 1)) ++
      peaksBelow merge leaf high toForest.numLeaves⟩ := by
  have grows : Grows fromForest.numLeaves toForest.numLeaves high := top ▸ grows_of_lt less
  refine getDelta_of_mergedTrees holds inside less top (le_of_lt grows.height_lt)
    (fun newHigh size => ⟨newHigh, mergedTrees_merging holds inside grows size shape below, ?_⟩)
  have digit : (toForest.numLeaves % 2 ^ (high + 1)).testBit high = true := by
    rw [testBit_mod_two_pow, grows.set, decide_eq_true (lt_succ_self high)]
    rfl
  rw [xor_high, size, xor_top (mod_lt _ (Nat.two_pow_pos _)) digit,
    mod_mod_of_dvd _ (Nat.pow_dvd_pow 2 (le_succ high))]

theorem getDelta_adding (clear : fromForest.numLeaves % 2 ^ high = 0) :
    mmr.getDelta fromForest toForest =
      .ok ⟨toForest, peaksBelow merge leaf (high + 1) toForest.numLeaves⟩ := by
  have grows : Grows fromForest.numLeaves toForest.numLeaves high := top ▸ grows_of_lt less
  refine getDelta_of_mergedTrees holds inside less top (succ_le_of_lt grows.height_lt)
    (fun newHigh size => ⟨empty, mergedTrees_adding size clear, ?_⟩)
  rw [xor_high]
  exact Nat.xor_zero _

end Delta

end Full

end MidenVm.Crypto.Mmr
