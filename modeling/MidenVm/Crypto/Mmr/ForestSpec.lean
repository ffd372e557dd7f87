import MidenVm.Crypto.Mmr.Forest

namespace MidenVm.Crypto.Mmr

open Foundation Mountain List Outcome Nat Bool

/-!
# The digits of a forest

The tree of height `k` in a forest of `f` leaves stands over the block of
leaves whose index among the blocks of that size is `2 * (f / 2^(k+1))`: the
digits above `k` are the leaves before it.
-/

variable {height value width leaves leaf : Nat} {forest : Forest}

/-- The index of the root of the tree of a height. -/
def rootIndex (leaves height : Nat) : Nat := 2 * (leaves / 2 ^ (height + 1))

/-- The leaves of the larger trees, with those of a tree. -/
theorem rootIndex_mul (leaves height : Nat) :
    rootIndex leaves height * 2 ^ height = leaves / 2 ^ (height + 1) * 2 ^ (height + 1) := by
  rw [rootIndex, pow_succ]
  ring

theorem root_complete (set : leaves.testBit height = true) :
    (rootIndex leaves height + 1) * 2 ^ height = leaves / 2 ^ height * 2 ^ height := by
  rw [testBit_eq_decide_div_mod_eq, decide_eq_true_iff] at set
  rw [rootIndex, div_two_pow_succ]
  congr 1
  omega

theorem root_complete_le (set : leaves.testBit height = true) :
    (rootIndex leaves height + 1) * 2 ^ height ≤ leaves := by
  rw [root_complete set]
  exact div_mul_le_self leaves _

/-- A tree that is missing has no leaves. -/
theorem div_mul_eq_of_testBit (unset : ¬ leaves.testBit height = true) :
    leaves / 2 ^ height * 2 ^ height = leaves / 2 ^ (height + 1) * 2 ^ (height + 1) := by
  rw [testBit_eq_decide_div_mod_eq, decide_eq_true_iff] at unset
  rw [div_two_pow_succ, pow_succ, mul_comm (2 ^ height) 2, ← mul_assoc]
  congr 1
  omega

/-- Bits at or above a place. -/
theorem and_highBitmask {bit : Nat} (small : value < 2 ^ usizeBits) :
    value &&& highBitmask bit = value / 2 ^ bit * 2 ^ bit := by
  apply eq_of_testBit_eq
  intro place
  have high : usizeBits ≤ place -> value.testBit place = false := by
    intro above
    exact testBit_lt_two_pow (lt_of_lt_of_le small (Nat.pow_le_pow_right (by decide) above))
  rw [testBit_and, testBit_mul_two_pow, testBit_div_two_pow]
  unfold highBitmask
  by_cases wide : bit > usizeBits - 1
  · rw [if_pos wide, zero_testBit, Bool.and_false]
    by_cases le : bit ≤ place
    · rw [Nat.sub_add_cancel le, high (by omega), Bool.and_false]
    · rw [decide_eq_false le, Bool.false_and]
  · rw [if_neg wide, testBit_mod_two_pow, testBit_shiftLeft, testBit_two_pow_sub_one]
    by_cases le : bit ≤ place
    · rw [Nat.sub_add_cancel le, decide_eq_true le]
      by_cases inside : place < usizeBits
      · have shifted : place - bit < usizeBits := lt_of_le_of_lt (sub_le _ _) inside
        rw [decide_eq_true inside, decide_eq_true shifted, Bool.and_true, Bool.and_true,
          Bool.and_true, Bool.true_and]
      · rw [high (Nat.le_of_not_lt inside), Bool.false_and, Bool.true_and]
    · rw [decide_eq_false le, Bool.false_and, Bool.false_and, Bool.and_false, Bool.and_false]

theorem setBits_mod {wider : Nat} (le : width ≤ wider) :
    setBits width (leaves % 2 ^ wider) = setBits width leaves := by
  refine setBits_congr (fun place below => ?_)
  rw [testBit_mod_two_pow, decide_eq_true (lt_of_lt_of_le below le), Bool.true_and]

/-- A number of `width + 1` digits, by its highest one. -/
theorem eq_add_mod_of_testBit (small : value < 2 ^ (width + 1)) (set : value.testBit width = true) :
    value = 2 ^ width + value % 2 ^ width := by
  have low := mod_two_pow_succ_of_testBit value width
  rwa [mod_eq_of_lt small, if_pos set] at low

theorem lt_of_testBit_false (small : value < 2 ^ (width + 1))
    (unset : ¬ value.testBit width = true) : value < 2 ^ width := by
  have low := mod_two_pow_succ_of_testBit value width
  rw [mod_eq_of_lt small, if_neg unset, zero_add] at low
  rw [low]
  exact mod_lt _ (Nat.two_pow_pos width)

/-- Clearing the digits below a place. -/
theorem xor_mod_two_pow (value width : Nat) :
    value ^^^ (value % 2 ^ width) = value / 2 ^ width * 2 ^ width := by
  apply eq_of_testBit_eq
  intro place
  rw [testBit_xor, testBit_mod_two_pow, testBit_mul_two_pow, testBit_div_two_pow]
  rcases lt_or_ge place width with below | above
  · rw [decide_eq_true below, decide_eq_false (not_le.mpr below), Bool.true_and, Bool.xor_self,
      Bool.false_and]
  · rw [decide_eq_false (not_lt.mpr above), decide_eq_true above, Nat.sub_add_cancel above,
      Bool.false_and, Bool.xor_false, Bool.true_and]

/-- Clearing a digit that is set and the lowest one left. -/
theorem xor_two_pow_of_testBit (set : value.testBit width = true) :
    (value / 2 ^ width * 2 ^ width) ^^^ 2 ^ width = value / 2 ^ (width + 1) * 2 ^ (width + 1) := by
  apply eq_of_testBit_eq
  intro place
  rw [testBit_xor, testBit_two_pow, testBit_mul_two_pow, testBit_mul_two_pow,
    testBit_div_two_pow, testBit_div_two_pow]
  rcases lt_trichotomy place width with below | rfl | above
  · rw [decide_eq_false (not_le.mpr below), decide_eq_false (ne_of_gt below),
      decide_eq_false (by omega : ¬ width + 1 ≤ place), Bool.false_and, Bool.false_and,
      Bool.xor_false]
  · rw [decide_eq_true rfl, decide_eq_true (le_refl place), Nat.sub_add_cancel (le_refl place),
      set, decide_eq_false (not_succ_le_self place), Bool.false_and]
    rfl
  · rw [decide_eq_true (le_of_lt above), decide_eq_true (succ_le_of_lt above),
      decide_eq_false (Nat.ne_of_lt above), Nat.sub_add_cancel (le_of_lt above),
      Nat.sub_add_cancel (succ_le_of_lt above), Bool.xor_false]

/-- Clearing the highest digit. -/
theorem xor_top (small : value < 2 ^ (width + 1)) (set : value.testBit width = true) :
    value ^^^ 2 ^ width = value % 2 ^ width := by
  apply eq_of_testBit_eq
  intro place
  rw [testBit_xor, testBit_two_pow, testBit_mod_two_pow]
  rcases lt_trichotomy place width with less | same | more
  · rw [decide_eq_false (ne_of_gt less), decide_eq_true less, Bool.xor_false, Bool.true_and]
  · rw [same, decide_eq_true rfl, decide_eq_false (lt_irrefl width), set, Bool.false_and]
    rfl
  · have high : value.testBit place = false := by
      refine testBit_lt_two_pow (lt_of_lt_of_le small ?_)
      exact Nat.pow_le_pow_right (by decide) more
    rw [high, decide_eq_false (Nat.ne_of_lt more), Bool.and_false]
    rfl

theorem popcount_div_of_testBit (set : value.testBit width = true) :
    popcount (value / 2 ^ width) = popcount (value / 2 ^ (width + 1)) + 1 := by
  rw [testBit_eq_decide_div_mod_eq, decide_eq_true_iff] at set
  have odd : value / 2 ^ width = 2 * (value / 2 ^ (width + 1)) + 1 := by
    rw [div_two_pow_succ]
    omega
  rw [← popcount_succ_even, ← odd]

namespace Forest

variable {D : Type}

section Forest

variable (forest : Forest)

theorem numLeaves_lt : forest.numLeaves < 2 ^ 32 := lt_two_pow_of_le_maxLeaves forest.bounded

theorem numLeaves_lt_usize : forest.numLeaves < 2 ^ usizeBits :=
  lt_trans forest.numLeaves_lt (by decide)

theorem numNodes_eq : forest.numNodes = nodeCount forest.numLeaves := by
  rw [numNodes, numTrees, nodeCount, mul_comm]

theorem numLeaves_treesLargerThan (height : Nat) :
    (forest.treesLargerThan height).numLeaves =
      forest.numLeaves / 2 ^ (height + 1) * 2 ^ (height + 1) :=
  and_highBitmask forest.numLeaves_lt_usize

theorem new_two_pow (low : height < 32) :
    ∃ tree : Forest, new (2 ^ height) = some tree ∧ tree.numLeaves = 2 ^ height := by
  have bounded : 2 ^ height ≤ maxLeaves :=
    le_maxLeaves_of_lt_two_pow (Nat.pow_lt_pow_right (by decide) low)
  exact ⟨⟨2 ^ height, bounded⟩, dif_pos bounded, rfl⟩

/-- The trees of a forest below a tree. -/
theorem numLeaves_and_smaller {tree : Forest} (size : tree.numLeaves = 2 ^ height) :
    (forest.and tree.allSmallerTreesUnchecked).numLeaves = forest.numLeaves % 2 ^ height := by
  change forest.numLeaves &&& (tree.numLeaves - 1) = _
  rw [size, and_two_pow_sub_one_eq_mod]

theorem numLeaves_without_smaller {tree : Forest} (size : tree.numLeaves = 2 ^ height) :
    (forest.xor (forest.and tree.allSmallerTreesUnchecked)).numLeaves =
      forest.numLeaves / 2 ^ height * 2 ^ height := by
  change forest.numLeaves ^^^ (forest.and tree.allSmallerTreesUnchecked).numLeaves = _
  rw [numLeaves_and_smaller forest size, xor_mod_two_pow]

theorem and_comm (left right : Forest) : left.and right = right.and left :=
  Forest.ext (land_comm _ _)

theorem isEmpty_and_eq_false_iff {tree : Forest} (size : tree.numLeaves = 2 ^ height) :
    (tree.and forest).isEmpty = false ↔ forest.numLeaves.testBit height = true := by
  rw [isEmpty, beq_eq_false_iff_ne, testBit_eq_decide_div_mod_eq, decide_eq_true_iff,
    ← and_two_pow_ne_zero_iff, land_comm, ← size]
  exact Iff.rfl

end Forest

theorem numLeaves_largestTree (small : forest.numLeaves < 2 ^ (width + 1))
    (set : forest.numLeaves.testBit width = true) : forest.largestTree.numLeaves = 2 ^ width := by
  have value := eq_add_mod_of_testBit small set
  have present : forest.numLeaves ≠ 0 := by
    have positive := Nat.two_pow_pos width
    omega
  have height : forest.numLeaves.log2 = width := (log2_eq_iff present).mpr ⟨by omega, small⟩
  rw [largestTree, dif_neg present]
  change 2 ^ forest.numLeaves.log2 = 2 ^ width
  rw [height]

theorem numLeaves_withoutLargest (small : forest.numLeaves < 2 ^ (width + 1))
    (set : forest.numLeaves.testBit width = true) :
    (forest.withoutTrees forest.largestTree).numLeaves = forest.numLeaves % 2 ^ width := by
  change forest.numLeaves ^^^ (forest.numLeaves &&& forest.largestTree.numLeaves) = _
  rw [numLeaves_largestTree small set, and_two_pow, set, toNat_true, one_mul, xor_top small set]

/-- The iterator lists the digits from the highest one on. -/
theorem treesFromLargest_eq {fuel : Nat} (small : forest.numLeaves < 2 ^ width)
    (enough : width ≤ fuel) : (forest.treesFromLargest fuel).map numLeaves =
      (setBits width forest.numLeaves).map (fun height => 2 ^ height) := by
  induction width generalizing fuel forest with
  | zero =>
    have none : forest.numLeaves = 0 := lt_one_iff.mp small
    cases fuel with
    | zero => rfl
    | succ fuel =>
      rw [treesFromLargest, largestTree, dif_pos none]
      rfl
  | succ width ih =>
    by_cases set : forest.numLeaves.testBit width = true
    · cases fuel with
      | zero => exact absurd enough (not_succ_le_zero width)
      | succ fuel =>
        have largest := numLeaves_largestTree small set
        have rest := numLeaves_withoutLargest small set
        have present : forest.largestTree.isEmpty = false := by
          rw [isEmpty, largest, beq_eq_false_iff_ne]
          exact ne_of_gt (Nat.two_pow_pos width)
        have low : (forest.withoutTrees forest.largestTree).numLeaves < 2 ^ width := by
          rw [rest]
          exact mod_lt _ (Nat.two_pow_pos width)
        rw [treesFromLargest, present, setBits, if_pos set]
        simp only [false_eq_true, if_false, map_cons]
        rw [largest, ih low (le_of_succ_le_succ enough), rest, setBits_mod (le_refl _)]
    · rw [setBits, if_neg set]
      exact ih (lt_of_testBit_false small set) (le_of_succ_le enough)

/-- The tree that a leaf belongs to. -/
structure Owns (forest : Forest) (leaf height : Nat) : Prop where
  present : forest.numLeaves.testBit height = true
  inside : leaf / 2 ^ height = rootIndex forest.numLeaves height

theorem height_lt_of_testBit (present : forest.numLeaves.testBit height = true) : height < 32 := by
  rcases lt_or_ge height 32 with less | more
  · exact less
  · have unset : forest.numLeaves.testBit height = false := testBit_lt_two_pow
      (lt_of_lt_of_le forest.numLeaves_lt (Nat.pow_le_pow_right (by decide) more))
    rw [present] at unset
    cases unset

section Owns

variable (owns : forest.Owns leaf height)
include owns

theorem Owns.height_lt : height < 32 := height_lt_of_testBit owns.present

omit owns in
/-- The highest digit that a forest has and a position in it lacks is the tree
of the position. -/
theorem owns_of_leafToCorrespondingTree (inside : leaf < forest.numLeaves) :
    ∃ height, forest.leafToCorrespondingTree leaf = some height ∧ forest.Owns leaf height := by
  set after := forest.numLeaves ^^^ (forest.numLeaves &&& leaf)
  have missing (place : Nat) : after.testBit place =
      (forest.numLeaves.testBit place && !leaf.testBit place) := by
    rw [testBit_xor, testBit_and]
    cases forest.numLeaves.testBit place <;> cases leaf.testBit place <;> rfl
  have present : after ≠ 0 := by
    intro zero
    have contained : forest.numLeaves &&& leaf = forest.numLeaves :=
      (Nat.xor_eq_zero_iff.mp zero).symm
    have below : forest.numLeaves ≤ leaf := contained ▸ and_le_right
    exact absurd inside (not_lt.mpr below)
  refine ⟨after.log2, ?_, ?_⟩
  · rw [leafToCorrespondingTree, if_neg (not_le.mpr inside)]
  · have top := testBit_log2 present
    have above := (log2_lt present (k := _)).mp (lt_succ_self _)
    generalize after.log2 = height at top above
    rw [missing, and_eq_true, not_eq_true'] at top
    -- above the tree every digit of the forest is one of the position
    have contained : forest.numLeaves / 2 ^ (height + 1) &&& leaf / 2 ^ (height + 1) =
        forest.numLeaves / 2 ^ (height + 1) := by
      apply eq_of_testBit_eq
      intro place
      rw [testBit_and, testBit_div_two_pow, testBit_div_two_pow]
      have unset := testBit_lt_two_pow (lt_of_lt_of_le above
        (Nat.pow_le_pow_right (by decide) (Nat.le_add_left (height + 1) place)))
      rw [missing] at unset
      revert unset
      cases forest.numLeaves.testBit (place + (height + 1)) <;>
        cases leaf.testBit (place + (height + 1)) <;> simp
    have same : leaf / 2 ^ (height + 1) = forest.numLeaves / 2 ^ (height + 1) :=
      le_antisymm (Nat.div_le_div_right (le_of_lt inside)) (contained ▸ and_le_right)
    refine ⟨top.1, ?_⟩
    have digit : leaf / 2 ^ height % 2 = 0 := by
      have unset := top.2
      rw [testBit_eq_decide_div_mod_eq, decide_eq_false_iff_not] at unset
      omega
    rw [rootIndex, ← same, div_two_pow_succ]
    omega

theorem Owns.lt : leaf < forest.numLeaves := by
  have bound := root_complete_le owns.present
  rw [← owns.inside] at bound
  exact lt_of_lt_of_le (lt_mul_of_div_lt (lt_succ_self _) (Nat.two_pow_pos height)) bound

/-- Above the tree of a position the forest and the position have the same digits. -/
theorem Owns.above {higher : Nat} (less : height < higher) :
    leaf / 2 ^ higher = forest.numLeaves / 2 ^ higher := by
  rcases Nat.exists_eq_add_of_le (succ_le_of_lt less) with ⟨more, rfl⟩
  have half : leaf / 2 ^ (height + 1) = forest.numLeaves / 2 ^ (height + 1) := by
    rw [pow_succ, ← Nat.div_div_eq_div_mul, owns.inside, rootIndex, pow_succ]
    omega
  rw [pow_add, ← Nat.div_div_eq_div_mul, half, Nat.div_div_eq_div_mul]

theorem Owns.not_lt {higher : Nat} (other : forest.Owns leaf higher) : ¬ height < higher := by
  intro less
  have odd := other.present
  rw [testBit_eq_decide_div_mod_eq, decide_eq_true_iff, ← owns.above less, other.inside,
    rootIndex] at odd
  omega

theorem Owns.leafToCorrespondingTree : forest.leafToCorrespondingTree leaf = some height := by
  rcases owns_of_leafToCorrespondingTree owns.lt with ⟨found, same, other⟩
  have unique : found = height :=
    Nat.le_antisymm (Nat.not_lt.mp (owns.not_lt other)) (Nat.not_lt.mp (other.not_lt owns))
  rw [same, unique]

/-- The leaves before the tree of a position, and the rest of the position. -/
theorem Owns.start_add :
    forest.numLeaves / 2 ^ (height + 1) * 2 ^ (height + 1) + leaf % 2 ^ height = leaf := by
  have start : forest.numLeaves / 2 ^ (height + 1) * 2 ^ (height + 1) =
      2 ^ height * (leaf / 2 ^ height) := by
    rw [owns.inside, rootIndex, pow_succ]
    ring
  rw [start]
  exact div_add_mod leaf (2 ^ height)

end Owns

/-- The position of a leaf in its tree. -/
theorem leafRelativePosition_eq (found : forest.leafToCorrespondingTree leaf = some height)
    (owns : forest.Owns leaf height) : forest.leafRelativePosition leaf =
      some (leaf % 2 ^ height) := by
  unfold leafRelativePosition
  rw [found]
  change some (leaf - (forest.numLeaves &&& highBitmask (height + 1))) = _
  rw [and_highBitmask forest.numLeaves_lt_usize]
  exact congrArg some (Nat.sub_eq_of_eq_add' owns.start_add.symm)

/-- The number of trees before a tree. -/
theorem treeIndex_eq (found : forest.leafToCorrespondingTree leaf = some height)
    (owns : forest.Owns leaf height) :
    (forest.treeIndex leaf : Outcome (MmrError D) Nat) =
      .ok (popcount (forest.numLeaves / 2 ^ (height + 1))) := by
  have bounded : 2 ^ height - 1 ≤ maxLeaves := by
    have power : 2 ^ height ≤ 2 ^ 31 :=
      Nat.pow_le_pow_right (by decide) (le_of_lt_succ owns.height_lt)
    unfold maxLeaves
    omega
  have mask : new (2 ^ height - 1) = some ⟨2 ^ height - 1, bounded⟩ := dif_pos bounded
  have low : forest.numLeaves % 2 ^ height < 2 ^ height := mod_lt _ (Nat.two_pow_pos height)
  have digits : popcount forest.numLeaves =
      popcount (forest.numLeaves / 2 ^ (height + 1)) + 1 + popcount (forest.numLeaves % 2 ^ height) := by
    have split := div_add_mod forest.numLeaves (2 ^ height)
    rw [mul_comm] at split
    rw [← popcount_div_of_testBit owns.present, ← popcount_add _ low, split]
  unfold treeIndex
  rw [found, expect_some, ok_bind, mask, expect_some, ok_bind, pure_eq_ok]
  change Outcome.ok (popcount forest.numLeaves - popcount (forest.numLeaves &&& (2 ^ height - 1)) - 1) = _
  rw [and_two_pow_sub_one_eq_mod, digits]
  congr 1
  omega

end Forest

/-- The tree of a position, among the trees of its forest. -/
structure TreeOf (leaves pos peakIndex height relativePos : Nat) : Prop where
  tree : (setBits 32 leaves)[peakIndex]? = some height
  inside : relativePos < 2 ^ height
  start : (((setBits 32 leaves).take peakIndex).map (fun height => 2 ^ height)).sum + relativePos = pos

theorem Forest.Owns.treeOf {pos : Nat} (owns : forest.Owns pos height) :
    TreeOf forest.numLeaves pos (popcount (forest.numLeaves / 2 ^ (height + 1))) height
      (pos % 2 ^ height) := by
  rcases setBits_split owns.height_lt owns.present with ⟨front, split, count, total⟩
  rw [mod_eq_of_lt forest.numLeaves_lt] at count total
  refine ⟨?_, mod_lt _ (Nat.two_pow_pos height), ?_⟩
  · rw [split, ← count, getElem?_append_right (le_refl _), Nat.sub_self]
    rfl
  · rw [split, ← count, take_left, total]
    exact owns.start_add

/-- What stands before a tree: the number of trees and their leaves. -/
theorem before_tree {peakIndex : Nat}
    (tree : (setBits 32 forest.numLeaves)[peakIndex]? = some height) :
    peakIndex = popcount (forest.numLeaves / 2 ^ (height + 1)) ∧
      (((setBits 32 forest.numLeaves).take peakIndex).map (fun height => 2 ^ height)).sum =
        rootIndex forest.numLeaves height * 2 ^ height := by
  have member := mem_setBits.mp (mem_of_getElem? tree)
  rcases setBits_split member.1 member.2 with ⟨front, split, count, total⟩
  rw [mod_eq_of_lt forest.numLeaves_lt] at count total
  have same : peakIndex = front.length := by
    have inside : front.length < (setBits 32 forest.numLeaves).length := by
      rw [split, length_append, length_cons]
      omega
    have here : (setBits 32 forest.numLeaves)[front.length]? = some height := by
      rw [split, getElem?_append_right (le_refl _), Nat.sub_self]
      rfl
    exact ((getElem?_inj inside (setBits_nodup 32 _)).mp (here.trans tree.symm)).symm
  refine ⟨same.trans count, ?_⟩
  rw [same, split, take_left, total, rootIndex_mul]

/-- A forest has one tree for each position. -/
theorem TreeOf.owns {pos peakIndex relativePos : Nat}
    (tree : TreeOf forest.numLeaves pos peakIndex height relativePos) :
    forest.Owns pos height ∧ peakIndex = popcount (forest.numLeaves / 2 ^ (height + 1)) ∧
      relativePos = pos % 2 ^ height := by
  have positive := Nat.two_pow_pos height
  have member := mem_setBits.mp (mem_of_getElem? tree.tree)
  rcases before_tree tree.tree with ⟨count, total⟩
  have start := tree.start
  rw [total, mul_comm] at start
  refine ⟨⟨member.2, ?_⟩, count, ?_⟩
  · rw [← start, mul_add_div positive, div_eq_of_lt tree.inside, add_zero]
  · rw [← start, mul_add_mod, mod_eq_of_lt tree.inside]

end MidenVm.Crypto.Mmr
