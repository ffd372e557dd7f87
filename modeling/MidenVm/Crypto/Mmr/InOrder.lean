import MidenVm.Crypto.Mmr.ForestSpec

namespace MidenVm.Crypto.Mmr

open Foundation Mountain Outcome Nat

/-!
# In-order indices

Nodes are numbered by an in-order walk of the infinite tree, from one on.  The
trailing zeros of an index are the height of its node and the digits above the
lowest one are the index among the nodes of that height, so the relatives of a
node are found by moving digits.
-/

variable {height : Nat} {forest : Forest}

/-- `InOrderIndex`. -/
@[ext]
structure InOrderIndex where
  idx : Nat
  deriving DecidableEq

namespace InOrderIndex

/-- `InOrderIndex::from_leaf_pos`, which panics from `usize::MAX / 2` on. -/
def fromLeafPos {ε : Type} (leaf : Nat) : Outcome ε InOrderIndex :=
  if leaf ≥ (2 ^ usizeBits - 1) / 2 then .panic
  else
    let pos := leaf + 1
    .ok ⟨pos * 2 - 1⟩

variable (index : InOrderIndex)

/-- `InOrderIndex::is_leaf`. -/
def isLeaf : Bool := index.idx &&& 1 == 1

/-- `InOrderIndex::level`. -/
def level : Nat := trailingZeros usizeBits index.idx

/-- `InOrderIndex::left_child`, for an index that is not a leaf. -/
def leftChild : InOrderIndex :=
  let els := 1 <<< (index.level - 1)
  ⟨index.idx - els⟩

/-- `InOrderIndex::right_child`, for an index that is not a leaf. -/
def rightChild : InOrderIndex :=
  let els := 1 <<< (index.level - 1)
  ⟨index.idx + els⟩

/-- `InOrderIndex::parent`. -/
def parent : InOrderIndex :=
  let target := index.level + 1
  let bit := 1 <<< target
  let mask := bit - 1
  let idx := index.idx ^^^ (index.idx &&& mask)
  ⟨idx ||| bit⟩

/-- `InOrderIndex::sibling`. -/
def sibling : InOrderIndex :=
  let parent := index.parent
  if index.idx > parent.idx then parent.leftChild else parent.rightChild

/-- `InOrderIndex::is_left_child`. -/
def isLeftChild : Bool := index.parent.leftChild == index

/-- `InOrderIndex::to_leaf_pos`. -/
def toLeafPos : Option Nat :=
  if index.isLeaf then some ((index.idx - 1) / 2) else none

/-! ## The index of a node -/

/-- The index of the node at a height and an index among the nodes there. -/
def ofNode (height index : Nat) : InOrderIndex := ⟨2 ^ height * (2 * index + 1)⟩

theorem level_ofNode (low : height < usizeBits)
    (index : Nat) : (ofNode height index).level = height := by
  rw [level, ofNode, mul_comm]
  exact trailingZeros_shifted usizeBits height index low

/-- A node is determined by its index. -/
theorem ofNode_inj {other index place : Nat} (same : ofNode height index = ofNode other place) :
    height = other ∧ index = place := by
  have idx : 2 ^ height * (2 * index + 1) = 2 ^ other * (2 * place + 1) :=
    congrArg InOrderIndex.idx same
  induction height generalizing other with
  | zero =>
    cases other with
    | zero => omega
    | succ other =>
      rw [pow_zero, one_mul, pow_succ', mul_assoc] at idx
      omega
  | succ height ih =>
    cases other with
    | zero =>
      rw [pow_zero, one_mul, pow_succ', mul_assoc] at idx
      omega
    | succ other =>
      rw [pow_succ', pow_succ', mul_assoc, mul_assoc] at idx
      have half := Nat.eq_of_mul_eq_mul_left (by decide) idx
      have below := ih (InOrderIndex.ext half) half
      omega

theorem leftChild_ofNode (low : height + 1 < usizeBits) (index : Nat) :
    (ofNode (height + 1) index).leftChild = ofNode height (2 * index) := by
  apply InOrderIndex.ext
  rw [leftChild, level_ofNode low, Nat.add_sub_cancel, one_shiftLeft]
  change 2 ^ (height + 1) * (2 * index + 1) - 2 ^ height = 2 ^ height * (2 * (2 * index) + 1)
  have sum : 2 ^ (height + 1) * (2 * index + 1) =
      2 ^ height * (2 * (2 * index) + 1) + 2 ^ height := by ring
  rw [sum, Nat.add_sub_cancel]

theorem rightChild_ofNode (low : height + 1 < usizeBits) (index : Nat) :
    (ofNode (height + 1) index).rightChild = ofNode height (2 * index + 1) := by
  apply InOrderIndex.ext
  rw [rightChild, level_ofNode low, Nat.add_sub_cancel, one_shiftLeft]
  change 2 ^ (height + 1) * (2 * index + 1) + 2 ^ height = 2 ^ height * (2 * (2 * index + 1) + 1)
  ring

theorem parent_ofNode (low : height < usizeBits) (index : Nat) :
    (ofNode height index).parent = ofNode (height + 1) (index / 2) := by
  apply InOrderIndex.ext
  rw [parent, level_ofNode low, one_shiftLeft]
  change (2 ^ height * (2 * index + 1)) ^^^
      ((2 ^ height * (2 * index + 1)) &&& (2 ^ (height + 1) - 1)) ||| 2 ^ (height + 1) =
    2 ^ (height + 1) * (2 * (index / 2) + 1)
  apply eq_of_testBit_eq
  intro place
  rw [testBit_or, testBit_xor, testBit_and, testBit_two_pow_sub_one,
    testBit_two_pow, testBit_two_pow_mul, testBit_two_pow_mul]
  rcases lt_or_ge place (height + 1) with low | high
  · rw [decide_eq_true low, Bool.and_true, Bool.xor_self, decide_eq_false (ne_of_gt low),
      decide_eq_false (not_le.mpr low), Bool.false_and, Bool.false_or]
  · -- above the level the digits are those of the index, with the lowest one set
    rcases Nat.exists_eq_add_of_le high with ⟨more, rfl⟩
    have shift : height + 1 + more - height = more + 1 := by omega
    rw [decide_eq_true high, decide_eq_false (not_lt.mpr high), Bool.and_false, Bool.xor_false,
      decide_eq_true (le_of_succ_le high), Nat.add_sub_cancel_left, shift, Bool.true_and,
      Bool.true_and, testBit_succ]
    have own : (2 * index + 1) / 2 = index := by omega
    rw [own]
    cases more with
    | zero => simp
    | succ more =>
      have half : (2 * (index / 2) + 1) / 2 = index / 2 := by omega
      have other : ¬ height + 1 = height + 1 + (more + 1) := by omega
      rw [decide_eq_false other, Bool.or_false, testBit_succ, testBit_succ, half]

theorem sibling_ofNode (low : height + 1 < usizeBits) (index : Nat) :
    (ofNode height index).sibling = ofNode height (Mountain.sibling index) := by
  rw [sibling, parent_ofNode (lt_of_succ_lt low), leftChild_ofNode low, rightChild_ofNode low]
  have positive := Nat.two_pow_pos height
  have parent : (ofNode (height + 1) (index / 2)).idx = 2 ^ height * (4 * (index / 2) + 2) := by
    rw [ofNode, pow_succ]
    ring
  have above : (ofNode height index).idx > (ofNode (height + 1) (index / 2)).idx ↔
      index % 2 = 1 := by
    have own : (ofNode height index).idx = 2 ^ height * (2 * index + 1) := rfl
    rw [parent, own, gt_iff_lt, Nat.mul_lt_mul_left positive]
    omega
  rw [Mountain.sibling]
  by_cases odd : index % 2 = 1
  · rw [if_pos odd, if_pos (above.mpr odd)]
    congr 1
    omega
  · rw [if_neg odd, if_neg (fun more => odd (above.mp more))]
    congr 1
    omega

theorem isLeftChild_ofNode (low : height + 1 < usizeBits) (index : Nat) :
    (ofNode height index).isLeftChild = (index % 2 == 0) := by
  rw [isLeftChild, parent_ofNode (lt_of_succ_lt low), leftChild_ofNode low, Bool.eq_iff_iff,
    beq_iff_eq, beq_iff_eq]
  constructor
  · intro same
    have index := (ofNode_inj same).2
    omega
  · intro even
    congr 1
    omega

theorem fromLeafPos_eq {ε : Type} {leaf : Nat} (small : leaf < (2 ^ usizeBits - 1) / 2) :
    (fromLeafPos leaf : Outcome ε InOrderIndex) = .ok (ofNode 0 leaf) := by
  have idx : (leaf + 1) * 2 - 1 = 2 ^ 0 * (2 * leaf + 1) := by omega
  rw [fromLeafPos, if_neg (not_le.mpr small), ofNode, ← idx]

theorem toLeafPos_ofNode_zero (leaf : Nat) : (ofNode 0 leaf).toLeafPos = some leaf := by
  have odd : (ofNode 0 leaf).isLeaf = true := by
    rw [isLeaf, ofNode, pow_zero, one_mul, beq_iff_eq, and_one_is_mod]
    change (2 * leaf + 1) % 2 = 1
    omega
  rw [toLeafPos, if_pos odd, ofNode, pow_zero, one_mul, Nat.add_sub_cancel]
  congr 1
  omega

theorem toLeafPos_ofNode_succ (height index : Nat) :
    (ofNode (height + 1) index).toLeafPos = none := by
  have even : ¬ (ofNode (height + 1) index).isLeaf = true := by
    rw [isLeaf, ofNode, beq_iff_eq, and_one_is_mod, pow_succ', mul_assoc]
    change ¬ 2 * (2 ^ height * (2 * index + 1)) % 2 = 1
    omega
  rw [toLeafPos, if_neg even]

end InOrderIndex

namespace Forest

variable {D : Type}

/-- `Forest::root_in_order_index_unchecked`. -/
def rootInOrderIndexUnchecked (forest : Forest) : Outcome (MmrError D) InOrderIndex := do
  .require (forest.isEmpty = false)
  let nodes := forest.numNodes
  let openTrees := forest.numTrees - 1
  let smallest ← forest.smallestTreeUnchecked
  let rightSubtreeCount := smallest.numLeaves - 1
  pure ⟨nodes + openTrees - rightSubtreeCount⟩

/-- `Forest::rightmost_in_order_index_unchecked`. -/
def rightmostInOrderIndexUnchecked (forest : Forest) : Outcome (MmrError D) InOrderIndex := do
  .require (forest.isEmpty = false)
  let nodes := forest.numNodes
  let openTrees := forest.numTrees - 1
  pure ⟨nodes + openTrees⟩

theorem smallestTreeHeight_eq {odd : Nat} (shape : forest.numLeaves = (2 * odd + 1) * 2 ^ height) :
    forest.smallestTreeHeightUnchecked = height ∧ height < 32 := by
  have low : height < 32 := by
    have bound := forest.numLeaves_lt
    rcases lt_or_ge height 32 with less | more
    · exact less
    · have power : 2 ^ 32 ≤ 2 ^ height := Nat.pow_le_pow_right (by decide) more
      have factor : 1 * 2 ^ height ≤ (2 * odd + 1) * 2 ^ height := Nat.mul_le_mul_right _ (by omega)
      omega
  refine ⟨?_, low⟩
  rw [smallestTreeHeightUnchecked, shape]
  exact trailingZeros_shifted usizeBits height odd (lt_trans low (by decide))

theorem withHeight_eq (low : height < 32) :
    ∃ tree : Forest, (withHeight height : Outcome (MmrError D) Forest) = .ok tree ∧
      tree.numLeaves = 2 ^ height := by
  rcases new_two_pow low with ⟨tree, made, size⟩
  refine ⟨tree, ?_, size⟩
  rw [withHeight, if_pos (lt_trans low (by decide)), one_shiftLeft, made, expect_some]

theorem numNodes_add_numTrees (present : 0 < forest.numLeaves) :
    forest.numNodes + (forest.numTrees - 1) = 2 * forest.numLeaves - 1 := by
  have bound := popcount_le forest.numLeaves
  have positive := popcount_pos present
  rw [numNodes, numTrees]
  omega

/-- The last leaf. -/
theorem rightmostInOrderIndexUnchecked_eq {last : Nat} (shape : forest.numLeaves = last + 1) :
    (forest.rightmostInOrderIndexUnchecked : Outcome (MmrError D) InOrderIndex) =
      .ok (.ofNode 0 last) := by
  have present : forest.isEmpty = false := by
    rw [isEmpty, shape]
    rfl
  rw [rightmostInOrderIndexUnchecked, require_of present, ok_bind]
  change Outcome.ok (InOrderIndex.mk (forest.numNodes + (forest.numTrees - 1))) = _
  have idx : 2 * forest.numLeaves - 1 = 2 ^ 0 * (2 * last + 1) := by omega
  rw [numNodes_add_numTrees (by omega), idx]
  rfl

/-- The root of the last tree. -/
theorem rootInOrderIndexUnchecked_eq {half : Nat}
    (shape : forest.numLeaves = (2 * half + 1) * 2 ^ height) :
    (forest.rootInOrderIndexUnchecked : Outcome (MmrError D) InOrderIndex) =
      .ok (.ofNode height (2 * half)) := by
  have positive := Nat.two_pow_pos height
  have some_ : 0 < forest.numLeaves := by
    rw [shape]
    exact Nat.mul_pos (succ_pos _) positive
  have present : forest.isEmpty = false := beq_eq_false_iff_ne.mpr (ne_of_gt some_)
  rcases smallestTreeHeight_eq shape with ⟨smallest, low⟩
  rcases withHeight_eq (D := D) low with ⟨tree, made, size⟩
  have double : 2 * forest.numLeaves = 2 ^ height * (2 * (2 * half) + 1) + 2 ^ height := by
    rw [shape]
    ring
  have idx : 2 * forest.numLeaves - 1 - (2 ^ height - 1) = 2 ^ height * (2 * (2 * half) + 1) := by
    omega
  rw [rootInOrderIndexUnchecked, require_of present, ok_bind, smallestTreeUnchecked,
    smallest, made, ok_bind, size]
  change Outcome.ok (InOrderIndex.mk (forest.numNodes + (forest.numTrees - 1) - (2 ^ height - 1))) = _
  rw [numNodes_add_numTrees some_, idx]
  rfl

end Forest

end MidenVm.Crypto.Mmr
