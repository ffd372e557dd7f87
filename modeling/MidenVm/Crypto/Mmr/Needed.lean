import MidenVm.Crypto.Mmr.FullSpec
import MidenVm.Crypto.Mmr.Partial

namespace MidenVm.Crypto.Mmr

open Foundation Mountain Nat PartialMmr

/-!
# The nodes that openings need

A partial range stores a node when it is a tracked leaf, or when a tracked leaf
stands under its sibling and both have their parent in the range.  What the
parents in the range are is a parameter, so that the same statement serves
between two merges of an update.
-/

variable {D : Type} {merge : D -> D -> D} {leaf : Nat -> D}
variable {tracked : Finset Nat} {index height : Nat}

/-- A tracked leaf under a node. -/
def Under (tracked : Finset Nat) (height index : Nat) : Prop :=
  ∃ pos, pos ∈ tracked ∧ pos / 2 ^ height = index

/-- The nodes to store, by the parents in the range. -/
def Needed (tracked : Finset Nat) (inner : Nat -> Nat -> Prop) (height index : Nat) : Prop :=
  (height = 0 ∧ index ∈ tracked) ∨
    (inner (height + 1) (index / 2) ∧ Under tracked height (sibling index))

/-- All leaves under a node are there. -/
def Complete (leaves height index : Nat) : Prop := (index + 1) * 2 ^ height ≤ leaves

/-- The map stores the nodes of a set, each at its index, and nothing else. -/
def Keeps (merge : D -> D -> D) (leaf : Nat -> D) (needed : Nat -> Nat -> Prop)
    (nodes : NodeMap D) : Prop :=
  forall idx value, nodes idx = some value ↔
    ∃ height index, idx = .ofNode height index ∧ needed height index ∧
      value = node merge leaf height index

/-! ## Siblings and leaves under a node -/

theorem sibling_sibling (index : Nat) : sibling (sibling index) = index := by
  unfold sibling
  split
  · rw [if_neg (by omega)]
    omega
  · rw [if_pos (by omega)]
    omega

theorem sibling_div_two (index : Nat) : sibling index / 2 = index / 2 := by
  unfold sibling
  split <;> omega

theorem sibling_even (half : Nat) : sibling (2 * half) = 2 * half + 1 := if_neg (by omega)

theorem sibling_odd (half : Nat) : sibling (2 * half + 1) = 2 * half := if_pos (by omega)

theorem sibling_ne (index : Nat) : sibling index ≠ index := by
  unfold sibling
  split <;> omega

theorem under_zero : Under tracked 0 index ↔ index ∈ tracked := by
  constructor
  · rintro ⟨pos, member, here⟩
    rw [pow_zero, Nat.div_one] at here
    exact here ▸ member
  · intro member
    exact ⟨index, member, Nat.div_one index⟩

theorem under_succ :
    Under tracked (height + 1) index ↔
      Under tracked height (2 * index) ∨ Under tracked height (2 * index + 1) := by
  constructor
  · rintro ⟨pos, member, here⟩
    rw [div_two_pow_succ] at here
    rcases mod_two_eq_zero_or_one (pos / 2 ^ height) with even | odd
    · exact .inl ⟨pos, member, by omega⟩
    · exact .inr ⟨pos, member, by omega⟩
  · rintro (⟨pos, member, here⟩ | ⟨pos, member, here⟩)
    · exact ⟨pos, member, by rw [div_two_pow_succ]; omega⟩
    · exact ⟨pos, member, by rw [div_two_pow_succ]; omega⟩

theorem Under.parent (under : Under tracked height index) :
    Under tracked (height + 1) (index / 2) := by
  rcases under with ⟨pos, member, rfl⟩
  exact ⟨pos, member, div_two_pow_succ pos height⟩

/-- What is under a node is under the nodes above it. -/
theorem Under.up {pos higher : Nat} (le : height ≤ higher)
    (under : Under tracked height (pos / 2 ^ height)) :
    Under tracked higher (pos / 2 ^ higher) := by
  rcases under with ⟨other, member, same⟩
  rcases Nat.exists_eq_add_of_le le with ⟨more, rfl⟩
  refine ⟨other, member, ?_⟩
  rw [pow_add, ← Nat.div_div_eq_div_mul, ← Nat.div_div_eq_div_mul, same]

/-- What a further tracked leaf needs: itself and the siblings of the nodes above it. -/
theorem needed_insert_iff {inner : Nat -> Nat -> Prop} {pos : Nat} :
    Needed (insert pos tracked) inner height index ↔
      (Needed tracked inner height index ∨ (height = 0 ∧ index = pos)) ∨
        (inner (height + 1) (index / 2) ∧ pos / 2 ^ height = sibling index) := by
  simp only [Needed, Under, Finset.mem_insert, or_and_right, exists_or, exists_eq_left]
  grind

/-- Only nodes of the range are needed. -/
theorem Needed.complete {leaves : Nat} (needed : Needed tracked (Complete leaves) height index)
    (bounded : forall pos, pos ∈ tracked -> pos < leaves) : Complete leaves height index := by
  rcases needed with ⟨rfl, member⟩ | ⟨parent, _⟩
  · rw [Complete, pow_zero, mul_one]
    exact bounded index member
  · refine le_trans ?_ parent
    rw [pow_succ, mul_comm (2 ^ height), ← mul_assoc]
    exact Nat.mul_le_mul_right _ (by omega)

/-- Under a complete node every node is complete. -/
theorem complete_of_le {leaves pos level : Nat} (le : level ≤ height)
    (above : Complete leaves height (pos / 2 ^ height)) :
    Complete leaves level (pos / 2 ^ level) := by
  rcases Nat.exists_eq_add_of_le le with ⟨more, rfl⟩
  rw [Complete, pow_add, ← Nat.div_div_eq_div_mul, mul_comm (2 ^ level), ← mul_assoc] at above
  refine le_trans (Nat.mul_le_mul_right _ ?_) above
  have last := lt_succ_self (pos / 2 ^ level / 2 ^ more)
  rw [Nat.div_lt_iff_lt_mul (Nat.two_pow_pos more)] at last
  exact last

theorem complete_div_iff_le {forest : Forest} {pos level : Nat} (owns : forest.Owns pos height) :
    Complete forest.numLeaves level (pos / 2 ^ level) ↔ level ≤ height := by
  constructor
  · intro complete
    rcases lt_or_ge height level with above | le
    · have positive := Nat.two_pow_pos level
      have more := lt_succ_self (forest.numLeaves / 2 ^ level)
      rw [Nat.div_lt_iff_lt_mul positive] at more
      rw [Complete, owns.above above] at complete
      exact absurd complete (not_le.mpr more)
    · exact le
  · intro le
    exact complete_of_le le (owns.inside ▸ root_complete_le owns.present)

/-! ## Changes of the map -/

namespace Keeps

variable {needed other : Nat -> Nat -> Prop} {nodes : NodeMap D}

section Keeps

variable (keeps : Keeps merge leaf needed nodes)
include keeps

theorem congr (same : forall height index, needed height index ↔ other height index) :
    Keeps merge leaf other nodes := by
  intro idx value
  simp only [keeps idx value, same]

theorem get_eq_some {value : D} :
    nodes (.ofNode height index) = some value ↔
      needed height index ∧ value = node merge leaf height index := by
  rw [keeps]
  constructor
  · rintro ⟨level, place, same, need, made⟩
    rcases InOrderIndex.ofNode_inj same with ⟨rfl, rfl⟩
    exact ⟨need, made⟩
  · rintro ⟨need, made⟩
    exact ⟨height, index, rfl, need, made⟩

theorem get_of_needed (need : needed height index) :
    nodes (.ofNode height index) = some (node merge leaf height index) :=
  keeps.get_eq_some.mpr ⟨need, rfl⟩

theorem containsKey_iff : nodes.containsKey (.ofNode height index) = true ↔
    needed height index := by
  rw [NodeMap.containsKey, Option.isSome_iff_exists]
  constructor
  · rintro ⟨value, found⟩
    exact (keeps.get_eq_some.mp found).1
  · intro need
    exact ⟨_, keeps.get_of_needed need⟩

theorem insert (height index : Nat) :
    Keeps merge leaf (fun level place => needed level place ∨ (level = height ∧ place = index))
      (nodes.insert (.ofNode height index) (node merge leaf height index)) := by
  intro idx value
  change (if idx = .ofNode height index then some (node merge leaf height index) else nodes idx) =
    some value ↔ _
  by_cases same : idx = .ofNode height index
  · rw [if_pos same, Option.some.injEq]
    constructor
    · intro made
      exact ⟨height, index, same, .inr ⟨rfl, rfl⟩, made.symm⟩
    · rintro ⟨level, place, here, _, made⟩
      rcases InOrderIndex.ofNode_inj (here.symm.trans same) with ⟨rfl, rfl⟩
      exact made.symm
  · rw [if_neg same, keeps idx value]
    constructor
    · rintro ⟨level, place, here, need, made⟩
      exact ⟨level, place, here, .inl need, made⟩
    · rintro ⟨level, place, here, need | ⟨rfl, rfl⟩, made⟩
      · exact ⟨level, place, here, need, made⟩
      · exact absurd here same

/-- An insertion behind a test. -/
theorem insertIf {test : Bool} {condition : Prop} (means : test = true ↔ condition)
    (height index : Nat) : Keeps merge leaf
      (fun level place => needed level place ∨ (level = height ∧ place = index ∧ condition))
      (if test then nodes.insert (.ofNode height index) (node merge leaf height index)
        else nodes) := by
  by_cases set : test = true
  · rw [if_pos set]
    refine (keeps.insert height index).congr (fun level place => ?_)
    simp only [means.mp set, and_true]
  · rw [if_neg set]
    refine keeps.congr (fun level place => ?_)
    simp only [mt means.mpr set, and_false, or_false]

theorem remove (height index : Nat) :
    Keeps merge leaf (fun level place => needed level place ∧ ¬ (level = height ∧ place = index))
      (nodes.remove (.ofNode height index)) := by
  intro idx value
  change (if idx = .ofNode height index then none else nodes idx) = some value ↔ _
  by_cases same : idx = .ofNode height index
  · rw [if_pos same]
    constructor
    · intro impossible
      cases impossible
    · rintro ⟨level, place, here, need, _⟩
      exact absurd (InOrderIndex.ofNode_inj (here.symm.trans same)) need.2
  · rw [if_neg same, keeps idx value]
    constructor
    · rintro ⟨level, place, here, need, made⟩
      refine ⟨level, place, here, ⟨need, ?_⟩, made⟩
      rintro ⟨rfl, rfl⟩
      exact same here
    · rintro ⟨level, place, here, need, made⟩
      exact ⟨level, place, here, need.1, made⟩

end Keeps

end Keeps

/-! ## Which nodes count as tracked -/

section Tracked

variable {tracked : Finset Nat} {inner : Nat -> Nat -> Prop} {nodes : NodeMap D}

theorem isTrackedNode_zero (index : Nat) :
    isTrackedNode nodes tracked (.ofNode 0 index) = true ↔ Under tracked 0 index := by
  rw [isTrackedNode, InOrderIndex.toLeafPos_ofNode_zero, under_zero]
  exact decide_eq_true_iff

section Keeps

variable (keeps : Keeps merge leaf (Needed tracked inner) nodes)
include keeps

theorem isTrackedNode_succ (low : height + 1 < usizeBits) (index : Nat) :
    isTrackedNode nodes tracked (.ofNode (height + 1) index) = true ↔
      Needed tracked inner height (2 * index) ∨ Needed tracked inner height (2 * index + 1) := by
  rw [isTrackedNode, InOrderIndex.toLeafPos_ofNode_succ,
    InOrderIndex.leftChild_ofNode low, InOrderIndex.rightChild_ofNode low]
  change (_ || _) = true ↔ _
  rw [Bool.or_eq_true, keeps.containsKey_iff, keeps.containsKey_iff]

theorem under_of_isTrackedNode (low : height < usizeBits)
    (found : isTrackedNode nodes tracked (.ofNode height index) = true) :
    Under tracked height index := by
  cases height with
  | zero => exact (isTrackedNode_zero index).mp found
  | succ height =>
    rw [under_succ]
    rcases (isTrackedNode_succ keeps low index).mp found with
      (⟨rfl, member⟩ | ⟨_, under⟩) | (⟨rfl, member⟩ | ⟨_, under⟩)
    · exact .inl (under_zero.mpr member)
    · exact .inr (sibling_even index ▸ under)
    · exact .inr (under_zero.mpr member)
    · exact .inl (sibling_odd index ▸ under)

/-- For a node of the range the test finds every tracked leaf under it. -/
theorem isTrackedNode_iff (low : height < usizeBits) (own : height = 0 ∨ inner height index) :
    isTrackedNode nodes tracked (.ofNode height index) = true ↔ Under tracked height index := by
  refine ⟨under_of_isTrackedNode keeps low, ?_⟩
  intro under
  cases height with
  | zero => exact (isTrackedNode_zero index).mpr under
  | succ height =>
    have inside : inner (height + 1) index := own.resolve_left (succ_ne_zero height)
    have left : 2 * index / 2 = index := by omega
    have right : (2 * index + 1) / 2 = index := by omega
    rw [isTrackedNode_succ keeps low]
    rcases under_succ.mp under with below | below
    · refine .inr (.inr ⟨?_, ?_⟩)
      · rw [right]
        exact inside
      · rw [sibling_odd]
        exact below
    · refine .inl (.inr ⟨?_, ?_⟩)
      · rw [left]
        exact inside
      · rw [sibling_even]
        exact below

end Keeps

/-- A new parent brings in its two children, each for the leaves under the
other. -/
theorem needed_with_parent {parent level place : Nat} :
    Needed tracked (fun above index => inner above index ∨ (above = height + 1 ∧ index = parent))
        level place ↔
      Needed tracked inner level place ∨
        (level = height ∧ place = 2 * parent ∧ Under tracked height (2 * parent + 1)) ∨
        (level = height ∧ place = 2 * parent + 1 ∧ Under tracked height (2 * parent)) := by
  constructor
  · rintro (own | ⟨inside | ⟨same, half⟩, under⟩)
    · exact .inl (.inl own)
    · exact .inl (.inr ⟨inside, under⟩)
    · have levels : level = height := Nat.succ.inj same
      subst levels
      rcases mod_two_eq_zero_or_one place with even | odd
      · have left : place = 2 * parent := by omega
        subst left
        rw [sibling_even] at under
        exact .inr (.inl ⟨rfl, rfl, under⟩)
      · have right : place = 2 * parent + 1 := by omega
        subst right
        rw [sibling_odd] at under
        exact .inr (.inr ⟨rfl, rfl, under⟩)
  · rintro ((own | ⟨inside, under⟩) | ⟨rfl, rfl, under⟩ | ⟨rfl, rfl, under⟩)
    · exact .inl own
    · exact .inr ⟨.inl inside, under⟩
    · refine .inr ⟨.inr ⟨rfl, by omega⟩, ?_⟩
      rw [sibling_even]
      exact under
    · refine .inr ⟨.inr ⟨rfl, by omega⟩, ?_⟩
      rw [sibling_odd]
      exact under

theorem needed_congr_inner {other : Nat -> Nat -> Prop}
    (same : forall height index, inner height index ↔ other height index) (height index : Nat) :
    Needed tracked inner height index ↔ Needed tracked other height index := by
  rw [Needed, Needed, same]

/-- Only parents above a tracked leaf matter. -/
theorem needed_congr {other : Nat -> Nat -> Prop}
    (same : forall height pos, pos ∈ tracked ->
      (inner (height + 1) (pos / 2 ^ (height + 1)) ↔ other (height + 1) (pos / 2 ^ (height + 1))))
    (height index : Nat) : Needed tracked inner height index ↔
      Needed tracked other height index := by
  have parents (under : Under tracked height (sibling index)) :
      inner (height + 1) (index / 2) ↔ other (height + 1) (index / 2) := by
    rcases under with ⟨pos, member, here⟩
    have above : pos / 2 ^ (height + 1) = index / 2 := by
      rw [div_two_pow_succ, here, sibling_div_two]
    rw [← above]
    exact same height pos member
  constructor
  · rintro (own | ⟨inside, under⟩)
    · exact .inl own
    · exact .inr ⟨(parents under).mp inside, under⟩
  · rintro (own | ⟨inside, under⟩)
    · exact .inl own
    · exact .inr ⟨(parents under).mpr inside, under⟩

end Tracked

/-! ## Merges at the end of a range -/

/-- The parents in the range after merges at its end, up to a level. -/
def Merged (count level : Nat) (height index : Nat) : Prop :=
  Complete count height index ∨ (0 < height ∧ height ≤ level ∧ index = count / 2 ^ height)

theorem merged_succ {count level : Nat} :
    Merged count (level + 1) height index ↔
      Merged count level height index ∨ (height = level + 1 ∧ index = count / 2 ^ (level + 1)) := by
  constructor
  · rintro (complete | ⟨positive, le, here⟩)
    · exact .inl (.inl complete)
    · rcases Nat.lt_or_eq_of_le le with less | rfl
      · exact .inl (.inr ⟨positive, le_of_lt_succ less, here⟩)
      · exact .inr ⟨rfl, here⟩
  · rintro ((complete | ⟨positive, le, here⟩) | ⟨rfl, here⟩)
    · exact .inl complete
    · exact .inr ⟨positive, le_succ_of_le le, here⟩
    · exact .inr ⟨succ_pos level, le_refl _, here⟩

/-- One more merge gives two nodes a parent. -/
theorem needed_merged_succ {count level parent : Nat} (above : count / 2 ^ (level + 1) = parent) :
    Needed tracked (Merged count (level + 1)) height index ↔
      Needed tracked (Merged count level) height index ∨
        (height = level ∧ index = 2 * parent ∧ Under tracked level (2 * parent + 1)) ∨
        (height = level ∧ index = 2 * parent + 1 ∧ Under tracked level (2 * parent)) := by
  rw [← above]
  exact (needed_congr_inner (fun high place => merged_succ) height index).trans needed_with_parent

end MidenVm.Crypto.Mmr
