import MidenVm.Foundation.Popcount

namespace Foundation.Mountain

open List Nat

/-!
# Mountain ranges of hash trees

A growing sequence of leaves spans one infinite binary tree.  Its node at a
height and an index stands over the leaves from `index * 2^height` on, as many
as the height allows.  A range of `n` leaves holds the nodes whose leaves are
all there, in the order in which they become complete: each leaf is followed
by the nodes it completes.

The place of a node in that order does not depend on the number of leaves.
-/

variable {D : Type}

theorem div_two_pow_succ (pos height : Nat) : pos / 2 ^ (height + 1) = pos / 2 ^ height / 2 := by
  rw [pow_succ, Nat.div_div_eq_div_mul]

/-! ## Nodes and paths -/

variable {leaf : Nat -> D}

section Nodes

variable (merge : D -> D -> D)

/-- A node of the tree over a sequence of leaves. -/
def node (leaf : Nat -> D) : Nat -> Nat -> D
  | 0, index => leaf index
  | height + 1, index =>
    merge (node leaf height (2 * index)) (node leaf height (2 * index + 1))

/-- The node beside a node. -/
def sibling (index : Nat) : Nat := if index % 2 = 1 then index - 1 else index + 1

/-- The siblings on the way up from a node. -/
def siblings (leaf : Nat -> D) : Nat -> Nat -> Nat -> List D
  | 0, _, _ => []
  | levels + 1, height, index =>
    node merge leaf height (sibling index) :: siblings leaf levels (height + 1) (index / 2)

section Leaf

variable (leaf : Nat -> D)

@[simp] theorem length_siblings (levels height index : Nat) :
    (siblings merge leaf levels height index).length = levels := by
  induction levels generalizing height index with
  | zero => rfl
  | succ levels ih => rw [siblings, length_cons, ih]

theorem take_siblings {levels total : Nat} (le : levels ≤ total) (height index : Nat) :
    (siblings merge leaf total height index).take levels =
      siblings merge leaf levels height index := by
  induction levels generalizing total height index with
  | zero => rfl
  | succ levels ih =>
    cases total with
    | zero => cases le
    | succ total => rw [siblings, take_succ_cons, ih (le_of_succ_le_succ le), siblings]

/-- Hash a value up a path; the digits of the index say on which side it
stands. -/
def climb : Nat -> D -> List D -> D
  | _, value, [] => value
  | index, value, beside :: rest =>
    climb (index / 2) (if index % 2 = 1 then merge beside value else merge value beside) rest

/-- A node and its sibling hash to their parent. -/
theorem merge_sibling (height index : Nat) :
    (if index % 2 = 1 then merge (node merge leaf height (sibling index)) (node merge leaf height index)
    else merge (node merge leaf height index) (node merge leaf height (sibling index))) =
      node merge leaf (height + 1) (index / 2) := by
  rw [node]
  by_cases odd : index % 2 = 1
  · have left : sibling index = 2 * (index / 2) := by rw [sibling, if_pos odd]; omega
    have right : index = 2 * (index / 2) + 1 := by omega
    rw [if_pos odd, left, ← right]
  · have left : index = 2 * (index / 2) := by omega
    have right : sibling index = 2 * (index / 2) + 1 := by rw [sibling, if_neg odd]; omega
    rw [if_neg odd, right, ← left]

theorem climb_siblings (levels height index : Nat) :
    climb merge index (node merge leaf height index) (siblings merge leaf levels height index) =
      node merge leaf (height + levels) (index / 2 ^ levels) := by
  induction levels generalizing height index with
  | zero => rw [siblings, climb, pow_zero, Nat.div_one, add_zero]
  | succ levels ih =>
    rw [siblings, climb, merge_sibling, ih, Nat.div_div_eq_div_mul, ← pow_succ', add_assoc,
      add_comm 1 levels]

/-- Only the digits below the length of a path count. -/
theorem climb_mod (index : Nat) (value : D) (path : List D) :
    climb merge (index % 2 ^ path.length) value path = climb merge index value path := by
  induction path generalizing index value with
  | nil => rfl
  | cons beside rest ih =>
    have digit : index % 2 ^ (rest.length + 1) % 2 = index % 2 :=
      mod_mod_of_dvd index (pow_succ 2 rest.length ▸ Nat.dvd_mul_left 2 _)
    have half : index % 2 ^ (rest.length + 1) / 2 = index / 2 % 2 ^ rest.length := by
      rw [pow_succ', mod_mul_right_div_self]
    rw [length_cons, climb, climb, digit, half, ih]

/-- A path from a node under a root, by the digits of its place there. -/
theorem climb_under (height root : Nat) {levels digits : Nat} (small : digits < 2 ^ levels) :
    climb merge digits (node merge leaf height (root * 2 ^ levels + digits))
        (siblings merge leaf levels height (root * 2 ^ levels + digits)) =
      node merge leaf (height + levels) root := by
  have low : (root * 2 ^ levels + digits) % 2 ^ levels = digits := by
    rw [mul_comm, mul_add_mod, mod_eq_of_lt small]
  have high : (root * 2 ^ levels + digits) / 2 ^ levels = root := by
    rw [mul_comm, mul_add_div (Nat.two_pow_pos levels), div_eq_of_lt small, add_zero]
  have whole := climb_siblings merge leaf levels height (root * 2 ^ levels + digits)
  rwa [← climb_mod, length_siblings, low, high] at whole

/-- A tree over the nodes of a height. -/
theorem node_node (height extra index : Nat) :
    node merge (node merge leaf extra) height index = node merge leaf (height + extra) index := by
  induction height generalizing index with
  | zero => rw [node, zero_add]
  | succ height ih => rw [node, ih, ih, add_right_comm, node]

end Leaf

/-- Under a hash without collisions a path that ends in a node starts in the
node below it. -/
theorem climb_binds (free : forall a b c d, merge a b = merge c d -> a = c ∧ b = d)
    {height index : Nat} {value : D} {path : List D}
    (reached : climb merge index value path =
        node merge leaf (height + path.length) (index / 2 ^ path.length)) :
    value = node merge leaf height index := by
  induction path generalizing height index value with
  | nil => rwa [climb, length_nil, pow_zero, Nat.div_one, add_zero] at reached
  | cons beside rest ih =>
    rw [climb, length_cons, pow_succ', ← Nat.div_div_eq_div_mul, add_comm rest.length,
      ← add_assoc] at reached
    have parent := ih reached
    rw [node] at parent
    by_cases odd : index % 2 = 1
    · rw [if_pos odd] at parent
      have right : index = 2 * (index / 2) + 1 := by omega
      rw [right]
      exact (free _ _ _ _ parent).2
    · rw [if_neg odd] at parent
      have left : index = 2 * (index / 2) := by omega
      rw [left]
      exact (free _ _ _ _ parent).1

/-! ## Trees over lists -/

/-- The root of the perfect tree over a list of `2^height` leaves. -/
def perfectRoot : Nat -> List D -> Option D
  | 0, [only] => some only
  | 0, _ => none
  | height + 1, leaves => do
      let left ← perfectRoot height (leaves.take (2 ^ height))
      let right ← perfectRoot height (leaves.drop (2 ^ height))
      pure (merge left right)

/-- A block of the leaves spans the node over it. -/
theorem perfectRoot_eq_node {height index : Nat} {leaves : List D}
    (size : leaves.length = 2 ^ height)
    (agree : forall (place : Nat) value, leaves[place]? = some value -> value =
        leaf (index * 2 ^ height + place)) :
    perfectRoot merge height leaves = some (node merge leaf height index) := by
  induction height generalizing index leaves with
  | zero =>
    rcases length_eq_one_iff.mp size with ⟨only, rfl⟩
    have value := agree 0 only rfl
    rw [pow_zero, mul_one, add_zero] at value
    rw [perfectRoot, value, node]
  | succ height ih =>
    have half : 2 ^ (height + 1) = 2 ^ height + 2 ^ height := by rw [pow_succ]; omega
    have left : perfectRoot merge height (leaves.take (2 ^ height)) =
        some (node merge leaf height (2 * index)) := by
      refine ih (by rw [length_take]; omega) ?_
      intro place value found
      rw [getElem?_take] at found
      split at found
      · rw [agree place value found, half]
        congr 1
        ring
      · cases found
    have right : perfectRoot merge height (leaves.drop (2 ^ height)) =
        some (node merge leaf height (2 * index + 1)) := by
      refine ih (by rw [length_drop]; omega) ?_
      intro place value found
      rw [getElem?_drop] at found
      rw [agree _ value found, half]
      congr 1
      ring
    rw [perfectRoot, left, right]
    rfl

end Nodes

/-! ## The order of the nodes -/

/-- The number of complete nodes over `n` leaves. -/
def nodeCount (leaves : Nat) : Nat := 2 * leaves - popcount leaves

theorem nodeCount_add (high : Nat) {width low : Nat} (small : low < 2 ^ width) :
    nodeCount (high * 2 ^ width + low) = nodeCount (high * 2 ^ width) + nodeCount low := by
  have front := popcount_le (high * 2 ^ width)
  have back := popcount_le low
  unfold nodeCount
  rw [popcount_add high small]
  rw [popcount_shift] at front ⊢
  omega

theorem nodeCount_two_pow (height : Nat) : nodeCount (2 ^ height) = 2 ^ (height + 1) - 1 := by
  rw [nodeCount, popcount_two_pow, pow_succ, mul_comm]

theorem nodeCount_ones (height : Nat) : nodeCount (2 ^ height - 1) + height =
    2 ^ (height + 1) - 2 := by
  have bound := popcount_le (2 ^ height - 1)
  rw [popcount_ones] at bound
  rw [nodeCount, popcount_ones, pow_succ]
  omega

/-- The place of a node. -/
def place (height index : Nat) : Nat := nodeCount (index * 2 ^ height) + (2 ^ (height + 1) - 2)

section Height

variable (height index : Nat)

/-- A node comes after its last leaf, by its height. -/
theorem place_eq : place height index = nodeCount (index * 2 ^ height + (2 ^ height - 1)) + height := by
  have positive := Nat.two_pow_pos height
  rw [nodeCount_add index (sub_lt positive one_pos), place, ← nodeCount_ones, add_assoc]

theorem place_right : place height (2 * index + 1) + 1 = place (height + 1) index := by
  have positive := Nat.two_pow_pos height
  have shape : (2 * index + 1) * 2 ^ height = index * 2 ^ (height + 1) + 2 ^ height := by ring
  have small : 2 ^ height < 2 ^ (height + 1) := Nat.pow_lt_pow_succ (by decide)
  rw [place, place, shape, nodeCount_add index small, nodeCount_two_pow, pow_succ 2 (height + 1),
    pow_succ 2 height]
  omega

theorem place_left : place height (2 * index) + nodeCount (2 ^ height) + 1 =
    place (height + 1) index := by
  have positive := Nat.two_pow_pos height
  have shape : 2 * index * 2 ^ height = index * 2 ^ (height + 1) := by ring
  rw [place, place, shape, nodeCount_two_pow, pow_succ 2 (height + 1), pow_succ 2 height]
  omega

/-- A leaf that ends a block of odd index completes the block's node too. -/
theorem nodeCount_after :
    nodeCount (index * 2 ^ height + (2 ^ height - 1)) + height + 1 ≤
      nodeCount ((index + 1) * 2 ^ height) := by
  have positive := Nat.two_pow_pos height
  have ends := popcount_add index (sub_lt positive one_pos)
  have bound := popcount_le (index * 2 ^ height + (2 ^ height - 1))
  have next := popcount_succ_le index
  rw [popcount_ones] at ends
  rw [ends] at bound
  unfold nodeCount
  rw [ends, popcount_shift, add_mul, one_mul]
  omega

theorem nodeCount_after_even :
    nodeCount (2 * index * 2 ^ height + (2 ^ height - 1)) + height + 1 =
      nodeCount ((2 * index + 1) * 2 ^ height) := by
  have small : 2 ^ height < 2 ^ (height + 1) := Nat.pow_lt_pow_succ (by decide)
  have even : 2 * index * 2 ^ height = index * 2 ^ (height + 1) := by ring
  rw [← place_eq, place, add_mul, one_mul, even, nodeCount_add index small, nodeCount_two_pow]
  omega

end Height

/-- The nodes that the last leaf completes, by the trailing zeros of the number
of leaves. -/
theorem ends_iff {count height half level index : Nat}
    (shape : count + 1 = (2 * half + 1) * 2 ^ height) :
    (index + 1) * 2 ^ level = count + 1 ↔ level ≤ height ∧ index = count / 2 ^ level := by
  have positive := Nat.two_pow_pos level
  constructor
  · intro ends
    refine ⟨?_, ?_⟩
    · rcases lt_or_ge height level with higher | le
      · have divides : 2 ^ (height + 1) ∣ (2 * half + 1) * 2 ^ height := by
          rw [← shape, ← ends]
          exact Nat.dvd_trans (Nat.pow_dvd_pow 2 higher) (Nat.dvd_mul_left _ _)
        rw [pow_succ', Nat.mul_dvd_mul_iff_right (Nat.two_pow_pos height)] at divides
        omega
      · exact le
    · have last : count = 2 ^ level * index + (2 ^ level - 1) := by
        rw [add_mul, one_mul, mul_comm] at ends
        omega
      rw [last, mul_add_div positive, div_eq_of_lt (sub_lt positive one_pos), add_zero]
  · rintro ⟨le, rfl⟩
    rcases Nat.exists_eq_add_of_le le with ⟨more, rfl⟩
    have multiple : 2 ^ level ∣ count + 1 := by
      rw [shape, pow_add, ← mul_assoc, mul_comm (2 * half + 1), mul_assoc]
      exact Nat.dvd_mul_right _ _
    rw [← succ_div_of_dvd multiple]
    exact Nat.div_mul_cancel multiple

theorem nodeCount_mono : Monotone nodeCount := by
  refine monotone_nat_of_le_succ (fun leaves => ?_)
  have step := nodeCount_after 0 leaves
  rw [pow_zero, mul_one, mul_one] at step
  exact le_trans (le_succ _) step

/-- The nodes over `n` leaves come first. -/
theorem place_lt {height index leaves : Nat} (complete : (index + 1) * 2 ^ height ≤ leaves) :
    place height index < nodeCount leaves := by
  rw [place_eq]
  exact lt_of_lt_of_le (nodeCount_after height index) (nodeCount_mono complete)

end Foundation.Mountain
