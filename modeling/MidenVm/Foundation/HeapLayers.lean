import Mathlib

namespace Foundation

open List Nat

/-!
# Layers of nodes in a binary tree

Nodes of a complete binary tree are numbered as in a heap: the root is one, and
the children of `id` are `2 id` and `2 id + 1`.  A sorted list of nodes of one
layer is walked from the left; a node whose sibling comes next is taken
together with it, and any other node is taken alone.  What is proved about such
a walk follows this division.
-/

namespace Heap

variable {layer : List Nat} {id depth : Nat}

/-- The other child of the parent. -/
def sibling (id : Nat) : Nat := id ^^^ 1

/-- The parent. -/
def parent (id : Nat) : Nat := id / 2

theorem sibling_left (id : Nat) : sibling (2 * id) = 2 * id + 1 := xor_one_of_even (even_two_mul id)

theorem sibling_right (id : Nat) : sibling (2 * id + 1) = 2 * id :=
  xor_one_of_odd (odd_two_mul_add_one id)

theorem parent_left (id : Nat) : parent (2 * id) = id := Nat.mul_div_cancel_left id Nat.two_pos

theorem parent_right (id : Nat) : parent (2 * id + 1) = id := by
  rw [parent]
  omega

/-- A node is the left or the right child of its parent. -/
theorem left_or_right (id : Nat) : id = 2 * parent id ∨ id = 2 * parent id + 1 := by
  rw [parent]
  omega

/-- The siblings that are not in a layer. -/
def missingLayer : List Nat -> List Nat
  | [] => []
  | [node] => [sibling node]
  | node :: next :: rest =>
    if next = sibling node then missingLayer rest else sibling node :: missingLayer (next :: rest)

/-- The parents of the nodes of a layer. -/
def parentLayer : List Nat -> List Nat
  | [] => []
  | [node] => [parent node]
  | node :: next :: rest =>
    if next = sibling node then parent node :: parentLayer rest else parent node :: parentLayer (next :: rest)

/-- The siblings missing in all layers up to the root. -/
def missingFrom : Nat -> List Nat -> List Nat
  | 0, _ => []
  | depth + 1, layer => missingLayer layer ++ missingFrom depth (parentLayer layer)

section Walk

variable {α : Type} (key : α -> Nat)

/-- The division of a sorted layer: a node that stands alone, or two siblings,
before nodes of later parents. -/
@[elab_as_elim]
theorem layer_induction {motive : List α -> Prop} (layer : List α)
    (sorted : (layer.map key).Pairwise (· < ·)) (nil : motive [])
    (single : forall node rest, (forall later, later ∈ rest -> parent (key node) < parent (key later)) ->
      motive rest -> motive (node :: rest))
    (pair : forall left right rest, key right = sibling (key left) -> key left = 2 * parent (key left) ->
      (forall later, later ∈ rest -> parent (key left) < parent (key later)) -> motive rest ->
      motive (left :: right :: rest)) : motive layer := by
  induction hsize : layer.length using Nat.strong_induction_on generalizing layer with
  | _ size ih =>
    match layer with
    | [] => exact nil
    | [node] => exact single node [] (forall_mem_nil _) nil
    | node :: next :: rest =>
      rw [map_cons, pairwise_cons] at sorted
      have above (later : α) (member : later ∈ next :: rest) : key node < key later :=
        sorted.1 _ (mem_map_of_mem member)
      have tail := sorted.2
      rw [map_cons, pairwise_cons] at tail
      have beyond (later : α) (member : later ∈ rest) : key next < key later :=
        tail.1 _ (mem_map_of_mem member)
      have ascending := above next mem_cons_self
      by_cases siblings : key next = sibling (key node)
      · -- The sibling can only come next when the node is a left child.
        have left : key node = 2 * parent (key node) := by
          rcases left_or_right (key node) with even | odd
          · exact even
          · rw [siblings, odd, sibling_right] at ascending
            omega
        refine pair node next rest siblings left (fun later member => ?_)
          (ih rest.length (hsize ▸ Nat.lt_add_of_pos_right Nat.two_pos) rest tail.2 rfl)
        have after := beyond later member
        rw [siblings, left, sibling_left] at after
        unfold parent at *
        omega
      · refine single node (next :: rest) (fun later member => ?_)
          (ih (next :: rest).length (hsize ▸ lt_succ_self _) _ sorted.2 rfl)
        have after := above later member
        have least : key next ≤ key later := by
          rcases mem_cons.mp member with same | further
          · rw [same]
          · exact (beyond later further).le
        rcases left_or_right (key node) with even | odd
        · rw [even, sibling_left] at siblings
          unfold parent at *
          omega
        · unfold parent at *
          omega

end Walk

section Equations

variable {node : Nat} {rest : List Nat}

/-- A node of a later parent is not the sibling. -/
theorem ne_sibling {other : Nat} (later : parent node < parent other) : other ≠ sibling node := by
  rintro rfl
  rcases left_or_right node with even | odd
  · rw [even, sibling_left, parent_left, parent_right] at later
    omega
  · rw [odd, sibling_right, parent_left, parent_right] at later
    omega

theorem missingLayer_single (later : forall other, other ∈ rest -> parent node < parent other) :
    missingLayer (node :: rest) = sibling node :: missingLayer rest := by
  cases rest with
  | nil => rfl
  | cons next rest => rw [missingLayer, if_neg (ne_sibling (later next mem_cons_self))]

theorem parentLayer_single (later : forall other, other ∈ rest -> parent node < parent other) :
    parentLayer (node :: rest) = parent node :: parentLayer rest := by
  cases rest with
  | nil => rfl
  | cons next rest => rw [parentLayer, if_neg (ne_sibling (later next mem_cons_self))]

theorem missingLayer_pair : missingLayer (node :: sibling node :: rest) = missingLayer rest := by
  rw [missingLayer, if_pos rfl]

theorem parentLayer_pair : parentLayer (node :: sibling node :: rest) =
    parent node :: parentLayer rest := by
  rw [parentLayer, if_pos rfl]

end Equations

theorem parentLayer_subset (layer : List Nat) : parentLayer layer ⊆ layer.map parent := by
  fun_induction parentLayer layer with
  | case1 | case2 => exact List.Subset.refl _
  | case3 node rest ih => exact cons_subset_cons _ (subset_cons_of_subset _ ih)
  | case4 node next rest apart ih => exact cons_subset_cons _ ih

/-- Every node of the upper layer is the parent of one below. -/
theorem mem_parentLayer (member : id ∈ parentLayer layer) : ∃ child, child ∈ layer ∧ parent child = id :=
  mem_map.mp (parentLayer_subset layer member)

/-- The upper layer is sorted again. -/
theorem sorted_parentLayer (sorted : layer.Pairwise (· < ·)) :
    (parentLayer layer).Pairwise (· < ·) := by
  refine layer_induction (fun node => node) layer (by rwa [map_id']) List.Pairwise.nil ?_ ?_
  · intro node rest later ih
    rw [parentLayer_single later]
    refine pairwise_cons.mpr ⟨fun id member => ?_, ih⟩
    rcases mem_parentLayer member with ⟨child, inRest, rfl⟩
    exact later child inRest
  · intro left right rest siblings _ later ih
    rw [siblings, parentLayer_pair]
    refine pairwise_cons.mpr ⟨fun id member => ?_, ih⟩
    rcases mem_parentLayer member with ⟨child, inRest, rfl⟩
    exact later child inRest

theorem length_parentLayer_le (layer : List Nat) : (parentLayer layer).length ≤ layer.length := by
  fun_induction parentLayer layer with
  | case1 => exact le_refl 0
  | case2 => exact le_refl 1
  | case3 node rest ih => exact succ_le_succ (ih.trans (le_succ _))
  | case4 node next rest apart ih => exact succ_le_succ ih

theorem parentLayer_ne_nil (held : layer ≠ []) : parentLayer layer ≠ [] := by
  fun_cases parentLayer layer with
  | case1 => exact absurd rfl held
  | case2 | case3 | case4 => exact cons_ne_nil _ _

/-- Nodes of one depth. -/
def AtDepth (depth : Nat) (layer : List Nat) : Prop :=
  forall id, id ∈ layer -> 2 ^ depth ≤ id ∧ id < 2 ^ (depth + 1)

theorem AtDepth.parents (level : AtDepth (depth + 1) layer) :
    AtDepth depth (parentLayer layer) := by
  intro id member
  rcases mem_parentLayer member with ⟨child, inside, rfl⟩
  have bounds := level child inside
  rw [pow_succ, pow_succ 2 (depth + 1)] at bounds
  rw [parent]
  omega

theorem missingLayer_subset (layer : List Nat) : missingLayer layer ⊆ layer.map sibling := by
  fun_induction missingLayer layer with
  | case1 | case2 => exact List.Subset.refl _
  | case3 node rest ih => exact subset_cons_of_subset _ (subset_cons_of_subset _ ih)
  | case4 node next rest apart ih => exact cons_subset_cons _ ih

/-- A missing sibling is a node below the root. -/
theorem mem_missingFrom (level : AtDepth depth layer) (member : id ∈ missingFrom depth layer) :
    ∃ height, height ≤ depth ∧ 2 ^ height ≤ id ∧ id < 2 ^ (height + 1) := by
  induction depth generalizing layer with
  | zero => exact absurd member not_mem_nil
  | succ depth ih =>
    rcases mem_append.mp member with here | above
    · rcases mem_map.mp (missingLayer_subset _ here) with ⟨node, inside, rfl⟩
      have bounds := level node inside
      refine ⟨depth + 1, le_refl _, ?_⟩
      rw [pow_succ, pow_succ 2 (depth + 1), pow_succ] at bounds ⊢
      rcases left_or_right node with even | odd
      · rw [even, sibling_left]
        omega
      · rw [odd, sibling_right]
        omega
    · rcases ih level.parents above with ⟨shallower, below, bounds⟩
      exact ⟨shallower, below.trans (le_succ depth), bounds⟩

/-- The topmost layer is the root. -/
theorem AtDepth.root (sorted : layer.Pairwise (· < ·)) (held : layer ≠ [])
    (level : AtDepth 0 layer) : layer = [1] := by
  match layer with
  | [] => exact absurd rfl held
  | [id] =>
    have bounds := level id mem_cons_self
    have one : id = 1 := by omega
    rw [one]
  | id :: other :: rest =>
    have first := level id mem_cons_self
    have second := level other (mem_cons_of_mem _ mem_cons_self)
    have ascending := (pairwise_cons.mp sorted).1 other mem_cons_self
    omega

end Heap

end Foundation
