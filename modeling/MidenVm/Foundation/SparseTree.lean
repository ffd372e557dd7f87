import MidenVm.Foundation.Mountain

namespace Foundation.SparseTree

open Mountain

/-!
# Trees most of whose leaves are empty

A tree over a sequence of leaves, one of whose values stands for an empty leaf.
A subtree without other leaves has a root that depends on its height only, so
nothing of it has to be stored.  Under a hash without collisions the converse
holds as well: a node with the root of an empty tree has only empty leaves
below it, and equal nodes stand over equal leaves.
-/

variable {D : Type} (merge : D -> D -> D)
variable {height index : Nat} {leaf : Nat -> D} {empty : D}

/-- The root of a tree all of whose leaves are empty. -/
def emptyRoot (empty : D) : Nat -> D
  | 0 => empty
  | height + 1 => merge (emptyRoot empty height) (emptyRoot empty height)

/-- All leaves below a node are empty. -/
def Vacant (empty : D) (leaf : Nat -> D) (height index : Nat) : Prop :=
  forall place, place / 2 ^ height = index -> leaf place = empty

/-- The leaves below a node are those below its two children. -/
theorem forall_below_succ {property : Nat -> Prop} :
    (forall place, place / 2 ^ (height + 1) = index -> property place) ↔
      (forall place, place / 2 ^ height = 2 * index -> property place) ∧
        (forall place, place / 2 ^ height = 2 * index + 1 -> property place) := by
  constructor
  · intro all
    exact ⟨fun place below => all place (by rw [div_two_pow_succ, below]; omega),
      fun place below => all place (by rw [div_two_pow_succ, below]; omega)⟩
  · rintro ⟨left, right⟩ place below
    rw [div_two_pow_succ] at below
    rcases Nat.mod_two_eq_zero_or_one (place / 2 ^ height) with even | odd
    · exact left place (by omega)
    · exact right place (by omega)

/-- A node depends on the leaves below it only. -/
theorem node_of_below {other : Nat -> D}
    (agree : forall place, place / 2 ^ height = index -> leaf place = other place) :
    node merge leaf height index = node merge other height index := by
  induction height generalizing index with
  | zero => exact agree index (by rw [pow_zero, Nat.div_one])
  | succ height ih =>
    rcases forall_below_succ.mp agree with ⟨left, right⟩
    rw [node, node, ih left, ih right]

theorem node_empty (empty : D) (height index : Nat) :
    node merge (fun _ => empty) height index = emptyRoot merge empty height := by
  induction height generalizing index with
  | zero => rfl
  | succ height ih => rw [node, emptyRoot, ih, ih]

theorem emptyRoot_emptyRoot (empty : D) (extra height : Nat) :
    emptyRoot merge (emptyRoot merge empty extra) height =
      emptyRoot merge empty (extra + height) := by
  induction height with
  | zero => rfl
  | succ height ih => rw [emptyRoot, ih, ← add_assoc, emptyRoot]

theorem node_of_vacant (vacant : Vacant empty leaf height index) :
    node merge leaf height index = emptyRoot merge empty height := by
  rw [node_of_below merge vacant, node_empty]

/-- A node over empty nodes of a level is empty. -/
theorem node_of_vacant_level {extra : Nat}
    (vacant : forall col, col / 2 ^ extra = index -> node merge leaf height col =
        emptyRoot merge empty height) :
    node merge leaf (height + extra) index = emptyRoot merge empty (height + extra) := by
  induction extra generalizing index with
  | zero => exact vacant index (by rw [pow_zero, Nat.div_one])
  | succ extra ih =>
    rcases forall_below_succ.mp vacant with ⟨left, right⟩
    rw [← add_assoc, node, emptyRoot, ih left, ih right]

/-! ## Changing one leaf -/

section Update

variable {leaf : Nat -> D} {place height index : Nat} (value : D)

/-- A node that the changed leaf is not below stays. -/
theorem node_update_apart (apart : place / 2 ^ height ≠ index) :
    node merge (Function.update leaf place value) height index = node merge leaf height index := by
  refine node_of_below merge (fun other below => ?_)
  have different : other ≠ place := fun same => apart (by rw [← same, below])
  exact Function.update_of_ne different value leaf

end Update

/-! ## Without collisions -/

section Free

variable {merge} (free : forall a b c d, merge a b = merge c d -> a = c ∧ b = d)
include free

/-- Equal nodes stand over equal leaves. -/
theorem leaves_of_node {other : Nat -> D}
    (same : node merge leaf height index = node merge other height index) :
    forall place, place / 2 ^ height = index -> leaf place = other place := by
  induction height generalizing index with
  | zero =>
    intro place below
    rw [pow_zero, Nat.div_one] at below
    rwa [below]
  | succ height ih =>
    rcases free _ _ _ _ same with ⟨left, right⟩
    exact forall_below_succ.mpr ⟨ih left, ih right⟩

/-- Only an empty subtree has the root of one. -/
theorem vacant_of_node (same : node merge leaf height index = emptyRoot merge empty height) :
    Vacant empty leaf height index := by
  rw [← node_empty merge empty height index] at same
  exact leaves_of_node free same

theorem node_eq_emptyRoot_iff :
    node merge leaf height index = emptyRoot merge empty height ↔ Vacant empty leaf height index :=
  ⟨vacant_of_node free, node_of_vacant merge⟩

end Free

end Foundation.SparseTree
