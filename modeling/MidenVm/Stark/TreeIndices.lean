import MidenVm.Foundation.Outcome

namespace MidenVm.Stark

open Foundation

/-!
# Sets of leaf indices

Queries are sets of indices at a depth, kept sorted and without duplicates.
In domain order an index of a larger domain opens, in a smaller one, the leaf
that its low bits name, so sets are folded by masking the high bits.
-/

/-- `LmcsError`, without the errors of the transcript crate itself. -/
inductive LmcsError where
  | invalidProof
  | rootMismatch
  | transcriptError
  deriving DecidableEq, Repr

/-- `TreeIndices`. -/
structure TreeIndices where
  indices : List Nat
  depth : Nat
  sorted : indices.Pairwise (· < ·)
  bound : forall index, index ∈ indices -> index < 2 ^ depth

namespace TreeIndices

variable (values : List Nat) (set : TreeIndices)

/-- `sort_unstable` and `dedup`. -/
def sortDedup : List Nat := values.toFinset.sort (· ≤ ·)

theorem sorted_sortDedup : (sortDedup values).Pairwise (· < ·) :=
  Finset.sortedLT_sort values.toFinset |>.pairwise

theorem mem_sortDedup {values : List Nat} {value : Nat} : value ∈ sortDedup values ↔
    value ∈ values := by
  rw [sortDedup, Finset.mem_sort, List.mem_toFinset]

/-- `TreeIndices::new`. -/
def new (depth : Nat) : Outcome LmcsError TreeIndices :=
  if inside : forall value, value ∈ values -> value < 2 ^ depth then
    .ok ⟨sortDedup values, depth, sorted_sortDedup values,
      fun value member => inside value (mem_sortDedup.mp member)⟩
  else .err .invalidProof

/-- The low bits of all indices. -/
def fold (targetDepth : Nat) : TreeIndices where
  indices := sortDedup (set.indices.map (· % 2 ^ targetDepth))
  depth := targetDepth
  sorted := sorted_sortDedup _
  bound index member := by
    rcases List.mem_map.mp (mem_sortDedup.mp member) with ⟨source, _, rfl⟩
    exact Nat.mod_lt source (Nat.two_pow_pos targetDepth)

theorem mem_fold {set : TreeIndices} {targetDepth index : Nat} :
    index ∈ (set.fold targetDepth).indices ↔ ∃ source, source ∈ set.indices ∧
      source % 2 ^ targetDepth = index := by
  rw [fold, mem_sortDedup, List.mem_map]

/-- `TreeIndices::fold_to_depth`. -/
def foldToDepth (targetDepth : Nat) : Outcome LmcsError TreeIndices :=
  if targetDepth > set.depth then .err .invalidProof else .ok (set.fold targetDepth)

/-- `TreeIndices::shrink_depth`. -/
def shrinkDepth (shift : Nat) : TreeIndices := set.fold (set.depth - shift)

end TreeIndices

end MidenVm.Stark
