import Mathlib

namespace Foundation

open List

/-!
# Sections of a list by rank

A list whose elements carry ranks that never decrease falls into one section
for each rank, and a section starts behind all elements of smaller rank.
-/

variable {ranks : List Nat}

/-- The number of elements of smaller rank. -/
def sectionStart (ranks : List Nat) (rank : Nat) : Nat := ranks.countP (fun other => other < rank)

theorem sectionStart_zero (ranks : List Nat) : sectionStart ranks 0 = 0 := by
  simp [sectionStart]

theorem sectionStart_mono (ranks : List Nat) : Monotone (sectionStart ranks) := by
  intro lower upper ordered
  apply countP_mono_left
  intro other _ below
  exact decide_eq_true (lt_of_lt_of_le (of_decide_eq_true below) ordered)

theorem sectionStart_of_bounded {bound : Nat}
    (bounded : forall rank, rank ∈ ranks -> rank < bound) :
    sectionStart ranks bound = ranks.length :=
  countP_eq_length.mpr (fun rank member => decide_eq_true (bounded rank member))

/-- An element stands before the start of a section exactly when its rank is
smaller. -/
theorem lt_sectionStart_iff (sorted : ranks.Pairwise (· ≤ ·)) {index rank : Nat}
    (found : ranks[index]? = some rank) (bound : Nat) :
    index < sectionStart ranks bound ↔ rank < bound := by
  induction ranks generalizing index with
  | nil => cases found
  | cons head tail ih =>
    rcases pairwise_cons.mp sorted with ⟨headFirst, tailSorted⟩
    rw [sectionStart, countP_cons]
    cases index with
    | zero =>
      cases found
      by_cases below : rank < bound
      · simp [below]
      · have none : tail.countP (fun other => other < bound) = 0 := by
          apply countP_eq_zero.mpr
          intro other member small
          exact below (Nat.lt_of_le_of_lt (headFirst other member) (of_decide_eq_true small))
        simp [below, none]
    | succ index =>
      have atTail : tail[index]? = some rank := found
      have later := ih tailSorted atTail
      rw [sectionStart] at later
      by_cases below : head < bound
      · simp only [below, decide_true, if_true, Nat.add_lt_add_iff_right]
        exact later
      · have inTail := mem_of_getElem? atTail
        have notBelow : ¬ rank < bound := fun small =>
          below (Nat.lt_of_le_of_lt (headFirst rank inTail) small)
        have none : ¬ index < tail.countP (fun other => other < bound) :=
          fun small => notBelow (later.mp small)
        simp only [below, decide_false, Bool.false_eq_true, if_false, Nat.add_zero,
          notBelow, iff_false]
        omega

/-- The rank of an element says in which section it stands. -/
theorem rank_eq_iff (sorted : ranks.Pairwise (· ≤ ·)) {index rank : Nat}
    (found : ranks[index]? = some rank) (wanted : Nat) :
    rank = wanted ↔ sectionStart ranks wanted ≤ index ∧
      index < sectionStart ranks (wanted + 1) := by
  have before := lt_sectionStart_iff sorted found wanted
  have behind := lt_sectionStart_iff sorted found (wanted + 1)
  omega

/-- A choice for every element is a list of choices. -/
theorem exists_forall₂ {α β : Type} {related : α -> β -> Prop} {items : List α}
    (each : forall item, item ∈ items -> ∃ choice, related item choice) :
    ∃ choices, List.Forall₂ related items choices := by
  induction items with
  | nil => exact ⟨[], List.Forall₂.nil⟩
  | cons head tail ih =>
    rcases each head mem_cons_self with ⟨choice, chosen⟩
    rcases ih (fun item member => each item (mem_cons_of_mem head member)) with
      ⟨choices, others⟩
    exact ⟨choice :: choices, List.Forall₂.cons chosen others⟩

/-- A list in which neighbours are ordered is sorted. -/
theorem pairwise_of_neighbours
    (ordered : forall index left right, ranks[index]? = some left -> ranks[index + 1]? = some right ->
        left ≤ right) :
    ranks.Pairwise (· ≤ ·) := by
  rw [← isChain_iff_pairwise, isChain_iff_getElem]
  intro index inside
  exact ordered index _ _ (getElem?_eq_getElem (Nat.lt_of_succ_lt inside)) (getElem?_eq_getElem inside)

end Foundation
