import MidenVm.Core.Goldilocks
import MidenVm.Foundation.Air

namespace MidenVm.Air

open Foundation Foundation.Air Nat

/-!
# Constraints of the range table

The value column starts at zero, ends at the largest 16-bit value and climbs by
nothing or by a power of three.  A trace is too short for the climb to pass the
modulus, so every value on the way is a 16-bit one.
-/

/-- The columns of the range table. -/
structure RangeCols (F : Type) where
  multiplicity : F
  value : F

variable {F : Type} [Field F]

/-- `enforce_main`. -/
def enforceRange (frame : AirFrame F (RangeCols F)) : List F :=
  let v := frame.current.value
  let changeV := frame.next.value - v
  when frame.isFirstRow (assertZero v) ++ when frame.isLastRow (assertEq v (2 ^ 16 - 1)) ++
    when frame.isTransition (assertZero (changeV * (changeV - 1) * (changeV - 3) * (changeV - 9) *
      (changeV - 27) * (changeV - 81) * (changeV - 243) * (changeV - 729) * (changeV - 2187)))

variable {rows : List (RangeCols F)} {current next : RangeCols F} {index : Nat}

section Satisfied

variable (satisfied : Satisfies enforceRange rows) (atRow : rows[index]? = some current)
include satisfied atRow

theorem boundary_of_satisfies :
    (index = 0 -> current.value = 0) ∧ (index + 1 = rows.length -> current.value = 2 ^ 16 - 1) := by
  have inside := (List.getElem?_eq_some_iff.mp atRow).1
  have behind := List.getElem?_eq_getElem (mod_lt (index + 1) (zero_lt_of_lt inside))
  have vanish := satisfied index _ (by rw [frameAt, atRow, behind]; rfl)
  simp only [enforceRange, vanish_append, vanish_when, vanish_assertZero, vanish_assertEq] at vanish
  exact ⟨fun first => vanish.1.1 (by simp [first]), fun last => vanish.1.2 (by simp [last])⟩

theorem change_of_satisfies (atNext : rows[index + 1]? = some next) :
    ∃ change : Nat, change ≤ 2187 ∧ next.value = current.value + change := by
  have vanish := satisfied index _ (frameAt_of_next atRow atNext)
  simp only [enforceRange, vanish_append, vanish_when, vanish_assertZero] at vanish
  have listed : ∃ change ∈ [0, 1, 3, 9, 27, 81, 243, 729, 2187],
      next.value - current.value = ((change : Nat) : F) := by
    simpa [sub_eq_zero, or_assoc] using vanish.2 one_ne_zero
  have small : forall change, change ∈ [0, 1, 3, 9, 27, 81, 243, 729, 2187] ->
      change ≤ 2187 := by decide
  rcases listed with ⟨change, member, equal⟩
  exact ⟨change, small change member, sub_eq_iff_eq_add'.mp equal⟩

/-- Over several rows the value rises by a number that the steps bound. -/
theorem rise_of_satisfies {steps : Nat} (atNext : rows[index + steps]? = some next) :
    ∃ rise : Nat, rise ≤ 2187 * steps ∧ next.value = current.value + rise := by
  induction steps generalizing next with
  | zero =>
    rw [add_zero, atRow] at atNext
    cases atNext
    exact ⟨0, le_rfl, by rw [cast_zero, add_zero]⟩
  | succ steps ih =>
    have inside : index + steps < rows.length :=
      lt_of_succ_lt (List.getElem?_eq_some_iff.mp atNext).1
    rcases ih (List.getElem?_eq_getElem inside) with ⟨rise, bounded, risen⟩
    rcases change_of_satisfies satisfied (List.getElem?_eq_getElem inside) atNext with
      ⟨change, small, changed⟩
    refine ⟨rise + change, by omega, ?_⟩
    rw [changed, risen, cast_add, add_assoc]

end Satisfied

/-- A trace of at most `2^29` rows holds 16-bit values only. -/
theorem value_lt_of_satisfies {rows : List (RangeCols Felt)}
    (satisfied : Satisfies enforceRange rows)
    (short : rows.length ≤ 2 ^ 29) {row : RangeCols Felt}
    (member : row ∈ rows) : row.value.val < 2 ^ 16 := by
  rcases List.mem_iff_getElem?.mp member with ⟨index, atRow⟩
  have inside := (List.getElem?_eq_some_iff.mp atRow).1
  have nonempty : 0 < rows.length := zero_lt_of_lt inside
  have last : index + (rows.length - 1 - index) + 1 = rows.length := by omega
  have atFirst := List.getElem?_eq_getElem nonempty
  have atLast := List.getElem?_eq_getElem (lt_of_succ_le last.le)
  have fromFirst : rows[0 + index]? = some row := by rwa [zero_add]
  rcases rise_of_satisfies satisfied atFirst fromFirst with ⟨rise, low, risen⟩
  rcases rise_of_satisfies satisfied atRow atLast with ⟨rest, high, ended⟩
  rw [(boundary_of_satisfies satisfied atFirst).1 rfl, zero_add] at risen
  rw [(boundary_of_satisfies satisfied atLast).2 last, risen, ← cast_add] at ended
  have sum : 2 ^ 16 - 1 = rise + rest := by
    refine (Felt.natCast_inj (by decide) (by change _ < 18446744069414584321; omega)).mp ?_
    rw [← ended]
    norm_num
  rw [risen, Felt.val_natCast_of_lt (by omega)]
  omega

end MidenVm.Air
