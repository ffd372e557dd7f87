import MidenVm.Core.RootsOfUnity

namespace MidenVm

/-!
# The quadratic extension

Challenges and FRI values live in the base field with a square root of seven
adjoined.  Seven generates the units of the base field, so it is no square there
and the extension is a field.
-/

theorem Felt.sq_ne_seven (root : Felt) : root ^ 2 ≠ 7 := by
  intro square
  have unit : root ≠ 0 := by
    rintro rfl
    revert square
    decide
  refine seven_pow_div_ne_one 2 Nat.prime_two (by decide) ?_
  rw [← square, ← pow_mul, Nat.mul_div_cancel' (by decide)]
  exact ZMod.pow_card_sub_one_eq_one unit

/-- `QuadFelt`; the two parts of an element are its basis coefficients. -/
abbrev QuadFelt : Type := QuadraticAlgebra Felt 7 0

instance : Fact (forall root : Felt, root ^ 2 ≠ 7 + 0 * root) :=
  ⟨fun root => by rw [zero_mul, add_zero]; exact root.sq_ne_seven⟩

end MidenVm
