import MidenVm.Core.Goldilocks
import MidenVm.Foundation.TwoAdic

namespace MidenVm.Felt

open Foundation

/-!
# Roots of unity of the base field

Seven generates the units, whose number is `2^32` times an odd number.  Its
power by the odd part is the root of unity of order `2^32` that the field crate
names; squaring it gives the roots of smaller order.
-/

/-- Seven generates the units. -/
theorem primitive_seven : IsPrimitiveRoot (7 : Felt) (modulus - 1) := by
  have order : orderOf (7 : Felt) = modulus - 1 :=
    orderOf_eq_of_pow_and_pow_div_prime (by decide) seven_pow_order seven_pow_div_ne_one
  exact order ▸ IsPrimitiveRoot.orderOf (7 : Felt)

/-- The root of unity of the largest order. -/
def twoAdicRoot : Felt := 1753635133440165772

theorem twoAdicRoot_eq : twoAdicRoot = (7 : Felt) ^ (3 * (5 * (17 * (257 * 65537)))) := by
  rw [seven_pow _ (by decide)]
  decide +kernel

theorem primitive_twoAdicRoot : IsPrimitiveRoot twoAdicRoot (2 ^ 32) := by
  rw [twoAdicRoot_eq]
  exact primitive_seven.pow (by decide) (modulus_sub_one.trans (mul_comm _ _))

instance : TwoAdicField Felt where
  twoAdicity := 32
  generator := 7
  twoAdicGenerator bits := twoAdicRoot ^ 2 ^ (32 - bits)
  primitive bits bound := by
    refine primitive_twoAdicRoot.pow (Nat.two_pow_pos 32) ?_
    rw [← Nat.pow_add, Nat.sub_add_cancel bound]
  square bits below := by
    have next : 32 - bits = 32 - (bits + 1) + 1 := by omega
    rw [next, ← pow_mul, Nat.pow_succ]
  generator_ne_zero := by decide
  generator_pow_ne_one := by
    rw [seven_pow _ (by decide)]
    decide +kernel

end MidenVm.Felt
