import MidenVm.Core.Field

namespace MidenVm

open Nat

/-!
# The base field is a field

The modulus is prime: seven has order `modulus - 1`, and the prime factors of
that number are known.  Powers are computed by repeated squaring, so that the
kernel can evaluate them.  With primality at hand, equations over field
elements that stay below the modulus become equations over integers.
-/

/-- A power by repeated squaring, for exponents below `2^fuel`. -/
def powMod (m : Nat) : Nat -> Nat -> Nat -> Nat
  | 0, _, _ => 1 % m
  | fuel + 1, base, exponent =>
    if exponent % 2 = 1 then base * powMod m fuel (base * base % m) (exponent / 2) % m
    else powMod m fuel (base * base % m) (exponent / 2)

theorem powMod_eq (m fuel base exponent : Nat) (small : exponent < 2 ^ fuel) :
    powMod m fuel base exponent = base ^ exponent % m := by
  induction fuel generalizing base exponent with
  | zero =>
    have none : exponent = 0 := lt_one_iff.mp small
    rw [none]
    rfl
  | succ fuel ih =>
    have half : exponent / 2 < 2 ^ fuel := by
      rw [Nat.pow_succ] at small
      exact Nat.div_lt_of_lt_mul (Nat.mul_comm _ _ ▸ small)
    have squared : (base * base % m) ^ (exponent / 2) % m = base ^ (2 * (exponent / 2)) % m := by
      rw [← pow_mod, pow_mul, pow_two]
    rw [powMod, ih _ _ half, squared]
    split
    · rename_i odd
      have split : exponent = 2 * (exponent / 2) + 1 := by omega
      conv_rhs => rw [split, pow_succ, Nat.mul_comm, mul_mod]
      rw [mul_mod, mod_mod]
    · have split : exponent = 2 * (exponent / 2) := by omega
      conv_rhs => rw [split]

/-- The order of a power of seven, from an evaluation. -/
theorem seven_pow (exponent : Nat) (small : exponent < 2 ^ 64) :
    (7 : Felt) ^ exponent = (powMod modulus 64 7 exponent : Felt) := by
  rw [powMod_eq modulus 64 7 exponent small, ZMod.natCast_mod, cast_pow]
  rfl

theorem modulus_sub_one : modulus - 1 = 2 ^ 32 * (3 * (5 * (17 * (257 * 65537)))) := by
  decide +kernel

theorem factors_of_modulus_sub_one {factor : Nat} (prime : factor.Prime)
    (divides : factor ∣ modulus - 1) : factor ∈ [2, 3, 5, 17, 257, 65537] := by
  have equal : forall {other : Nat}, other.Prime -> factor ∣ other -> factor = other :=
    fun otherPrime part => (Nat.prime_dvd_prime_iff_eq prime otherPrime).mp part
  rw [modulus_sub_one] at divides
  simp only [List.mem_cons, List.not_mem_nil, or_false]
  rcases prime.dvd_mul.mp divides with part | rest
  · exact .inl (equal prime_two (prime.dvd_of_dvd_pow part))
  rcases prime.dvd_mul.mp rest with part | rest
  · exact .inr (.inl (equal prime_three part))
  rcases prime.dvd_mul.mp rest with part | rest
  · exact .inr (.inr (.inl (equal prime_five part)))
  rcases prime.dvd_mul.mp rest with part | rest
  · exact .inr (.inr (.inr (.inl (equal (by norm_num) part))))
  rcases prime.dvd_mul.mp rest with part | part
  · exact .inr (.inr (.inr (.inr (.inl (equal (by norm_num) part)))))
  · exact .inr (.inr (.inr (.inr (.inr (equal (by norm_num) part)))))

/-- Seven to a proper part of the order is not one. -/
theorem seven_pow_factor_ne_one : forall factor, factor ∈ [2, 3, 5, 17, 257, 65537] ->
    (powMod modulus 64 7 ((modulus - 1) / factor) : Felt) ≠ 1 := by decide +kernel

theorem seven_pow_order : (7 : Felt) ^ (modulus - 1) = 1 := by
  rw [seven_pow _ (by decide)]
  decide +kernel

theorem seven_pow_div_ne_one (factor : Nat) (prime : factor.Prime)
    (divides : factor ∣ modulus - 1) : (7 : Felt) ^ ((modulus - 1) / factor) ≠ 1 := by
  rw [seven_pow _ (lt_of_le_of_lt (Nat.div_le_self _ _) (by decide))]
  exact seven_pow_factor_ne_one factor (factors_of_modulus_sub_one prime divides)

theorem prime_modulus : modulus.Prime :=
  lucas_primality modulus (7 : Felt) seven_pow_order seven_pow_div_ne_one

instance : Fact modulus.Prime := ⟨prime_modulus⟩

namespace Felt

/-- Sums of small integers do not wrap. -/
theorem natCast_inj {left right : Nat} (leftReduced : left < modulus)
    (rightReduced : right < modulus) : (left : Felt) = (right : Felt) ↔ left = right :=
  ⟨newUnchecked_injOn leftReduced rightReduced, fun same => same ▸ rfl⟩

@[simp] theorem natCast_val (felt : Felt) : ((felt.val : Nat) : Felt) = felt :=
  ZMod.natCast_zmod_val felt

/-- A small integer is its own canonical form. -/
theorem val_natCast_of_lt {value : Nat} (small : value < 18446744069414584321) :
    ((value : Nat) : Felt).val = value :=
  ZMod.val_natCast_of_lt small

theorem val_injective {left right : Felt} (same : left.val = right.val) : left = right :=
  ZMod.val_injective modulus same

end Felt

end MidenVm
