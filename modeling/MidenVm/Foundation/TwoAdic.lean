import MidenVm.Foundation.Numerals

namespace Foundation

/-!
# Fields with many roots of unity of order a power of two

A two-adic field names one primitive root of unity for every order `2^bits` up
to its two-adicity, each the square of the next.  Subgroups and cosets of
these orders are the domains polynomials are evaluated on.  It also names a
generator of its units, whose order has an odd part: no power of two is a
multiple of it.

The second part is about one cyclic group and its cosets in any field: sums of
powers of a root of unity, and the barycentric formula that gives the value of
a polynomial at a point outside a coset from its values on the coset.
-/

variable {bits : Nat}

/-- A field with a primitive root of unity of each order `2^bits`. -/
class TwoAdicField (F : Type) [Field F] where
  twoAdicity : Nat
  generator : F
  twoAdicGenerator : Nat -> F
  primitive : forall bits, bits ≤ twoAdicity -> IsPrimitiveRoot (twoAdicGenerator bits) (2 ^ bits)
  square : forall bits, bits < twoAdicity -> twoAdicGenerator (bits + 1) ^ 2 = twoAdicGenerator bits
  generator_ne_zero : generator ≠ 0
  generator_pow_ne_one : generator ^ 2 ^ twoAdicity ≠ 1

namespace TwoAdicField

variable {F : Type} [Field F] [TwoAdicField F]

/-- The roots of unity of smaller order are powers of those of larger order. -/
theorem twoAdicGenerator_pow (low more : Nat) (bound : low + more ≤ twoAdicity F) :
    (twoAdicGenerator (low + more) : F) ^ 2 ^ more = twoAdicGenerator low := by
  induction more with
  | zero => rw [pow_zero, pow_one, add_zero]
  | succ more ih =>
    have step : low + more < twoAdicity F := Nat.lt_of_succ_le bound
    rw [pow_succ', pow_mul, ← add_assoc, square _ step]
    exact ih (le_of_lt step)

theorem twoAdicGenerator_pow_one (bound : bits ≤ twoAdicity F) :
    (twoAdicGenerator bits : F) ^ 2 ^ bits = 1 := (primitive bits bound).pow_eq_one

theorem twoAdicGenerator_ne_zero (bound : bits ≤ twoAdicity F) : (twoAdicGenerator bits : F) ≠ 0 :=
  (primitive bits bound).ne_zero (Nat.two_pow_pos bits).ne'

/-- Powers of two up to the two-adicity are not zero in the field. -/
theorem two_pow_ne_zero (bound : bits ≤ twoAdicity F) : ((2 ^ bits : Nat) : F) ≠ 0 := by
  have : NeZero (2 ^ bits) := ⟨(Nat.two_pow_pos bits).ne'⟩
  exact ((primitive bits bound).neZero').out

end TwoAdicField

/-! ## Roots of unity in any field -/

section Roots

open Finset Polynomial

variable {K : Type} [Field K] {n : Nat} {ω : K}

/-- The powers of a root of unity with one exponent sum to zero, unless they
are all one. -/
theorem sum_root_pow (primitive : IsPrimitiveRoot ω n) (exponent : Nat) :
    ∑ t ∈ range n, (ω ^ exponent) ^ t = if n ∣ exponent then (n : K) else 0 := by
  split
  · rename_i divides
    rw [(primitive.pow_eq_one_iff_dvd exponent).mpr divides]
    simp
  · rename_i apart
    have other : ω ^ exponent ≠ 1 := fun one =>
      apart ((primitive.pow_eq_one_iff_dvd exponent).mp one)
    rw [geom_sum_eq other, ← pow_mul, mul_comm, pow_mul, primitive.pow_eq_one, one_pow,
      sub_self, zero_div]

/-- Of two small numbers with one remainder. -/
theorem dvd_iff_eq_of_add {exponent first second q : Nat} (below : first < n) (inside : second < n)
    (total : exponent + first = second + n * q) : n ∣ exponent ↔ first = second := by
  constructor
  · intro divides
    have same : (exponent + first) % n = first := by
      rw [Nat.add_mod, Nat.mod_eq_zero_of_dvd divides, zero_add, Nat.mod_mod,
        Nat.mod_eq_of_lt below]
    rw [total, Nat.add_mul_mod_self_left, Nat.mod_eq_of_lt inside] at same
    exact same.symm
  · rintro rfl
    exact ⟨q, Nat.add_right_cancel (total.trans (add_comm _ _))⟩

/-- Of weighted sums of powers only the one of a constant power is left. -/
theorem sum_mul_root_pow (primitive : IsPrimitiveRoot ω n) {exponent : Nat -> Nat} {k : Nat}
    (inside : k < n) (only : forall m, m < n -> (n ∣ exponent m ↔ m = k)) (weight : Nat -> K) :
    ∑ m ∈ range n, weight m * ∑ t ∈ range n, (ω ^ exponent m) ^ t = n * weight k := by
  simp only [sum_root_pow primitive]
  rw [sum_eq_single_of_mem k (mem_range.mpr inside)]
  · rw [if_pos ((only k inside).mpr rfl), mul_comm]
  · intro m member other
    rw [if_neg (fun divides => other ((only m (mem_range.mp member)).mp divides)), mul_zero]

theorem eval_eq_sum_of_degree_lt {f : K[X]} (small : f.degree < n) (x : K) :
    f.eval x = ∑ k ∈ range n, f.coeff k * x ^ k := by
  by_cases zero : f = 0
  · simp [zero]
  · exact eval_eq_sum_range' ((natDegree_lt_iff_degree_lt zero).mpr small) x

variable {u : K}

/-- A value that is no root of unity of an order is none of a smaller one. -/
theorem pow_ne_one_of_dvd {less more : Nat} (divides : less ∣ more) (outside : u ^ more ≠ 1) :
    u ^ less ≠ 1 := by
  intro one
  rcases divides with ⟨rest, rfl⟩
  exact outside (by rw [pow_mul, one, one_pow])

/-- Such a value keeps a distance from all roots of unity of the order. -/
theorem sub_ne_zero_of_pow {root : K} (outside : u ^ n ≠ 1) (one : root ^ n = 1) : u - root ≠ 0 :=
  fun same => outside (by rw [sub_eq_zero.mp same, one])

section Primitive

variable (primitive : IsPrimitiveRoot ω n)
include primitive

theorem root_pow_pow (t : Nat) : (ω ^ t) ^ n = 1 := by
  rw [← pow_mul, mul_comm, pow_mul, primitive.pow_eq_one, one_pow]

theorem sub_root_ne_zero (outside : u ^ n ≠ 1) (t : Nat) :
    u - ω ^ t ≠ 0 := sub_ne_zero_of_pow outside (root_pow_pow primitive t)

/-- A power of the root over the distance to it, as a sum of powers. -/
theorem root_div_sub (outside : u ^ n ≠ 1) (k t : Nat) :
    (ω ^ t) ^ (k + 1) / (u - ω ^ t) =
      (∑ m ∈ range n, u ^ m * (ω ^ (n - 1 - m + (k + 1))) ^ t) / (u ^ n - 1) := by
  have whole : u ^ n - 1 ≠ 0 := sub_ne_zero.mpr outside
  have one : (ω ^ t) ^ n = 1 := root_pow_pow primitive t
  rw [div_eq_div_iff (sub_root_ne_zero primitive outside t) whole]
  have terms (m : Nat) : u ^ m * (ω ^ (n - 1 - m + (k + 1))) ^ t =
      u ^ m * (ω ^ t) ^ (n - 1 - m) * (ω ^ t) ^ (k + 1) := by
    rw [← pow_mul, Nat.mul_comm, pow_mul, pow_add, mul_assoc]
  simp only [terms]
  rw [← sum_mul, mul_comm _ ((ω ^ t) ^ (k + 1)), mul_assoc,
    (Commute.all u (ω ^ t)).geom_sum₂_mul, one]

/-- The barycentric sum of a power. -/
theorem sum_root_div_sub (outside : u ^ n ≠ 1) {k : Nat} (small : k < n) :
    ∑ t ∈ range n, (ω ^ t) ^ (k + 1) / (u - ω ^ t) = n * u ^ k / (u ^ n - 1) := by
  simp only [root_div_sub primitive outside]
  rw [← sum_div, sum_comm]
  simp only [← mul_sum]
  -- Of all powers of the root only the one of exponent `n` is constant.
  congr 1
  exact sum_mul_root_pow primitive small
    (fun m below => dvd_iff_eq_of_add below small (q := 1) (by omega)) _

/-- The weights of all roots of one value add up to the weight of the value. -/
theorem sum_inv_sub_inv {y z : K} (nonzero : y ≠ 0) (apart : z ≠ 0) (outside : z ^ n ≠ y ^ n) :
    ∑ t ∈ range n, ((z - y * ω ^ t)⁻¹ - z⁻¹) = n * z⁻¹ * (y ^ n / (z ^ n - y ^ n)) := by
  have power : y ^ n ≠ 0 := pow_ne_zero n nonzero
  have away : (z / y) ^ n ≠ 1 := by
    rw [div_pow]
    exact fun one => outside ((div_eq_one_iff_eq power).mp one)
  have term (t : Nat) : (z - y * ω ^ t)⁻¹ - z⁻¹ = z⁻¹ * ((ω ^ t) ^ (0 + 1) / (z / y - ω ^ t)) := by
    have distance : z / y - ω ^ t ≠ 0 := sub_root_ne_zero primitive away t
    have shifted : z - y * ω ^ t = y * (z / y - ω ^ t) := by rw [mul_sub, mul_div_cancel₀ z nonzero]
    have rest : z - y * (z / y - ω ^ t) = y * ω ^ t := by rw [← shifted, sub_sub_cancel]
    rw [shifted, zero_add, pow_one, inv_sub_inv (mul_ne_zero nonzero distance) apart,
      rest, mul_assoc,
      mul_div_mul_left _ _ nonzero, mul_comm (z / y - ω ^ t), ← div_div, div_right_comm,
      div_eq_inv_mul]
  rcases Nat.eq_zero_or_pos n with none | positive
  · subst none
    simp
  · have total : (z / y) ^ n - 1 = (z ^ n - y ^ n) / y ^ n := by
      rw [div_pow, sub_div, div_self power]
    simp only [term]
    rw [← mul_sum, sum_root_div_sub primitive away positive, pow_zero, mul_one, total,
      div_div_eq_mul_div]
    ring

/-- The inverse transform: the coefficients of a polynomial from its values. -/
theorem sum_eval_root_inv {f : K[X]} (small : f.degree < n) {k : Nat} (inside : k < n) :
    ∑ t ∈ range n, f.eval (ω ^ t) * ω⁻¹ ^ (t * k) = n * f.coeff k := by
  have inverse : ω⁻¹ = ω ^ (n - 1) := by
    refine inv_eq_of_mul_eq_one_right ?_
    rw [← pow_succ', Nat.sub_add_cancel (Nat.one_le_of_lt inside), primitive.pow_eq_one]
  have terms (t j : Nat) : f.coeff j * (ω ^ t) ^ j * ω⁻¹ ^ (t * k) =
      f.coeff j * (ω ^ (j + (n - 1) * k)) ^ t := by
    rw [inverse, mul_assoc, ← pow_mul, ← pow_mul, ← pow_add, ← pow_mul]
    congr 2
    ring
  simp only [eval_eq_sum_of_degree_lt small, sum_mul, terms]
  rw [sum_comm]
  simp only [← mul_sum]
  -- The exponent is a multiple of the order for one coefficient only.
  refine sum_mul_root_pow primitive inside (fun j below => ?_) _
  rw [dvd_iff_eq_of_add inside below (q := k), eq_comm]
  rw [add_assoc, ← Nat.succ_mul, Nat.succ_eq_add_one, Nat.sub_add_cancel (Nat.one_le_of_lt inside)]

/-- The value of a polynomial outside a coset from its values on the coset. -/
theorem barycentric {s z : K} (shift : s ≠ 0) (outside : (z / s) ^ n ≠ 1) {f : K[X]}
    (small : f.degree < n) :
    ∑ t ∈ range n, s * ω ^ t / (z - s * ω ^ t) * f.eval (s * ω ^ t) =
      n * f.eval z / ((z / s) ^ n - 1) := by
  have weight (t : Nat) : s * ω ^ t / (z - s * ω ^ t) = ω ^ t / (z / s - ω ^ t) := by
    rw [div_sub' shift, div_div_eq_mul_div, mul_comm]
  simp only [eval_eq_sum_of_degree_lt small, mul_sum, weight]
  rw [sum_comm, sum_div]
  refine sum_congr rfl (fun k member => ?_)
  have terms (t : Nat) : ω ^ t / (z / s - ω ^ t) * (f.coeff k * (s * ω ^ t) ^ k) =
      f.coeff k * s ^ k * ((ω ^ t) ^ (k + 1) / (z / s - ω ^ t)) := by
    rw [mul_pow, pow_succ]
    ring
  simp only [terms]
  rw [← mul_sum, sum_root_div_sub primitive outside (mem_range.mp member), div_pow]
  field_simp

end Primitive

end Roots

end Foundation
