import MidenVm.Stark.Fri

namespace MidenVm.Stark

open Foundation Nat Finset FriFold TwoAdicField Lagrange
open Foundation.TwoAdicField
open Polynomial

/-!
# Folding a row is interpolation

A row holds the values of a polynomial on a coset of the arity, in bit-reversed
order.  The unrolled inverse transforms give the coefficients of the polynomial
after the shift is divided out, so the fold is its value at the challenge.

The second part splits a polynomial by the residue of its exponents.  On one
coset it agrees with a polynomial below the arity whose coefficients are the
values of its parts; folding a vector therefore folds the polynomial.
-/

variable {F EF : Type} [Field F] [TwoAdicField F] [Field EF] [Algebra F EF]

section Roots

theorem twoAdicGenerator_one (bound : 1 ≤ twoAdicity F) : (twoAdicGenerator 1 : F) = -1 :=
  (primitive (F := F) 1 bound).eq_neg_one_of_two_right

theorem twoAdicGenerator_two_sq (bound : 2 ≤ twoAdicity F) : (twoAdicGenerator 2 : F) ^ 2 = -1 := by
  rw [square (F := F) 1 bound, twoAdicGenerator_one (le_of_succ_le bound)]

theorem two_ne_zero_of_twoAdicity (bound : 1 ≤ twoAdicity F) : (2 : EF) ≠ 0 := by
  have base := (map_ne_zero_iff _ (algebraMap F EF).injective).mpr (two_pow_ne_zero (F := F) bound)
  rwa [map_natCast, pow_one, cast_ofNat] at base

end Roots

namespace FriFold

/-! ## The three arities -/

variable {s : F}

/-- The values of a polynomial with the given coefficients. -/
def evalCoeffs (count : Nat) (coeff : Nat -> EF) (u : EF) : EF :=
  ∑ index ∈ Finset.range count, coeff index * u ^ index

omit [TwoAdicField F] in
theorem foldEvals2_eq (two : (2 : EF) ≠ 0) (d : Nat -> EF) (sInv : F) (beta : EF) :
    foldEvals2 (evalCoeffs 2 d 1) (evalCoeffs 2 d (-1)) sInv beta =
      evalCoeffs 2 d (beta * algebraMap F EF sInv) := by
  rw [foldEvals2, mul_inv_eq_iff_eq_mul₀ two]
  simp only [evalCoeffs, sum_range_succ, sum_range_zero]
  ring

variable {w : EF}

theorem foldEvals4_eq (two : (2 : EF) ≠ 0) (bound : 2 ≤ twoAdicity F)
    (root : algebraMap F EF (twoAdicGenerator 2) = w) (d : Nat -> EF) (sInv : F) (beta : EF) :
    foldEvals4 (evalCoeffs 4 d 1) (evalCoeffs 4 d (w ^ 2)) (evalCoeffs 4 d w) (evalCoeffs 4 d (w ^ 3)) sInv beta =
      evalCoeffs 4 d (beta * algebraMap F EF sInv) := by
  have order : w ^ 2 = -1 := by
    rw [← root, ← map_pow, twoAdicGenerator_two_sq bound, map_neg, map_one]
  rw [foldEvals4, map_mul, map_inv₀, map_ofNat, ← mul_inv,
    mul_inv_eq_iff_eq_mul₀ (mul_ne_zero two two)]
  simp only [ifft4, evalCoeffs, sum_range_succ, sum_range_zero, root]
  generalize beta * algebraMap F EF sInv = x
  grind

/-- The coefficients that the transform of size eight recovers. -/
theorem ifft8_eq (bound : 3 ≤ twoAdicity F) (root : algebraMap F EF (twoAdicGenerator 3) = w)
    (d : Nat -> EF) (index : Fin 8) :
    ifft8 F (evalCoeffs 8 d 1) (evalCoeffs 8 d (w ^ 4)) (evalCoeffs 8 d (w ^ 2)) (evalCoeffs 8 d (w ^ 6))
      (evalCoeffs 8 d w) (evalCoeffs 8 d (w ^ 5)) (evalCoeffs 8 d (w ^ 3)) (evalCoeffs 8 d (w ^ 7)) index =
      8 * d index := by
  have square : algebraMap F EF (twoAdicGenerator 2) = w ^ 2 := by
    rw [← root, ← map_pow, square (F := F) 2 bound]
  have order : w ^ 4 = -1 := by
    have inner := twoAdicGenerator_two_sq (F := F) (le_of_succ_le bound)
    rw [← root, ← map_pow, show 4 = 2 * 2 from rfl, pow_mul, TwoAdicField.square (F := F) 2 bound,
      inner, map_neg, map_one]
  simp only [ifft8, ditButterfly, twiddleFreeButterfly, map_mul, map_pow, square, root]
  fin_cases index
  all_goals
    simp only [evalCoeffs, sum_range_succ, sum_range_zero, Fin.reduceFinMk, Matrix.cons_val]
    grind

theorem foldEvals8_eq (two : (2 : EF) ≠ 0) (bound : 3 ≤ twoAdicity F)
    (root : algebraMap F EF (twoAdicGenerator 3) = w) (d : Nat -> EF) (sInv : F) (beta : EF) :
    foldEvals8 (evalCoeffs 8 d 1) (evalCoeffs 8 d (w ^ 4)) (evalCoeffs 8 d (w ^ 2)) (evalCoeffs 8 d (w ^ 6))
      (evalCoeffs 8 d w) (evalCoeffs 8 d (w ^ 5)) (evalCoeffs 8 d (w ^ 3)) (evalCoeffs 8 d (w ^ 7)) sInv beta =
      evalCoeffs 8 d (beta * algebraMap F EF sInv) := by
  have eight : (2 : EF) * 2 * 2 ≠ 0 := mul_ne_zero (mul_ne_zero two two) two
  rw [foldEvals8]
  simp only [ifft8_eq bound root]
  rw [map_mul, map_mul, map_inv₀, map_ofNat, ← mul_inv, ← mul_inv, mul_inv_eq_iff_eq_mul₀ eight,
    evalCoeffs, sum_range, sum_mul]
  refine sum_congr rfl (fun index _ => ?_)
  ring

omit [TwoAdicField F] in
/-- A polynomial below the arity on a coset, with the shift in the coefficients. -/
theorem eval_shift {count : Nat} {p : EF[X]} (small : p.degree < count) (s u : EF) :
    p.eval (s * u) = evalCoeffs count (fun index => p.coeff index * s ^ index) u := by
  rw [eval_eq_sum_of_degree_lt small, evalCoeffs]
  refine sum_congr rfl (fun index _ => ?_)
  rw [mul_pow, mul_assoc]

/-- The points of a row. -/
def rowPoint (logArity : Nat) (s : F) (column : Nat) : F :=
  s * twoAdicGenerator logArity ^ reverseBits logArity column

/-- Folding the row of a polynomial below the arity gives its value at the
challenge. -/
theorem foldEvals_eq (fold : FriFold) (bound : fold.logArity ≤ twoAdicity F) (nonzero : s ≠ 0)
    {p : EF[X]} (small : p.degree < fold.arity) (beta : EF) :
    fold.foldEvals (table fold.arity (fun column =>
      p.eval (algebraMap F EF (rowPoint fold.logArity s column)))) s⁻¹ beta = p.eval beta := by
  have shifted : p.eval beta = evalCoeffs fold.arity (fun index => p.coeff index * algebraMap F EF s ^ index)
      (beta * algebraMap F EF s⁻¹) := by
    rw [← eval_shift small, map_inv₀, mul_comm beta, mul_inv_cancel_left₀
      ((map_ne_zero_iff _ (algebraMap F EF).injective).mpr nonzero)]
  have value (column : Nat) : p.eval (algebraMap F EF (rowPoint fold.logArity s column)) =
      evalCoeffs fold.arity (fun index => p.coeff index * algebraMap F EF s ^ index)
        (algebraMap F EF (twoAdicGenerator fold.logArity) ^ reverseBits fold.logArity column) := by
    rw [rowPoint, map_mul, map_pow, eval_shift small]
  simp only [value]
  rw [shifted]
  generalize (fun index => p.coeff index * algebraMap F EF s ^ index) = d
  rcases fold with ⟨logArity, supported⟩
  have two : (2 : EF) ≠ 0 := two_ne_zero_of_twoAdicity (F := F) (by
    change logArity ≤ _ at bound
    omega)
  rcases supported with rfl | rfl | rfl
  · have minus : algebraMap F EF (twoAdicGenerator 1) = -1 := by
      rw [twoAdicGenerator_one bound, map_neg, map_one]
    change foldEvals2 (evalCoeffs 2 d (_ ^ 0)) (evalCoeffs 2 d (_ ^ 1)) s⁻¹ beta = evalCoeffs 2 d _
    rw [pow_zero, pow_one, minus]
    exact foldEvals2_eq two d s⁻¹ beta
  · change foldEvals4 (evalCoeffs 4 d (_ ^ 0)) (evalCoeffs 4 d (_ ^ 2)) (evalCoeffs 4 d (_ ^ 1))
      (evalCoeffs 4 d (_ ^ 3)) s⁻¹ beta = evalCoeffs 4 d _
    rw [pow_zero, pow_one]
    exact foldEvals4_eq two bound rfl d s⁻¹ beta
  · change foldEvals8 (evalCoeffs 8 d (_ ^ 0)) (evalCoeffs 8 d (_ ^ 4)) (evalCoeffs 8 d (_ ^ 2))
      (evalCoeffs 8 d (_ ^ 6)) (evalCoeffs 8 d (_ ^ 1)) (evalCoeffs 8 d (_ ^ 5)) (evalCoeffs 8 d (_ ^ 3))
      (evalCoeffs 8 d (_ ^ 7)) s⁻¹ beta = evalCoeffs 8 d _
    rw [pow_zero, pow_one]
    exact foldEvals8_eq two bound rfl d s⁻¹ beta

theorem rowPoint_injOn {logArity : Nat} (bound : logArity ≤ twoAdicity F) (nonzero : s ≠ 0) :
    Set.InjOn (fun column => algebraMap F EF (rowPoint logArity s column))
      (range (2 ^ logArity)) := by
  intro left leftIn right rightIn same
  have roots := mul_left_cancel₀ nonzero ((algebraMap F EF).injective same)
  have exponents := (primitive (F := F) logArity bound).pow_inj (reverseBits_lt _ _)
    (reverseBits_lt _ _) roots
  have restored := congrArg (reverseBits logArity) exponents
  rwa [reverseBits_reverseBits (mem_range.mp leftIn),
    reverseBits_reverseBits (mem_range.mp rightIn)] at restored

/-- Every row has one polynomial below the arity through it, and the fold is its
value at the challenge. -/
theorem foldEvals_interpolates (fold : FriFold) (bound : fold.logArity ≤ twoAdicity F)
    (nonzero : s ≠ 0) {row : List EF} (width : row.length = fold.arity) (beta : EF) :
    ∃ p : EF[X], (p.degree < fold.arity ∧ forall column, column < fold.arity ->
        p.eval (algebraMap F EF (rowPoint fold.logArity s column)) = row.getD column 0) ∧
      (forall q : EF[X], q.degree < fold.arity -> (forall column, column < fold.arity ->
        q.eval (algebraMap F EF (rowPoint fold.logArity s column)) = row.getD column 0) -> q = p) ∧
      fold.foldEvals row s⁻¹ beta = p.eval beta := by
  let point (column : Nat) : EF := algebraMap F EF (rowPoint fold.logArity s column)
  have nodes : Set.InjOn point (range (2 ^ fold.logArity)) := rowPoint_injOn bound nonzero
  have size : (range (2 ^ fold.logArity)).card = fold.arity := card_range _
  let p := interpolate (range (2 ^ fold.logArity)) point (fun column => row.getD column 0)
  have small : p.degree < fold.arity := size ▸ degree_interpolate_lt _ nodes
  have through (column : Nat) (inside : column < fold.arity) :
      p.eval (point column) = row.getD column 0 :=
    eval_interpolate_at_node _ nodes (mem_range.mpr inside)
  have values : table fold.arity (fun column => p.eval (point column)) = row := by
    rw [table_congr through, ← width, table_getD]
  refine ⟨p, ⟨small, through⟩, ?_, ?_⟩
  · intro q otherSmall otherThrough
    refine eq_of_degrees_lt_of_eval_index_eq _ nodes (size.symm ▸ otherSmall) (size.symm ▸ small) ?_
    intro column member
    have inside := mem_range.mp member
    rw [otherThrough column inside, through column inside]
  · have folded := foldEvals_eq fold bound nonzero small beta
    rwa [values] at folded

end FriFold

/-! ## Folding a polynomial -/

section Parts

variable {arity : Nat}

/-- The part of a polynomial with exponents of one residue. -/
noncomputable def splitPart (arity : Nat) (f : EF[X]) (residue : Nat) : EF[X] :=
  contract arity (divX^[residue] f)

theorem coeff_iterate_divX (f : EF[X]) (count index : Nat) :
    (divX^[count] f).coeff index = f.coeff (index + count) := by
  induction count generalizing f with
  | zero => rfl
  | succ count ih => rw [Function.iterate_succ_apply, ih, coeff_divX, add_assoc]

theorem coeff_splitPart (positive : 0 < arity) (f : EF[X]) (residue index : Nat) :
    (splitPart arity f residue).coeff index = f.coeff (index * arity + residue) := by
  rw [splitPart, coeff_contract positive.ne', coeff_iterate_divX]

/-- A polynomial is made of its parts. -/
theorem sum_splitPart (positive : 0 < arity) (f : EF[X]) :
    ∑ residue ∈ range arity, X ^ residue * expand EF arity (splitPart arity f residue) = f := by
  ext exponent
  rw [finsetSum_coeff]
  have term (residue : Nat) (member : residue ∈ range arity) :
      (X ^ residue * expand EF arity (splitPart arity f residue)).coeff exponent =
        if residue = exponent % arity then f.coeff exponent else 0 := by
    have inside := mem_range.mp member
    rw [coeff_X_pow_mul', coeff_expand positive]
    by_cases same : residue = exponent % arity
    · have below : residue ≤ exponent := same ▸ mod_le exponent arity
      have divides : arity ∣ exponent - residue := same ▸ dvd_sub_mod exponent
      rw [if_pos below, if_pos divides, if_pos same, coeff_splitPart positive,
        Nat.div_mul_cancel divides, Nat.sub_add_cancel below]
    · rw [if_neg same]
      split
      · rename_i below
        rw [if_neg]
        rintro ⟨times, product⟩
        refine same ?_
        have split : exponent = residue + arity * times := by omega
        rw [split, add_mul_mod_self_left, mod_eq_of_lt inside]
      · rfl
  rw [sum_congr rfl term, sum_ite_eq_of_mem' _ _ _
    (mem_range.mpr (mod_lt exponent positive))]

/-- The polynomial that one round of folding leaves. -/
noncomputable def foldPoly (arity : Nat) (beta : EF) (f : EF[X]) : EF[X] :=
  ∑ residue ∈ Finset.range arity, C (beta ^ residue) * splitPart arity f residue

theorem degree_foldPoly_lt (positive : 0 < arity) (beta : EF) {f : EF[X]} {bound : Nat}
    (small : f.degree < (bound * arity : Nat)) : (foldPoly arity beta f).degree < bound := by
  rw [degree_lt_iff_coeff_zero]
  intro index beyond
  rw [foldPoly, finsetSum_coeff]
  refine sum_eq_zero (fun residue _ => ?_)
  have large : bound * arity ≤ index * arity + residue :=
    (Nat.mul_le_mul_right arity beyond).trans (Nat.le_add_right _ _)
  rw [coeff_C_mul, coeff_splitPart positive, (degree_lt_iff_coeff_zero f _).mp small _ large, mul_zero]

/-- On a coset the polynomial agrees with one below the arity, and folding its row
gives the folded polynomial. -/
theorem foldEvals_coset (fold : FriFold) (bound : fold.logArity ≤ twoAdicity F) {s : F}
    (nonzero : s ≠ 0) (f : EF[X]) (beta : EF) :
    fold.foldEvals (table fold.arity (fun column =>
      f.eval (algebraMap F EF (rowPoint fold.logArity s column)))) s⁻¹ beta =
        (foldPoly fold.arity beta f).eval (algebraMap F EF s ^ fold.arity) := by
  have positive : 0 < fold.arity := Nat.two_pow_pos _
  let p : EF[X] := ∑ residue ∈ range fold.arity,
    C ((splitPart fold.arity f residue).eval (algebraMap F EF s ^ fold.arity)) * X ^ residue
  have small : p.degree < fold.arity := by
    rw [← mem_degreeLT]
    refine Submodule.sum_mem _ (fun residue member => ?_)
    rw [mem_degreeLT]
    refine lt_of_le_of_lt (degree_C_mul_X_pow_le _ _) ?_
    exact_mod_cast mem_range.mp member
  have agree (column : Nat) : f.eval (algebraMap F EF (rowPoint fold.logArity s column)) =
      p.eval (algebraMap F EF (rowPoint fold.logArity s column)) := by
    have power : algebraMap F EF (rowPoint fold.logArity s column) ^ fold.arity =
        algebraMap F EF s ^ fold.arity := by
      have order : (twoAdicGenerator fold.logArity ^ reverseBits fold.logArity column : F) ^ fold.arity = 1 :=
        root_pow_pow (primitive (F := F) fold.logArity bound) _
      rw [rowPoint, map_mul, mul_pow, ← map_pow _ (twoAdicGenerator _ ^ _), order, map_one, mul_one]
    conv_lhs => rw [← sum_splitPart positive f]
    simp only [p, eval_finsetSum, eval_mul, eval_pow, eval_X, eval_C, expand_eval, power]
    exact sum_congr rfl (fun residue _ => mul_comm _ _)
  simp only [agree]
  rw [foldEvals_eq fold bound nonzero small beta]
  simp only [p, foldPoly, eval_finsetSum, eval_mul, eval_pow, eval_X, eval_C]
  exact sum_congr rfl (fun residue _ => mul_comm _ _)

end Parts

end MidenVm.Stark
