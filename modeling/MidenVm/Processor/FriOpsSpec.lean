import MidenVm.Processor.FriOps
import MidenVm.Stark.FriFoldSpec

namespace MidenVm.Processor

open Foundation Foundation.TwoAdicField StackInterface Stark Outcome FriFold
open Polynomial

/-!
# The operation folds as the prover does

The constants of the operation are powers of the inverse of the root of unity of
order four, so its two rounds of folding by two are the prover's fold of arity
four on a row of the layer.  That fold is interpolation on the coset of the row.
-/

/-! ## The constants -/

theorem twoAdicGenerator_two : (twoAdicGenerator 2 : Felt) = tau3Inv := by
  change Felt.twoAdicRoot ^ 2 ^ 30 = tau3Inv
  rw [Felt.twoAdicRoot_eq, ← pow_mul, seven_pow _ (by decide)]
  decide +kernel

theorem tauInv_eq : tauInv = -tau3Inv := by decide +kernel

theorem two_inv_eq : (2 : Felt)⁻¹ = twoInv := inv_eq_of_mul_eq_one_right (by decide +kernel)

theorem getTauFactor_eq (coset : Fin 4) :
    getTauFactor coset = ((twoAdicGenerator 2 : Felt)⁻¹) ^ (coset : Nat) := by
  have inverse : (twoAdicGenerator 2 : Felt)⁻¹ = tauInv := by
    rw [twoAdicGenerator_two]
    exact inv_eq_of_mul_eq_one_right (by decide +kernel)
  rw [inverse]
  revert coset
  decide +kernel

/-! ## Folding -/

/-- Folding by two twice is the prover's fold of a row of four. -/
theorem fold4_eq (values : Fin 4 -> QuadFelt) (alpha : QuadFelt) (xInv : Felt) :
    (fold4 (reorderBitrev4 values) (computeEvaluationPoints alpha xInv).1
      (computeEvaluationPoints alpha xInv).2).1 =
        foldEvals4 (values 0) (values 1) (values 2) (values 3) xInv alpha := by
  simp only [fold4, fold2, reorderBitrev4, computeEvaluationPoints, foldEvals4, ifft4,
    two_inv_eq, tauInv_eq, twoAdicGenerator_two, map_neg, map_mul, Matrix.cons_val]
  generalize algebraMap Felt QuadFelt tau3Inv = w, algebraMap Felt QuadFelt twoInv = half
  ring

/-- A polynomial below degree four takes the values at `x`, `x τ`, `x τ²` and `x τ³`. -/
def Interpolates (x : Felt) (values : Fin 4 -> QuadFelt) (p : QuadFelt[X]) : Prop :=
  p.degree < 4 ∧ forall index : Fin 4,
    p.eval (algebraMap Felt QuadFelt (x * twoAdicGenerator 2 ^ (index : Nat))) = values index

/-- In natural order the points are those of a row of the layer. -/
theorem interpolates_iff (x : Felt) (values : Fin 4 -> QuadFelt) (p : QuadFelt[X]) :
    Interpolates x (reorderBitrev4 values) p ↔ p.degree < (4 : Nat) ∧ forall column, column < 4 ->
      p.eval (algebraMap Felt QuadFelt (rowPoint 2 x column)) =
        (List.ofFn values).getD column 0 := by
  refine and_congr_right (fun _ => ?_)
  constructor
  · intro through column inside
    interval_cases column
    · exact through 0
    · exact through 2
    · exact through 1
    · exact through 3
  · intro through index
    match index with
    | 0 => exact through 0 (by decide)
    | 1 => exact through 2 (by decide)
    | 2 => exact through 1 (by decide)
    | 3 => exact through 3 (by decide)

/-- One polynomial goes through the values, and the fold is its value at the challenge. -/
theorem fold4_interpolates {x : Felt} (nonzero : x ≠ 0) (values : Fin 4 -> QuadFelt)
    (alpha : QuadFelt) : ∃ p, Interpolates x (reorderBitrev4 values) p ∧
      (forall q, Interpolates x (reorderBitrev4 values) q -> q = p) ∧
      (fold4 (reorderBitrev4 values) (computeEvaluationPoints alpha x⁻¹).1
        (computeEvaluationPoints alpha x⁻¹).2).1 = p.eval alpha := by
  have width : (List.ofFn values).length = 4 := List.length_ofFn
  rcases foldEvals_interpolates ⟨2, .inr (.inl rfl)⟩ (by decide) nonzero width alpha with
    ⟨p, through, unique, folded⟩
  refine ⟨p, (interpolates_iff x values p).mpr through, ?_,
    (fold4_eq values alpha x⁻¹).trans folded⟩
  intro q other
  rcases (interpolates_iff x values q).mp other with ⟨small, points⟩
  exact unique q small points

/-! ## The operation -/

theorem OperandStack.get_set (stack : OperandStack) {index : Nat} (inside : index < 16)
    (other : Nat) (value : Felt) :
    get (set stack index value) other = if index = other then value else get stack other := by
  have bound : index < stack.cells.length := lt_of_lt_of_le inside stack.deep
  change (stack.cells.set index value).getD other 0 = _
  rw [List.getD_eq_getElem?_getD, List.getElem?_set, if_pos bound]
  split <;> rfl

/-- The value selected for the check is the one at the position in natural order. -/
theorem apply_bitReverseCoset (values : Fin 4 -> QuadFelt) (coset : Fin 4) :
    values (bitReverseCoset coset) = reorderBitrev4 values coset := by
  match coset with
  | 0 => rfl
  | 1 => rfl
  | 2 => rfl
  | 3 => rfl

/-- The operation continues when the value at the position is the previous layer's, and leaves the fold. -/
theorem opFriExt2fold4_spec (stack : OperandStack) {coset : Fin 4}
    (position : (get stack 9).asCanonicalU64 = coset) (point : get stack 10 ≠ 0) :
    ((∃ after, opFriExt2fold4 stack = .ok after) ↔
      reorderBitrev4 (getQueryValues stack) coset = ⟨get stack 11, get stack 12⟩) ∧
    forall after, opFriExt2fold4 stack = .ok after ->
      let points :=
        computeEvaluationPoints ⟨get stack 13, get stack 14⟩ (get stack 10 * getTauFactor coset)⁻¹
      (⟨get after.1 12, get after.1 13⟩ : QuadFelt) =
        (fold4 (reorderBitrev4 (getQueryValues stack)) points.1 points.2).1 := by
  have inside : ¬(get stack 9).asCanonicalU64 > 3 := by
    rw [position]
    exact not_lt.mpr (Nat.le_of_lt_succ coset.isLt)
  have same : (⟨(get stack 9).asCanonicalU64, Nat.lt_of_not_le inside⟩ : Fin 4) = coset :=
    Fin.ext position
  unfold opFriExt2fold4
  simp only [dif_neg inside, same, apply_bitReverseCoset, ensure_of point]
  by_cases agree : reorderBitrev4 (getQueryValues stack) coset = ⟨get stack 11, get stack 12⟩
  · have shrunk : decrementSize stack = .ok stack.decrement := rfl
    simp only [ensure_of agree, shrunk, ok_bind, pure_eq_ok, Outcome.ok.injEq]
    refine ⟨⟨fun _ => agree, fun _ => ⟨_, rfl⟩⟩, ?_⟩
    intro after result
    subst result
    ext <;> simp [OperandStack.get_set]
  · have stopped : Outcome.ensure (reorderBitrev4 (getQueryValues stack) coset = ⟨get stack 11,
        get stack 12⟩) = fun error : OperationError => .err error := funext fun _ => if_neg agree
    simp only [stopped, err_bind, ok_bind]
    refine ⟨⟨?_, fun equal => absurd equal agree⟩, ?_⟩
    · rintro ⟨after, impossible⟩
      cases impossible
    · intro after impossible
      cases impossible

/-- The operation succeeds exactly when the previous layer's value is the query value at
the position, and it leaves the value at the challenge of the one polynomial through the
query values on the coset. -/
theorem fri_ext2fold4_folds (stack : OperandStack) (coset : Fin 4)
    (position : (get stack 9).asCanonicalU64 = coset) (point : get stack 10 ≠ 0) :
    let values := reorderBitrev4 (getQueryValues stack)
    let x := get stack 10 * ((twoAdicGenerator 2 : Felt)⁻¹) ^ (coset : Nat)
    ((∃ after, opFriExt2fold4 stack = .ok after) ↔ values coset = ⟨get stack 11, get stack 12⟩) ∧
      ∃ p, Interpolates x values p ∧ (forall q, Interpolates x values q -> q = p) ∧
        forall after, opFriExt2fold4 stack = .ok after ->
          (⟨get after.1 12, get after.1 13⟩ : QuadFelt) = p.eval ⟨get stack 13, get stack 14⟩ := by
  intro values x
  have unit : (twoAdicGenerator 2 : Felt) ≠ 0 := by
    rw [twoAdicGenerator_two]
    decide +kernel
  have nonzero : x ≠ 0 := mul_ne_zero point (pow_ne_zero _ (inv_ne_zero unit))
  rcases opFriExt2fold4_spec stack position point with ⟨succeeds, leaves⟩
  rcases fold4_interpolates nonzero (getQueryValues stack) ⟨get stack 13, get stack 14⟩ with
    ⟨p, through, unique, folded⟩
  refine ⟨succeeds, p, through, unique, ?_⟩
  intro after result
  rw [getTauFactor_eq] at leaves
  exact (leaves after result).trans folded

/-- Four values at position two, with the third of them left by the previous layer. -/
theorem fri_ext2fold4_folds_second :
    ∃ after, opFriExt2fold4 (OperandStack.ofTop #v[1, 2, 3, 4, 5, 6, 7, 8, 0, 2, 9, 3, 4, 10, 11,
      12]) = .ok after :=
  (fri_ext2fold4_folds (OperandStack.ofTop #v[1, 2, 3, 4, 5, 6, 7, 8, 0, 2, 9, 3, 4, 10, 11, 12]) 2 rfl
    (by decide)).1.mpr rfl

end MidenVm.Processor
