import MidenVm.Core.RootsOfUnity
import MidenVm.Stark.DeepSpec
import MidenVm.Stark.FriFoldSpec

namespace MidenVm.Stark

open Foundation List Outcome Nat FriFold FriOracle FriPolys LiftedDomain OrderedMap TwoAdicSubgroup TreeIndices
open Foundation.TwoAdicField
open Polynomial

/-!
# An honest run of FRI

A vector of the commit phase is the codeword of a polynomial, and one round
takes the codeword of a polynomial to that of its fold.  The loop keeps this,
together with the table of inverted shifts, for as many rounds as the
parameters ask for; the last polynomial is short enough to be read off the
first values.  The verifier follows a query through the same polynomials.
-/

variable {F EF : Type} [Field F] [TwoAdicField F] [Field EF] [Algebra F EF] {ε : Type}
variable {subgroup : TwoAdicSubgroup F} {evals : OrderedMap Nat EF} {set : TreeIndices}

/-- The values of a polynomial on the subgroup of an order, in stored order. -/
noncomputable def codeword (F : Type) [Field F] [TwoAdicField F] [Algebra F EF] (log : Nat)
    (f : EF[X]) : List EF :=
  table (2 ^ log) (fun index => f.eval (algebraMap F EF (twoAdicGenerator log ^ reverseBits log index)))

/-- The inverted shifts of the rows of a vector. -/
def shiftInverses (F : Type) [Field F] [TwoAdicField F] (log logArity : Nat) : List F :=
  table (2 ^ log / 2 ^ logArity) (fun row => (twoAdicGenerator log)⁻¹ ^ reverseBits (log - logArity) row)

/-- The polynomial left after a number of rounds. -/
noncomputable def polyAfter (arity : Nat) (beta : Nat -> EF) (f : EF[X]) : Nat -> EF[X]
  | 0 => f
  | rounds + 1 => foldPoly arity (beta rounds) (polyAfter arity beta f rounds)

/-- The codeword of a round. -/
noncomputable def roundCodeword (F : Type) [Field F] [TwoAdicField F] [Algebra F EF]
    (fold : FriFold) (top : Nat) (beta : Nat -> EF) (f : EF[X]) (round : Nat) : List EF :=
  codeword F (top - round * fold.logArity) (polyAfter fold.arity beta f round)

theorem FriFold.logArity_pos (fold : FriFold) : 0 < fold.logArity := by
  rcases fold.supported with one | two | three <;> omega

/-- A round that is still to come takes the arity off the size. -/
theorem FriFold.size_split (fold : FriFold) {top rounds round : Nat}
    (reach : rounds * fold.logArity ≤ top) (before : round < rounds) :
    top - round * fold.logArity = top - (round + 1) * fold.logArity + fold.logArity := by
  have next : (round + 1) * fold.logArity ≤ rounds * fold.logArity := Nat.mul_le_mul_right _ before
  rw [succ_mul] at next ⊢
  omega

theorem TwoAdicSubgroup.shrink_of_size {low bits : Nat} (size : subgroup.logSize = low + bits)
    (lower : low ≤ twoAdicity F) : subgroup.shrink (ε := ε) bits = .ok ⟨low, lower⟩ := by
  have same : subgroup.logSize - bits = low := by rw [size, Nat.add_sub_cancel]
  rw [shrink, if_pos (size ▸ Nat.le_add_left _ _), new]
  simp only [same, dif_pos lower]

/-! ## One round -/

section Round

variable (fold : FriFold) {low : Nat}

/-- There is one inverted shift per row. -/
theorem length_shiftInverses : (shiftInverses F (low + fold.logArity) fold.logArity).length = 2 ^ low := by
  rw [shiftInverses, length_table, pow_add, Nat.mul_div_cancel _ (Nat.two_pow_pos _)]

theorem getD_shiftInverses {row : Nat} (inside : row < 2 ^ low) :
    (shiftInverses F (low + fold.logArity) fold.logArity).getD row 0 =
      (twoAdicGenerator (low + fold.logArity))⁻¹ ^ reverseBits low row := by
  have bound : row < 2 ^ (low + fold.logArity) / 2 ^ fold.logArity := by
    rwa [pow_add, Nat.mul_div_cancel _ (Nat.two_pow_pos _)]
  rw [shiftInverses, getD_table bound, Nat.add_sub_cancel]

variable (bound : low + fold.logArity ≤ twoAdicity F)
include bound

theorem generator_pow_low :
    (twoAdicGenerator (low + fold.logArity) : F) ^ 2 ^ low = twoAdicGenerator fold.logArity := by
  rw [add_comm low]
  exact twoAdicGenerator_pow fold.logArity low (add_comm low fold.logArity ▸ bound)

/-- A root of unity splits by the position in the row. -/
theorem generator_pow_row (row column : Nat) (inside : column < fold.arity) :
    (twoAdicGenerator (low + fold.logArity) : F) ^ reverseBits (low + fold.logArity)
    (row * fold.arity + column) =
      rowPoint fold.logArity (twoAdicGenerator (low + fold.logArity) ^ reverseBits low row) column := by
  rw [arity, reverseBits_add low fold.logArity row column inside, pow_add, Nat.mul_comm, pow_mul,
    generator_pow_low fold bound, rowPoint, mul_comm]

/-- A row of a codeword holds the values on a coset. -/
theorem matrixRow_codeword (f : EF[X]) {row : Nat} (inside : row < 2 ^ low) :
    fold.matrixRow (codeword F (low + fold.logArity) f) row = table fold.arity (fun column =>
      f.eval (algebraMap F EF (rowPoint fold.logArity
        (twoAdicGenerator (low + fold.logArity) ^ reverseBits low row) column))) := by
  refine table_congr (fun column small => ?_)
  have position : row * fold.arity + column < 2 ^ (low + fold.logArity) := by
    have next := Nat.mul_le_mul_right fold.arity (succ_le_of_lt inside)
    rw [succ_mul, arity, ← pow_add] at next
    unfold arity at small ⊢
    omega
  rw [codeword, getD_table position, generator_pow_row fold bound row column small]

/-- Folding such a row gives the folded polynomial on the smaller subgroup. -/
theorem foldEvals_row (f : EF[X]) (beta : EF) (exponent : Nat) :
    fold.foldEvals (table fold.arity (fun column => f.eval (algebraMap F EF
        (rowPoint fold.logArity (twoAdicGenerator (low + fold.logArity) ^ exponent) column))))
      ((twoAdicGenerator (low + fold.logArity) : F)⁻¹ ^ exponent) beta =
        (foldPoly fold.arity beta f).eval (algebraMap F EF (twoAdicGenerator low ^ exponent)) := by
  have nonzero : (twoAdicGenerator (low + fold.logArity) : F) ^ exponent ≠ 0 :=
    pow_ne_zero _ (twoAdicGenerator_ne_zero bound)
  have power : ((twoAdicGenerator (low + fold.logArity) : F) ^ exponent) ^ fold.arity =
      twoAdicGenerator low ^ exponent := by
    rw [← pow_mul, mul_comm, pow_mul, arity, twoAdicGenerator_pow low fold.logArity bound]
  rw [inv_pow, foldEvals_coset fold ((Nat.le_add_left _ _).trans bound) nonzero, ← map_pow, power]

/-- One round takes a codeword to the codeword of the fold. -/
theorem foldMatrix_codeword (f : EF[X]) (beta : EF) :
    fold.foldMatrix (codeword F (low + fold.logArity) f) (shiftInverses F (low + fold.logArity) fold.logArity)
      beta = codeword F low (foldPoly fold.arity beta f) := by
  have size : min ((codeword F (low + fold.logArity) f).length / fold.arity)
      (shiftInverses F (low + fold.logArity) fold.logArity).length = 2 ^ low := by
    rw [codeword, length_shiftInverses, length_table, arity, pow_add,
      Nat.mul_div_cancel _ (Nat.two_pow_pos _), Nat.min_self]
  rw [foldMatrix, size, codeword]
  refine table_congr (fun row inside => ?_)
  have folded := matrixRow_codeword fold bound f inside
  unfold codeword at folded
  rw [folded, getD_shiftInverses fold inside, foldEvals_row fold bound]

/-- The inverted shifts of the next round. -/
theorem nextInverses :
    table (2 ^ low / 2 ^ fold.logArity) (fun row =>
      (shiftInverses F (low + fold.logArity) fold.logArity).getD (row * fold.arity) 0 ^ 2 ^ fold.logArity) =
        shiftInverses F low fold.logArity := by
  refine table_congr (fun row inside => ?_)
  -- There is a row only where the arity divides the size.
  have larger : fold.logArity ≤ low := by
    by_contra smaller
    rw [div_eq_of_lt (Nat.pow_lt_pow_right Nat.one_lt_two (Nat.lt_of_not_le smaller))] at inside
    exact absurd inside (Nat.not_lt_zero row)
  have position : row * fold.arity < 2 ^ low :=
    (lt_div_iff_mul_lt_of_dvd (Nat.two_pow_pos _).ne' (pow_dvd_pow 2 larger)).mp inside
  have reversed := reverseBits_mul_pow (low - fold.logArity) fold.logArity row
  rw [Nat.sub_add_cancel larger] at reversed
  rw [getD_shiftInverses fold position, arity, reversed, ← pow_mul, Nat.mul_comm, pow_mul, inv_pow,
    twoAdicGenerator_pow low fold.logArity bound]

end Round

/-! ## The commit phase -/

theorem degree_polyAfter_lt (fold : FriFold) (beta : Nat -> EF) {f : EF[X]} {logDegree : Nat}
    (small : f.degree < (2 ^ logDegree : Nat)) (rounds : Nat) :
    (polyAfter fold.arity beta f rounds).degree < (2 ^ (logDegree - rounds * fold.logArity) : Nat) := by
  induction rounds with
  | zero => rwa [zero_mul, Nat.sub_zero]
  | succ rounds ih =>
    refine degree_foldPoly_lt (Nat.two_pow_pos _) (beta rounds) (ih.trans_le ?_)
    have exponent : logDegree - rounds * fold.logArity ≤
        logDegree - (rounds + 1) * fold.logArity + fold.logArity := by
      rw [succ_mul]
      omega
    have bound := Nat.pow_le_pow_right two_pos exponent
    rw [pow_add] at bound
    exact_mod_cast bound

/-- The rounds that are left: each commits to a codeword and folds it. -/
theorem commitLoop_eq (fold : FriFold) (beta : Nat -> EF) (f : EF[X]) {top logFinal : Nat}
    (bound : top ≤ twoAdicity F) {rounds : Nat} (reach : rounds * fold.logArity ≤ top)
    (running : forall round, round < rounds -> logFinal < top - round * fold.logArity)
    (stops : top - rounds * fold.logArity ≤ logFinal) (left : Nat) :
    forall (fuel round : Nat) (subgroup : TwoAdicSubgroup F), round + left = rounds ->
      left ≤ fuel -> subgroup.logSize = top - round * fold.logArity ->
      commitLoop (ε := ε) fold (2 ^ logFinal) beta fuel round subgroup
          (shiftInverses F (top - round * fold.logArity) fold.logArity)
          (roundCodeword F fold top beta f round) =
        .ok ((List.range' round left).map (roundCodeword F fold top beta f),
          roundCodeword F fold top beta f rounds) := by
  induction left with
  | zero =>
    intro fuel round subgroup last _ size
    have done : round = rounds := last
    subst done
    have small : ¬ 2 ^ subgroup.logSize > 2 ^ logFinal := by
      rw [size, not_lt]
      exact Nat.pow_le_pow_right two_pos stops
    rw [commitLoop.eq_def]
    dsimp only
    rw [if_neg small]
    rfl
  | succ left ih =>
    intro fuel round subgroup last enough size
    rcases fuel with _ | fuel
    · exact absurd enough (not_succ_le_zero left)
    have before : round < rounds := by omega
    have large : 2 ^ subgroup.logSize > 2 ^ logFinal := by
      rw [size]
      exact Nat.pow_lt_pow_right one_lt_two (running round before)
    have split := fold.size_split reach before
    have smaller : top - (round + 1) * fold.logArity ≤ twoAdicity F := (sub_le _ _).trans bound
    have inside : top - (round + 1) * fold.logArity + fold.logArity ≤ twoAdicity F :=
      split ▸ (sub_le _ _).trans bound
    have rest := ih fuel (round + 1) ⟨top - (round + 1) * fold.logArity, smaller⟩ (by omega)
      (le_of_succ_le_succ enough) rfl
    rw [commitLoop.eq_def]
    dsimp only
    rw [if_pos large, shrink_of_size (size.trans split) smaller, ok_bind]
    dsimp only
    rw [roundCodeword, split, foldMatrix_codeword fold inside, nextInverses fold inside]
    refine Eq.trans (congrArg (· >>= _) rest) ?_
    rw [ok_bind, range'_succ, map_cons, ← split]
    rfl

/-- The inverse transform gives the coefficients back. -/
theorem idft_table {log : Nat} (bound : log ≤ twoAdicity F) {f : EF[X]}
    (small : f.degree < (2 ^ log : Nat)) :
    idft (F := F) (table (2 ^ log) (fun index => f.eval (algebraMap F EF (twoAdicGenerator log ^ index)))) =
      table (2 ^ log) f.coeff := by
  have root : IsPrimitiveRoot (algebraMap F EF (twoAdicGenerator log)) (2 ^ log) :=
    (TwoAdicField.primitive (F := F) log bound).map_of_injective (algebraMap F EF).injective
  have size : ((2 ^ log : Nat) : EF) ≠ 0 := by
    rw [← map_natCast (algebraMap F EF)]
    exact (map_ne_zero_iff _ (algebraMap F EF).injective).mpr (two_pow_ne_zero bound)
  rw [idft, length_table, log2_two_pow]
  refine table_congr (fun coeff inside => ?_)
  rw [inv_mul_eq_iff_eq_mul₀ size, ← sum_eval_root_inv root small inside]
  refine Finset.sum_congr rfl (fun index member => ?_)
  rw [getD_table (Finset.mem_range.mp member), map_pow]

/-- The first values of a codeword are those of a smaller subgroup. -/
theorem reverse_take_codeword {low more : Nat} (bound : low + more ≤ twoAdicity F) (f : EF[X]) :
    reverseSliceIndexBits ((codeword F (low + more) f).take (2 ^ low)) =
      table (2 ^ low) (fun index => f.eval (algebraMap F EF (twoAdicGenerator low ^ index))) := by
  rw [codeword, take_table (Nat.pow_le_pow_right two_pos (Nat.le_add_right low more)),
    reverseSliceIndexBits_table]
  refine table_congr (fun index inside => ?_)
  have split := reverseBits_add more low 0 (reverseBits low index) (reverseBits_lt low index)
  rw [zero_mul, zero_add, reverseBits_zero, add_zero, reverseBits_reverseBits inside,
    add_comm more] at split
  rw [split, mul_comm, pow_mul, twoAdicGenerator_pow low more bound]

/-- The table of inverted shifts that the prover starts with. -/
theorem reverse_inverses (top logArity : Nat) :
    reverseSliceIndexBits (table (2 ^ top / 2 ^ logArity) (fun index => (twoAdicGenerator top : F)⁻¹ ^ index)) =
      shiftInverses F top logArity := by
  rw [shiftInverses]
  rcases lt_or_ge top logArity with below | above
  · rw [div_eq_of_lt (Nat.pow_lt_pow_right one_lt_two below)]
    rfl
  · rw [Nat.pow_div above two_pos, reverseSliceIndexBits_table]

namespace FriParams

/-- What the accepted parameters give for a domain: the rounds fit the domain,
and the loop stops after them. -/
structure Reaches (params : FriParams) (domain : LiftedDomain F) : Prop where
  reach : params.numRounds domain * params.fold.logArity ≤ domain.logLdeHeight
  running : forall round, round < params.numRounds domain ->
    domain.logLdeHeight - params.numRounds domain * params.fold.logArity - domain.logBlowup +
      domain.logBlowup < domain.logLdeHeight - round * params.fold.logArity

theorem reaches_of_le (params : FriParams) (domain : LiftedDomain F)
    (target : params.fold.logArity - 1 ≤ params.logFinalDegree + domain.logBlowup) :
    params.Reaches domain := by
  have positive := params.fold.logArity_pos
  have rounds : params.numRounds domain * params.fold.logArity ≤
      domain.logLdeHeight - (params.logFinalDegree + domain.logBlowup) + params.fold.logArity - 1 :=
    div_mul_le_self _ _
  have whole : params.numRounds domain * params.fold.logArity ≤ domain.logLdeHeight := by
    rcases Nat.eq_zero_or_pos (domain.logLdeHeight - (params.logFinalDegree + domain.logBlowup)) with none | some
    · have zero : params.numRounds domain = 0 := by
        rw [numRounds, none, Nat.zero_add]
        exact div_eq_of_lt (sub_lt positive Nat.one_pos)
      rw [zero, Nat.zero_mul]
      exact Nat.zero_le _
    · omega
  refine ⟨whole, fun round before => ?_⟩
  have next : (round + 1) * params.fold.logArity ≤ params.numRounds domain * params.fold.logArity :=
    Nat.mul_le_mul_right _ before
  rw [succ_mul] at next
  omega

end FriParams

omit [Algebra F EF] in
/-- The last polynomial has no more coefficients than are sent. -/
theorem degree_lastPoly_lt (params : FriParams) (domain : LiftedDomain F) (beta : Nat -> EF)
    {f : EF[X]} (small : f.degree < (2 ^ domain.logTraceHeight : Nat)) :
    (polyAfter params.fold.arity beta f (params.numRounds domain)).degree < (params.finalPolyDegree domain : Nat) := by
  have after := degree_polyAfter_lt params.fold beta small (params.numRounds domain)
  have trace : domain.logTraceHeight ≤ domain.logLdeHeight := domain.trace_le_lde
  have exponent : domain.logTraceHeight - params.numRounds domain * params.fold.logArity =
      domain.logLdeHeight - params.numRounds domain * params.fold.logArity - domain.logBlowup := by
    unfold logBlowup
    omega
  rwa [exponent] at after

section Prover

variable {params : FriParams} {domain : LiftedDomain F} (reaches : params.Reaches domain) (beta : Nat -> EF)
  (f : EF[X])
include reaches

/-- The commit phase runs the number of rounds of the parameters. -/
theorem commitLoop_run :
    commitLoop (ε := ε) params.fold (params.finalPolyDegree domain * 2 ^ domain.logBlowup) beta
        domain.logLdeHeight 0 domain.ldeCoset.subgroup
        (shiftInverses F domain.logLdeHeight params.fold.logArity) (codeword F domain.logLdeHeight f) =
      .ok ((List.range (params.numRounds domain)).map (roundCodeword F params.fold domain.logLdeHeight beta f),
        roundCodeword F params.fold domain.logLdeHeight beta f (params.numRounds domain)) := by
  have enough : params.numRounds domain ≤ domain.logLdeHeight :=
    (Nat.le_mul_of_pos_right _ params.fold.logArity_pos).trans reaches.reach
  have size : domain.ldeCoset.subgroup.logSize =
      domain.logLdeHeight - 0 * params.fold.logArity := by
    rw [zero_mul]
    rfl
  have run := commitLoop_eq (ε := ε) params.fold beta f domain.ldeCoset.subgroup.bound reaches.reach
    reaches.running (Nat.sub_le_iff_le_add.mp le_rfl) (params.numRounds domain) domain.logLdeHeight 0
    domain.ldeCoset.subgroup (zero_add _) enough size
  rw [roundCodeword, zero_mul, Nat.sub_zero, ← range_eq_range', pow_add] at run
  exact run

/-- The prover sends the coefficients of the last polynomial. -/
theorem FriPolys.new_eq [DecidableEq F] {f : EF[X]}
    (small : f.degree < (2 ^ domain.logTraceHeight : Nat)) :
    new (ε := ε) params domain (codeword F domain.logLdeHeight f) beta =
      .ok ⟨(List.range (params.numRounds domain)).map (roundCodeword F params.fold domain.logLdeHeight beta f),
        (table (params.finalPolyDegree domain)
          (polyAfter params.fold.arity beta f (params.numRounds domain)).coeff).reverse⟩ := by
  have inside : domain.logLdeHeight ≤ twoAdicity F := domain.ldeCoset.subgroup.bound
  have inverted : (Coset.generatorInverse domain.ldeCoset.subgroup : Outcome ε F) =
      .ok (twoAdicGenerator domain.logLdeHeight)⁻¹ :=
        inverse_of_ne_zero (twoAdicGenerator_ne_zero inside)
  have run := commitLoop_run (ε := ε) reaches beta f
  set left := domain.logLdeHeight - params.numRounds domain * params.fold.logArity
  -- What is left of the domain is the blowup, up to the coefficients that are sent.
  have whole : left =
      left - domain.logBlowup + min domain.logBlowup left := by omega
  have short : left ≤ twoAdicity F := (sub_le _ _).trans inside
  have degree := degree_lastPoly_lt params domain beta small
  have final : reverseSliceIndexBits ((roundCodeword F params.fold domain.logLdeHeight beta f
      (params.numRounds domain)).take (params.finalPolyDegree domain)) =
      table (params.finalPolyDegree domain) (fun index =>
        (polyAfter params.fold.arity beta f (params.numRounds domain)).eval (algebraMap F EF (twoAdicGenerator
          (left - domain.logBlowup) ^ index))) := by
    have taken := reverse_take_codeword (F := F) (whole ▸ short)
      (polyAfter params.fold.arity beta f (params.numRounds domain))
    rw [← whole] at taken
    exact taken
  rw [new, inverted, ok_bind]
  have start := reverse_inverses (F := F) domain.logLdeHeight params.fold.logArity
  rw [← start] at run
  refine Eq.trans (congrArg (· >>= _) run) ?_
  rw [ok_bind, final]
  have restored := idft_table (F := F) ((sub_le _ _).trans short) degree
  exact congrArg (fun coeffs => Outcome.ok (mk _ (List.reverse coeffs))) restored

end Prover

/-! ## The query phase -/

namespace FriOracle

/-- The rows that a tree over the committed vectors opens to: the leaf of an
index in domain order is the stored row of the reversed index.  A tree opens no
empty set. -/
def openCommitted (fold : FriFold) (trees : List (List EF)) : OpenRound EF := fun round set =>
  if set.indices = [] then .err .invalidProof
  else .ok (fun row => if row ∈ set.indices then
    some (fold.matrixRow (trees.getD round []) (reverseBits set.depth row)) else none)

/-- The queried values are those of a polynomial at the queried points. -/
structure Tracks (F : Type) [Field F] [TwoAdicField F] [Algebra F EF] (evals : OrderedMap Nat EF)
    (set : TreeIndices) (f : EF[X]) : Prop where
  nonempty : set.indices ≠ []
  values : forall entry, entry ∈ evals.entries -> entry.1 ∈ set.indices ∧
    entry.2 = f.eval (algebraMap F EF (twoAdicGenerator set.depth ^ entry.1))

section Query

variable (fold : FriFold) {low : Nat} (bound : low + fold.logArity ≤ twoAdicity F)
include bound

omit [Algebra F EF] [Field EF] in
/-- A queried point in the row that is opened for it. -/
theorem rowPoint_query (index : Nat) (inside : index < 2 ^ (low + fold.logArity)) :
    rowPoint fold.logArity (twoAdicGenerator (low + fold.logArity) ^ (index % 2 ^ low))
        (reverseBits fold.logArity (index / 2 ^ low)) =
      (twoAdicGenerator (low + fold.logArity) : F) ^ index := by
  have high : index / 2 ^ low < 2 ^ fold.logArity := by
    rw [Nat.div_lt_iff_lt_mul (Nat.two_pow_pos low), ← pow_add, add_comm]
    exact inside
  rw [rowPoint, reverseBits_reverseBits high, ← generator_pow_low fold bound, ← pow_mul,
    ← pow_add, mod_add_div]

/-- The row opened for a query passes the check and folds to the next value. -/
theorem foldQuery_eq [DecidableEq EF] (f : EF[X]) (round : Nat) (beta : EF)
    (size : subgroup.logSize = low)
    {rows : Nat -> Option (List EF)} {index : Nat} (inside : index < 2 ^ (low + fold.logArity))
    (opened : rows (index % 2 ^ low) = some (fold.matrixRow (codeword F (low + fold.logArity) f)
        (reverseBits low (index % 2 ^ low)))) :
    foldQuery fold round beta subgroup (twoAdicGenerator (low + fold.logArity))⁻¹ rows
        (index, f.eval (algebraMap F EF (twoAdicGenerator (low + fold.logArity) ^ index))) =
      .ok (index % 2 ^ low, (foldPoly fold.arity beta f).eval
        (algebraMap F EF (twoAdicGenerator low ^ (index % 2 ^ low)))) := by
  have small : index % 2 ^ low < 2 ^ low := mod_lt _ (Nat.two_pow_pos low)
  have row := matrixRow_codeword fold bound f (reverseBits_lt low (index % 2 ^ low))
  rw [reverseBits_reverseBits small] at row
  have column : reverseBits fold.logArity (index / 2 ^ low) < fold.arity := reverseBits_lt _ _
  have value : (fold.matrixRow (codeword F (low + fold.logArity) f) (reverseBits low (index % 2 ^ low)))[
      reverseBits fold.logArity (index / 2 ^ low)]? =
        some (f.eval (algebraMap F EF (twoAdicGenerator (low + fold.logArity) ^ index))) := by
    rw [row, table, getElem?_map, getElem?_range column, Option.map_some,
      rowPoint_query fold bound index inside]
  rw [foldQuery, size]
  dsimp only
  rw [opened, okOr_some, ok_bind, ensure_of value, ok_bind, row, foldEvals_row fold bound]
  rfl

end Query

variable [DecidableEq EF]

/-- One round keeps the queried values on the polynomials. -/
theorem testRounds_step (fold : FriFold) (beta : EF) (rest : List EF) (round : Nat) (f : EF[X])
    {low : Nat} (bound : low + fold.logArity ≤ twoAdicity F) (trees : List (List EF))
    (committed : trees.getD round [] = codeword F (low + fold.logArity) f)
    (size : subgroup.logSize = low + fold.logArity) (depth : set.depth = low + fold.logArity)
    (tracks : Tracks F evals set f) :
    ∃ (folded : TwoAdicSubgroup F) (next : OrderedMap Nat EF) (shrunk : TreeIndices),
      folded.logSize = low ∧ shrunk.depth = low ∧
        Tracks F next shrunk (foldPoly fold.arity beta f) ∧
        testRounds fold (openCommitted fold trees) (beta :: rest) round subgroup
            (twoAdicGenerator (low + fold.logArity))⁻¹ evals set =
          testRounds fold (openCommitted fold trees) rest (round + 1) folded (twoAdicGenerator low)⁻¹ next
            shrunk := by
  have lower : low ≤ twoAdicity F := (Nat.le_add_right _ _).trans bound
  have target : set.depth - fold.logArity = low := by rw [depth, Nat.add_sub_cancel]
  set smaller := set.shrinkDepth fold.logArity
  have shrunkDepth : smaller.depth = low := target
  have members {index : Nat} (member : index ∈ set.indices) :
      index % 2 ^ low ∈ smaller.indices :=
    mem_fold.mpr ⟨index, member, by rw [target]⟩
  have nonempty : smaller.indices ≠ [] := by
    rcases exists_mem_of_ne_nil _ tracks.nonempty with ⟨index, member⟩
    exact ne_nil_of_mem (members member)
  let rows : Nat -> Option (List EF) := fun row => if row ∈ smaller.indices then
    some (fold.matrixRow (codeword F (low + fold.logArity) f) (reverseBits low row)) else none
  let answer (entry : Nat × EF) : Nat × EF := (entry.1 % 2 ^ low, (foldPoly fold.arity beta f).eval
    (algebraMap F EF (twoAdicGenerator low ^ (entry.1 % 2 ^ low))))
  have opened : openCommitted fold trees round smaller = .ok rows := by
    rw [openCommitted, if_neg nonempty, committed, shrunkDepth]
  have collected : Outcome.collect evals.entries (foldQuery fold round beta ⟨low, lower⟩
      (twoAdicGenerator (low + fold.logArity))⁻¹ rows) = .ok (evals.entries.map answer) := by
    refine collect_eq_ok_map _ (fun entry member => ?_)
    rcases tracks.values entry member with ⟨queried, value⟩
    have inside := set.bound entry.1 queried
    rw [depth] at inside value
    have pair : entry = (entry.1, f.eval (algebraMap F EF (twoAdicGenerator (low + fold.logArity) ^ entry.1))) :=
      Prod.ext rfl value
    rw [pair]
    exact foldQuery_eq fold bound f round beta rfl inside (if_pos (members queried))
  refine ⟨⟨low, lower⟩, empty.insertAll (evals.entries.map answer),
    smaller, rfl, shrunkDepth, ⟨nonempty, ?_⟩, ?_⟩
  rotate_left
  · rw [testRounds, shrink_of_size size lower, ok_bind]
    dsimp only
    rw [opened, mapErr_ok, ok_bind]
    refine Eq.trans (congrArg (· >>= _) collected) ?_
    rw [ok_bind, inv_pow, twoAdicGenerator_pow low fold.logArity bound]
  · intro entry member
    rcases mem_insertAll member with new | old
    · rcases mem_map.mp new with ⟨source, there, rfl⟩
      exact ⟨members (tracks.values source there).1, by rw [shrunkDepth]⟩
    · cases old

/-- The remaining rounds of the query phase. -/
theorem testRounds_eq (fold : FriFold) (beta : Nat -> EF) (f : EF[X]) {top rounds : Nat}
    (bound : top ≤ twoAdicity F) (reach : rounds * fold.logArity ≤ top) (left : Nat) :
    forall (round : Nat) (subgroup : TwoAdicSubgroup F) (evals : OrderedMap Nat EF) (set : TreeIndices),
      round + left = rounds -> subgroup.logSize = top - round * fold.logArity ->
      set.depth = top - round * fold.logArity ->
        Tracks F evals set (polyAfter fold.arity beta f round) ->
      ∃ (last : TwoAdicSubgroup F) (final : OrderedMap Nat EF) (shrunk : TreeIndices),
        last.logSize = top - rounds * fold.logArity ∧ shrunk.depth = top - rounds * fold.logArity ∧
          Tracks F final shrunk (polyAfter fold.arity beta f rounds) ∧
          testRounds fold (openCommitted fold ((List.range rounds).map (roundCodeword F fold top beta f)))
            ((List.range' round left).map beta) round subgroup
            (twoAdicGenerator (top - round * fold.logArity))⁻¹ evals set = .ok (last, final) := by
  induction left with
  | zero =>
    intro round subgroup evals set done size depth tracks
    subst done
    exact ⟨subgroup, evals, set, size, depth, tracks, rfl⟩
  | succ left ih =>
    intro round subgroup evals set done size depth tracks
    have before : round < rounds := by omega
    have split := fold.size_split reach before
    have committed : ((List.range rounds).map (roundCodeword F fold top beta f)).getD round [] =
          codeword F (top - (round + 1) * fold.logArity + fold.logArity) (polyAfter fold.arity beta f round) := by
      rw [← split]
      exact getD_table before _ _
    rw [split] at size depth
    rcases testRounds_step fold (beta round) ((List.range' (round + 1) left).map beta) round
        (polyAfter fold.arity beta f round) (split ▸ (sub_le _ _).trans bound) _ committed size depth tracks with
      ⟨folded, nextEvals, shrunk, foldedSize, shrunkDepth, follows, stepped⟩
    rcases ih (round + 1) folded nextEvals shrunk (by omega) foldedSize shrunkDepth follows with
      ⟨last, final, deepest, lastSize, lastDepth, finals, ran⟩
    refine ⟨last, final, deepest, lastSize, lastDepth, finals, ?_⟩
    rw [range'_succ, map_cons, split, stepped, ran]

omit [TwoAdicField F] [Algebra F EF] [DecidableEq EF] in
/-- Horner's scheme on the coefficients, the highest first. -/
theorem hornerAcc_coeffs {f : EF[X]} {size : Nat} (small : f.degree < size) (x : EF) :
    hornerAcc 0 x (table size f.coeff).reverse = f.eval x := by
  rw [reverse_table, hornerAcc_table, zero_mul, zero_add, eval_eq_sum_of_degree_lt small,
    ← Finset.sum_range_reflect (fun index => f.coeff index * x ^ index)]
  exact Finset.sum_congr rfl (fun index _ => mul_comm _ _)

variable [DecidableEq F]

/-- The verifier accepts the openings of an honest run. -/
theorem testLowDegree_accepts {params : FriParams} {domain : LiftedDomain F}
    (reaches : params.Reaches domain)
    (beta : Nat -> EF) {f : EF[X]} (small : f.degree < (2 ^ domain.logTraceHeight : Nat))
    (depth : set.depth = domain.logLdeHeight) (tracks : Tracks F evals set f) :
    testLowDegree ⟨domain.ldeCoset.subgroup, (List.range (params.numRounds domain)).map beta,
        (table (params.finalPolyDegree domain)
          (polyAfter params.fold.arity beta f (params.numRounds domain)).coeff).reverse⟩ params
      (openCommitted params.fold ((List.range (params.numRounds domain)).map
        (roundCodeword F params.fold domain.logLdeHeight beta f))) evals set = .ok () := by
  have inside : domain.logLdeHeight ≤ twoAdicity F := domain.ldeCoset.subgroup.bound
  have inverted : (Coset.generatorInverse domain.ldeCoset.subgroup : Outcome FriError F) =
      .ok (twoAdicGenerator domain.logLdeHeight)⁻¹ :=
        inverse_of_ne_zero (twoAdicGenerator_ne_zero inside)
  have start : domain.logLdeHeight - 0 * params.fold.logArity = domain.logLdeHeight := by
    rw [zero_mul, Nat.sub_zero]
  rcases testRounds_eq params.fold beta f inside reaches.reach (params.numRounds domain) 0
      domain.ldeCoset.subgroup evals set (zero_add _) start.symm (depth.trans start.symm) tracks with
    ⟨last, final, shrunk, lastSize, shrunkDepth, finals, ran⟩
  rw [start, ← range_eq_range'] at ran
  have degree := degree_lastPoly_lt params domain beta small
  rw [testLowDegree, inverted, ok_bind]
  refine Eq.trans (congrArg (· >>= _) ran) ?_
  rw [ok_bind, forEach_eq_ok]
  intro entry member
  rw [ensure_eq_ok, hornerAcc_coeffs degree, (finals.values entry member).2,
    shrunkDepth, ← lastSize]
  rfl

end FriOracle

/-! ## Accepted parameters -/

/-- The folds of accepted parameters stop at a reachable size. -/
theorem PcsParams.target_of_new
    {logBlowup logFoldingArity logFinalDegree foldingPowBits deepPowBits numQueries
    queryPowBits : Nat} {params : PcsParams}
    (accepted : PcsParams.new logBlowup logFoldingArity logFinalDegree foldingPowBits deepPowBits numQueries
      queryPowBits = .ok params) :
    params.fri.fold.logArity - 1 ≤ params.fri.logFinalDegree + params.logBlowup := by
  unfold PcsParams.new at accepted
  rcases bind_eq_ok.mp accepted with ⟨fold, _, continued⟩
  rcases bind_unit_eq_ok.mp continued with ⟨_, continued⟩
  rcases bind_unit_eq_ok.mp continued with ⟨_, continued⟩
  rcases bind_unit_eq_ok.mp continued with ⟨reachable, done⟩
  cases done
  exact (Nat.le_of_not_lt (ensure_eq_ok.mp reachable)).trans (Nat.min_le_right _ _)

section Honest

variable [DecidableEq F] [DecidableEq EF]

/-- An honest run of FRI on a domain whose last fold does not pass its end, such
as one of at least the blowup of accepted parameters: the commit phase runs the
rounds and sends the coefficients that the parameters say, every vector is the
codeword of the fold of the one before it, and the verifier accepts the openings
at every query. -/
theorem fri_accepts_honest_run (params : FriParams) (domain : LiftedDomain F)
    (target : params.fold.logArity - 1 ≤ params.logFinalDegree + domain.logBlowup) {f : EF[X]}
    (small : f.degree < (2 ^ domain.logTraceHeight : Nat)) (beta : Nat -> EF) :
    (∃ run, FriPolys.new (ε := ε) params domain (codeword F domain.logLdeHeight f) beta = .ok run ∧
      params.numRounds domain * params.fold.logArity ≤ domain.logLdeHeight ∧
      run.foldedTrees = (List.range (params.numRounds domain)).map (fun round =>
        codeword F (domain.logLdeHeight - round * params.fold.logArity)
          (polyAfter params.fold.arity beta f round)) ∧
      FriPolys.commitLoop (ε := ε) params.fold (params.finalPolyDegree domain * 2 ^ domain.logBlowup) beta
          domain.logLdeHeight 0 domain.ldeCoset.subgroup
          (shiftInverses F domain.logLdeHeight params.fold.logArity) (codeword F domain.logLdeHeight f) =
        .ok (run.foldedTrees,
          codeword F (domain.logLdeHeight - params.numRounds domain * params.fold.logArity)
            (polyAfter params.fold.arity beta f (params.numRounds domain))) ∧
      run.finalPoly.length = params.finalPolyDegree domain ∧
      forall set : TreeIndices, set.depth = domain.logLdeHeight -> set.indices ≠ [] ->
        FriOracle.testLowDegree ⟨domain.ldeCoset.subgroup,
          (List.range (params.numRounds domain)).map beta,
            run.finalPoly⟩ params (FriOracle.openCommitted params.fold run.foldedTrees)
          (OrderedMap.empty.insertAll (set.indices.map (fun index =>
            (index, f.eval (algebraMap F EF (twoAdicGenerator domain.logLdeHeight ^ index))))))
              set = .ok ()) ∧
    (forall (arity : Nat) (challenge : EF) (g : EF[X]), 0 < arity ->
      ∑ residue ∈ Finset.range arity, X ^ residue * expand EF arity (splitPart arity g residue) =
        g ∧ foldPoly arity challenge g =
          ∑ residue ∈ Finset.range arity, C (challenge ^ residue) * splitPart arity g residue) ∧
    forall (fold : FriFold) (s : F) (row : List EF) (challenge : EF),
      fold.logArity ≤ twoAdicity F -> s ≠ 0 -> row.length = fold.arity ->
      ∃ p : EF[X], (p.degree < fold.arity ∧ forall column, column < fold.arity ->
          p.eval (algebraMap F EF (FriFold.rowPoint fold.logArity s column)) = row.getD column 0) ∧
        (forall q : EF[X], q.degree < fold.arity -> (forall column, column < fold.arity ->
          q.eval (algebraMap F EF (FriFold.rowPoint fold.logArity s column)) =
            row.getD column 0) -> q = p) ∧
        fold.foldEvals row s⁻¹ challenge = p.eval challenge := by
  have reaches := params.reaches_of_le domain target
  refine ⟨⟨_, new_eq reaches beta small, reaches.reach, rfl, commitLoop_run reaches beta f, ?_, ?_⟩,
    fun arity challenge g positive => ⟨sum_splitPart positive g, rfl⟩,
    fun fold s row challenge bound nonzero width => foldEvals_interpolates fold bound nonzero width challenge⟩
  · rw [length_reverse, length_table]
  · intro set depth nonempty
    refine testLowDegree_accepts reaches beta small depth ⟨nonempty, fun entry member => ?_⟩
    rcases mem_insertAll member with queried | old
    · rcases mem_map.mp queried with ⟨index, there, rfl⟩
      exact ⟨there, by rw [depth]⟩
    · cases old

end Honest

/-- The last round of this run leaves a single value, below the blowup. -/
theorem fri_accepts_honest_run_seventh_power : ∃ params,
    PcsParams.new 1 2 0 0 0 1 0 = .ok params ∧ ∃ domain : LiftedDomain Felt,
      LiftedDomain.tryCanonical 3 1 = .ok domain ∧ params.fri.numRounds domain = 2 ∧
        params.fri.finalPolyDegree domain = 1 ∧
        ∃ run, FriPolys.new (ε := Unit) params.fri domain (codeword Felt domain.logLdeHeight (X ^ 7 : Felt[X]))
            (fun round => round + 5) = .ok run ∧
              run.finalPoly.length = params.fri.finalPolyDegree domain ∧
          forall set : TreeIndices, set.depth = domain.logLdeHeight -> set.indices ≠ [] ->
            FriOracle.testLowDegree ⟨domain.ldeCoset.subgroup,
                (List.range (params.fri.numRounds domain)).map (fun round => (round + 5 : Felt)),
                run.finalPoly⟩
              params.fri (FriOracle.openCommitted params.fri.fold run.foldedTrees)
              (OrderedMap.empty.insertAll (set.indices.map (fun index =>
                (index, (X ^ 7 : Felt[X]).eval (algebraMap Felt Felt
                  (twoAdicGenerator domain.logLdeHeight ^ index)))))) set = .ok () := by
  have degree : (X ^ 7 : Felt[X]).degree < (2 ^ 3 : Nat) := by
    rw [degree_X_pow]
    exact_mod_cast (by decide : 7 < 8)
  have accepted : PcsParams.new 1 2 0 0 0 1 0 =
      .ok ⟨1, 0, ⟨⟨2, .inr (.inl rfl)⟩, 0, 0⟩, 1, 0⟩ := rfl
  rcases (fri_accepts_honest_run (ε := Unit) _ (ofSizes (F := Felt) 3 4 0 (by decide) (by decide))
    (PcsParams.target_of_new accepted) degree (fun round => round + 5)).1 with ⟨run, ran, _, _, _,
      length, accepts⟩
  exact ⟨_, rfl, _, rfl, by decide, by decide, run, ran, length, accepts⟩

/-- A domain of a smaller blowup than the parameters' is folded below size one,
and no round opens an empty set of queries. -/
theorem fri_blowup_and_queries_needed :
    (∃ params, PcsParams.new 1 3 1 0 0 1 0 = .ok params ∧ ∃ domain : LiftedDomain Felt,
      LiftedDomain.tryCanonical 2 0 = .ok domain ∧
        FriPolys.new (ε := Unit) params.fri domain (codeword Felt domain.logLdeHeight (1 : Felt[X]))
          (fun _ => 0) = .panic) ∧
    (∃ params, PcsParams.new 1 2 0 0 0 1 0 = .ok params ∧ ∃ domain : LiftedDomain Felt,
      LiftedDomain.tryCanonical 3 1 = .ok domain ∧
        ∃ set : TreeIndices, set.depth = domain.logLdeHeight ∧
        set.indices = [] ∧ forall (trees : List (List Felt)) (finalPoly : List Felt),
          FriOracle.testLowDegree ⟨domain.ldeCoset.subgroup, [0, 0], finalPoly⟩ params.fri
            (FriOracle.openCommitted params.fri.fold trees) OrderedMap.empty set =
              .err (.lmcsError .invalidProof 0)) := by
  have inverted (log : Nat) (bound : log ≤ twoAdicity Felt) {ε : Type} :
      (inverse (twoAdicGenerator log : Felt) : Outcome ε Felt) = .ok (twoAdicGenerator log)⁻¹ :=
    inverse_of_ne_zero (twoAdicGenerator_ne_zero bound)
  constructor
  · refine ⟨⟨1, 0, ⟨⟨3, .inr (.inr rfl)⟩, 1, 0⟩, 1, 0⟩, rfl,
      ofSizes 2 2 0 (by decide) (by decide), rfl, ?_⟩
    refine Eq.trans (congrArg (· >>= _) (inverted 2 (by decide))) ?_
    rfl
  · refine ⟨⟨1, 0, ⟨⟨2, .inr (.inl rfl)⟩, 0, 0⟩, 1, 0⟩, rfl,
      ofSizes 3 4 0 (by decide) (by decide), rfl,
      ⟨[], 4, List.Pairwise.nil, forall_mem_nil _⟩, rfl, rfl,
      fun trees finalPoly => ?_⟩
    have none : (mk [] 4 List.Pairwise.nil (forall_mem_nil _)
        |>.shrinkDepth 2).indices = [] := by decide +kernel
    refine Eq.trans (congrArg (· >>= _) (inverted 4 (by decide))) ?_
    simp only [ok_bind, testRounds, openCommitted, if_pos none]
    rfl

end MidenVm.Stark
