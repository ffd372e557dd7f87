import MidenVm.Stark.OodSpec

namespace MidenVm.Stark

open Foundation List Outcome DeepOracle DeepPoly LiftedDomain PointQuotients Coset
open Foundation.TwoAdicField
open Polynomial

/-!
# Prover and verifier compute one quotient

Both sides reduce all columns to one value with powers of a challenge.  The
verifier runs Horner's scheme over zero-padded rows; the prover multiplies each
column with its coefficient, adds up matrices of one height, and repeats the
values where the height grows.  Here both are compared with one sum over the
columns, in which each has its own power.  The sum is the value of a
polynomial of small degree, and so is the quotient.
-/

/-! ## Padded rows -/

section Padding

variable {R : Type} [CommRing R]

theorem map_iterAligned {S : Type} [CommRing S] (f : R →+* S) (rows : List (List R))
    (alignment : Nat) :
    (iterAligned rows alignment).map f = iterAligned (rows.map (List.map f)) alignment := by
  induction rows with
  | nil => rfl
  | cons row rest ih =>
    simp only [iterAligned, flatMap_cons, map_append, map_cons, map_replicate, map_zero, length_map]
    exact congrArg _ ih

end Padding

/-! ## One sum over all columns -/

variable {F EF : Type} [Field F] [Field EF] [Algebra F EF] {N : Nat}
variable {matrices : List (Matrix F)} {matrix : Matrix F} {held : List (Matrix F × List EF)}
  {groups : List (List (Matrix F × List EF))} {bound : Nat}

/-- The number of columns, with padding. -/
def alignedWidth (alignment : Nat) (matrices : List (Matrix F)) : Nat :=
  (matrices.map (fun matrix => alignedLen matrix.width alignment)).sum

/-- The power that a column of the first matrix gets. -/
def columnPower (alignment : Nat) (matrix : Matrix F) (rest : List (Matrix F)) (column : Nat) : Nat :=
  alignedWidth alignment rest + (alignedLen matrix.width alignment - 1 - column)

/-- The sum over all columns of a value, each with its power of the challenge:
the first column has the highest. -/
def reduceColumns {R : Type} [CommRing R] (challenge : R) (alignment : Nat)
    (value : Matrix F -> Nat -> R) : List (Matrix F) -> R
  | [] => 0
  | matrix :: rest =>
    ∑ column ∈ Finset.range matrix.width,
      challenge ^ columnPower alignment matrix rest column * value matrix column +
    reduceColumns challenge alignment value rest

section Reduce

variable {R : Type} [CommRing R] {challenge : R} {alignment : Nat}

omit [Field F] in
theorem reduceColumns_congr {value other : Matrix F -> Nat -> R}
    (same : forall matrix, matrix ∈ matrices -> forall column, column < matrix.width ->
        value matrix column = other matrix column) :
    reduceColumns challenge alignment value matrices =
      reduceColumns challenge alignment other matrices := by
  induction matrices with
  | nil => rfl
  | cons matrix rest ih =>
    rw [reduceColumns, reduceColumns, ih (fun held member => same held (mem_cons_of_mem matrix member))]
    congr 1
    refine Finset.sum_congr rfl (fun column member => ?_)
    rw [same matrix mem_cons_self column (Finset.mem_range.mp member)]

omit [Field F] in
/-- Horner's scheme over the padded rows is that sum. -/
theorem hornerAcc_iterAligned (acc : R) (value : Matrix F -> Nat -> R)
    (matrices : List (Matrix F)) : hornerAcc acc challenge
        (iterAligned (matrices.map (fun matrix => table matrix.width (value matrix))) alignment) =
      acc * challenge ^ alignedWidth alignment matrices + reduceColumns challenge alignment value matrices := by
  induction matrices generalizing acc with
  | nil =>
    change acc = acc * challenge ^ 0 + 0
    rw [pow_zero, mul_one, add_zero]
  | cons matrix rest ih =>
    have wide := le_alignedLen matrix.width alignment
    have padded : alignedLen matrix.width alignment =
        matrix.width + (alignedLen matrix.width alignment - matrix.width) := by omega
    have total : alignedWidth alignment (matrix :: rest) =
        alignedLen matrix.width alignment + alignedWidth alignment rest := sum_cons
    rw [map_cons]
    change hornerAcc acc challenge ((table matrix.width (value matrix) ++ List.replicate
      (alignedLen (table matrix.width (value matrix)).length alignment -
        (table matrix.width (value matrix)).length) 0) ++ iterAligned _ alignment) = _
    rw [hornerAcc_append, hornerAcc_append, length_table, hornerAcc_table,
      hornerAcc_replicate_zero, ih,
      reduceColumns, total, add_mul, add_mul, mul_assoc acc, ← pow_add, ← padded,
      mul_assoc acc, ← pow_add,
      Finset.sum_mul, Finset.sum_mul, add_assoc]
    congr 2
    refine Finset.sum_congr rfl (fun column member => ?_)
    have below := Finset.mem_range.mp member
    have power : columnPower alignment matrix rest column = matrix.width - 1 - column +
        (alignedLen matrix.width alignment - matrix.width) + alignedWidth alignment rest := by
      rw [columnPower]
      omega
    rw [power, pow_add, pow_add]
    ring

end Reduce

/-! ## The prover's reduction -/

namespace DeepPoly

variable {alignment : Nat} (challenge : EF)

/-- The coefficients of all matrices, padding included. -/
def columnCoeffs (challenge : EF) (alignment : Nat) : List (Matrix F) -> List (List EF)
  | [] => []
  | matrix :: rest =>
    table (alignedLen matrix.width alignment)
      (fun column => -challenge ^ columnPower alignment matrix rest column) ::
    columnCoeffs challenge alignment rest

/-- Powers in descending order, split at the first matrix. -/
theorem take_reverse_powers (first rest : Nat) :
    ((table (first + rest) (fun power => -1 * challenge ^ power)).reverse).take first =
        table first (fun column => -challenge ^ (rest + (first - 1 - column))) ∧
      ((table (first + rest) (fun power => -1 * challenge ^ power)).reverse).drop first =
        (table rest (fun power => -1 * challenge ^ power)).reverse := by
  have split : table (first + rest) (fun power => -1 * challenge ^ power) =
      table rest (fun power => -1 * challenge ^ power) ++
        table first (fun power => -1 * challenge ^ (rest + power)) := by
    rw [table, add_comm, range_add, map_append, map_map]
    rfl
  have upper : (table first (fun power => -1 * challenge ^ (rest + power))).reverse =
      table first (fun column => -challenge ^ (rest + (first - 1 - column))) := by
    rw [reverse_table]
    simp only [neg_one_mul]
  rw [split, reverse_append, upper]
  constructor
  · rw [take_append_of_le_length (length_table _ _).ge, take_of_length_le (length_table _ _).le]
  · rw [drop_append_of_le_length (length_table _ _).ge,
      drop_of_length_le (length_table _ _).le, nil_append]

omit [Field F] in
theorem negColumnCoeffs_eq (matrices : List (Matrix F)) :
    negColumnCoeffs challenge (matrices.map (fun matrix => alignedLen matrix.width alignment)) =
      columnCoeffs challenge alignment matrices := by
  induction matrices with
  | nil => rfl
  | cons matrix rest ih =>
    have parts := take_reverse_powers challenge (alignedLen matrix.width alignment)
      (alignedWidth alignment rest)
    rw [negColumnCoeffs, map_cons, sum_cons, splitWidths]
    change (((table (alignedLen matrix.width alignment + alignedWidth alignment rest) _).reverse).take _) ::
      splitWidths _ (((table (alignedLen matrix.width alignment + alignedWidth alignment rest) _).reverse).drop
        _) = _
    rw [parts.1, parts.2, columnCoeffs]
    exact congrArg _ ih

omit [Field F] in
theorem length_columnCoeffs (matrices : List (Matrix F)) :
    (columnCoeffs challenge alignment matrices).length = matrices.length := by
  induction matrices with
  | nil => rfl
  | cons matrix rest ih => rw [columnCoeffs, length_cons, length_cons, ih]

omit [Field F] [Field EF] in
/-- The coefficients of the first group and those of the others. -/
theorem length_take_drop {rest : List (List (Matrix F))} {coeffs : List (List EF)}
    (count : coeffs.length = (matrices :: rest).flatten.length) :
    (coeffs.take matrices.length).length = matrices.length ∧
      (coeffs.drop matrices.length).length = rest.flatten.length := by
  rw [flatten_cons, length_append] at count
  rw [length_take, length_drop, count]
  exact ⟨Nat.min_eq_left (Nat.le_add_right _ _), Nat.add_sub_cancel_left _ _⟩

omit [Field F] [Field EF] in
/-- The groups split the list of all matrices with their coefficients. -/
theorem flatten_groupCoeffs (groups : List (List (Matrix F))) (coeffs : List (List EF))
    (count : coeffs.length = groups.flatten.length) :
    (groupCoeffs groups coeffs).flatten = groups.flatten.zip coeffs := by
  induction groups generalizing coeffs with
  | nil => rfl
  | cons matrices rest ih =>
    rcases length_take_drop count with ⟨size, restCount⟩
    rw [groupCoeffs, flatten_cons, flatten_cons, ih _ restCount, ← zip_append size.symm,
      take_append_drop]

omit [Field F] [Field EF] in
/-- Each group keeps its matrices. -/
theorem map_fst_groupCoeffs (groups : List (List (Matrix F))) (coeffs : List (List EF))
    (count : coeffs.length = groups.flatten.length) :
    (groupCoeffs groups coeffs).map (List.map Prod.fst) = groups := by
  induction groups generalizing coeffs with
  | nil => rfl
  | cons matrices rest ih =>
    rcases length_take_drop count with ⟨size, restCount⟩
    rw [groupCoeffs, map_cons, ih _ restCount, map_fst_zip size.ge]

/-- The reduced rows of all matrices at a stored position of the domain. -/
def liftedSum (logLde : Nat) (held : List (Matrix F × List EF)) (index : Nat) : EF :=
  (held.map (fun entry => dotRow entry.1 entry.2 (index / 2 ^ (logLde - entry.1.logHeight)))).sum

/-- With the coefficients of the columns it is the negated sum over all columns. -/
theorem liftedSum_zip (logLde : Nat) (matrices : List (Matrix F)) (index : Nat) :
    liftedSum logLde (matrices.zip (columnCoeffs challenge alignment matrices)) index =
      -reduceColumns challenge alignment (fun matrix column => algebraMap F EF
        (matrix.entry (index / 2 ^ (logLde - matrix.logHeight)) column)) matrices := by
  induction matrices with
  | nil => exact neg_zero.symm
  | cons matrix rest ih =>
    have tail : liftedSum logLde ((matrix :: rest).zip (columnCoeffs challenge alignment (matrix :: rest)))
        index = dotRow matrix (table (alignedLen matrix.width alignment)
          (fun column => -challenge ^ columnPower alignment matrix rest column))
          (index / 2 ^ (logLde - matrix.logHeight)) +
        liftedSum logLde (rest.zip (columnCoeffs challenge alignment rest)) index := sum_cons
    rw [tail, ih, reduceColumns, neg_add, ← Finset.sum_neg_distrib, dotRow]
    congr 1
    refine Finset.sum_congr rfl (fun column member => ?_)
    have inside := (Finset.mem_range.mp member).trans_le (le_alignedLen matrix.width alignment)
    rw [getD_table inside, mul_neg, mul_comm]

/-! ### Buffers of smaller height -/

/-- A buffer of `2^log` values, each repeated over the stored positions of the
domain, holds a function on it. -/
structure Holds (logLde log : Nat) (buffer : List EF) (value : Nat -> EF) : Prop where
  le_lde : log ≤ logLde
  length_eq : buffer.length = 2 ^ log
  getD_eq : forall index, index < 2 ^ logLde ->
    buffer.getD (index / 2 ^ (logLde - log)) 0 = value index

section Holds

variable {logLde log : Nat} {buffer : List EF} {value : Nat -> EF}

theorem Holds.congr {other : Nat -> EF} (holds : Holds logLde log buffer value)
    (same : forall index, value index = other index) : Holds logLde log buffer other :=
  ⟨holds.le_lde, holds.length_eq, fun index inside => (holds.getD_eq index inside).trans (same index)⟩

theorem holds_replicate_zero (le_lde : log ≤ logLde) :
    Holds logLde log (List.replicate (2 ^ log) (0 : EF)) (fun _ => 0) := by
  refine ⟨le_lde, length_replicate, fun index _ => ?_⟩
  rw [getD_eq_getElem?_getD, getElem?_replicate]
  split <;> rfl

theorem div_lt_of_lt_lde (le_lde : log ≤ logLde) {index : Nat} (inside : index < 2 ^ logLde) :
    index / 2 ^ (logLde - log) < 2 ^ log := by
  rw [Nat.div_lt_iff_lt_mul (Nat.two_pow_pos _), ← pow_add, Nat.add_sub_cancel' le_lde]
  exact inside

omit [Field EF] in
theorem length_upsample (factor : Nat) (values : List EF) :
    (upsample factor values).length = values.length * factor := by
  rw [upsample, length_flatMap]
  simp

theorem getD_upsample {factor : Nat} (positive : 0 < factor) (values : List EF) (index : Nat) :
    (upsample factor values).getD index 0 = values.getD (index / factor) 0 := by
  induction values generalizing index with
  | nil => rfl
  | cons first rest ih =>
    have shape : upsample factor (first :: rest) =
        List.replicate factor first ++ upsample factor rest := rfl
    rw [shape]
    rcases lt_or_ge index factor with inside | beyond
    · rw [getD_append _ _ _ _ (by rwa [length_replicate]), Nat.div_eq_of_lt inside,
        getD_cons_zero, getD_replicate _ inside]
    · rw [getD_append_right _ _ _ _ (by rwa [length_replicate]), length_replicate, ih,
        Nat.div_eq_sub_div positive beyond, getD_cons_succ]

/-- Raising the height keeps the function. -/
theorem Holds.upsample (holds : Holds logLde log buffer value) {higher : Nat} (grows : log ≤ higher)
    (le_lde : higher ≤ logLde) :
    Holds logLde higher (upsample (2 ^ higher / 2 ^ log) buffer) value := by
  have factor : 2 ^ higher / 2 ^ log = 2 ^ (higher - log) := Nat.pow_div grows two_pos
  refine ⟨le_lde, ?_, fun index inside => ?_⟩
  · rw [length_upsample, holds.length_eq, factor, ← pow_add, Nat.add_sub_cancel' grows]
  · have steps : logLde - log = logLde - higher + (higher - log) := by omega
    rw [factor, getD_upsample (Nat.two_pow_pos _), Nat.div_div_eq_div_mul, ← pow_add, ← steps]
    exact holds.getD_eq index inside

/-- Adding the rows of a matrix of the height of the buffer. -/
theorem Holds.addRows (holds : Holds logLde matrix.logHeight buffer value) (coeffs : List EF) :
    Holds logLde matrix.logHeight (addRows matrix coeffs buffer) (fun index =>
      value index + dotRow matrix coeffs (index / 2 ^ (logLde - matrix.logHeight))) := by
  refine ⟨holds.le_lde, (length_table _ _).trans holds.length_eq, fun index inside => ?_⟩
  have position := div_lt_of_lt_lde holds.le_lde inside
  rw [DeepPoly.addRows, getD_table (holds.length_eq ▸ position), holds.getD_eq index inside]

/-- Adding buffers of two heights. -/
theorem Holds.addLifted {otherLog : Nat} {other : List EF} {otherValue : Nat -> EF}
    (holds : Holds logLde log buffer value) (held : Holds logLde otherLog other otherValue) :
    Holds logLde (max log otherLog) (addLifted buffer other)
      (fun index => value index + otherValue index) := by
  -- The sum of a long and a short buffer, in either order of the arguments.
  have sum {long short : Nat} {tall low : List EF} {first second : Nat -> EF}
      (order : short ≤ long) (holdsTall : Holds logLde long tall first)
      (holdsLow : Holds logLde short low second) :
      Holds logLde long (table tall.length (fun index =>
        tall.getD index 0 + low.getD (index / (tall.length / low.length)) 0))
          (fun index => first index + second index) := by
    refine ⟨holdsTall.le_lde, (length_table _ _).trans holdsTall.length_eq, fun index inside => ?_⟩
    have position := div_lt_of_lt_lde holdsTall.le_lde inside
    have ratio : tall.length / low.length = 2 ^ (long - short) := by
      rw [holdsTall.length_eq, holdsLow.length_eq, Nat.pow_div order two_pos]
    have above := holdsTall.le_lde
    have steps : logLde - short = logLde - long + (long - short) := by omega
    rw [getD_table (holdsTall.length_eq ▸ position), holdsTall.getD_eq index inside, ratio,
      Nat.div_div_eq_div_mul, ← pow_add, ← steps, holdsLow.getD_eq index inside]
  have compare : other.length ≤ buffer.length ↔ otherLog ≤ log := by
    rw [holds.length_eq, held.length_eq, Nat.pow_le_pow_iff_right one_lt_two]
  by_cases order : otherLog ≤ log
  · rw [DeepPoly.addLifted, if_pos (compare.mpr order), if_pos (compare.mpr order),
      max_eq_left order]
    exact sum order holds held
  · have reversed : log ≤ otherLog := (Nat.lt_of_not_le order).le
    rw [DeepPoly.addLifted, if_neg (fun le => order (compare.mp le)),
      if_neg (fun le => order (compare.mp le)), max_eq_right reversed]
    exact (sum reversed held holds).congr (fun index => add_comm _ _)

end Holds

/-! ### All matrices -/

variable {value : Nat -> EF}

section Accumulate

variable {logLde : Nat}

theorem liftedSum_cons (entry : Matrix F × List EF) (rest : List (Matrix F × List EF))
    (index : Nat) : liftedSum logLde (entry :: rest) index =
      dotRow entry.1 entry.2 (index / 2 ^ (logLde - entry.1.logHeight)) + liftedSum logLde rest index :=
  sum_cons

theorem liftedSum_append (first second : List (Matrix F × List EF)) (index : Nat) :
    liftedSum logLde (first ++ second) index =
      liftedSum logLde first index + liftedSum logLde second index := by
  rw [liftedSum, map_append, sum_append]
  rfl

/-- Matrices of the full height are added up in place. -/
theorem holds_foldl_addRows (full : forall entry, entry ∈ held -> entry.1.logHeight = logLde)
    {buffer : List EF} (holds : Holds logLde logLde buffer value) :
    Holds logLde logLde (held.foldl (fun acc entry => addRows entry.1 entry.2 acc) buffer)
      (fun index => value index + liftedSum logLde held index) := by
  induction held generalizing buffer value with
  | nil => exact holds.congr (fun index => (add_zero _).symm)
  | cons entry rest ih =>
    have height := full entry mem_cons_self
    have first :=
      (height.symm ▸ holds : Holds logLde entry.1.logHeight buffer value).addRows entry.2
    have others := ih (fun other member => full other (mem_cons_of_mem entry member))
      (height ▸ first)
    refine others.congr (fun index => ?_)
    rw [liftedSum_cons, height, add_assoc]

/-- The loop over matrices of ascending height. -/
theorem holds_accumulateLoop (le_lde : forall entry, entry ∈ held -> entry.1.logHeight ≤ logLde)
    {log : Nat} {buffer : List EF} (holds : Holds logLde log buffer value)
    (above : forall entry, entry ∈ held -> log ≤ entry.1.logHeight)
    (ascending : held.Pairwise (fun first second => first.1.logHeight ≤ second.1.logHeight)) :
    ∃ last, Holds logLde last (accumulateLoop held buffer)
        (fun index => value index + liftedSum logLde held index) ∧
      log ≤ last ∧ forall entry, entry ∈ held -> entry.1.logHeight ≤ last := by
  induction held generalizing log buffer value with
  | nil =>
    refine ⟨log, holds.congr (fun index => (add_zero _).symm), le_rfl, ?_⟩
    exact forall_mem_nil _
  | cons entry rest ih =>
    rcases pairwise_cons.mp ascending with ⟨below, tail⟩
    have grows := above entry mem_cons_self
    -- The buffer is raised to the height of the matrix, if it is not there already.
    have raised : Holds logLde entry.1.logHeight
        (if entry.1.height > buffer.length then upsample (entry.1.height / buffer.length) buffer
          else buffer) value := by
      rw [holds.length_eq, Matrix.height]
      by_cases higher : 2 ^ entry.1.logHeight > 2 ^ log
      · rw [if_pos higher]
        exact holds.upsample grows (le_lde entry mem_cons_self)
      · have same : log = entry.1.logHeight :=
          le_antisymm grows ((Nat.pow_le_pow_iff_right one_lt_two).mp (Nat.le_of_not_lt higher))
        rw [if_neg higher]
        exact same ▸ holds
    rcases ih (fun other member => le_lde other (mem_cons_of_mem entry member))
      (raised.addRows entry.2) below tail with ⟨last, accumulated, order, bounded⟩
    refine ⟨last, accumulated.congr (fun index => ?_), grows.trans order, ?_⟩
    · rw [liftedSum_cons, add_assoc]
    · intro other member
      rcases mem_cons.mp member with rfl | later
      · exact order
      · exact bounded other later

/-- A buffer of the largest height of some matrices holds their sum. -/
def Sums (logLde : Nat) (held : List (Matrix F × List EF)) (buffer : List EF) : Prop :=
  ∃ last, Holds logLde last buffer (liftedSum logLde held) ∧
    forall entry, entry ∈ held -> entry.1.logHeight ≤ last

/-- Each group of matrices is summed up. -/
theorem accumulateMatrices_eq {ε : Type} (some : held ≠ [])
    (le_lde : forall entry, entry ∈ held -> entry.1.logHeight ≤ logLde)
    (ascending : held.Pairwise (fun first second => first.1.logHeight ≤ second.1.logHeight)) :
    ∃ buffer, (accumulateMatrices held : Outcome ε (List EF)) = .ok buffer ∧
      Sums logLde held buffer := by
  cases held with
  | nil => exact absurd rfl some
  | cons entry rest =>
    have start : Holds logLde entry.1.logHeight (List.replicate entry.1.height (0 : EF)) (fun _ => 0) :=
      holds_replicate_zero (le_lde entry mem_cons_self)
    have above : forall other, other ∈ entry :: rest -> entry.1.logHeight ≤ other.1.logHeight :=
      forall_mem_cons.mpr ⟨le_rfl, (pairwise_cons.mp ascending).1⟩
    rcases holds_accumulateLoop le_lde start above ascending with ⟨last, accumulated, _, bounded⟩
    exact ⟨_, rfl, last, accumulated.congr (fun index => zero_add _), bounded⟩

theorem Sums.addLifted {others : List (Matrix F × List EF)} {buffer other : List EF}
    (sums : Sums logLde held buffer) (more : Sums logLde others other) :
    Sums logLde (held ++ others) (addLifted buffer other) := by
  rcases sums with ⟨log, holds, bounded⟩
  rcases more with ⟨height, holdsOther, boundedOther⟩
  refine ⟨max log height, (holds.addLifted holdsOther).congr (fun index => ?_),
    fun entry member => ?_⟩
  · exact (liftedSum_append held others index).symm
  · rcases mem_append.mp member with here | later
    · exact (bounded entry here).trans (le_max_left _ _)
    · exact (boundedOther entry later).trans (le_max_right _ _)

/-- The buffers of the groups are added up. -/
theorem Sums.foldl_addLifted {buffers : List (List EF)}
    (each : List.Forall₂ (Sums logLde) groups buffers) {first : List EF}
    (sums : Sums logLde held first) :
    Sums logLde (held ++ groups.flatten) (buffers.foldl DeepPoly.addLifted first) := by
  induction each generalizing held first with
  | nil => rwa [flatten_nil, append_nil]
  | cons head tail ih =>
    rw [flatten_cons, ← append_assoc]
    exact ih (sums.addLifted head)

/-- Groups that hold matrices of ascending height. -/
structure Sorted (groups : List (List (Matrix F))) : Prop where
  ne_nil : forall group, group ∈ groups -> group ≠ []
  ascending : forall group, group ∈ groups ->
    group.Pairwise (fun first second => first.logHeight ≤ second.logHeight)

/-- On either path the buffer has the full height and holds the sum of all
matrices. -/
theorem negFReduced_eq {ε : Type} (sorted : Sorted (groups.map (List.map Prod.fst)))
    (le_lde : forall entry, entry ∈ groups.flatten -> entry.1.logHeight ≤ logLde)
    (full : ∃ entry, entry ∈ groups.flatten ∧ entry.1.logHeight = logLde) :
    ∃ buffer, (negFReduced (2 ^ logLde) groups : Outcome ε (List EF)) = .ok buffer ∧
      Holds logLde logLde buffer (liftedSum logLde groups.flatten) := by
  by_cases uniform : groups.flatten.all (fun held => held.1.height = 2 ^ logLde)
  · have heights : forall entry, entry ∈ groups.flatten -> entry.1.logHeight = logLde := by
      intro entry member
      have height := all_eq_true.mp uniform entry member
      exact Nat.pow_right_injective le_rfl (decide_eq_true_eq.mp height)
    refine ⟨_, by rw [negFReduced, if_pos uniform], ?_⟩
    exact (holds_foldl_addRows heights (holds_replicate_zero le_rfl)).congr (fun index => zero_add _)
  · have each : forall held, held ∈ groups ->
        ∃ buffer, (accumulateMatrices held : Outcome ε (List EF)) = .ok buffer ∧
          Sums logLde held buffer := by
      intro held member
      have image := mem_map_of_mem (f := List.map Prod.fst) member
      have some : held ≠ [] := fun empty => sorted.ne_nil _ image (by rw [empty, map_nil])
      have ascending := sorted.ascending _ image
      rw [pairwise_map] at ascending
      exact accumulateMatrices_eq some
        (fun entry inside => le_lde entry (mem_flatten_of_mem member inside)) ascending
    rcases collect_returns_with each with ⟨buffers, collected, known⟩
    have result : (negFReduced (2 ^ logLde) groups : Outcome ε (List EF)) =
        .ok (reduceLifted (2 ^ logLde) buffers) := by
      rw [negFReduced, if_neg uniform, collected]
      rfl
    rcases full with ⟨entry, member, height⟩
    cases known with
    | nil => cases member
    | cons head tail =>
      rcases head.foldl_addLifted tail with ⟨last, added, bounded⟩
      have reaches : last = logLde := le_antisymm added.le_lde (height ▸ bounded entry member)
      exact ⟨_, result, reaches ▸ added⟩

end Accumulate

end DeepPoly

/-! ## The verifier's reduction -/

namespace DeepOracle

/-- The groups continue one pass of Horner's scheme over all their rows. -/
theorem foldlM_openedGroups (challengeColumns : EF) (rowsOf : List (Nat -> List F)) (start : Nat)
    (treeIndices : List Nat) (acc : Nat -> EF) :
    ((rowsOf.map (fun rows treeIndex => some (rows treeIndex))).zipIdx start).foldlM
      (fun reduced group => Outcome.collect reduced (fun entry => do
        let row ← Outcome.okOr (group.1 entry.1) (DeepError.invalidOpening group.2 entry.1)
        pure (entry.1, hornerAcc entry.2 challengeColumns (row.map (algebraMap F EF)))))
      (treeIndices.map (fun treeIndex => (treeIndex, acc treeIndex))) =
    .ok (treeIndices.map (fun treeIndex => (treeIndex, hornerAcc (acc treeIndex) challengeColumns
      ((rowsOf.flatMap (fun rows => rows treeIndex)).map (algebraMap F EF))))) := by
  induction rowsOf generalizing start acc with
  | nil => rfl
  | cons rows rest ih =>
    have step : Outcome.collect (treeIndices.map (fun treeIndex => (treeIndex, acc treeIndex)))
        (fun entry => do
          let row ← Outcome.okOr (some (rows entry.1)) (DeepError.invalidOpening start entry.1)
          pure (entry.1, hornerAcc entry.2 challengeColumns (row.map (algebraMap F EF)))) =
        .ok (treeIndices.map (fun treeIndex => (treeIndex,
          hornerAcc (acc treeIndex) challengeColumns ((rows treeIndex).map (algebraMap F EF))))) := by
      refine (collect_eq_ok_map (fun entry : Nat × EF => (entry.1,
        hornerAcc entry.2 challengeColumns ((rows entry.1).map (algebraMap F EF))))
        (fun entry _ => rfl)).trans ?_
      rw [map_map]
      rfl
    rw [map_cons, zipIdx_cons, foldlM_cons, step, ok_bind, ih]
    simp only [flatMap_cons, map_append, hornerAcc_append]

variable [TwoAdicField F] [DecidableEq EF]

/-- Off the opening points the quotient is the sum over them. -/
theorem deepEval_eq (domain : LiftedDomain F) (opened : Fin N -> EF × EF) (alpha beta : EF)
    {treeIndex : Nat} (apart : forall point,
      (opened point).1 - algebraMap F EF (pointAt domain.ldeCoset treeIndex) ≠ 0) (reducedRow : EF) :
    (mk domain (List.ofFn opened) alpha beta).deepEval treeIndex reducedRow =
      .ok (∑ point : Fin N, beta ^ (point : Nat) * ((opened point).2 - reducedRow) *
        ((opened point).1 - algebraMap F EF (pointAt domain.ldeCoset treeIndex))⁻¹) := by
  have positions : (List.ofFn opened).zipIdx =
      List.ofFn (fun point => (opened point, (point : Nat))) := by
    refine ext_getElem (by simp) (fun index inside there => ?_)
    simp
  rw [deepEval]
  dsimp only
  rw [positions, collect_eq_ok_map (fun entry => beta ^ entry.2 * (entry.1.2 - reducedRow) *
    (entry.1.1 - algebraMap F EF (pointAt domain.ldeCoset treeIndex))⁻¹)]
  · rw [ok_bind, map_ofFn, sum_ofFn]
    rfl
  · intro entry member
    rcases (mem_ofFn' _ _).mp member with ⟨point, rfl⟩
    exact if_neg (apart point)

end DeepOracle

/-! ## The quotient is a polynomial -/

section Polynomials

variable {logLde : Nat} {columns : Matrix F -> Nat -> F[X]}

/-- All committed columns, lifted and reduced with a challenge. -/
noncomputable def reducedPoly (challenge : EF) (alignment logLde : Nat)
    (columns : Matrix F -> Nat -> F[X]) (matrices : List (Matrix F)) : EF[X] :=
  reduceColumns (C challenge) alignment (fun matrix column =>
    expand EF (2 ^ (logLde - matrix.logHeight)) ((columns matrix column).map (algebraMap F EF))) matrices

omit [Field F] [Field EF] [Algebra F EF] in
theorem map_reduceColumns {R S : Type} [CommRing R] [CommRing S] (f : R →+* S) (challenge : R)
    (alignment : Nat) (value : Matrix F -> Nat -> R) (matrices : List (Matrix F)) :
    f (reduceColumns challenge alignment value matrices) =
      reduceColumns (f challenge) alignment (fun matrix column => f (value matrix column)) matrices := by
  induction matrices with
  | nil => exact map_zero f
  | cons matrix rest ih =>
    rw [reduceColumns, reduceColumns, map_add, ih, map_sum]
    simp only [map_mul, map_pow]

theorem eval_reducedPoly (challenge : EF) (alignment : Nat) (matrices : List (Matrix F)) (x : EF) :
    (reducedPoly challenge alignment logLde columns matrices).eval x =
      reduceColumns challenge alignment (fun matrix column =>
        aeval (x ^ 2 ^ (logLde - matrix.logHeight)) (columns matrix column)) matrices := by
  have mapped := map_reduceColumns (evalRingHom x) (C challenge) alignment (fun matrix column =>
    expand EF (2 ^ (logLde - matrix.logHeight)) ((columns matrix column).map (algebraMap F EF))) matrices
  simp only [coe_evalRingHom, eval_C, expand_eval, eval_map_algebraMap] at mapped
  exact mapped

omit [Field F] [Algebra F EF] in
theorem reduceColumns_degree_lt (challenge : EF) (alignment : Nat)
    {value : Matrix F -> Nat -> EF[X]}
    (small : forall matrix, matrix ∈ matrices -> forall column, column < matrix.width ->
        (value matrix column).degree < bound) :
    (reduceColumns (C challenge) alignment value matrices).degree < bound := by
  induction matrices with
  | nil =>
    rw [reduceColumns, degree_zero]
    exact WithBot.bot_lt_coe bound
  | cons matrix rest ih =>
    have others := ih (fun held member => small held (mem_cons_of_mem matrix member))
    rw [← mem_degreeLT] at others ⊢
    refine Submodule.add_mem _ (Submodule.sum_mem _ (fun column member => ?_)) others
    rw [← C_pow, ← smul_eq_C_mul]
    exact Submodule.smul_mem _ _
      (mem_degreeLT.mpr (small matrix mem_cons_self column (Finset.mem_range.mp member)))

/-- A lifted column has degree below the trace height. -/
theorem degree_expand_lt {f : F[X]} {low more : Nat} (small : f.degree < (2 ^ low : Nat)) :
    (expand EF (2 ^ more) (f.map (algebraMap F EF))).degree < (2 ^ (low + more) : Nat) := by
  by_cases zero : f = 0
  · rw [zero, Polynomial.map_zero, map_zero, degree_zero]
    exact WithBot.bot_lt_coe _
  · have natural := (natDegree_lt_iff_degree_lt zero).mpr small
    refine lt_of_le_of_lt degree_le_natDegree ?_
    rw [natDegree_expand, natDegree_map_eq_of_injective (algebraMap F EF).injective, pow_add]
    exact_mod_cast Nat.mul_lt_mul_of_pos_right natural (Nat.two_pow_pos more)

/-- A polynomial minus its value, divided by the distance, is a polynomial of no
larger degree. -/
theorem exists_quotient (f : EF[X]) (small : f.degree < bound) (z : EF) :
    ∃ quotient : EF[X], quotient.degree < bound ∧
      forall x, x ≠ z -> (f.eval z - f.eval x) * (z - x)⁻¹ = quotient.eval x := by
  refine ⟨f /ₘ (X - C z), lt_of_le_of_lt (degree_divByMonic_le f _) small, fun x other => ?_⟩
  have division := congrArg (eval x) (modByMonic_add_div f (X - C z))
  rw [modByMonic_X_sub_C_eq_C_eval, eval_add, eval_C, eval_mul, eval_sub, eval_X,
    eval_C] at division
  have distance : z - x ≠ 0 := sub_ne_zero.mpr other.symm
  rw [← division, ← div_eq_mul_inv, div_eq_iff distance]
  ring

/-- The sum over all opening points. -/
theorem exists_deepQuotient (f : EF[X]) (small : f.degree < bound) (points : Fin N -> EF)
    (challenge : EF) :
    ∃ quotient : EF[X], quotient.degree < bound ∧ forall x, (forall point, x ≠ points point) ->
      ∑ point : Fin N, challenge ^ (point : Nat) * (f.eval (points point) - f.eval x) *
        (points point - x)⁻¹ = quotient.eval x := by
  choose quotient degree value using fun point => exists_quotient f small (points point)
  refine ⟨∑ point : Fin N, C (challenge ^ (point : Nat)) * quotient point, ?_, fun x other => ?_⟩
  · rw [← mem_degreeLT]
    refine Submodule.sum_mem _ (fun point _ => ?_)
    rw [← smul_eq_C_mul]
    exact Submodule.smul_mem _ _ (mem_degreeLT.mpr (degree point))
  · rw [eval_finsetSum]
    refine Finset.sum_congr rfl (fun point _ => ?_)
    rw [eval_mul, eval_C, ← value point x (other point), mul_assoc]

end Polynomials

/-! ## Both sides agree -/

section Agreement

variable [TwoAdicField F] {domain : LiftedDomain F}
  {groups : List (List (Matrix F))} {columns : Matrix F -> Nat -> F[X]} {points : Fin N -> EF} {ε : Type}

/-- The padded rows that a group opens at an index: of each matrix the row of the
index, modulo the height, in domain order. -/
def openedRows (alignment : Nat) (group : List (Matrix F)) (treeIndex : Nat) : List F :=
  iterAligned (group.map (fun matrix =>
    matrix.row (reverseBits matrix.logHeight (treeIndex % matrix.height)))) alignment

/-- A stored row of a matrix is the lifted column at the point stored there. -/
theorem entry_eq_aeval (lde : matrix.Extends domain.logBlowup (columns matrix))
    (le_lde : matrix.logHeight ≤ domain.logLdeHeight) {column index : Nat}
    (inside : column < matrix.width) (stored : index < 2 ^ domain.logLdeHeight) :
    algebraMap F EF (matrix.entry (index / 2 ^ (domain.logLdeHeight - matrix.logHeight)) column) =
      aeval (algebraMap F EF (storedPoint F domain.logLdeHeight index) ^
        2 ^ (domain.logLdeHeight - matrix.logHeight)) (columns matrix column) := by
  rcases Nat.exists_eq_add_of_le le_lde with ⟨more, total⟩
  have bound : matrix.logHeight + more ≤ twoAdicity F := total ▸ domain.ldeCoset.subgroup.bound
  have ratio : domain.logLdeHeight - matrix.logHeight = more := by omega
  rw [lde.entry_eq column _ inside (div_lt_of_lt_lde le_lde stored), ratio, ← map_pow, total,
    storedPoint_pow bound, aeval_def, eval₂_at_apply]

omit [TwoAdicField F] [Algebra F EF] [Field EF] in
theorem flatMap_openedRows (alignment : Nat) (groups : List (List (Matrix F))) (treeIndex : Nat) :
    groups.flatMap (fun group => openedRows alignment group treeIndex) =
      openedRows alignment groups.flatten treeIndex := by
  simp only [openedRows, iterAligned, map_flatten, flatMap_def, flatten_flatten, map_map,
    Function.comp_def]

section Rows

variable (le_lde : forall matrix, matrix ∈ groups.flatten -> matrix.logHeight ≤ domain.logLdeHeight)
  (lde : forall matrix, matrix ∈ groups.flatten -> matrix.Extends domain.logBlowup (columns matrix))
include le_lde lde

/-- The columns reduced from the rows stored at one position are the reduced
polynomial at its point. -/
theorem reduceColumns_entry (challenge : EF) (alignment : Nat) {index : Nat}
    (stored : index < 2 ^ domain.logLdeHeight) :
    reduceColumns challenge alignment (fun matrix column => algebraMap F EF
        (matrix.entry (index / 2 ^ (domain.logLdeHeight - matrix.logHeight)) column)) groups.flatten =
      (reducedPoly challenge alignment domain.logLdeHeight columns groups.flatten).eval
        (algebraMap F EF (storedPoint F domain.logLdeHeight index)) := by
  rw [eval_reducedPoly]
  refine reduceColumns_congr (fun matrix member column inside => ?_)
  exact entry_eq_aeval (lde matrix member) (le_lde matrix member) inside stored

/-- Horner's scheme over the opened rows is the reduced polynomial at the point
of the index. -/
theorem hornerAcc_openedRows (challenge : EF) (alignment : Nat) {treeIndex : Nat}
    (inside : treeIndex < 2 ^ domain.logLdeHeight) :
    hornerAcc 0 challenge ((openedRows alignment groups.flatten treeIndex).map (algebraMap F EF)) =
      (reducedPoly challenge alignment domain.logLdeHeight columns groups.flatten).eval
        (algebraMap F EF (Coset.pointAt domain.ldeCoset treeIndex)) := by
  have stored := reverseBits_lt domain.logLdeHeight treeIndex
  have point : pointAt domain.ldeCoset treeIndex =
      storedPoint F domain.logLdeHeight (reverseBits domain.logLdeHeight treeIndex) := by
    rw [← LiftedDomain.pointAt_ldeCoset, reverseBits_reverseBits inside]
  rw [point, ← reduceColumns_entry le_lde lde challenge alignment stored, openedRows,
    map_iterAligned, map_map]
  have rows : (List.map (algebraMap F EF) ∘ fun matrix : Matrix F =>
      matrix.row (reverseBits matrix.logHeight (treeIndex % matrix.height))) =
        fun matrix => table matrix.width (fun column => algebraMap F EF
          (matrix.entry (reverseBits matrix.logHeight treeIndex) column)) := by
    funext matrix
    rw [Function.comp_apply, Matrix.row, map_table, Matrix.height, reverseBits_mod]
  rw [rows, hornerAcc_iterAligned, zero_mul, zero_add]
  refine reduceColumns_congr (fun matrix member column _ => ?_)
  have split := reverseBits_div (domain.logLdeHeight - matrix.logHeight) matrix.logHeight treeIndex
  rw [Nat.sub_add_cancel (le_lde matrix member)] at split
  rw [split]

end Rows

/-- The columns of all matrices at the lifted opening points. -/
noncomputable def liftedEvals (logLde : Nat) (columns : Matrix F -> Nat -> F[X])
    (points : Fin N -> EF) (matrices : List (Matrix F)) : List (List (Fin N -> EF)) :=
  matrices.map (fun matrix => table matrix.width (fun column point =>
    aeval (points point ^ 2 ^ (logLde - matrix.logHeight)) (columns matrix column)))

section Opened

variable {logLde alignment : Nat} {matrices : List (Matrix F)}

omit [TwoAdicField F] in
theorem sentEvals_liftedEvals (point : Fin N) :
    DeepPoly.sentEvals (liftedEvals logLde columns points matrices) alignment point =
      iterAligned (matrices.map (fun matrix => table matrix.width (fun column =>
        aeval (points point ^ 2 ^ (logLde - matrix.logHeight)) (columns matrix column))))
          alignment := by
  have mapped := map_iterAligned (Pi.evalRingHom (fun _ : Fin N => EF) point)
    (liftedEvals logLde columns points matrices) alignment
  rw [liftedEvals, map_map] at mapped
  refine mapped.trans (congrArg (iterAligned · alignment) (map_congr_left (fun matrix _ => ?_)))
  rw [Function.comp_apply, map_table]
  rfl

omit [TwoAdicField F] in
/-- The reduced openings are values of the reduced polynomial. -/
theorem hornerAcc_sentEvals (challenge : EF) (point : Fin N) :
    hornerAcc 0 challenge (sentEvals (liftedEvals logLde columns points matrices) alignment point) =
      (reducedPoly challenge alignment logLde columns matrices).eval (points point) := by
  rw [sentEvals_liftedEvals, hornerAcc_iterAligned, zero_mul, zero_add, eval_reducedPoly]

omit [TwoAdicField F] in
theorem hornerAcc_liftedEvals (challenge : EF) (point : Fin N) :
    hornerAcc 0 (fun _ => challenge) (iterAligned (liftedEvals logLde columns points matrices) alignment) point =
      (reducedPoly challenge alignment logLde columns matrices).eval (points point) := by
  rw [← hornerAcc_sentEvals]
  exact map_hornerAcc (Pi.evalRingHom (fun _ : Fin N => EF) point) 0 (fun _ => challenge) _

end Opened

/-- The prover's quotient at all stored positions. -/
theorem fromEvals_eq (fits : PointQuotients.Fits groups domain.logBlowup domain.logLdeHeight)
    (sorted : DeepPoly.Sorted groups)
    (lde : forall matrix, matrix ∈ groups.flatten -> matrix.Extends domain.logBlowup (columns matrix))
    (alignment : Nat) (alpha beta : EF) :
    (fromEvals alignment groups (liftedEvals domain.logLdeHeight columns points groups.flatten)
      ⟨points, table (2 ^ domain.logLdeHeight) (fun index =>
        (distances domain points index)⁻¹)⟩ alpha beta : Outcome ε _) =
      .ok (table (2 ^ domain.logLdeHeight) (fun index => ∑ point : Fin N, beta ^ (point : Nat) *
        ((reducedPoly alpha alignment domain.logLdeHeight columns groups.flatten).eval (points point) -
          (reducedPoly alpha alignment domain.logLdeHeight columns groups.flatten).eval
            (algebraMap F EF (storedPoint F domain.logLdeHeight index))) *
        (points point - algebraMap F EF (storedPoint F domain.logLdeHeight index))⁻¹)) := by
  set coeffs := columnCoeffs alpha alignment groups.flatten
  have count : coeffs.length = groups.flatten.length := length_columnCoeffs alpha groups.flatten
  have flat := flatten_groupCoeffs groups coeffs count
  have firsts := map_fst_groupCoeffs groups coeffs count
  have matrixOf : forall entry, entry ∈ (groupCoeffs groups coeffs).flatten ->
      entry.1 ∈ groups.flatten := by
    intro entry member
    rw [flat] at member
    exact (of_mem_zip member).1
  rcases fits.full with ⟨top, held, height⟩
  have full : ∃ entry, entry ∈ (groupCoeffs groups coeffs).flatten ∧
      entry.1.logHeight = domain.logLdeHeight := by
    rw [flat]
    have zipped : (groups.flatten.zip coeffs).map Prod.fst = groups.flatten := map_fst_zip count.ge
    rw [← zipped] at held
    rcases mem_map.mp held with ⟨entry, member, same⟩
    exact ⟨entry, member, same ▸ height⟩
  rcases negFReduced_eq (ε := ε) (firsts.symm ▸ sorted)
    (fun entry member => fits.le_lde _ (matrixOf entry member)) full with ⟨buffer, reduced, holds⟩
  rw [fromEvals]
  dsimp only
  rw [negColumnCoeffs_eq, length_table, reduced, ok_bind, pure_eq_ok, holds.length_eq, Nat.min_self]
  refine congrArg Outcome.ok (table_congr (fun index inside => ?_))
  have value := holds.getD_eq index inside
  rw [Nat.sub_self, pow_zero, Nat.div_one, flat, liftedSum_zip,
    reduceColumns_entry fits.le_lde lde alpha alignment inside] at value
  refine Finset.sum_congr rfl (fun point _ => ?_)
  rw [value, hornerAcc_liftedEvals, getD_table inside, Pi.inv_apply, distances_eq, ← sub_eq_add_neg]
  ring

variable [DecidableEq F] [DecidableEq EF]

/-- The prover's evaluations at the opening points, its quotient at the stored
position of an index and the quotient the verifier computes for that index from
the opened rows: all come from one polynomial, and the quotient is one of degree
below the trace height. -/
theorem deep_quotient_agrees (fits : PointQuotients.Fits groups domain.logBlowup domain.logLdeHeight)
    (sorted : DeepPoly.Sorted groups)
    (lde : forall matrix, matrix ∈ groups.flatten -> matrix.Extends domain.logBlowup (columns matrix))
    (outside : PointQuotients.Outside domain points) (alignment : Nat) (alpha beta : EF) :
    ∃ quotients evals deepEvals, ∃ quotient : EF[X],
      (PointQuotients.new points (Coset.bitReversedPoints domain.ldeCoset) : Outcome ε _) =
        .ok quotients ∧
      (quotients.batchEvalLifted groups (Coset.bitReversedPoints domain.ldeCoset) domain.logBlowup
        : Outcome ε _) = .ok evals ∧
      (DeepPoly.fromEvals alignment groups evals quotients alpha beta : Outcome ε _) =
        .ok deepEvals ∧
      deepEvals.length = 2 ^ domain.logLdeHeight ∧
      (forall point, DeepPoly.sentEvals evals alignment point =
        iterAligned (groups.flatten.map (fun matrix => table matrix.width (fun column =>
          aeval (points point ^ 2 ^ (domain.logLdeHeight - matrix.logHeight)) (columns matrix column))))
          alignment) ∧
      (forall treeIndices : List Nat,
        (forall treeIndex, treeIndex ∈ treeIndices -> treeIndex < 2 ^ domain.logLdeHeight) ->
        (DeepOracle.mk domain (DeepOracle.reduceOpenings alpha (List.ofFn (fun point =>
            (points point, DeepPoly.sentEvals evals alignment point)))) alpha beta).openBatch
              treeIndices
          (groups.map (fun group treeIndex => some (openedRows alignment group treeIndex))) =
        .ok (treeIndices.map (fun treeIndex =>
          (treeIndex, deepEvals.getD (reverseBits domain.logLdeHeight treeIndex) 0)))) ∧
      (forall treeIndex, treeIndex < 2 ^ domain.logLdeHeight ->
        deepEvals.getD (reverseBits domain.logLdeHeight treeIndex) 0 =
          ∑ point : Fin N, beta ^ (point : Nat) *
            ((reducedPoly alpha alignment domain.logLdeHeight columns groups.flatten).eval (points point) -
              (reducedPoly alpha alignment domain.logLdeHeight columns groups.flatten).eval
                (algebraMap F EF (Coset.pointAt domain.ldeCoset treeIndex))) *
            (points point - algebraMap F EF (Coset.pointAt domain.ldeCoset treeIndex))⁻¹) ∧
      quotient.degree < (2 ^ domain.logTraceHeight : Nat) ∧
      (forall x, (forall point, x ≠ points point) ->
        ∑ point : Fin N, beta ^ (point : Nat) *
            ((reducedPoly alpha alignment domain.logLdeHeight columns groups.flatten).eval (points point) -
              (reducedPoly alpha alignment domain.logLdeHeight columns groups.flatten).eval x) *
            (points point - x)⁻¹ = quotient.eval x) := by
  have evaluated := batchEvalLifted_eq (ε := ε) outside.ne_zero fits
  have values : groups.flatten.map (fun matrix => evalMatrix (sumChunks
      (2 ^ (domain.logLdeHeight - matrix.logHeight)) (topWeights domain points))
        (scalings domain points) matrix) =
      liftedEvals domain.logLdeHeight columns points groups.flatten :=
    map_congr_left (fun matrix member => evalMatrix_eq outside
      (fits.blowup_le matrix member) (fits.le_lde matrix member) (lde matrix member))
  rw [values] at evaluated
  have order : domain.logTraceHeight ≤ domain.logLdeHeight := domain.trace_le_lde
  have blowup : domain.logBlowup = domain.logLdeHeight - domain.logTraceHeight := rfl
  have small : (reducedPoly alpha alignment domain.logLdeHeight columns groups.flatten).degree <
      (2 ^ domain.logTraceHeight : Nat) := by
    refine reduceColumns_degree_lt alpha alignment (fun matrix member column inside => ?_)
    have below := fits.blowup_le matrix member
    have above := fits.le_lde matrix member
    have total : matrix.logHeight - domain.logBlowup + (domain.logLdeHeight - matrix.logHeight) =
        domain.logTraceHeight := by omega
    exact total ▸ degree_expand_lt ((lde matrix member).degree_lt column inside)
  rcases exists_deepQuotient _ small points beta with ⟨quotient, degree, rational⟩
  have stored {treeIndex : Nat} (inside : treeIndex < 2 ^ domain.logLdeHeight) :
      storedPoint F domain.logLdeHeight (reverseBits domain.logLdeHeight treeIndex) =
        pointAt domain.ldeCoset treeIndex := by
    rw [← pointAt_ldeCoset, reverseBits_reverseBits inside]
  refine ⟨_, _, _, quotient, new_eq outside.apart, evaluated,
    fromEvals_eq fits sorted lde alignment alpha beta, length_table _ _,
    fun point => sentEvals_liftedEvals point, ?_, ?_, degree, rational⟩
  · intro treeIndices inside
    have openings : reduceOpenings alpha (List.ofFn (fun point => (points point,
        sentEvals (liftedEvals domain.logLdeHeight columns points groups.flatten) alignment point))) =
        List.ofFn (fun point => (points point,
          (reducedPoly alpha alignment domain.logLdeHeight columns groups.flatten).eval (points point))) := by
      rw [reduceOpenings, map_ofFn]
      refine congrArg List.ofFn (funext (fun point => ?_))
      rw [Function.comp_apply, hornerAcc_sentEvals]
    have rows := foldlM_openedGroups alpha (groups.map (openedRows alignment)) 0 treeIndices
      (fun _ => 0)
    rw [map_map] at rows
    rw [openBatch, openings]
    refine Eq.trans (congrArg (· >>= _) rows) ?_
    rw [ok_bind, collect_eq_ok, forall₂_map_left_iff, forall₂_map_right_iff, forall₂_same]
    intro treeIndex member
    have below := inside treeIndex member
    rw [flatMap_map, flatMap_openedRows, hornerAcc_openedRows fits.le_lde lde alpha alignment below,
      deepEval_eq _ _ _ _ (fun point => outside.apart point treeIndex),
      getD_table (reverseBits_lt _ _), stored below]
    rfl
  · intro treeIndex inside
    rw [getD_table (reverseBits_lt _ _), stored inside]

end Agreement

/-- A constant and two lines in matrices of different heights, opened at `49` and
at `1`: the quotient of the reduced line is its slope at both points. -/
theorem deep_quotient_agrees_lines :
    let domain := LiftedDomain.ofSizes (F := Felt) 1 32 0 (by decide) le_rfl
    let points : Fin 2 -> Felt := ![49, 1]
    let groups : List (List (Matrix Felt)) :=
      [[⟨31, 1, fun _ _ => 5⟩, ⟨32, 2, fun row column => storedPoint Felt 32 row + column⟩]]
    ∃ quotients evals deepEvals,
      (PointQuotients.new points (Coset.bitReversedPoints domain.ldeCoset) : Outcome Unit _) =
        .ok quotients ∧
      (quotients.batchEvalLifted groups (Coset.bitReversedPoints domain.ldeCoset) 31
        : Outcome Unit _) = .ok evals ∧
      (DeepPoly.fromEvals 8 groups evals quotients 2 3 : Outcome Unit _) = .ok deepEvals ∧
      forall treeIndex, treeIndex < 2 ^ 32 ->
        deepEvals.getD (reverseBits 32 treeIndex) 0 = 768 := by
  intro domain points groups
  let columns (matrix : Matrix Felt) (column : Nat) : Felt[X] :=
    if matrix.logHeight = 32 then X + C (column : Felt) else C 5
  have fits : PointQuotients.Fits groups 31 32 := by
    refine ⟨?_, ?_, ⟨_, mem_cons_of_mem _ mem_cons_self, rfl⟩⟩ <;> simp [groups]
  have sorted : DeepPoly.Sorted groups := by
    constructor <;> simp [groups]
  have lde (matrix : Matrix Felt) (member : matrix ∈ groups.flatten) :
      matrix.Extends domain.logBlowup (columns matrix) := by
    rcases (by simpa [groups] using member : _ ∨ _) with rfl | rfl
    · refine ⟨fun column _ => lt_of_le_of_lt degree_C_le (by decide), fun column row _ _ => ?_⟩
      exact (eval_C).symm
    · refine ⟨fun column _ => lt_of_le_of_lt (degree_X_add_C _).le (by decide),
        fun column row _ _ => ?_⟩
      simp [columns]
  have outside : PointQuotients.Outside domain points := by
    refine ⟨fun point => ?_, fun point => ?_⟩ <;> fin_cases point
    · decide
    · decide
    · exact forty_nine_outside
    · change (1 * (canonicalShift Felt 32)⁻¹) ^ 2 ^ 32 ≠ 1
      rw [one_mul, inv_pow, ne_eq, inv_eq_one]
      exact generator_pow_ne_one (F := Felt)
  rcases deep_quotient_agrees (ε := Unit) fits sorted lde outside 8 2 3 with
    ⟨quotients, evals, deepEvals, _, made, evaluated, reduced, _, _, _, values, _⟩
  refine ⟨quotients, evals, deepEvals, made, evaluated, reduced, fun treeIndex inside => ?_⟩
  have line (x : Felt) : (reducedPoly 2 8 32 columns groups.flatten).eval x = 192 * x + 163904 := by
    change (reducedPoly 2 8 32 columns [⟨31, 1, fun _ _ => 5⟩,
      ⟨32, 2, fun row column => storedPoint Felt 32 row + column⟩]).eval x = _
    simp [reducedPoly, reduceColumns, columnPower, alignedWidth, alignedLen, columns,
      Finset.sum_range_succ]
    ring
  have slope (point : Fin 2) (x : Felt) (apart : points point - x ≠ 0) :
      ((reducedPoly 2 8 32 columns groups.flatten).eval (points point) -
        (reducedPoly 2 8 32 columns groups.flatten).eval x) * (points point - x)⁻¹ = 192 := by
    rw [line, line, add_sub_add_right_eq_sub, ← mul_sub, mul_inv_cancel_right₀ apart]
  refine (values treeIndex inside).trans ?_
  simp only [mul_assoc, Fin.sum_univ_two]
  erw [slope 0 _ (outside.apart 0 treeIndex), slope 1 _ (outside.apart 1 treeIndex)]
  decide

end MidenVm.Stark
