import MidenVm.Air.Bitwise

namespace MidenVm.Air

open Foundation Foundation.Air Nat BitwisePeriodicCols

/-!
# Bitwise operations in the trace

The columns of a row hold the numbers whose highest bits were read so far, and
the output column the operation on them.  Each row appends four bits to the
numbers, so that after eight rows they have 32 bits.  A section starts with a
cycle, but nothing makes it end with one: the rows of the last cycle may be
missing.
-/

/-! ## Appending four bits -/

variable {op : BitwiseOp} {bits left right : Vector Felt 4} (bit : Fin 4 -> Bool)

/-- Each column holds a bit. -/
def AreBits (bits : Vector Felt 4) : Prop := forall i : Fin 4, bits.get i = 0 ∨ bits.get i = 1

def bitAt (bits : Vector Felt 4) (i : Fin 4) : Bool := decide (bits.get i = 1)

/-- A number followed by four bits, the first one lowest. -/
def appendBits (value : Nat) : Nat :=
  Nat.bit (bit 0) (Nat.bit (bit 1) (Nat.bit (bit 2) (Nat.bit (bit 3) value)))

theorem appendBits_lt {value count : Nat} (small : value < 16 ^ count) :
    appendBits bit value < 16 ^ (count + 1) := by
  have b0 := Bool.toNat_le (bit 0)
  have b1 := Bool.toNat_le (bit 1)
  have b2 := Bool.toNat_le (bit 2)
  have b3 := Bool.toNat_le (bit 3)
  simp only [appendBits, bit_val, pow_succ]
  omega

theorem natCast_bitAt (areBits : AreBits bits)
    (i : Fin 4) : (((bitAt bits i).toNat : Nat) : Felt) = bits.get i := by
  rcases areBits i with zero | one
  · rw [bitAt, zero]
    rfl
  · rw [bitAt, one]
    rfl

theorem natCast_appendBits (value : Nat) : ((appendBits bit value : Nat) : Felt) =
    value * 16 + hornerEvalBits (Vector.ofFn (fun i => (((bit i).toNat : Nat) : Felt))) := by
  simp only [appendBits, bit_val, hornerEvalBits, Vector.get_ofFn]
  push_cast
  ring_nf

/-- The operation on two bits. -/
def BitwiseOp.onBits (op : BitwiseOp) (a b : Bool) : Bool :=
  match op with
  | and => a && b
  | xor => a != b

theorem BitwiseOp.apply_appendBits (op : BitwiseOp) (left right : Fin 4 -> Bool) (a b : Nat) :
    op.apply (appendBits left a) (appendBits right b) =
      appendBits (fun i => op.onBits (left i) (right i)) (op.apply a b) := by
  cases op with
  | and => simp only [apply, onBits, appendBits, land_bit]
  | xor => simp only [apply, onBits, appendBits, xor_bit]

theorem BitwiseOp.natCast_onBits (op : BitwiseOp) (a b : Bool) :
    (((op.onBits a b).toNat : Nat) : Felt) = (a.toNat : Felt) * b.toNat +
      op.selector * ((a.toNat : Felt) + b.toNat - 2 * (a.toNat * b.toNat) - a.toNat * b.toNat) := by
  cases op <;> cases a <;> cases b <;> decide +kernel

/-! ## One row -/

variable {row next : BitwiseCols Felt}

/-- What the constraints say of a row on its own. -/
structure BitwiseRow (row : BitwiseCols Felt) : Prop where
  flag : ∃ op : BitwiseOp, row.opFlag = op.selector
  aBits : AreBits row.aBits
  bBits : AreBits row.bBits
  output : row.output = row.prevOutput * 16 +
    hornerEvalBits (Vector.ofFn (fun i => row.aBits.get i * row.bBits.get i)) +
      row.opFlag * (hornerEvalBits (Vector.ofFn (fun i =>
        row.aBits.get i + row.bBits.get i - 2 * (row.aBits.get i * row.bBits.get i))) -
          hornerEvalBits (Vector.ofFn (fun i => row.aBits.get i * row.bBits.get i)))

/-- The columns hold numbers of some hexadecimal digits and the operation on them. -/
structure Aggregated (op : BitwiseOp) (count : Nat) (row : BitwiseCols Felt) : Prop where
  flag : row.opFlag = op.selector
  a_lt : row.a.val < 16 ^ count
  b_lt : row.b.val < 16 ^ count
  output : row.output = (op.apply row.a.val row.b.val : Nat)

/-- A row appends its bits to the numbers before it. -/
theorem BitwiseRow.aggregated (holds : BitwiseRow row) (flag : row.opFlag = op.selector)
    {a b count : Nat} (aSmall : a < 16 ^ count) (bSmall : b < 16 ^ count) (short : count < 8)
    (aNext : row.a = a * 16 + hornerEvalBits row.aBits)
    (bNext : row.b = b * 16 + hornerEvalBits row.bBits)
    (previous : row.prevOutput = (op.apply a b : Nat)) : Aggregated op (count + 1) row := by
  have word : 16 ^ (count + 1) ≤ 2 ^ 32 := Nat.pow_le_pow_right (by decide) short
  have value {bits : Vector Felt 4} (areBits : AreBits bits) {column : Felt} {before : Nat}
      (small : before < 16 ^ count) (appended : column = before * 16 + hornerEvalBits bits) :
      column.val = appendBits (bitAt bits) before := by
    have columns : Vector.ofFn (fun i => (((bitAt bits i).toNat : Nat) : Felt)) = bits := by
      ext i inRange
      rw [Vector.getElem_ofFn]
      exact natCast_bitAt areBits ⟨i, inRange⟩
    have bound := appendBits_lt (bitAt bits) small
    rw [appended, ← columns, ← natCast_appendBits, columns, Felt.val_natCast_of_lt (by omega)]
  have aVal := value holds.aBits aSmall aNext
  have bVal := value holds.bBits bSmall bNext
  refine ⟨flag, ?_, ?_, ?_⟩
  · rw [aVal]
    exact appendBits_lt _ aSmall
  · rw [bVal]
    exact appendBits_lt _ bSmall
  · rw [aVal, bVal, op.apply_appendBits, natCast_appendBits, holds.output, previous, flag]
    simp only [op.natCast_onBits, natCast_bitAt holds.aBits, natCast_bitAt holds.bBits,
      hornerEvalBits, Vector.get_ofFn]
    ring

/-! ## Rows of a trace -/

variable {rows before cycles after : List (ChipletCols Felt)}
    {current behind : ChipletCols Felt} {index : Nat}

theorem vanish_bits : Vanish ((List.finRange 4).flatMap (fun i => assertBool (bits.get i))) ↔
    AreBits bits := by
  simp only [vanish_flatMap, vanish_assertBool, List.mem_finRange, forall_const]
  rfl

theorem periodic_eq (index : Nat) : (BitwisePeriodicCols.row index : BitwisePeriodicCols Felt) =
    ⟨if index % 8 = 0 then 1 else 0, if index % 8 = 7 then 0 else 1⟩ := by
  have all : forall place : Fin 8, (new : BitwisePeriodicCols (Vector Felt 8)).kFirst[place] =
      (if place.val = 0 then 1 else 0) ∧
      (new : BitwisePeriodicCols (Vector Felt 8)).kTransition[place] =
        (if place.val = 7 then 0 else 1) := by decide +kernel
  have here := all ⟨index % 8, mod_lt _ (by decide)⟩
  rw [BitwisePeriodicCols.row, BitwisePeriodicCols.mk.injEq]
  exact here

/-- The columns behind a row of a cycle that goes on. -/
structure BitwiseStep (row next : BitwiseCols Felt) : Prop where
  flag : row.opFlag = next.opFlag
  a : next.a = row.a * 16 + hornerEvalBits next.aBits
  b : next.b = row.b * 16 + hornerEvalBits next.bBits
  output : row.output = next.prevOutput

/-- What the constraints say at a bitwise row. -/
theorem bitwise_of_vanish {frame : AirFrame Felt (ChipletCols Felt)}
    (vanish : Vanish (bitwiseTraceConstraints index frame)) (owns : Owns frame.current .bitwise) :
    BitwiseRow frame.current.bitwise ∧
      (index % 8 = 0 -> frame.current.bitwise.a = hornerEvalBits frame.current.bitwise.aBits ∧
        frame.current.bitwise.b = hornerEvalBits frame.current.bitwise.bBits ∧
        frame.current.bitwise.prevOutput = 0) ∧
      (index % 8 ≠ 7 -> BitwiseStep frame.current.bitwise frame.next.bitwise) := by
  have active : (buildChipletSelectors frame).bitwise.isActive ≠ 0 := by
    simp [buildChipletSelectors, owns.1, owns.2]
  simp only [bitwiseTraceConstraints, enforceBitwiseConstraints, periodic_eq, vanish_append,
    vanish_when, vanish_assertBool, vanish_assertEq, vanish_assertZero, vanish_bits] at vanish
  rcases vanish.2.2 active with
    ⟨⟨⟨⟨⟨⟨⟨flag, sameFlag⟩, aBits⟩, bBits⟩, first⟩, inputs⟩, carried⟩, output⟩
  refine ⟨⟨?_, aBits, bBits, ?_⟩, fun start => ?_, fun inner => ?_⟩
  · rcases flag with zero | one
    · exact ⟨.and, zero⟩
    · exact ⟨.xor, one⟩
  · simpa using output
  · rcases first (by rw [if_pos start]; exact one_ne_zero) with ⟨⟨a, b⟩, previous⟩
    exact ⟨a, b, previous⟩
  · have moves : (if index % 8 = 7 then 0 else 1 : Felt) ≠ 0 := by
      rw [if_neg inner]
      exact one_ne_zero
    exact ⟨sameFlag moves, (inputs moves).1, (inputs moves).2, carried moves⟩

section Holds

variable (holds : SatisfiesAt bitwiseTraceConstraints rows)
include holds

theorem bitwiseRow_of_trace (found : rows[index]? = some current) (owns : Owns current .bitwise) :
    BitwiseRow current.bitwise ∧
      (index % 8 = 0 -> current.bitwise.a = hornerEvalBits current.bitwise.aBits ∧
      current.bitwise.b = hornerEvalBits current.bitwise.bBits ∧
        current.bitwise.prevOutput = 0) := by
  rcases exists_frame found with ⟨frame, atFrame, rfl, _⟩
  rcases bitwise_of_vanish (holds index frame atFrame) owns with ⟨row, first, _⟩
  exact ⟨row, first⟩

/-- The rows of one cycle, from its first row on. -/
theorem aggregated_of_cycle {start : Nat} (aligned : start % 8 = 0) (count : Nat)
    (short : count < 8)
    (place : forall k, k ≤ count -> ∃ current, rows[start + k]? = some current ∧ Owns current .bitwise) :
    ∃ op, forall k current, k ≤ count -> rows[start + k]? = some current ->
      Aggregated op (k + 1) current.bitwise := by
  induction count with
  | zero =>
    rcases place 0 (le_refl 0) with ⟨current, found, owns⟩
    rcases bitwiseRow_of_trace holds found owns with ⟨row, first⟩
    rcases row.flag with ⟨op, flag⟩
    rcases first aligned with ⟨a, b, previous⟩
    refine ⟨op, fun k other atFirst same => ?_⟩
    rw [le_zero.mp atFirst, found] at same
    cases same
    rw [le_zero.mp atFirst]
    have zero : op.apply 0 0 = 0 := by cases op <;> rfl
    refine row.aggregated flag (a := 0) (b := 0) one_pos one_pos short ?_ ?_ ?_
    · rw [a, cast_zero, zero_mul, zero_add]
    · rw [b, cast_zero, zero_mul, zero_add]
    · rw [previous, zero, cast_zero]
  | succ count ih =>
    rcases ih (lt_of_succ_lt short) (fun k bound => place k (le_succ_of_le bound)) with ⟨op, rest⟩
    rcases place count (le_succ count) with ⟨current, found, owns⟩
    rcases place (count + 1) (le_refl _) with ⟨behind, next, ownsNext⟩
    have here := rest count current (le_refl count) found
    rcases bitwise_of_vanish (holds _ _ (frameAt_of_next (F := Felt) found next)) owns with
      ⟨_, _, moves⟩
    have step : BitwiseStep current.bitwise behind.bitwise := moves (by omega)
    refine ⟨op, fun k other bound same => ?_⟩
    rcases le_succ_iff_eq_or_le.mp bound with rfl | earlier
    · rw [next] at same
      cases same
      refine (bitwiseRow_of_trace holds next ownsNext).1.aggregated (step.flag ▸ here.flag) here.a_lt here.b_lt
        short ?_ ?_ ?_
      · rw [step.a, Felt.natCast_val]
      · rw [step.b, Felt.natCast_val]
      · rw [← step.output, here.output]
    · exact rest k other earlier same

/-- A section starts where a cycle does. -/
theorem section_aligned (split : rows = before ++ cycles ++ after)
    (owned : forall row, row ∈ cycles -> Owns row .bitwise)
    (others : forall row, row ∈ before -> ¬ Owns row .bitwise) (some_row : cycles ≠ []) :
    before.length % 8 = 0 := by
  rcases List.exists_cons_of_ne_nil some_row with ⟨first, rest, rfl⟩
  cases before using List.reverseRecOn with
  | nil => rfl
  | append_singleton earlier previous =>
    have atPrevious : rows[earlier.length]? = some previous := by simp [split]
    have atFirst : rows[earlier.length + 1]? = some first := by simp [split]
    have vanish := holds _ _ (frameAt_of_next (F := Felt) atPrevious atFirst)
    have owns := owned first List.mem_cons_self
    rcases vanish_append.mp vanish with ⟨selectors, bitwise⟩
    rcases owner_of_vanish selectors with ⟨owner, ownsPrevious, _, forward⟩
    have rank := forward .bitwise owns one_ne_zero
    have different : owner ≠ .bitwise := by
      rintro rfl
      exact others previous (List.mem_append_right earlier List.mem_cons_self) ownsPrevious
    rw [flags_of_owners ownsPrevious owns rank rfl] at bitwise
    have ends := (vanish_when.mp (vanish_append.mp bitwise).1) (by simp [flagsOf, mark, different])
    rw [vanish_assertZero, periodic_eq] at ends
    have final : earlier.length % 8 = 7 := by
      by_contra inner
      exact one_ne_zero ((if_neg inner).symm.trans ends)
    rw [List.length_append, List.length_singleton]
    omega

end Holds

/-- A bitwise section starts with a cycle, and on the last row of each of its
complete cycles stand two 32-bit integers and the operation on them that the
flag of the cycle selects. -/
theorem bitwise_section_sound (holds : SatisfiesAt bitwiseTraceConstraints rows)
    (split : rows = before ++ cycles ++ after)
    (owned : forall row, row ∈ cycles -> Owns row .bitwise)
    (others : forall row, row ∈ before -> ¬ Owns row .bitwise) :
    (cycles ≠ [] -> before.length % 8 = 0) ∧
    forall cycle last, cycles[8 * cycle + 7]? = some last ->
      last.bitwise.a.val < 2 ^ 32 ∧ last.bitwise.b.val < 2 ^ 32 ∧
      (forall k row, k < 8 -> cycles[8 * cycle + k]? = some row -> row.bitwise.opFlag = last.bitwise.opFlag) ∧
      ((last.bitwise.opFlag = 0 ∧ last.bitwise.output = ((last.bitwise.a.val &&& last.bitwise.b.val : Nat) : Felt)) ∨
        (last.bitwise.opFlag = 1 ∧
          last.bitwise.output = ((last.bitwise.a.val ^^^ last.bitwise.b.val : Nat) : Felt))) := by
  refine ⟨section_aligned holds split owned others, fun cycle last atLast => ?_⟩
  have inside := (List.getElem?_eq_some_iff.mp atLast).1
  have aligned := section_aligned holds split owned others (List.ne_nil_of_length_pos (by omega))
  have place {k : Nat} {row : ChipletCols Felt} (found : cycles[8 * cycle + k]? = some row) :
      rows[before.length + 8 * cycle + k]? = some row := by
    rw [add_assoc]
    exact getElem?_of_split split found
  have start : (before.length + 8 * cycle) % 8 = 0 := by omega
  rcases aggregated_of_cycle holds start 7 (by decide)
    (fun k bound => ⟨_, place (List.getElem?_eq_getElem (by omega)), owned _ (List.getElem_mem _)⟩) with ⟨op, all⟩
  have ends := all 7 last (le_refl 7) (place atLast)
  refine ⟨ends.a_lt, ends.b_lt, fun k row bound found => ?_, ?_⟩
  · rw [(all k row (le_of_lt_succ bound) (place found)).flag, ends.flag]
  · cases op with
    | and => exact .inl ⟨ends.flag, ends.output⟩
    | xor => exact .inr ⟨ends.flag, ends.output⟩

def bitwiseCells (cols : BitwiseCols Felt) : ChipletCols Felt where
  chiplets := #v[1, 0, cols.opFlag, cols.a, cols.b] ++ cols.aBits ++ cols.bBits ++
    #v[cols.prevOutput, cols.output] ++ Vector.replicate 6 (0 : Felt)
  chipClk := 0

def controllerCells : ChipletCols Felt := ⟨Vector.replicate 21 0, 0⟩

/-- A padding row.  Its free columns continue a cycle of zeros. -/
def paddingCells : ChipletCols Felt :=
  ⟨#v[1, 1, 1, 1, 1, 1, 0, 0, 0, 1, 0, 0, 0, 0, 0, 0, 0, 0, 0, 0, 0], 0⟩

/-- Eight controller rows, the rows of one XOR, and a padding row. -/
theorem bitwise_section_sound_xor :
    ∃ last, ((BitwiseOp.xor.fillCycle 3735928559 305419896).map bitwiseCells)[7]? = some last ∧
      last.bitwise.a.val < 2 ^ 32 := by
  have holds : SatisfiesAt bitwiseTraceConstraints (List.replicate 8 controllerCells ++
      (BitwiseOp.xor.fillCycle 3735928559 305419896).map bitwiseCells ++ [paddingCells]) :=
    satisfiesAt_of_check (by decide +kernel)
  refine ⟨_, rfl, ?_⟩
  exact ((bitwise_section_sound holds rfl (by decide +kernel) (by decide +kernel)).2 0 _ rfl).1

/-- A section of one row. -/
theorem bitwise_section_cut :
    SatisfiesAt bitwiseTraceConstraints (List.replicate 8 controllerCells ++
      ((BitwiseOp.xor.fillCycle 0 0).take 1).map bitwiseCells ++ List.replicate 7 paddingCells) ∧
    (forall row, row ∈ ((BitwiseOp.xor.fillCycle 0 0).take 1).map bitwiseCells -> Owns row .bitwise) ∧
    (forall row, row ∈ List.replicate 8 controllerCells ++ List.replicate 7 paddingCells -> ¬ Owns row .bitwise) ∧
    ¬ 8 ∣ (((BitwiseOp.xor.fillCycle 0 0).take 1).map bitwiseCells).length := by
  refine ⟨satisfiesAt_of_check (by decide +kernel), ?_, ?_, by decide⟩
  · decide +kernel
  · decide +kernel

end MidenVm.Air
