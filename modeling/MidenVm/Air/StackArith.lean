import MidenVm.Core.Goldilocks
import MidenVm.Foundation.Air
import MidenVm.Processor.U32Ops

namespace MidenVm.Air

open Foundation.Air

/-!
# Arithmetic on the stack

The constraints of the operations on 32-bit integers.  They read the top of
the stack on two rows and the six helper columns of the first one, which hold
16-bit limbs that are range checked elsewhere.
-/

/-- The columns of `CoreCols` that the arithmetic constraints read:
`stack.top` and `decoder.user_op_helpers()`. -/
structure CoreCols (F : Type) where
  stack : Vector F 16
  userOpHelpers : Vector F 6

/-- The operations on 32-bit integers. -/
inductive U32Op where
  | u32split
  | u32assert2
  | u32add
  | u32add3
  | u32sub
  | u32mul
  | u32madd
  | u32div
  deriving DecidableEq, Repr

variable {F : Type} [Field F]

/-! ## Limbs -/

/-- `u32_v_lo`, and with the other two limbs `u32_v_hi` and `u32_remainder_diff`. -/
def fromLimbs (low high : F) : F := high * 2 ^ 16 + low

/-- `u32_v48`. -/
def u32V48 (h : Vector F 6) : F := h[2] * 2 ^ 32 + fromLimbs h[0] h[1]

/-- `u32_v64`. -/
def u32V64 (h : Vector F 6) : F := h[3] * 2 ^ 48 + u32V48 h

/-- The constraints of the 32-bit operations. -/
def u32Constraints (flags : U32Op -> F) (current next : CoreCols F) : List F :=
  let s := current.stack
  let s' := next.stack
  let h := current.userOpHelpers
  let vLo := fromLimbs h[0] h[1]
  let vHi := fromLimbs h[2] h[3]
  -- the element validity check: the high half is not all ones unless the low half is zero
  when (flags .u32split + flags .u32mul + flags .u32madd) (
      assertZero ((1 - h[4] * ((2 ^ 32 - 1) - vHi)) * vLo)) ++
    when (flags .u32split + flags .u32add + flags .u32add3 + flags .u32mul + flags .u32madd) (
      assertEq s'[0] vLo ++ assertEq s'[1] vHi) ++
    when (flags .u32split) (assertEq s[0] (u32V64 h)) ++
    when (flags .u32add) (assertEq (s[0] + s[1]) (u32V48 h)) ++
    when (flags .u32add3) (assertEq (s[0] + s[1] + s[2]) (u32V48 h)) ++
    when (flags .u32add + flags .u32add3) (assertZero h[3]) ++
    when (flags .u32sub) (assertEq s[1] (s[0] + s'[1] - s'[0] * 2 ^ 32) ++ assertBool s'[0] ++
      assertEq s'[1] vLo) ++
    when (flags .u32mul) (assertEq (s[0] * s[1]) (u32V64 h)) ++
    when (flags .u32madd) (assertEq (s[0] * s[1] + s[2]) (u32V64 h)) ++
    when (flags .u32div) (assertEq s[1] (s[0] * s'[1] + s'[0]) ++ assertEq s'[1] vLo ++
      assertEq s'[0] vHi ++ assertEq (s[0] - s'[0]) (fromLimbs h[4] h[5] + 1)) ++
    when (flags .u32assert2) (assertEq s'[0] vHi ++ assertEq s'[1] vLo)

open Foundation Processor Outcome Nat Felt U32Op OperandStack

/-!
# 32-bit operations: constraints against execution

Both sides are compared with the meaning of an operation on integers.  The
constraints speak of field elements, and four limbs make integers of 64 bits,
which may pass the modulus.  The validity check excludes the integers from the
modulus on, so the two halves are those of the canonical form.
-/

/-! ## Limbs and halves -/

variable {total : Nat} {op : U32Op} {h : Vector Felt 6} {first second : Felt}

/-- The low and the high half of an integer, as field elements. -/
def Halves (total : Nat) (low high : Felt) : Prop :=
  low = ((total % 2 ^ 32 : Nat) : Felt) ∧ high = ((total / 2 ^ 32 : Nat) : Felt)

theorem val_fromLimbs {low high : Felt} (lowSmall : low.val < 2 ^ 16)
    (highSmall : high.val < 2 ^ 16) : (fromLimbs low high).val = high.val * 2 ^ 16 + low.val := by
  have cast : fromLimbs low high = ((high.val * 2 ^ 16 + low.val : Nat) : Felt) := by
    simp only [fromLimbs, cast_add, cast_mul, cast_pow, cast_ofNat, natCast_val]
  rw [cast, val_natCast_of_lt (by omega)]

theorem val_fromLimbs_lt {low high : Felt} (lowSmall : low.val < 2 ^ 16)
    (highSmall : high.val < 2 ^ 16) : (fromLimbs low high).val < 2 ^ 32 := by
  rw [val_fromLimbs lowSmall highSmall]
  omega

theorem u32V64_eq (h : Vector Felt 6) : u32V64 h =
    fromLimbs h[2] h[3] * 2 ^ 32 + fromLimbs h[0] h[1] := by
  unfold u32V64 u32V48 fromLimbs
  ring

theorem u32V48_eq (h : Vector Felt 6) (zero : h[3] = 0) :
    u32V48 h = fromLimbs h[2] h[3] * 2 ^ 32 + fromLimbs h[0] h[1] := by
  unfold u32V48 fromLimbs
  rw [zero]
  ring

/-- The recombination of two halves, as an integer. -/
theorem recombine_cast (low high : Felt) :
    high * 2 ^ 32 + low = ((high.val * 2 ^ 32 + low.val : Nat) : Felt) := by
  simp only [cast_add, cast_mul, cast_pow, cast_ofNat, natCast_val]

/-- Two halves whose integer is below the modulus are those of every integer
they stand for. -/
theorem halves_of_recombine {low high : Felt} (reduced : total < modulus)
    (lowSmall : low.val < 2 ^ 32)
    (canonical : high.val * 2 ^ 32 + low.val < modulus)
    (equal : (total : Felt) = high * 2 ^ 32 + low) : Halves total low high := by
  rw [recombine_cast, natCast_inj reduced canonical] at equal
  constructor
  · have digit : total % 2 ^ 32 = low.val := by omega
    rw [digit, natCast_val]
  · have digit : total / 2 ^ 32 = high.val := by omega
    rw [digit, natCast_val]

theorem val_of_halves {low high : Felt} (reduced : total < modulus)
    (halves : Halves total low high) : low.val = total % 2 ^ 32 ∧ high.val = total / 2 ^ 32 := by
  unfold modulus at reduced
  rw [halves.1, halves.2, val_natCast_of_lt (by omega), val_natCast_of_lt (by omega)]
  exact ⟨rfl, rfl⟩

theorem recombine_of_halves {low high : Felt} (reduced : total < modulus)
    (halves : Halves total low high) : (total : Felt) = high * 2 ^ 32 + low := by
  rcases val_of_halves reduced halves with ⟨lowVal, highVal⟩
  rw [recombine_cast, lowVal, highVal]
  congr 1
  omega

/-- The largest 32-bit value in the field. -/
theorem val_u32Max : (2 ^ 32 - 1 : Felt).val = 2 ^ 32 - 1 := by decide +kernel

/-- The validity check leaves only integers below the modulus. -/
theorem canonical_of_valid {low high inverse : Felt} (lowSmall : low.val < 2 ^ 32)
    (highSmall : high.val < 2 ^ 32)
    (valid : (1 - inverse * ((2 ^ 32 - 1) - high)) * low = 0) :
    high.val * 2 ^ 32 + low.val < modulus := by
  change high.val * 2 ^ 32 + low.val < 18446744069414584321
  rcases mul_eq_zero.mp valid with inverted | zero
  · have different : high.val ≠ 2 ^ 32 - 1 := by
      intro same
      have top : high = 2 ^ 32 - 1 := val_injective (by rw [same, val_u32Max])
      rw [top, sub_self, mul_zero, sub_zero] at inverted
      exact one_ne_zero inverted
    omega
  · rw [zero, ZMod.val_zero]
    omega

/-- The helper of the processor passes the validity check. -/
theorem valid_overflowInverse {low high : Felt} (reduced : total < modulus)
    (halves : Halves total low high) :
    (1 - overflowInverse high * ((2 ^ 32 - 1) - high)) * low = 0 := by
  have same : (newUnchecked u32Max : Felt) = 2 ^ 32 - 1 := by decide +kernel
  by_cases top : (2 ^ 32 - 1 : Felt) - high = 0
  · -- an integer with a full high half is at most the modulus less one
    rcases val_of_halves reduced halves with ⟨lowVal, highVal⟩
    have full : high.val = 2 ^ 32 - 1 := by rw [← sub_eq_zero.mp top, val_u32Max]
    have zero : low = 0 := by
      apply val_injective
      unfold modulus at reduced
      rw [ZMod.val_zero, lowVal]
      omega
    rw [zero, mul_zero]
  · rw [overflowInverse, same, inv_mul_cancel₀ top, sub_self, zero_mul]

/-! ## The helper columns of the processor -/

theorem val_splitU32IntoU16 (value : Felt) :
    (splitU32IntoU16 value).1.val = value.val % 2 ^ 16 ∧
      (splitU32IntoU16 value).2.val = value.val / 2 ^ 16 % 2 ^ 16 := by
  unfold splitU32IntoU16 newUnchecked asCanonicalU64
  rw [val_natCast_of_lt (by omega), val_natCast_of_lt (by omega)]
  exact ⟨rfl, rfl⟩

theorem splitU32IntoU16_lt (value : Felt) :
    (splitU32IntoU16 value).1.val < 2 ^ 16 ∧ (splitU32IntoU16 value).2.val < 2 ^ 16 := by
  rcases val_splitU32IntoU16 value with ⟨low, high⟩
  rw [low, high]
  exact ⟨mod_lt _ (by decide), mod_lt _ (by decide)⟩

theorem fromLimbs_splitU32IntoU16 {value : Felt} (small : value.val < 2 ^ 32) :
    fromLimbs (splitU32IntoU16 value).1 (splitU32IntoU16 value).2 = value := by
  apply val_injective
  rcases splitU32IntoU16_lt value with ⟨lowSmall, highSmall⟩
  rcases val_splitU32IntoU16 value with ⟨low, high⟩
  rw [val_fromLimbs lowSmall highSmall, low, high]
  omega

/-- The first four helpers are below `2^16`. -/
def FourLimbs (h : Vector Felt 6) : Prop :=
  h[0].val < 2 ^ 16 ∧ h[1].val < 2 ^ 16 ∧ h[2].val < 2 ^ 16 ∧ h[3].val < 2 ^ 16

theorem fourLimbs_helperColumns (low high h4 h5 : Felt) :
    FourLimbs (helperColumns low high h4 h5) := by
  rcases splitU32IntoU16_lt low with ⟨low0, low1⟩
  rcases splitU32IntoU16_lt high with ⟨high0, high1⟩
  exact ⟨low0, low1, high0, high1⟩

/-! ## The meaning of the operations -/

namespace U32Op

/-- How many stack elements an operation requires to be 32-bit values. -/
def operands : U32Op -> Nat
  | u32split => 0
  | u32assert2 => 0
  | u32add => 2
  | u32add3 => 3
  | u32sub => 2
  | u32mul => 2
  | u32madd => 3
  | u32div => 2

/-- The results of an operation on integers, as the two cells on top. -/
def Meaning (op : U32Op) (s0 s1 s2 : Nat) (first second : Felt) : Prop :=
  match op with
  | u32split => Halves s0 first second
  | u32assert2 =>
    s0 < 2 ^ 32 ∧ s1 < 2 ^ 32 ∧ first = ((s0 : Nat) : Felt) ∧ second = ((s1 : Nat) : Felt)
  | u32add => Halves (s0 + s1) first second
  | u32add3 => Halves (s0 + s1 + s2) first second
  | u32sub => first = (if s1 < s0 then 1 else 0) ∧
    second = (((s1 + 2 ^ 32 - s0) % 2 ^ 32 : Nat) : Felt)
  | u32mul => Halves (s0 * s1) first second
  | u32madd => Halves (s0 * s1 + s2) first second
  | u32div => s0 ≠ 0 ∧ first = ((s1 % s0 : Nat) : Felt) ∧ second = ((s1 / s0 : Nat) : Felt)

/-- The helpers that hold limbs are below `2^16`. -/
def Limbs (op : U32Op) (h : Vector Felt 6) : Prop :=
  FourLimbs h ∧ (op = u32div -> h[4].val < 2 ^ 16 ∧ h[5].val < 2 ^ 16)

/-- What the constraints say when only this operation is flagged. -/
def Equations (op : U32Op) (s s' : Vector Felt 16) (h : Vector Felt 6) : Prop :=
  let vLo := fromLimbs h[0] h[1]
  let vHi := fromLimbs h[2] h[3]
  let valid := (1 - h[4] * ((2 ^ 32 - 1) - vHi)) * vLo = 0
  let outputs := s'[0] = vLo ∧ s'[1] = vHi
  match op with
  | u32split => valid ∧ outputs ∧ s[0] = u32V64 h
  | u32assert2 => s'[0] = vHi ∧ s'[1] = vLo
  | u32add => outputs ∧ s[0] + s[1] = u32V48 h ∧ h[3] = 0
  | u32add3 => outputs ∧ s[0] + s[1] + s[2] = u32V48 h ∧ h[3] = 0
  | u32sub => s[1] = s[0] + s'[1] - s'[0] * 2 ^ 32 ∧ (s'[0] = 0 ∨ s'[0] = 1) ∧ s'[1] = vLo
  | u32mul => valid ∧ outputs ∧ s[0] * s[1] = u32V64 h
  | u32madd => valid ∧ outputs ∧ s[0] * s[1] + s[2] = u32V64 h
  | u32div => s[1] = s[0] * s'[1] + s'[0] ∧ s'[1] = vLo ∧ s'[0] = vHi ∧
    s[0] - s'[0] = fromLimbs h[4] h[5] + 1

end U32Op

/-- Exactly one of the flags is set. -/
def OnlyFlag (flags : U32Op -> Felt) (op : U32Op) : Prop :=
  flags op = 1 ∧ forall other, other ≠ op -> flags other = 0

theorem vanish_u32Constraints {flags : U32Op -> Felt} (only : OnlyFlag flags op)
    (current next : CoreCols Felt) :
    Vanish (u32Constraints flags current next) ↔
      op.Equations current.stack next.stack current.userOpHelpers := by
  rcases only with ⟨set, others⟩
  cases op <;>
    simp [u32Constraints, U32Op.Equations, vanish_append, vanish_when, set, others, and_assoc]

/-! ## Constraints and meaning -/

theorem FourLimbs.low (limbs : FourLimbs h) : (fromLimbs h[0] h[1]).val < 2 ^ 32 :=
  val_fromLimbs_lt limbs.1 limbs.2.1

theorem FourLimbs.high (limbs : FourLimbs h) : (fromLimbs h[2] h[3]).val < 2 ^ 32 :=
  val_fromLimbs_lt limbs.2.2.1 limbs.2.2.2

/-- The halves of an integer are recovered from their limbs. -/
theorem fromLimbs_of_halves (reduced : total < modulus) (halves : Halves total first second)
    (h4 h5 : Felt) : let h := helperColumns first second h4 h5
    fromLimbs h[0] h[1] = first ∧ fromLimbs h[2] h[3] = second := by
  rcases val_of_halves reduced halves with ⟨lowVal, highVal⟩
  unfold modulus at reduced
  constructor
  · exact fromLimbs_splitU32IntoU16 (by rw [lowVal]; exact mod_lt _ (by decide))
  · exact fromLimbs_splitU32IntoU16 (by rw [highVal]; omega)

/-- Operations that split an integer below the modulus into halves. -/
theorem wide_iff {source : Felt} (reduced : total < modulus) (cast : source = (total : Felt)) :
    (∃ h : Vector Felt 6, FourLimbs h ∧
      (1 - h[4] * ((2 ^ 32 - 1) - fromLimbs h[2] h[3])) * fromLimbs h[0] h[1] = 0 ∧
      (first = fromLimbs h[0] h[1] ∧ second = fromLimbs h[2] h[3]) ∧
      source = u32V64 h) ↔ Halves total first second := by
  subst cast
  constructor
  · rintro ⟨h, limbs, valid, ⟨low, high⟩, equal⟩
    rw [low, high]
    rw [u32V64_eq] at equal
    exact halves_of_recombine reduced limbs.low (canonical_of_valid limbs.low limbs.high valid) equal
  · intro halves
    rcases fromLimbs_of_halves reduced halves (overflowInverse second) 0 with ⟨low, high⟩
    refine ⟨_, fourLimbs_helperColumns _ _ _ _, ?_, ⟨low.symm, high.symm⟩, ?_⟩
    · rw [low, high]
      exact valid_overflowInverse reduced halves
    · rw [u32V64_eq, low, high]
      exact recombine_of_halves reduced halves

/-- Operations whose high half fits in one limb. -/
theorem narrow_iff {source : Felt} (small : total < 2 ^ 48) (cast : source = (total : Felt)) :
    (∃ h : Vector Felt 6, FourLimbs h ∧
      (first = fromLimbs h[0] h[1] ∧ second = fromLimbs h[2] h[3]) ∧
      source = u32V48 h ∧ h[3] = 0) ↔ Halves total first second := by
  subst cast
  have reduced : total < modulus := lt_trans small (by decide)
  constructor
  · rintro ⟨h, limbs, ⟨low, high⟩, equal, zero⟩
    rw [low, high]
    rw [u32V48_eq h zero] at equal
    refine halves_of_recombine reduced limbs.low ?_ equal
    have lowSmall := limbs.low
    have third := limbs.2.2.1
    change (fromLimbs h[2] h[3]).val * 2 ^ 32 + (fromLimbs h[0] h[1]).val < 18446744069414584321
    rw [val_fromLimbs limbs.2.2.1 limbs.2.2.2, zero, ZMod.val_zero]
    omega
  · intro halves
    rcases fromLimbs_of_halves reduced halves 0 0 with ⟨low, high⟩
    have zero : (splitU32IntoU16 second).2 = 0 := by
      apply val_injective
      rw [(val_splitU32IntoU16 second).2, (val_of_halves reduced halves).2, ZMod.val_zero]
      omega
    refine ⟨_, fourLimbs_helperColumns _ _ _ _, ⟨low.symm, high.symm⟩, ?_, zero⟩
    rw [u32V48_eq (helperColumns first second 0 0) zero, low, high]
    exact recombine_of_halves reduced halves

theorem eq_of_cast {left right : Nat} (same : (left : Felt) = (right : Felt))
    (small : left < 2 ^ 33) (fits : right < 18446744069414584321) : left = right :=
  (natCast_inj (lt_trans small (by decide)) fits).mp same

/-- The borrow and the difference of two 32-bit integers. -/
theorem sub_iff {minuend subtrahend : Felt} {a b : Nat} (left : minuend = (a : Felt))
    (right : subtrahend = (b : Felt)) (aSmall : a < 2 ^ 32) (bSmall : b < 2 ^ 32) :
    (∃ h : Vector Felt 6, FourLimbs h ∧ minuend = subtrahend + second - first * 2 ^ 32 ∧
      (first = 0 ∨ first = 1) ∧ second = fromLimbs h[0] h[1]) ↔
      first = (if a < b then 1 else 0) ∧ second = (((a + 2 ^ 32 - b) % 2 ^ 32 : Nat) : Felt) := by
  subst left right
  constructor
  · rintro ⟨h, limbs, equal, boolean, difference⟩
    have small := limbs.low
    rw [← difference] at small
    rcases boolean with zero | one
    · rw [zero, zero_mul, sub_zero, ← natCast_val second, ← cast_add] at equal
      have integers : a = b + second.val := eq_of_cast equal (by omega) (by omega)
      have digit : (a + 2 ^ 32 - b) % 2 ^ 32 = second.val := by omega
      rw [zero, if_neg (by omega), digit, natCast_val]
      exact ⟨rfl, rfl⟩
    · have moved : ((a + 2 ^ 32 : Nat) : Felt) = ((b + second.val : Nat) : Felt) := by
        rw [one, one_mul] at equal
        rw [cast_add, cast_add, natCast_val, equal, cast_pow, cast_ofNat]
        ring
      have integers : a + 2 ^ 32 = b + second.val := eq_of_cast moved (by omega) (by omega)
      have digit : (a + 2 ^ 32 - b) % 2 ^ 32 = second.val := by omega
      rw [one, if_pos (by omega), digit, natCast_val]
      exact ⟨rfl, rfl⟩
  · rintro ⟨borrow, difference⟩
    have value : second.val = (a + 2 ^ 32 - b) % 2 ^ 32 := by
      rw [difference, val_natCast_of_lt (by omega)]
    have low : fromLimbs (splitU32IntoU16 second).1 (splitU32IntoU16 second).2 = second :=
      fromLimbs_splitU32IntoU16 (by rw [value]; exact mod_lt _ (by decide))
    refine ⟨helperColumns second 0 0 0, fourLimbs_helperColumns _ _ _ _, ?_, ?_, low.symm⟩
    · rw [eq_sub_iff_add_eq, ← natCast_val second, value]
      by_cases less : a < b
      · rw [borrow, if_pos less]
        have digit : b + (a + 2 ^ 32 - b) % 2 ^ 32 = a + 2 ^ 32 := by omega
        rw [← cast_add, digit, cast_add, cast_pow, cast_ofNat, one_mul]
      · rw [borrow, if_neg less]
        have digit : b + (a + 2 ^ 32 - b) % 2 ^ 32 = a := by omega
        rw [← cast_add, digit, zero_mul, add_zero]
    · rw [borrow]
      split
      · exact .inr rfl
      · exact .inl rfl

/-- Quotient and remainder of two 32-bit integers. -/
theorem div_iff {dividend divisor : Felt} {a b : Nat} (left : dividend = (a : Felt))
    (right : divisor = (b : Felt)) (aSmall : a < 2 ^ 32) (bSmall : b < 2 ^ 32) :
    (∃ h : Vector Felt 6, (FourLimbs h ∧ h[4].val < 2 ^ 16 ∧ h[5].val < 2 ^ 16) ∧
      dividend = divisor * second + first ∧ second = fromLimbs h[0] h[1] ∧
      first = fromLimbs h[2] h[3] ∧ divisor - first = fromLimbs h[4] h[5] + 1) ↔
      b ≠ 0 ∧ first = ((a % b : Nat) : Felt) ∧ second = ((a / b : Nat) : Felt) := by
  subst left right
  constructor
  · rintro ⟨h, ⟨limbs, fifth, sixth⟩, equal, quotient, remainder, difference⟩
    have quotientSmall := limbs.low
    have remainderSmall := limbs.high
    rw [← quotient] at quotientSmall
    rw [← remainder] at remainderSmall
    have below : b * second.val ≤ (2 ^ 32 - 1) * (2 ^ 32 - 1) :=
      Nat.mul_le_mul (by omega) (by omega)
    rw [← natCast_val second, ← natCast_val first, ← cast_mul, ← cast_add]
      at equal
    have integers : a = b * second.val + first.val := eq_of_cast equal (by omega) (by omega)
    have gap := val_fromLimbs_lt fifth sixth
    have moved : (b : Felt) = ((first.val + (fromLimbs h[4] h[5]).val + 1 : Nat) : Felt) := by
      rw [cast_add, cast_add, natCast_val, natCast_val, cast_one, add_assoc, ← difference]
      ring
    have less : b = first.val + (fromLimbs h[4] h[5]).val + 1 :=
      eq_of_cast moved (by omega) (by omega)
    have unique := (Nat.div_mod_unique (a := a) (b := b) (c := first.val) (d := second.val)
      (by omega)).mpr ⟨by rw [integers, add_comm], by omega⟩
    refine ⟨by omega, ?_, ?_⟩
    · rw [unique.2, natCast_val]
    · rw [unique.1, natCast_val]
  · rintro ⟨positive, remainder, quotient⟩
    have small : a % b < b := mod_lt _ (pos_of_ne_zero positive)
    have quotientLe : a / b ≤ a := Nat.div_le_self a b
    have quotientVal : second.val = a / b := by
      rw [quotient, val_natCast_of_lt (by omega)]
    have remainderVal : first.val = a % b := by
      rw [remainder, val_natCast_of_lt (by omega)]
    set rest : Felt := ((b - a % b - 1 : Nat) : Felt) with restEq
    have gapVal : rest.val = b - a % b - 1 := val_natCast_of_lt (by omega)
    have low : fromLimbs (splitU32IntoU16 second).1 (splitU32IntoU16 second).2 = second :=
      fromLimbs_splitU32IntoU16 (by rw [quotientVal]; omega)
    have high : fromLimbs (splitU32IntoU16 first).1 (splitU32IntoU16 first).2 = first :=
      fromLimbs_splitU32IntoU16 (by rw [remainderVal]; omega)
    have gap := fromLimbs_splitU32IntoU16 (gapVal.trans_lt (by omega))
    rcases splitU32IntoU16_lt rest with ⟨fifth, sixth⟩
    refine ⟨helperColumns second first (splitU32IntoU16 rest).1 (splitU32IntoU16 rest).2,
      ⟨fourLimbs_helperColumns _ _ _ _, fifth, sixth⟩, ?_, low.symm, high.symm, ?_⟩
    · rw [quotient, remainder, ← cast_mul, ← cast_add, div_add_mod]
    · change (b : Felt) - first = fromLimbs (splitU32IntoU16 rest).1 (splitU32IntoU16 rest).2 + 1
      have whole : b = b - a % b - 1 + 1 + a % b := by omega
      rw [gap, restEq, remainder, sub_eq_iff_eq_add, ← cast_succ, ← cast_add]
      exact congrArg Nat.cast whole

/-- Both operands of a product fit, so the product does not wrap. -/
theorem mul_add_lt {a b c : Nat} (aSmall : a < 2 ^ 32) (bSmall : b < 2 ^ 32) (cSmall : c < 2 ^ 32) :
    a * b + c < modulus := by
  have below : a * b ≤ (2 ^ 32 - 1) * (2 ^ 32 - 1) := Nat.mul_le_mul (by omega) (by omega)
  unfold modulus
  omega

theorem mul_lt {a b : Nat} (aSmall : a < 2 ^ 32) (bSmall : b < 2 ^ 32) : a * b < modulus :=
  mul_add_lt aSmall bSmall (Nat.two_pow_pos 32)

/-- Only the division has limbs in the last two helpers. -/
theorem exists_limbs_of_ne (different : op ≠ .u32div) (property : Vector Felt 6 -> Prop) :
    (∃ h, op.Limbs h ∧ property h) ↔ ∃ h, FourLimbs h ∧ property h := by
  constructor
  · rintro ⟨h, limbs, holds⟩
    exact ⟨h, limbs.1, holds⟩
  · rintro ⟨h, limbs, holds⟩
    exact ⟨h, ⟨limbs, fun same => absurd same different⟩, holds⟩

/-- Limbs that satisfy the equations of an operation exist exactly for its
meaning.  The equations of the assertion leave the current row out. -/
theorem exists_limbs_iff {s s' : Vector Felt 16}
    (small : forall index : Fin 3, index.val < op.operands -> s[index].val < 2 ^ 32)
    (unchanged : op = .u32assert2 -> s'[0] = s[0] ∧ s'[1] = s[1]) :
    (∃ h : Vector Felt 6, op.Limbs h ∧ op.Equations s s' h) ↔
      op.Meaning s[0].val s[1].val s[2].val s'[0] s'[1] := by
  have cast0 := (natCast_val s[0]).symm
  have cast1 := (natCast_val s[1]).symm
  have cast2 := (natCast_val s[2]).symm
  have sum : s[0] + s[1] = ((s[0].val + s[1].val : Nat) : Felt) := by
    rw [cast_add, ← cast0, ← cast1]
  have product : s[0] * s[1] = ((s[0].val * s[1].val : Nat) : Felt) := by
    rw [cast_mul, ← cast0, ← cast1]
  cases op with
  | u32split =>
    rw [exists_limbs_of_ne (by decide)]
    exact wide_iff (ZMod.val_lt s[0]) cast0
  | u32assert2 =>
    rw [exists_limbs_of_ne (by decide)]
    rcases unchanged rfl with ⟨same0, same1⟩
    constructor
    · rintro ⟨h, limbs, high, low⟩
      have lowSmall := limbs.low
      have highSmall := limbs.high
      rw [← low, same1] at lowSmall
      rw [← high, same0] at highSmall
      exact ⟨highSmall, lowSmall, same0.trans cast0, same1.trans cast1⟩
    · rintro ⟨small0, small1, _, _⟩
      refine ⟨helperColumns s[1] s[0] 0 0, fourLimbs_helperColumns _ _ _ _, ?_, ?_⟩
      · exact same0.trans (fromLimbs_splitU32IntoU16 small0).symm
      · exact same1.trans (fromLimbs_splitU32IntoU16 small1).symm
  | u32add =>
    rw [exists_limbs_of_ne (by decide)]
    have small0 := small 0 (by decide)
    have small1 := small 1 (by decide)
    exact narrow_iff (lt_of_lt_of_le (Nat.add_lt_add small0 small1) (by decide)) sum
  | u32add3 =>
    rw [exists_limbs_of_ne (by decide)]
    have small0 := small 0 (by decide)
    have small1 := small 1 (by decide)
    have small2 := small 2 (by decide)
    refine narrow_iff (lt_of_lt_of_le
      (Nat.add_lt_add (Nat.add_lt_add small0 small1) small2) (by decide)) ?_
    rw [cast_add, ← sum, ← cast2]
  | u32sub =>
    rw [exists_limbs_of_ne (by decide)]
    exact sub_iff cast1 cast0 (small 1 (by decide)) (small 0 (by decide))
  | u32mul =>
    rw [exists_limbs_of_ne (by decide)]
    exact wide_iff (mul_lt (small 0 (by decide)) (small 1 (by decide))) product
  | u32madd =>
    rw [exists_limbs_of_ne (by decide)]
    refine wide_iff (mul_add_lt (small 0 (by decide)) (small 1 (by decide))
      (small 2 (by decide))) ?_
    rw [cast_add]
    exact congrArg₂ (· + ·) product cast2
  | u32div =>
    have limbs (h : Vector Felt 6) : u32div.Limbs h ↔ FourLimbs h ∧ h[4].val < 2 ^ 16 ∧
        h[5].val < 2 ^ 16 :=
      and_congr_right' ⟨fun range => range rfl, fun range _ => range⟩
    simp only [limbs]
    exact div_iff cast1 cast0 (small 1 (by decide)) (small 0 (by decide))

/-! ## Execution and meaning -/

/-- The arm of `execute_op` for an operation. -/
def U32Op.execute {σ : Type} [StackInterface σ] (errCode : Felt) (stack : σ) :
    U32Op -> Outcome ExecutionError (σ × OperationHelperRegisters)
  | .u32split => opU32split stack
  | .u32assert2 => (opU32assert2 errCode stack).mapErr .operation
  | .u32add => (opU32add stack).mapErr .operation
  | .u32add3 => (opU32add3 stack).mapErr .operation
  | .u32sub => (opU32sub stack).mapErr .operation
  | .u32mul => (opU32mul stack).mapErr .operation
  | .u32madd => (opU32madd stack).mapErr .operation
  | .u32div => (opU32div stack).mapErr .operation

open StackInterface

@[simp] theorem get_ofTop (s : Vector Felt 16) {index : Nat} (inside : index < 16) :
    get (ofTop s) index = s[index] := by
  change s.toList.getD index 0 = s[index]
  simp [List.getD_eq_getElem?_getD, inside]

theorem get_setTwo (stack : OperandStack) (first second : Felt) :
    get (setTwo stack first second) 0 = first ∧ get (setTwo stack first second) 1 = second := by
  rcases stack with ⟨cells, deep⟩
  rcases cells with _ | ⟨top, _ | ⟨below, rest⟩⟩
  · exact absurd deep (by decide)
  · exact absurd deep (show ¬ 16 ≤ 1 by decide)
  · exact ⟨rfl, rfl⟩

theorem splitElement_eq (reduced : total < modulus) :
    splitElement (.newUnchecked total) =
      (((total / 2 ^ 32 : Nat) : Felt), ((total % 2 ^ 32 : Nat) : Felt)) := by
  unfold splitElement
  rw [asCanonicalU64_newUnchecked reduced]
  rfl

theorem requireU32Operands_of_small {stack : OperandStack} {indices : List Nat}
    (small : forall index, index ∈ indices -> (get stack index).val < 2 ^ 32) :
    requireU32Operands stack indices = .ok () := by
  have none : (indices.map (get stack)).filter
      (fun value => u32Max < value.asCanonicalU64) = [] := by
    apply List.filter_eq_nil_iff.mpr
    intro value member
    rcases List.mem_map.mp member with ⟨index, inside, rfl⟩
    have below := small index inside
    rw [decide_eq_true_eq, not_lt]
    exact le_sub_one_of_lt below
  unfold requireU32Operands
  rw [none]
  rfl

theorem invalid_iff (value : Felt) : u32Max < value.asCanonicalU64 ↔ ¬ value.val < 2 ^ 32 := by
  unfold u32Max asCanonicalU64
  omega

theorem filter_invalid_isEmpty :
    ([first, second].filter (fun value => u32Max < value.asCanonicalU64)).isEmpty =
      decide (first.val < 2 ^ 32 ∧ second.val < 2 ^ 32) := by
  rw [Bool.eq_iff_iff]
  simp only [List.isEmpty_iff, List.filter_eq_nil_iff, List.forall_mem_cons, decide_eq_true_eq,
    invalid_iff, not_not]
  exact and_congr_right' (and_iff_left (List.forall_mem_nil _))

/-- A computation that writes two results is described by them. -/
theorem returns_two_iff {computation : Outcome ExecutionError (OperandStack × OperationHelperRegisters)}
    {low high : Felt} (stack : OperandStack) (registers : Felt -> Felt -> OperationHelperRegisters)
    (returned : computation = .ok (setTwo stack low high, registers low high)) :
    (∃ after registers, computation = .ok (after, registers) ∧ get after 0 = first ∧
      get after 1 = second) ↔ first = low ∧ second = high := by
  rcases get_setTwo stack low high with ⟨top, below⟩
  constructor
  · rintro ⟨after, other, same, rfl, rfl⟩
    rw [returned] at same
    cases same
    exact ⟨top, below⟩
  · rintro ⟨rfl, rfl⟩
    exact ⟨_, _, returned, top, below⟩

/-- The difference of two 32-bit integers on 64 bits, and the bit on top of it. -/
theorem wrapping_sub_eq {a b : Nat} (aSmall : a < 2 ^ 32) (bSmall : b < 2 ^ 32) :
    (a + 2 ^ 64 - b) % 2 ^ 64 / 2 ^ 63 = (if a < b then 1 else 0) ∧
      (a + 2 ^ 64 - b) % 2 ^ 64 % 2 ^ 32 = (a + 2 ^ 32 - b) % 2 ^ 32 := by
  split <;> omega

theorem execute_iff {s : Vector Felt 16} (errCode : Felt)
    (small : forall index : Fin 3, index.val < op.operands -> s[index].val < 2 ^ 32) :
    (∃ after registers, op.execute errCode (ofTop s) = .ok (after, registers) ∧
      get after 0 = first ∧ get after 1 = second) ↔
      op.Meaning s[0].val s[1].val s[2].val first second := by
  set stack := ofTop s
  have top0 : get stack 0 = s[0] := get_ofTop s (by decide)
  have top1 : get stack 1 = s[1] := get_ofTop s (by decide)
  have top2 : get stack 2 = s[2] := get_ofTop s (by decide)
  have small0 (uses : 0 < op.operands) : s[0].val < 2 ^ 32 := small 0 uses
  have small1 (uses : 1 < op.operands) : s[1].val < 2 ^ 32 := small 1 uses
  have small2 (uses : 2 < op.operands) : s[2].val < 2 ^ 32 := small 2 uses
  have two (uses : 1 < op.operands) : requireU32Operands stack [0, 1] = .ok () := by
    apply requireU32Operands_of_small
    simp only [List.forall_mem_cons, top0, top1]
    exact ⟨small0 (by omega), small1 uses, List.forall_mem_nil _⟩
  have three (uses : 2 < op.operands) : requireU32Operands stack [0, 1, 2] = .ok () := by
    apply requireU32Operands_of_small
    simp only [List.forall_mem_cons, top0, top1, top2]
    exact ⟨small0 (by omega), small1 (by omega), small2 uses, List.forall_mem_nil _⟩
  cases op with
  | u32split =>
    have split := splitElement_eq (ZMod.val_lt s[0])
    rw [newUnchecked, natCast_val] at split
    refine returns_two_iff stack.increment .u32Split ?_
    simp only [execute, opU32split, top0, split]
    rfl
  | u32assert2 =>
    by_cases both : s[0].val < 2 ^ 32 ∧ s[1].val < 2 ^ 32
    · have returned : u32assert2.execute errCode stack = .ok (stack, .u32Assert2 s[0] s[1]) := by
        simp only [execute, opU32assert2, top0, top1, filter_invalid_isEmpty,
          decide_eq_true_eq, if_pos both]
        rfl
      constructor
      · rintro ⟨after, registers, same, rfl, rfl⟩
        rw [returned] at same
        cases same
        exact ⟨both.1, both.2, top0.trans (natCast_val _).symm, top1.trans (natCast_val _).symm⟩
      · rintro ⟨_, _, rfl, rfl⟩
        exact ⟨_, _, returned, top0.trans (natCast_val _).symm, top1.trans (natCast_val _).symm⟩
    · constructor
      · rintro ⟨after, registers, same, _, _⟩
        simp only [execute, opU32assert2, top0, top1, filter_invalid_isEmpty,
          decide_eq_true_eq, if_neg both] at same
        split at same
        · cases same
        · cases same
      · rintro ⟨small0, small1, _, _⟩
        exact absurd ⟨small0, small1⟩ both
  | u32add =>
    have split :=
      splitElement_eq (lt_trans (Nat.add_lt_add (small0 (by decide)) (small1 (by decide)))
      (by decide))
    refine returns_two_iff stack .u32Add ?_
    simp only [execute, opU32add, two (by decide), ok_bind, top0, top1, asCanonicalU64, split]
    rfl
  | u32add3 =>
    have split := splitElement_eq (lt_trans (Nat.add_lt_add (Nat.add_lt_add (small0 (by decide))
      (small1 (by decide))) (small2 (by decide))) (by decide))
    refine returns_two_iff stack.decrement .u32Add3 ?_
    simp only [execute, opU32add3, three (by decide), ok_bind, top0, top1, top2,
      asCanonicalU64, split]
    rfl
  | u32sub =>
    rcases wrapping_sub_eq (small1 (by decide)) (small0 (by decide)) with ⟨borrow, difference⟩
    refine returns_two_iff stack (fun _ difference => .u32Sub difference) ?_
    simp only [execute, opU32sub, two (by decide), ok_bind, top0, top1,
      asCanonicalU64, newUnchecked, borrow, difference]
    split
    · simp
    · simp
  | u32mul =>
    have split := splitElement_eq (mul_lt (small0 (by decide)) (small1 (by decide)))
    refine returns_two_iff stack .u32Mul ?_
    simp only [execute, opU32mul, two (by decide), ok_bind, top0, top1, asCanonicalU64, split]
    rfl
  | u32madd =>
    have split :=
      splitElement_eq (mul_add_lt (small0 (by decide)) (small1 (by decide)) (small2 (by decide)))
    refine returns_two_iff stack.decrement .u32Madd ?_
    simp only [execute, opU32madd, three (by decide), ok_bind, top0, top1, top2,
      asCanonicalU64, split]
    rfl
  | u32div =>
    by_cases zero : s[0].val = 0
    · have failed : u32div.execute errCode stack = .err (.operation .divideByZero) := by
        simp only [execute, opU32div, two (by decide), ok_bind, top0, top1,
          asCanonicalU64, if_pos zero]
        rfl
      constructor
      · rintro ⟨after, registers, same, _, _⟩
        rw [failed] at same
        cases same
      · rintro ⟨positive, _, _⟩
        exact absurd zero positive
    · have quotient : s[1].val - s[1].val / s[0].val * s[0].val = s[1].val % s[0].val := by
        rw [mul_comm]
        exact (mod_def _ _).symm
      have returned : u32div.execute errCode stack =
          .ok (setTwo stack ((s[1].val % s[0].val : Nat) : Felt)
            ((s[1].val / s[0].val : Nat) : Felt),
            .u32Div (s[1].val / s[0].val : Nat) (s[1].val % s[0].val : Nat)
              (s[0].val - s[1].val % s[0].val - 1 : Nat)) := by
        simp only [execute, opU32div, two (by decide), ok_bind, top0, top1,
          asCanonicalU64, if_neg zero, quotient]
        rfl
      rw [returns_two_iff stack (fun remainder quotient =>
        .u32Div quotient remainder (s[0].val - s[1].val % s[0].val - 1 : Nat)) returned]
      exact ⟨fun results => ⟨zero, results⟩, fun results => results.2⟩

/-! ## Soundness and completeness -/

/-- Helper columns with limbs in range satisfy the constraints on two rows. -/
def Accepts (flags : U32Op -> Felt) (op : U32Op) (current next : CoreCols Felt) : Prop :=
  ∃ helpers : Vector Felt 6, op.Limbs helpers ∧
    Vanish (u32Constraints flags { current with userOpHelpers := helpers } next)

/-- The operation returns the two cells on top of the next row. -/
def Computes (op : U32Op) (errCode : Felt) (current next : CoreCols Felt) : Prop :=
  ∃ after registers, op.execute errCode (OperandStack.ofTop current.stack) =
    .ok (after, registers) ∧ get after 0 = next.stack[0] ∧ get after 1 = next.stack[1]

/-- What acceptance says of the integers in the two rows. -/
def U32Op.Guarantee (op : U32Op) (current next : CoreCols Felt) : Prop :=
  let s := current.stack
  let s' := next.stack
  match op with
  | u32split => s[0].val = s'[1].val * 2 ^ 32 + s'[0].val ∧ s'[0].val < 2 ^ 32 ∧ s'[1].val < 2 ^ 32
  | u32assert2 => s[0].val < 2 ^ 32 ∧ s[1].val < 2 ^ 32
  | u32div => s[0] ≠ 0 ∧ s[1].val = s[0].val * s'[1].val + s'[0].val ∧ s'[0].val < s[0].val
  | _ => True

theorem guarantee_of_meaning {current next : CoreCols Felt}
    (small : forall index : Fin 3, index.val < op.operands -> current.stack[index].val < 2 ^ 32)
    (meaning : op.Meaning current.stack[0].val current.stack[1].val current.stack[2].val next.stack[0]
        next.stack[1]) :
    op.Guarantee current next := by
  cases op with
  | u32split =>
    have reduced : current.stack[0].val < 18446744069414584321 := ZMod.val_lt _
    rcases val_of_halves reduced meaning with ⟨low, high⟩
    simp only [U32Op.Guarantee, low, high]
    omega
  | u32assert2 => exact ⟨meaning.1, meaning.2.1⟩
  | u32div =>
    have small0 : current.stack[0].val < 2 ^ 32 := small 0 (by decide)
    have small1 : current.stack[1].val < 2 ^ 32 := small 1 (by decide)
    rcases meaning with ⟨positive, remainder, quotient⟩
    have remainderLt : current.stack[1].val % current.stack[0].val < current.stack[0].val :=
      mod_lt _ (pos_of_ne_zero positive)
    have quotientLe := Nat.div_le_self current.stack[1].val current.stack[0].val
    have remainderVal := congrArg ZMod.val remainder
    have quotientVal := congrArg ZMod.val quotient
    rw [val_natCast_of_lt (by omega)] at remainderVal quotientVal
    simp only [U32Op.Guarantee, remainderVal, quotientVal]
    exact ⟨fun zero => positive (by rw [zero, ZMod.val_zero]), (div_add_mod _ _).symm, remainderLt⟩
  | u32add | u32add3 | u32sub | u32mul | u32madd => trivial

/-- On operands in range, limbs that satisfy the constraints exist exactly when
the next row holds what the operation computes.  The constraints of
`U32assert2` read the next row only, so there the two cells have to be
unchanged. -/
theorem u32_constraints_iff_computes {flags : U32Op -> Felt} {op : U32Op}
    (only : OnlyFlag flags op) (current next : CoreCols Felt) (errCode : Felt)
    (small : forall index : Fin 3, index.val < op.operands -> current.stack[index].val < 2 ^ 32)
    (unchanged : op = .u32assert2 -> next.stack[0] = current.stack[0] ∧ next.stack[1] = current.stack[1]) :
    (Accepts flags op current next ↔ Computes op errCode current next) ∧
      (Accepts flags op current next -> op.Guarantee current next) := by
  have accepts : Accepts flags op current next ↔
      op.Meaning current.stack[0].val current.stack[1].val current.stack[2].val next.stack[0]
        next.stack[1] := by
    rw [← exists_limbs_iff small unchanged]
    simp only [Accepts, vanish_u32Constraints only]
  exact ⟨accepts.trans (execute_iff errCode small).symm,
    fun accepted => guarantee_of_meaning small (accepts.mp accepted)⟩

def divisionRow : CoreCols Felt where
  stack := #v[5, 17, 0, 0, 0, 0, 0, 0, 0, 0, 0, 0, 0, 0, 0, 0]
  userOpHelpers := Vector.replicate 6 0

def quotientRow : CoreCols Felt where
  stack := #v[2, 3, 0, 0, 0, 0, 0, 0, 0, 0, 0, 0, 0, 0, 0, 0]
  userOpHelpers := Vector.replicate 6 0

/-- The flags of a row that executes one operation. -/
def flagsOf32 (op other : U32Op) : Felt := if other = op then 1 else 0

theorem onlyFlag_flagsOf32 (op : U32Op) : OnlyFlag (flagsOf32 op) op :=
  ⟨if_pos rfl, fun _ different => if_neg different⟩

theorem u32_constraints_iff_computes_seventeen_by_five :
    Accepts (flagsOf32 .u32div) .u32div divisionRow quotientRow := by
  have iff := (u32_constraints_iff_computes (onlyFlag_flagsOf32 .u32div) divisionRow quotientRow 0
    (by decide +kernel) (by decide)).1
  refine iff.mpr ((execute_iff 0 (by decide +kernel)).mpr ?_)
  exact ⟨by decide +kernel, by decide +kernel, by decide +kernel⟩

def wideRow : CoreCols Felt where
  stack := #v[4294967296, 0, 0, 0, 0, 0, 0, 0, 0, 0, 0, 0, 0, 0, 0, 0]
  userOpHelpers := Vector.replicate 6 0

def zeroRow : CoreCols Felt where
  stack := Vector.replicate 16 0
  userOpHelpers := Vector.replicate 6 0

/-- The constraints of `U32assert2` accept an operand of 33 bits when the next
row holds other values; the operation fails. -/
theorem u32assert2_reads_next_row_only :
    Accepts (flagsOf32 .u32assert2) .u32assert2 wideRow zeroRow ∧
      ¬ Computes .u32assert2 0 wideRow zeroRow ∧ ¬ wideRow.stack[0].val < 2 ^ 32 := by
  refine ⟨⟨Vector.replicate 6 0, ⟨by unfold FourLimbs; decide +kernel, by decide⟩, ?_⟩, ?_,
    by decide +kernel⟩
  · rw [vanish_u32Constraints (onlyFlag_flagsOf32 .u32assert2)]
    exact ⟨by decide +kernel, by decide +kernel⟩
  · intro computes
    have meaning := (execute_iff 0 (by decide +kernel)).mp computes
    exact absurd meaning.1 (by decide +kernel)

end MidenVm.Air
