import Mathlib

namespace Foundation

open List Nat

/-!
# Binary digits of a natural number

The number of ones and the list of their places.  Both split at any place: the
ones of a number are those of its high part and those of its low part.
-/

variable {width value : Nat}

/-- The sum of the lowest digits. -/
def digitSum : Nat -> Nat -> Nat
  | 0, _ => 0
  | width + 1, value => value % 2 + digitSum width (value / 2)

/-- The number of ones. -/
def popcount (value : Nat) : Nat := digitSum (value.log2 + 1) value

@[simp] theorem popcount_zero : popcount 0 = 0 := rfl

theorem popcount_div_two (value : Nat) : popcount value = value % 2 + popcount (value / 2) := by
  rw [popcount, popcount, log2_def, digitSum]
  split
  · rfl
  · have small : value / 2 = 0 := by omega
    rw [small]
    rfl

/-- Splitting at any digit adds the counts of both parts. -/
theorem popcount_add (high : Nat) {width low : Nat} (small : low < 2 ^ width) :
    popcount (high * 2 ^ width + low) = popcount high + popcount low := by
  induction width generalizing low with
  | zero =>
    rw [pow_zero, lt_one_iff] at small
    rw [small, pow_zero, mul_one, popcount_zero, add_zero, add_zero]
  | succ width ih =>
    have half : low / 2 < 2 ^ width := by
      rw [pow_succ] at small
      exact Nat.div_lt_of_lt_mul (mul_comm _ 2 ▸ small)
    have shape : high * 2 ^ (width + 1) = 2 * (high * 2 ^ width) := by ring
    have digit : (high * 2 ^ (width + 1) + low) % 2 = low % 2 := by
      rw [shape, mul_add_mod]
    have rest : (high * 2 ^ (width + 1) + low) / 2 = high * 2 ^ width + low / 2 := by
      rw [shape, mul_add_div (by decide)]
    rw [popcount_div_two, digit, rest, ih half, popcount_div_two low]
    ring

theorem popcount_shift (high width : Nat) : popcount (high * 2 ^ width) = popcount high := by
  have split := popcount_add high (Nat.two_pow_pos width)
  rwa [add_zero, popcount_zero, add_zero] at split

theorem popcount_two_pow (width : Nat) : popcount (2 ^ width) = 1 := by
  have shifted := popcount_shift 1 width
  rwa [one_mul] at shifted

theorem popcount_ones (width : Nat) : popcount (2 ^ width - 1) = width := by
  induction width with
  | zero => rfl
  | succ width ih =>
    have positive := Nat.two_pow_pos width
    have shape : 2 ^ (width + 1) - 1 = 1 * 2 ^ width + (2 ^ width - 1) := by
      rw [pow_succ]
      omega
    rw [shape, popcount_add 1 (sub_lt positive one_pos), ih]
    exact add_comm 1 width

theorem popcount_succ_even (value : Nat) : popcount (2 * value + 1) = popcount value + 1 := by
  rw [popcount_div_two, mul_add_mod, mul_add_div (by decide)]
  exact add_comm _ _

theorem popcount_succ_le (value : Nat) : popcount (value + 1) ≤ popcount value + 1 := by
  induction value using Nat.strong_induction_on with
  | _ value ih =>
    rcases even_or_odd' value with ⟨half, even | odd⟩
    · rw [even, popcount_succ_even, mul_comm]
      exact succ_le_succ (le_of_eq (popcount_shift half 1).symm)
    · have later := ih half (by omega)
      have shape : value + 1 = (half + 1) * 2 ^ 1 := by omega
      rw [shape, popcount_shift, odd, popcount_succ_even]
      exact le_succ_of_le later

theorem popcount_le (value : Nat) : popcount value ≤ value := by
  induction value with
  | zero => exact le_refl 0
  | succ value ih => exact le_trans (popcount_succ_le value) (succ_le_succ ih)

theorem popcount_le_of_lt (small : value < 2 ^ width) : popcount value ≤ width := by
  induction width generalizing value with
  | zero => exact le_of_eq (congrArg popcount (lt_one_iff.mp small))
  | succ width ih =>
    have rest : popcount (value / 2) ≤ width := ih (by rw [pow_succ] at small; omega)
    rw [popcount_div_two]
    omega

theorem popcount_pos (positive : 0 < value) : 0 < popcount value := by
  induction value using Nat.strong_induction_on with
  | _ value ih =>
    rw [popcount_div_two]
    rcases mod_two_eq_zero_or_one value with even | odd
    · have half : 0 < value / 2 := by omega
      exact Nat.add_pos_right _ (ih (value / 2) (by omega) half)
    · rw [odd]
      exact Nat.add_pos_left one_pos _

/-- A number by its lowest one. -/
theorem exists_odd_mul_two_pow (positive : 0 < value) :
    ∃ half width, value = (2 * half + 1) * 2 ^ width := by
  rcases exists_eq_two_pow_mul_odd (ne_of_gt positive) with ⟨width, _, ⟨half, rfl⟩, same⟩
  exact ⟨half, width, same.trans (mul_comm _ _)⟩

/-! ## Places of the ones -/

/-- The places of the ones below a width, highest first. -/
def setBits : Nat -> Nat -> List Nat
  | 0, _ => []
  | width + 1, value =>
    if value.testBit width then width :: setBits width value else setBits width value

theorem setBits_eq_filter (width value : Nat) :
    setBits width value = (range width).reverse.filter value.testBit := by
  induction width with
  | zero => rfl
  | succ width ih =>
    rw [setBits, range_succ, reverse_append, reverse_singleton, singleton_append, filter_cons, ih]

theorem mem_setBits {place : Nat} :
    place ∈ setBits width value ↔ place < width ∧ value.testBit place = true := by
  rw [setBits_eq_filter, mem_filter, mem_reverse, mem_range]

theorem setBits_nodup (width value : Nat) : (setBits width value).Nodup := by
  rw [setBits_eq_filter]
  exact (nodup_reverse.mpr nodup_range).filter _

theorem setBits_congr {other : Nat}
    (same : forall place, place < width -> value.testBit place = other.testBit place) :
    setBits width value = setBits width other := by
  rw [setBits_eq_filter, setBits_eq_filter]
  exact filter_congr (fun place member => same place (mem_range.mp (mem_reverse.mp member)))

/-- Testing a digit with a mask. -/
theorem and_two_pow_ne_zero_iff (value width : Nat) :
    value &&& 2 ^ width ≠ 0 ↔ value / 2 ^ width % 2 = 1 := by
  have positive := Nat.two_pow_pos width
  rw [and_two_pow, testBit_eq_decide_div_mod_eq]
  by_cases odd : value / 2 ^ width % 2 = 1
  · rw [decide_eq_true odd]
    exact iff_of_true (by simp) odd
  · rw [decide_eq_false odd]
    exact iff_of_false (by simp) odd

/-- The low part of a number has its low digits. -/
theorem digit_mod_two_pow (value : Nat) {level width : Nat} (less : level < width) :
    value % 2 ^ width / 2 ^ level % 2 = value / 2 ^ level % 2 := by
  rcases Nat.exists_eq_add_of_le (succ_le_of_lt less) with ⟨more, rfl⟩
  have even : 2 ∣ 2 ^ (more + 1) := pow_succ 2 more ▸ Nat.dvd_mul_left 2 _
  have power : level + 1 + more = level + (more + 1) := by omega
  rw [power, pow_add, mod_mul_right_div_self, mod_mod_of_dvd _ even]

/-- The low part of a number, by its highest digit. -/
theorem mod_two_pow_succ_of_testBit (value width : Nat) :
    value % 2 ^ (width + 1) = (if value.testBit width then 2 ^ width else 0) + value % 2 ^ width := by
  rw [mod_pow_succ, testBit_eq_decide_div_mod_eq, add_comm]
  rcases mod_two_eq_zero_or_one (value / 2 ^ width) with zero | one
  · simp [zero]
  · simp [one]

theorem length_setBits (width value : Nat) : (setBits width value).length =
    popcount (value % 2 ^ width) := by
  induction width with
  | zero => rw [pow_zero, mod_one]; rfl
  | succ width ih =>
    have small : value % 2 ^ width < 2 ^ width := mod_lt _ (Nat.two_pow_pos width)
    rw [mod_two_pow_succ_of_testBit, setBits]
    by_cases set : value.testBit width = true
    · have split := popcount_add 1 small
      rw [one_mul] at split
      rw [if_pos set, if_pos set, length_cons, ih, split, add_comm]
      rfl
    · rw [if_neg set, if_neg set, zero_add, ih]

/-- The ones before a one: how many there are and what they amount to. -/
theorem setBits_split {place : Nat} (below : place < width) (set : value.testBit place = true) :
    ∃ front, setBits width value = front ++ place :: setBits place value ∧
      front.length = popcount (value % 2 ^ width / 2 ^ (place + 1)) ∧
      (front.map (fun height => 2 ^ height)).sum =
        value % 2 ^ width / 2 ^ (place + 1) * 2 ^ (place + 1) := by
  induction width with
  | zero => exact absurd below (Nat.not_lt_zero place)
  | succ width ih =>
    rcases Nat.lt_succ_iff_lt_or_eq.mp below with less | rfl
    · rcases ih less with ⟨front, split, count, total⟩
      by_cases one : value.testBit width = true
      · rcases Nat.exists_eq_add_of_le (succ_le_of_lt less) with ⟨more, rfl⟩
        have low : value % 2 ^ (place + 1 + more) / 2 ^ (place + 1) < 2 ^ more := by
          rw [Nat.div_lt_iff_lt_mul (Nat.two_pow_pos _), ← Nat.pow_add, Nat.add_comm more]
          exact mod_lt _ (Nat.two_pow_pos _)
        have high : value % 2 ^ (place + 1 + more + 1) / 2 ^ (place + 1) =
            1 * 2 ^ more + value % 2 ^ (place + 1 + more) / 2 ^ (place + 1) := by
          rw [mod_two_pow_succ_of_testBit, if_pos one, Nat.pow_add 2 (place + 1) more,
            mul_add_div (Nat.two_pow_pos _), Nat.one_mul]
        refine ⟨(place + 1 + more) :: front, ?_, ?_, ?_⟩
        · rw [setBits, if_pos one, split]
          rfl
        · rw [high, popcount_add 1 low, length_cons, count, Nat.add_comm]
          rfl
        · rw [high, map_cons, sum_cons, total, Nat.add_mul, Nat.one_mul, ← Nat.pow_add,
            Nat.add_comm more]
      · refine ⟨front, ?_, ?_, ?_⟩
        · rw [setBits, if_neg one, split]
        · rw [mod_two_pow_succ_of_testBit, if_neg one, Nat.zero_add, count]
        · rw [mod_two_pow_succ_of_testBit, if_neg one, Nat.zero_add, total]
    · have none : value % 2 ^ (place + 1) / 2 ^ (place + 1) = 0 :=
        div_eq_of_lt (mod_lt _ (Nat.two_pow_pos _))
      refine ⟨[], ?_, ?_, ?_⟩
      · rw [setBits, if_pos set]
        rfl
      · rw [none]
        rfl
      · rw [none, Nat.zero_mul]
        rfl

/-- The ones of a sum without carries. -/
theorem setBits_add {wide high low : Nat} (small : low < 2 ^ width) (le : width ≤ wide) :
    setBits wide (high * 2 ^ width + low) = setBits wide (high * 2 ^ width) ++ setBits width low := by
  induction wide, le using le_induction with
  | base =>
    have empty : setBits width (high * 2 ^ width) = [] := by
      rw [eq_nil_iff_forall_not_mem]
      intro place member
      have one := mem_setBits.mp member
      rw [testBit_mul_two_pow, decide_eq_false (not_le.mpr one.1), Bool.false_and] at one
      cases one.2
    rw [empty, nil_append]
    refine setBits_congr (fun place below => ?_)
    rw [mul_comm, testBit_two_pow_mul_add high small, if_pos below]
  | succ wide le ih =>
    have digit : (high * 2 ^ width + low).testBit wide = (high * 2 ^ width).testBit wide := by
      rw [mul_comm, testBit_two_pow_mul_add high small, if_neg (not_lt.mpr le),
        testBit_two_pow_mul, decide_eq_true le, Bool.true_and]
    rw [setBits, setBits, digit, ih]
    split <;> rfl

end Foundation
