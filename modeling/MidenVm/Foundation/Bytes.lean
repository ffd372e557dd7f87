import Mathlib

namespace Foundation

open Nat

/-!
# Bytes and machine words

Little-endian integers as lists of bytes, the trailing zeros of a machine
word, and the two checked operations on 64-bit lengths.  Nothing here is
about one format; a reader and a writer of a wire format share these
functions and the lemmas that say each undoes the other.
-/

variable {width : Nat}

/-- One more than the largest 64-bit unsigned integer. -/
def usizeLimit : Nat := 2 ^ 64

/-- Addition that is missing when it overflows 64 bits. -/
def checkedAdd (left right : Nat) : Option Nat :=
  if left + right < usizeLimit then some (left + right) else none

/-- Multiplication that is missing when it overflows 64 bits. -/
def checkedMul (left right : Nat) : Option Nat :=
  if left * right < usizeLimit then some (left * right) else none

theorem checkedAdd_eq_some {left right sum : Nat} :
    checkedAdd left right = some sum ↔ left + right < usizeLimit ∧ left + right = sum := by
  unfold checkedAdd
  split <;> simp_all

theorem checkedMul_eq_some {left right product : Nat} :
    checkedMul left right = some product ↔ left * right < usizeLimit ∧ left * right = product := by
  unfold checkedMul
  split <;> simp_all

/-! ## Little-endian integers -/

/-- The low `width` bytes of a number, least significant first. -/
def toLe : Nat -> Nat -> List UInt8
  | 0, _ => []
  | width + 1, value => UInt8.ofNat value :: toLe width (value / 256)

/-- The number little-endian bytes spell. -/
def fromLe : List UInt8 -> Nat
  | [] => 0
  | byte :: rest => byte.toNat + 256 * fromLe rest

@[simp] theorem length_toLe (width value : Nat) : (toLe width value).length = width := by
  induction width generalizing value with
  | zero => rfl
  | succ width ih => simp [toLe, ih]

/-- Reading back what was written gives the value reduced to the width. -/
theorem fromLe_toLe (width value : Nat) : fromLe (toLe width value) = value % 256 ^ width := by
  induction width generalizing value with
  | zero => simp [toLe, fromLe, mod_one]
  | succ width ih =>
    rw [toLe, fromLe, ih, pow_succ', mod_mul]
    simp

theorem fromLe_lt (bytes : List UInt8) : fromLe bytes < 256 ^ bytes.length := by
  induction bytes with
  | nil => exact one_pos
  | cons byte rest ih =>
    have digit := byte.toNat_lt
    rw [fromLe, List.length_cons, pow_succ]
    omega

theorem fromLe_toLe_of_lt {value : Nat} (small : value < 256 ^ width) :
    fromLe (toLe width value) = value := by
  rw [fromLe_toLe, mod_eq_of_lt small]

/-- A prefix of the bytes of a number is the number written in fewer bytes. -/
theorem take_toLe {count : Nat} (value : Nat) (within : count ≤ width) :
    (toLe width value).take count = toLe count value := by
  induction count generalizing width value with
  | zero => simp [toLe]
  | succ count ih =>
    cases width with
    | zero => omega
    | succ width => simp [toLe, ih (value / 256) (le_of_succ_le_succ within)]

/-- Encodings of one size. -/
theorem length_flatMap_of_sized {α β : Type} {size : Nat} (encode : α -> List β) (items : List α)
    (sized : forall item, item ∈ items -> (encode item).length = size) :
    (items.flatMap encode).length = items.length * size := by
  induction items with
  | nil => simp
  | cons head tail ih =>
    rw [List.flatMap_cons, List.length_append, sized head List.mem_cons_self,
      ih (List.forall_mem_cons.mp sized).2, List.length_cons, succ_mul, Nat.add_comm]

/-! ## Trailing zeros -/

/-- The number of trailing zero bits of a word of `width` bits. -/
def trailingZeros : Nat -> Nat -> Nat
  | 0, _ => 0
  | width + 1, value => if value % 2 = 1 then 0 else trailingZeros width (value / 2) + 1

/-- Bits above the width do not count. -/
theorem trailingZeros_mod (width value : Nat) :
    trailingZeros width (value % 2 ^ width) = trailingZeros width value := by
  induction width generalizing value with
  | zero => rfl
  | succ width ih =>
    have low : value % 2 ^ (width + 1) % 2 = value % 2 :=
      mod_mod_of_dvd value (Dvd.intro_left (2 ^ width) rfl)
    have high : value % 2 ^ (width + 1) / 2 = value / 2 % 2 ^ width := by
      rw [pow_succ', mod_mul_right_div_self]
    rw [trailingZeros, trailingZeros, low, high, ih]

/-- An odd number shifted left by less than the width has that many trailing zeros. -/
theorem trailingZeros_shifted (width shift odd : Nat) (inside : shift < width) :
    trailingZeros width ((2 * odd + 1) * 2 ^ shift) = shift := by
  induction shift generalizing width with
  | zero =>
    cases width with
    | zero => omega
    | succ width =>
      rw [trailingZeros, if_pos (by omega)]
  | succ shift ih =>
    cases width with
    | zero => omega
    | succ width =>
      have even : (2 * odd + 1) * 2 ^ (shift + 1) = 2 * ((2 * odd + 1) * 2 ^ shift) := by ring
      rw [trailingZeros, even, if_neg (by omega), Nat.mul_div_cancel_left _ (by decide),
        ih width (lt_of_succ_lt_succ inside)]

/-! ## Two numbers packed into one -/

theorem pack_eq_add {high low : Nat} (small : low < 2 ^ width) :
    high <<< width ||| low = high * 2 ^ width + low := by
  rw [← shiftLeft_add_eq_or_of_lt small, shiftLeft_eq]

theorem pack_high {high low : Nat} (small : low < 2 ^ width) :
    (high <<< width ||| low) >>> width = high := by
  rw [pack_eq_add small, shiftRight_eq_div_pow, add_comm,
    add_mul_div_right _ _ (Nat.two_pow_pos width), div_eq_of_lt small, zero_add]

theorem pack_low {high low : Nat} (small : low < 2 ^ width) :
    (high <<< width ||| low) &&& (2 ^ width - 1) = low := by
  rw [pack_eq_add small, and_two_pow_sub_one_eq_mod, add_comm, add_mul_mod_self_right,
    mod_eq_of_lt small]

theorem pack_lt {high low bits : Nat} (smallHigh : high < 2 ^ bits) (small : low < 2 ^ width) :
    high <<< width ||| low < 2 ^ (bits + width) := by
  rw [pack_eq_add small, pow_add]
  calc high * 2 ^ width + low < high * 2 ^ width + 2 ^ width := Nat.add_lt_add_left small _
    _ = (high + 1) * 2 ^ width := (succ_mul _ _).symm
    _ ≤ 2 ^ bits * 2 ^ width := Nat.mul_le_mul_right _ smallHigh

end Foundation
