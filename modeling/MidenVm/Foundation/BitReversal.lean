import Mathlib

namespace Foundation

/-!
# Bit reversal and tables

Vectors of evaluations are stored in the order that reverses the bits of an
index.  Splitting an index into its high and its low bits swaps the two parts
of the reversed index, and everything that the layouts below need follows from
that: a prefix of a reversed vector is a coarser one, and neighbours in it
share their low bits in the natural order.

A table is a vector given by its entries.
-/

variable {size : Nat}

/-- `reverse_bits_len`: the lowest `bits` bits of a number in reverse. -/
def reverseBits : Nat -> Nat -> Nat
  | 0, _ => 0
  | bits + 1, index => index % 2 * 2 ^ bits + reverseBits bits (index / 2)

theorem reverseBits_lt (bits index : Nat) : reverseBits bits index < 2 ^ bits := by
  induction bits generalizing index with
  | zero => exact one_pos
  | succ bits ih =>
    have rest := ih (index / 2)
    rw [reverseBits, pow_succ]
    rcases Nat.mod_two_eq_zero_or_one index with even | odd
    · rw [even]
      omega
    · rw [odd]
      omega

/-- The parts of an index change places. -/
theorem reverseBits_add (high low top bottom : Nat) (small : bottom < 2 ^ low) :
    reverseBits (high + low) (top * 2 ^ low + bottom) =
      reverseBits low bottom * 2 ^ high + reverseBits high top := by
  induction low generalizing bottom with
  | zero =>
    have none : bottom = 0 := Nat.lt_one_iff.mp small
    rw [none, pow_zero, mul_one, reverseBits, zero_mul, zero_add, add_zero, add_zero]
  | succ low ih =>
    have twice : top * 2 ^ (low + 1) = 2 * (top * 2 ^ low) := by ring
    have half : (top * 2 ^ (low + 1) + bottom) / 2 = top * 2 ^ low + bottom / 2 := by omega
    have parity : (top * 2 ^ (low + 1) + bottom) % 2 = bottom % 2 := by omega
    have smaller : bottom / 2 < 2 ^ low := by
      rw [pow_succ] at small
      omega
    rw [← add_assoc, reverseBits, half, parity, ih _ smaller, reverseBits, pow_add]
    ring

theorem reverseBits_zero (bits : Nat) : reverseBits bits 0 = 0 := by
  induction bits with
  | zero => rfl
  | succ bits ih => rw [reverseBits, Nat.zero_mod, zero_mul, Nat.zero_div, ih]

/-- Only the lowest bits are read. -/
theorem reverseBits_mod (bits index : Nat) :
    reverseBits bits (index % 2 ^ bits) = reverseBits bits index := by
  have split := reverseBits_add 0 bits (index / 2 ^ bits) (index % 2 ^ bits)
    (Nat.mod_lt _ (Nat.two_pow_pos bits))
  rw [zero_add, Nat.div_add_mod', pow_zero, mul_one, reverseBits, add_zero] at split
  exact split.symm

theorem reverseBits_reverseBits {bits index : Nat} (small : index < 2 ^ bits) :
    reverseBits bits (reverseBits bits index) = index := by
  induction bits generalizing index with
  | zero => exact (Nat.lt_one_iff.mp small).symm
  | succ bits ih =>
    have smaller : index / 2 < 2 ^ bits := by
      rw [pow_succ] at small
      omega
    have split := reverseBits_add 1 bits (index % 2) (reverseBits bits (index / 2))
      (reverseBits_lt bits (index / 2))
    rw [add_comm 1 bits, ih smaller] at split
    change reverseBits (bits + 1) (index % 2 * 2 ^ bits + reverseBits bits (index / 2)) = index
    rw [split]
    rcases Nat.mod_two_eq_zero_or_one index with even | odd
    · rw [even]
      change index / 2 * 2 + 0 = index
      omega
    · rw [odd]
      change index / 2 * 2 + 1 = index
      omega

/-- The reversal of a multiple, and of the index of a coarser vector. -/
theorem reverseBits_mul_pow (high low top : Nat) :
    reverseBits (high + low) (top * 2 ^ low) = reverseBits high top := by
  have split := reverseBits_add high low top 0 (Nat.two_pow_pos low)
  rwa [add_zero, reverseBits_zero, zero_mul, zero_add] at split

/-- The high bits of a reversal come from the low bits. -/
theorem reverseBits_div (high low index : Nat) :
    reverseBits (high + low) index / 2 ^ high = reverseBits low index := by
  have split := reverseBits_add high low (index / 2 ^ low) (index % 2 ^ low)
    (Nat.mod_lt _ (Nat.two_pow_pos low))
  rw [Nat.div_add_mod'] at split
  rw [split, mul_comm, Nat.mul_add_div (Nat.two_pow_pos high),
    Nat.div_eq_of_lt (reverseBits_lt high _), add_zero, reverseBits_mod]

/-! ## Sums over indices -/

section Sums

open Finset

variable {M : Type} [AddCommMonoid M]

/-- A sum in reversed order. -/
theorem sum_reverseBits (bits : Nat) (term : Nat -> M) :
    ∑ index ∈ range (2 ^ bits), term (reverseBits bits index) =
      ∑ index ∈ range (2 ^ bits), term index := by
  refine Finset.sum_nbij' (reverseBits bits) (reverseBits bits) ?_ ?_ ?_ ?_ (fun _ _ => rfl)
  · exact fun index _ => mem_range.mpr (reverseBits_lt bits index)
  · exact fun index _ => mem_range.mpr (reverseBits_lt bits index)
  · exact fun index member => reverseBits_reverseBits (mem_range.mp member)
  · exact fun index member => reverseBits_reverseBits (mem_range.mp member)

/-- A sum block by block. -/
theorem sum_range_blocks (blocks size : Nat) (term : Nat -> M) :
    ∑ block ∈ range blocks, ∑ offset ∈ range size, term (block * size + offset) =
      ∑ index ∈ range (blocks * size), term index := by
  induction blocks with
  | zero => rw [zero_mul, range_zero, sum_empty, sum_empty]
  | succ blocks ih => rw [sum_range_succ, ih, Nat.succ_mul, sum_range_add]

end Sums

/-! ## Tables -/

section Tables

variable {α β : Type}

/-- A vector given by its entries. -/
def table (size : Nat) (entry : Nat -> α) : List α := (List.range size).map entry

@[simp] theorem length_table (size : Nat) (entry : Nat -> α) :
    (table size entry).length = size := by
  rw [table, List.length_map, List.length_range]

theorem getD_table {index : Nat} (inside : index < size) (entry : Nat -> α) (other : α) :
    (table size entry).getD index other = entry index := by
  rw [table, List.getD_eq_getElem?_getD, List.getElem?_map, List.getElem?_range inside]
  rfl

theorem table_congr {left right : Nat -> α}
    (same : forall index, index < size -> left index = right index) :
    table size left = table size right :=
  List.map_congr_left (fun index member => same index (List.mem_range.mp member))

theorem map_table (f : α -> β) (size : Nat) (entry : Nat -> α) :
    (table size entry).map f = table size (fun index => f (entry index)) := List.map_map

theorem take_table {less : Nat} (below : less ≤ size) (entry : Nat -> α) :
    (table size entry).take less = table less entry := by
  rw [table, ← List.map_take, List.take_range, Nat.min_eq_left below]
  rfl

theorem reverse_table (size : Nat) (entry : Nat -> α) :
    (table size entry).reverse = table size (fun index => entry (size - 1 - index)) := by
  rw [table, ← List.map_reverse, List.range_eq_range', List.reverse_range', List.map_map, table]
  refine List.map_congr_left (fun index _ => ?_)
  rw [Function.comp_apply, zero_add]

theorem mem_table {entry : Nat -> α} {value : α} :
    value ∈ table size entry ↔ ∃ index, index < size ∧ entry index = value := by
  rw [table, List.mem_map]
  simp only [List.mem_range]

theorem zipWith_table {γ : Type} (f : α -> β -> γ) (size : Nat) (left : Nat -> α)
    (right : Nat -> β) :
    List.zipWith f (table size left) (table size right) =
      table size (fun index => f (left index) (right index)) := by
  rw [table, table, List.zipWith_map, List.zipWith_self]
  rfl

/-- Every entry repeated. -/
theorem flatMap_replicate_table (size : Nat) {factor : Nat} (positive : 0 < factor)
    (entry : Nat -> α) : (table size entry).flatMap (List.replicate factor) =
      table (size * factor) (fun index => entry (index / factor)) := by
  induction size with
  | zero => rw [zero_mul]; rfl
  | succ size ih =>
    have split : table (size * factor + factor) (fun index => entry (index / factor)) =
        table (size * factor) (fun index => entry (index / factor)) ++ List.replicate factor (entry size) := by
      rw [table, List.range_add, List.map_append, List.map_map]
      refine congrArg _ (List.eq_replicate_iff.mpr ⟨by rw [List.length_map, List.length_range], ?_⟩)
      intro value member
      rcases List.mem_map.mp member with ⟨index, inside, rfl⟩
      rw [Function.comp_apply, mul_comm, Nat.mul_add_div positive,
        Nat.div_eq_of_lt (List.mem_range.mp inside), add_zero]
    rw [table, List.range_succ, List.map_append, List.flatMap_append, Nat.succ_mul, split]
    exact congrArg₂ _ ih (List.append_nil _)

/-- Every vector is the table of its entries. -/
theorem table_getD (values : List α) (other : α) :
    table values.length (fun index => values.getD index other) = values := by
  refine List.ext_getElem (length_table _ _) (fun index inside there => ?_)
  have entry := getD_table there (fun index => values.getD index other) other
  rw [List.getD_eq_getElem?_getD, List.getElem?_eq_getElem inside, Option.getD_some] at entry
  rw [entry, List.getD_eq_getElem?_getD, List.getElem?_eq_getElem there, Option.getD_some]

end Tables

end Foundation
