import MidenVm.Foundation.Bytes
import MidenVm.Foundation.Parser

namespace MidenVm.Serde

open Foundation Outcome Parser List Nat Reads

/-!
# Byte readers and writers

`SliceReader` walks over a slice of bytes and `BudgetedReader` wraps it with a
limit on the bytes it may still consume.  Both are a `Source` of bytes here,
the first one without a budget.  `TrackingReader` adds the number of bytes
read so far and a copy of them, which a source keeps as `consumed`.  A slice
is shorter than `2^63` bytes, so positions inside it do not overflow and the
checks of the source on them never fire.

A writer only appends, so serialization is a function to bytes.
-/

variable {α : Type} {value : Nat}

inductive DeserializationError where
  | unexpectedEof
  | invalidValue (message : String)
  | unknownError (message : String)
  deriving DecidableEq

/-- The text of an error. -/
def DeserializationError.message : DeserializationError -> String
  | unexpectedEof => "unexpected end of file"
  | invalidValue message => s!"invalid value: {message}"
  | unknownError message => s!"unknown error: {message}"

/-- Bytes being read, with the budget of a `BudgetedReader` if there is one. -/
abbrev ByteReader := Source UInt8

abbrev Reader (α : Type) := Parser UInt8 DeserializationError α

/-- `consume_budget` refuses more bytes than remain. -/
def budgetExhausted (requested remaining : Nat) : DeserializationError :=
  .invalidValue s!"budget exhausted: requested {requested} bytes, {remaining} remaining"

/-- `read_slice`, and `read_array` for a fixed length. -/
def readSlice (len : Nat) : Reader (List UInt8) := take (budgetExhausted len) .unexpectedEof len

def readU8 : Reader UInt8 := do
  let bytes ← readSlice 1
  pure (bytes.headD 0)

def readU32 : Reader Nat := do
  let bytes ← readSlice 4
  pure (fromLe bytes)

def readU64 : Reader Nat := do
  let bytes ← readSlice 8
  pure (fromLe bytes)

/-- `read_usize`: the trailing zeros of the first byte give the length.  The
result is a 64-bit integer, so it is always in the range of `usize`. -/
def readUsize : Reader Nat := do
  let firstByte ← peek .unexpectedEof
  let length := trailingZeros 8 firstByte.toNat + 1
  if length = 9 then do
    let _ ← readU8
    let value ← readSlice 8
    pure (fromLe value)
  else do
    let value ← readSlice length
    pure (fromLe value / 2 ^ length)

/-- `read_many_iter` collected: the budget must be able to pay for the
elements at their smallest size before the first one is read. -/
def readMany {α : Type} (element : Reader α) (minSerializedSize count : Nat) :
    Reader (List α) := do
  checkAlloc (fun max => .invalidValue
    s!"requested {count} elements but reader can provide at most {max}") count minSerializedSize
  element.many count

/-- `Vec::read_from`. -/
def readVec {α : Type} (element : Reader α) (minSerializedSize : Nat) : Reader (List α) := do
  let len ← readUsize
  readMany element minSerializedSize len

/-- `has_more_bytes`. -/
def hasMoreBytes (reader : ByteReader) : Bool :=
  (match reader.budget with
    | none => true
    | some remaining => decide (0 < remaining)) && !reader.rest.isEmpty

def writeU32 (value : Nat) : List UInt8 := toLe 4 value

def writeU64 (value : Nat) : List UInt8 := toLe 8 value

/-- `u64::leading_zeros`. -/
def leadingZeros (value : Nat) : Nat := if value = 0 then 64 else 63 - value.log2

/-- `usize_encoded_len`. -/
def usizeEncodedLen (value : Nat) : Nat := 9 - min ((leadingZeros value - 1) / 7) 8

/-- `write_usize`. -/
def writeUsize (value : Nat) : List UInt8 :=
  let length := usizeEncodedLen value
  if length = 9 then 0 :: toLe 8 value
  else (toLe 8 ((value <<< 1 ||| 1) <<< (length - 1))).take length

/-- `Vec::write_into`. -/
def writeVec {α : Type} (element : α -> List UInt8) (values : List α) : List UInt8 :=
  writeUsize values.length ++ values.flatMap element

/-! ## Every reader behaves -/

theorem readSlice_wellBehaved (len : Nat) : WellBehaved (readSlice len) := .take _ _ _

theorem readU8_wellBehaved : WellBehaved readU8 := (readSlice_wellBehaved 1).bind (fun _ => .pure _)

theorem readU32_wellBehaved : WellBehaved readU32 :=
  (readSlice_wellBehaved 4).bind (fun _ => .pure _)

theorem readU64_wellBehaved : WellBehaved readU64 :=
  (readSlice_wellBehaved 8).bind (fun _ => .pure _)

theorem readUsize_wellBehaved : WellBehaved readUsize := by
  refine (WellBehaved.peek _).bind (fun firstByte => ?_)
  dsimp only
  split
  · exact readU8_wellBehaved.bind (fun _ => (readSlice_wellBehaved 8).bind (fun _ => .pure _))
  · exact (readSlice_wellBehaved _).bind (fun _ => .pure _)

theorem readMany_wellBehaved {element : Reader α} (each : WellBehaved element)
    (minSerializedSize count : Nat) : WellBehaved (readMany element minSerializedSize count) :=
  (WellBehaved.checkAlloc _ _ _).bind (fun _ => each.many count)

theorem readVec_wellBehaved {element : Reader α} (each : WellBehaved element)
    (minSerializedSize : Nat) : WellBehaved (readVec element minSerializedSize) :=
  readUsize_wellBehaved.bind (fun len => readMany_wellBehaved each minSerializedSize len)

theorem readSlice_local (len : Nat) : Local (readSlice len) := .take _ _ _

theorem readU64_local : Local readU64 := (readSlice_local 8).bind (fun _ => .pure _)

theorem length_rest_of_readSlice {len : Nat} {source after : ByteReader} {bytes : List UInt8}
    (returned : readSlice len source = ok (bytes, after)) :
    after.rest.length + len = source.rest.length := by
  rcases take_eq_ok.mp returned with ⟨_, within, same⟩
  cases same
  rw [Source.rest_advance, length_drop]
  omega

theorem readUsize_local : Local readUsize := by
  apply Local.peek
  · intro firstByte
    dsimp only
    split
    · exact ((readSlice_local 1).bind (fun _ => .pure _)).bind (fun _ =>
        (readSlice_local 8).bind (fun _ => .pure _))
    · exact (readSlice_local _).bind (fun _ => .pure _)
  · intro firstByte source after value returned
    split at returned
    · rcases seq_eq_ok.mp returned with ⟨_, middle, first, continued⟩
      rcases seq_eq_ok.mp first with ⟨_, _, taken, done⟩
      cases done
      rcases seq_eq_ok.mp continued with ⟨_, _, others, done⟩
      cases done
      have first := length_rest_of_readSlice taken
      have second := length_rest_of_readSlice others
      omega
    · rcases seq_eq_ok.mp returned with ⟨_, _, taken, done⟩
      cases done
      have first := length_rest_of_readSlice taken
      omega

/-! ## Readers undo writers -/

theorem length_mul_le_flatMap {β : Type} {size : Nat} (encode : α -> List β) (values : List α)
    (sized : forall value, value ∈ values -> size ≤ (encode value).length) :
    values.length * size ≤ (values.flatMap encode).length := by
  induction values with
  | nil => simp
  | cons head tail ih =>
    have headSize := sized head mem_cons_self
    have tailSize := ih (fun value member => sized value (mem_cons_of_mem head member))
    rw [flatMap_cons, length_append, length_cons, succ_mul]
    omega

section RoundTrip

variable {start reserve : Nat}

theorem readSlice_reads {bytes : List UInt8} {len : Nat} (width : bytes.length = len) :
    Reads (readSlice len) start reserve bytes bytes := .take _ _ width

theorem readU8_reads (byte : UInt8) : Reads readU8 start reserve [byte] byte := by
  have slice : Reads (readSlice 1) start reserve [byte] [byte] := readSlice_reads rfl
  exact slice.bind_pure (fun bytes => bytes.headD 0)

theorem fromLe_reads (convert : Nat -> Nat) {width value : Nat} (small : value < 256 ^ width) :
    Reads (readSlice width >>= fun bytes => pure (convert (fromLe bytes))) start reserve (toLe width value)
      (convert value) := by
  have reads := (@readSlice_reads start reserve _ _ (length_toLe width value)).bind_pure
    (fun bytes => convert (fromLe bytes))
  rwa [fromLe_toLe_of_lt small] at reads

theorem readU32_reads (small : value < 2 ^ 32) :
    Reads readU32 start reserve (writeU32 value) value := fromLe_reads id small

theorem readU32_lt {source after : ByteReader}
    (read : readU32 source = ok (value, after)) : value < 2 ^ 32 := by
  rcases seq_eq_ok.mp read with ⟨bytes, _, taken, done⟩
  rcases take_eq_ok.mp taken with ⟨_, within, same⟩
  cases same
  cases done
  have small := fromLe_lt (source.rest.take 4)
  rwa [length_take_of_le within] at small

theorem readU64_reads (small : value < 2 ^ 64) :
    Reads readU64 start reserve (writeU64 value) value := fromLe_reads id small

theorem usizeEncodedLen_bounds (value : Nat) : 1 ≤ usizeEncodedLen value ∧
    usizeEncodedLen value ≤ 9 := by
  unfold usizeEncodedLen
  omega

/-- A number encoded in at most eight bytes has seven bits per byte. -/
theorem lt_of_usizeEncodedLen (short : usizeEncodedLen value ≠ 9) :
    value < 2 ^ (7 * usizeEncodedLen value) := by
  by_cases zero : value = 0
  · rw [zero]
    exact Nat.two_pow_pos _
  · have bits : value.log2 + 1 ≤ 7 * usizeEncodedLen value := by
      unfold usizeEncodedLen leadingZeros at short ⊢
      rw [if_neg zero] at short ⊢
      omega
    exact lt_of_lt_of_le lt_log2_self (Nat.pow_le_pow_right (by decide) bits)

/-- The number whose bytes are written for a short encoding. -/
theorem writeUsize_short (short : usizeEncodedLen value ≠ 9) :
    writeUsize value = toLe (usizeEncodedLen value)
      ((2 * value + 1) * 2 ^ (usizeEncodedLen value - 1)) := by
  have within : usizeEncodedLen value ≤ 8 := by
    have := usizeEncodedLen_bounds value
    omega
  have odd : value <<< 1 ||| 1 = 2 * value + 1 := by
    rw [shiftLeft_eq, mul_comm, ← two_pow_add_eq_or_of_lt (show 1 < 2 ^ 1 by decide)]
  rw [writeUsize, if_neg short, take_toLe _ within, odd, shiftLeft_eq]

theorem readUsize_reads (small : value < usizeLimit) :
    Reads readUsize start reserve (writeUsize value) value := by
  by_cases long : usizeEncodedLen value = 9
  · have shape : writeUsize value = 0 :: toLe 8 value := by
      rw [writeUsize, if_pos long]
    rw [shape]
    apply bind_peek
    apply bind (readU8_reads 0)
    exact fromLe_reads id small
  · have bounds := usizeEncodedLen_bounds value
    have fits := lt_of_usizeEncodedLen long
    rw [writeUsize_short long]
    generalize usizeEncodedLen value = length at *
    rcases length with _ | below
    · omega
    · have room : (2 * value + 1) * 2 ^ below < 256 ^ (below + 1) := by
        have wide : (256 : Nat) ^ (below + 1) = 2 * 2 ^ (7 * (below + 1)) * 2 ^ below := by
          rw [show (256 : Nat) = 2 ^ 8 from rfl, ← pow_mul, ← pow_succ', ← pow_add]
          congr 1
          omega
        rw [wide]
        exact Nat.mul_lt_mul_of_pos_right (by omega) (Nat.two_pow_pos below)
      have first : trailingZeros 8
          (UInt8.ofNat ((2 * value + 1) * 2 ^ below)).toNat = below := by
        rw [UInt8.toNat_ofNat', trailingZeros_mod, trailingZeros_shifted 8 below value (by omega)]
      have halved : (2 * value + 1) * 2 ^ below / 2 ^ (below + 1) = value := by
        rw [pow_succ, mul_comm (2 * value + 1), Nat.mul_div_mul_left _ _ (Nat.two_pow_pos below)]
        omega
      have reads := @fromLe_reads start reserve (fun found => found / 2 ^ (below + 1)) _ _ room
      rw [halved] at reads
      rw [Nat.add_sub_cancel]
      rw [toLe] at reads ⊢
      apply bind_peek
      rw [first, if_neg (by omega)]
      exact reads

theorem length_writeUsize (value : Nat) : (writeUsize value).length = usizeEncodedLen value := by
  by_cases long : usizeEncodedLen value = 9
  · rw [writeUsize, if_pos long, length_cons, length_toLe, long]
  · rw [writeUsize_short long, length_toLe]

theorem length_writeUsize_le (value : Nat) : (writeUsize value).length ≤ 9 := by
  rw [length_writeUsize]
  exact (usizeEncodedLen_bounds value).2

section Many

variable {element : Reader α} {minSerializedSize : Nat} (encode : α -> List UInt8) (values : List α)
  (positive : 0 < minSerializedSize)
  (sized : forall value, value ∈ values -> minSerializedSize ≤ (encode value).length)
  (each : forall value, value ∈ values -> forall start reserve,
    Reads element start reserve (encode value) value)

include positive sized each

/-- Elements of some least size are read one after the other. -/
theorem readMany_reads :
    Reads (readMany element minSerializedSize values.length) start reserve (values.flatMap encode) values := by
  apply bind_nil
  · apply checkAlloc _ positive
    exact le_trans (length_mul_le_flatMap encode values sized) (Nat.le_add_right _ _)
  · exact many encode values each

/-- A list is written as its length and its elements. -/
theorem readVec_reads (few : values.length < usizeLimit) :
    Reads (readVec element minSerializedSize) start reserve (writeVec encode values) values :=
  .bind (readUsize_reads few) (readMany_reads encode values positive sized each)

end Many

end RoundTrip

end MidenVm.Serde
