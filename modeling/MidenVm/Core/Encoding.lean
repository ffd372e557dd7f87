import MidenVm.Core.Operation
import MidenVm.Foundation.OrderedMap
import MidenVm.Serde.ByteReader

namespace MidenVm

open Foundation Outcome Parser Serde List Reads

/-!
# Encodings of field elements, words, operations and advice maps

Each type has its writer and its reader, and below them the two facts later
proofs use: the reader behaves on any bytes, and it undoes the writer.
-/

variable {start reserve : Nat}

namespace Felt

variable (felt : Felt)

/-- `Felt::write_into`. -/
def writeInto : List UInt8 := writeU64 felt.asCanonicalU64

/-- `Felt::read_from` accepts canonical integers only. -/
def readFrom : Reader Felt := do
  let value ← readU64
  if value < modulus then pure (newUnchecked value)
  else fail (.invalidValue s!"value {value} is not a valid felt")

/-- `Felt::min_serialized_size`. -/
def minSerializedSize : Nat := 8

@[simp] theorem length_writeInto : felt.writeInto.length = 8 := length_toLe 8 _

theorem readFrom_wellBehaved : WellBehaved readFrom := by
  refine readU64_wellBehaved.bind (fun value => ?_)
  split
  · exact .pure _
  · exact .lift (by simp)

theorem readFrom_local : Local readFrom := by
  refine readU64_local.bind (fun value => ?_)
  split
  · exact .pure _
  · exact .lift _

/-- An element takes eight bytes. -/
theorem length_rest_of_readFrom {source after : ByteReader} {felt : Felt}
    (returned : readFrom source = ok (felt, after)) :
    after.rest.length + 8 = source.rest.length := by
  rcases seq_eq_ok.mp returned with ⟨value, middle, read, continued⟩
  rcases seq_eq_ok.mp read with ⟨bytes, _, taken, done⟩
  cases done
  have size := length_rest_of_readSlice taken
  split at continued
  · cases continued
    exact size
  · cases continued

theorem asCanonicalU64_lt_usizeLimit : felt.asCanonicalU64 < usizeLimit :=
  lt_trans felt.asCanonicalU64_lt (by decide)

theorem readFrom_reads : Reads readFrom start reserve felt.writeInto felt := by
  rw [← append_nil felt.writeInto]
  apply bind (readU64_reads felt.asCanonicalU64_lt_usizeLimit)
  rw [if_pos felt.asCanonicalU64_lt, newUnchecked_asCanonicalU64]
  exact .pure felt

end Felt

namespace Word

/-- `Word::write_into`. -/
def writeInto (word : Word) : List UInt8 :=
  word.a.writeInto ++ (word.b.writeInto ++ (word.c.writeInto ++ word.d.writeInto))

/-- One element of `Word::read_from`. -/
def readElement : Reader Felt := do
  let e ← readU64
  if modulus ≤ e then fail (.invalidValue "value not in the appropriate range")
  else pure (Felt.newUnchecked e)

/-- `Word::read_from`. -/
def readFrom : Reader Word := do
  let a ← readElement
  let b ← readElement
  let c ← readElement
  let d ← readElement
  pure ⟨a, b, c, d⟩

/-- `Word::SERIALIZED_SIZE`. -/
def serializedSize : Nat := 32

@[simp] theorem length_writeInto (word : Word) : word.writeInto.length = 32 := by
  simp [writeInto]

theorem readElement_wellBehaved : WellBehaved readElement := by
  refine readU64_wellBehaved.bind (fun value => ?_)
  split
  · exact .lift (by simp)
  · exact .pure _

theorem readFrom_wellBehaved : WellBehaved readFrom :=
  readElement_wellBehaved.bind (fun _ => readElement_wellBehaved.bind (fun _ =>
    readElement_wellBehaved.bind (fun _ => readElement_wellBehaved.bind (fun _ => .pure _))))

theorem readFrom_local : Local readFrom := by
  have element : Local readElement := by
    refine readU64_local.bind (fun value => ?_)
    split
    · exact .lift _
    · exact .pure _
  exact element.bind (fun _ => element.bind (fun _ => element.bind (fun _ =>
    element.bind (fun _ => .pure _))))

theorem readElement_reads (felt : Felt) : Reads readElement start reserve felt.writeInto felt := by
  rw [← append_nil felt.writeInto]
  apply bind (readU64_reads felt.asCanonicalU64_lt_usizeLimit)
  rw [if_neg (not_le.mpr felt.asCanonicalU64_lt), Felt.newUnchecked_asCanonicalU64]
  exact .pure felt

theorem readFrom_reads (word : Word) : Reads readFrom start reserve word.writeInto word := by
  apply bind (readElement_reads word.a)
  apply bind (readElement_reads word.b)
  apply bind (readElement_reads word.c)
  exact (readElement_reads word.d).bind_pure (Word.mk word.a word.b word.c)

end Word

namespace Operation

variable (op : Operation)

/-- `Operation::write_into`: the opcode, then the element it carries. -/
def writeInto : List UInt8 :=
  UInt8.ofNat op.opCode :: (match op.carried with
    | some value => value.writeInto
    | none => [])

/-- `Operation::read_from`. -/
def readFrom : Reader Operation := do
  let opCode ← readU8
  match plainOfCode opCode.toNat with
  | some op => pure op
  | none =>
    match carrierOfCode opCode.toNat with
    | some build => do
        let value ← Felt.readFrom
        pure (build value)
    | none => fail (.invalidValue s!"Invalid opcode '{opCode.toNat}'")

/-- `Operation::min_serialized_size`. -/
def minSerializedSize : Nat := 1

/-- `Operation::encoded_size`. -/
def encodedSize : Nat :=
  match op.carried with
  | some _ => 9
  | none => 1

theorem length_writeInto : op.writeInto.length = op.encodedSize := by
  unfold writeInto encodedSize
  cases op.carried <;> simp

theorem minSerializedSize_le : minSerializedSize ≤ op.encodedSize := by
  unfold encodedSize minSerializedSize
  split <;> omega

theorem readFrom_wellBehaved : WellBehaved readFrom := by
  refine readU8_wellBehaved.bind (fun opCode => ?_)
  split
  · exact .pure _
  · split
    · exact Felt.readFrom_wellBehaved.bind (fun _ => .pure _)
    · exact .lift (by simp)

/-- The opcodes with data are not among the plain ones. -/
theorem plainOfCode_of_carried {op : Operation} {value : Felt} (carries : op.carried = some value) :
    plainOfCode op.opCode = none := by
  cases op <;> first | rfl | cases carries

theorem readFrom_reads : Reads readFrom start reserve op.writeInto op := by
  have code : (UInt8.ofNat op.opCode).toNat = op.opCode := by
    rw [UInt8.toNat_ofNat', Nat.mod_eq_of_lt (lt_trans op.opCode_lt (by decide))]
  unfold writeInto
  cases carries : op.carried with
  | none =>
    apply bind (readU8_reads _)
    rw [code, (plainOfCode_opCode carries).1]
    exact .pure op
  | some value =>
    apply bind (readU8_reads _)
    rw [code, plainOfCode_of_carried carries]
    rcases carrierOfCode_opCode carries with ⟨build, found, same⟩
    rw [found]
    have reads := (@Felt.readFrom_reads (start + 1) reserve value).bind_pure build
    rwa [same] at reads

end Operation

/-- `AdviceMap`. -/
abbrev AdviceMap := OrderedMap Word (List Felt)

namespace AdviceMap

/-- A key with its values, as the pair `(Word, Vec<Felt>)` is written. -/
def writeEntry (entry : Word × List Felt) : List UInt8 :=
  entry.1.writeInto ++ writeVec Felt.writeInto entry.2

/-- `AdviceMap::write_into`. -/
def writeInto (map : AdviceMap) : List UInt8 :=
  writeUsize map.entries.length ++ map.entries.flatMap writeEntry

def readEntry : Reader (Word × List Felt) := do
  let key ← Word.readFrom
  let values ← readVec Felt.readFrom Felt.minSerializedSize
  pure (key, values)

/-- `AdviceMap::read_from`: a repeated key keeps the values read last. -/
def readFrom : Reader AdviceMap := do
  let count ← readUsize
  let entries ← readEntry.many count
  pure (OrderedMap.empty.insertAll entries)

theorem readEntry_wellBehaved : WellBehaved readEntry :=
  Word.readFrom_wellBehaved.bind (fun _ =>
    (readVec_wellBehaved Felt.readFrom_wellBehaved _).bind (fun _ => .pure _))

theorem readFrom_wellBehaved : WellBehaved readFrom :=
  readUsize_wellBehaved.bind (fun count =>
    (readEntry_wellBehaved.many count).bind (fun _ => .pure _))

theorem readEntry_reads (entry : Word × List Felt) (few : entry.2.length < usizeLimit) :
    Reads readEntry start reserve (writeEntry entry) entry := by
  have values : forall start, Reads (readVec Felt.readFrom Felt.minSerializedSize) start reserve
      (writeVec Felt.writeInto entry.2) entry.2 := by
    intro start
    refine readVec_reads Felt.writeInto entry.2 (by decide) ?_ ?_ few
    · intro value _
      exact le_of_eq (Felt.length_writeInto value).symm
    · intro value _ start reserve
      exact Felt.readFrom_reads value
  apply Reads.bind (Word.readFrom_reads entry.1)
  exact (values _).bind_pure (fun found => (entry.1, found))

/-- The lengths inside a map are bounded by the bytes it is written to. -/
theorem lengths_lt {map : AdviceMap} (fits : map.writeInto.length < usizeLimit) :
    map.entries.length < usizeLimit ∧ forall entry, entry ∈ map.entries ->
      entry.2.length < usizeLimit := by
  have sized : forall entry : Word × List Felt, entry.2.length + 1 ≤ (writeEntry entry).length := by
    intro entry
    have values := length_mul_le_flatMap Felt.writeInto entry.2
      (fun value _ => le_of_eq (Felt.length_writeInto value).symm)
    rw [writeEntry, writeVec, length_append, length_append, Word.length_writeInto]
    omega
  have total : (map.entries.flatMap writeEntry).length < usizeLimit := by
    rw [writeInto, length_append] at fits
    omega
  constructor
  · have count := length_mul_le_flatMap writeEntry map.entries (fun entry _ =>
      le_trans (Nat.le_add_left 1 entry.2.length) (sized entry))
    omega
  · intro entry member
    have inside : writeEntry entry ∈ map.entries.map writeEntry := mem_map_of_mem member
    have part := (sublist_flatten_of_mem inside).length_le
    have size := sized entry
    rw [flatMap_def] at total
    omega

theorem readFrom_reads (map : AdviceMap) (few : map.entries.length < usizeLimit)
    (short : forall entry, entry ∈ map.entries -> entry.2.length < usizeLimit) :
    Reads readFrom start reserve map.writeInto map := by
  have entries : forall start, Reads (readEntry.many map.entries.length) start reserve
      (map.entries.flatMap writeEntry) map.entries := by
    intro start
    apply many writeEntry
    intro entry member start reserve
    exact readEntry_reads entry (short entry member)
  apply bind (readUsize_reads few)
  have reads := (entries (start + (writeUsize map.entries.length).length)).bind_pure
    (fun found => OrderedMap.empty.insertAll found)
  rwa [OrderedMap.insertAll_entries] at reads

end AdviceMap

end MidenVm
