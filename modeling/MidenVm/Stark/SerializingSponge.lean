import MidenVm.Core.Goldilocks
import MidenVm.Foundation.Bytes
import MidenVm.Stark.LmcsTreeSpec

namespace MidenVm.Stark

open Foundation List Nat StatefulSponge

/-!
# Serializing sponges

Field elements are serialized, their bytes are packed into the words of an inner
sponge, and the last word is filled up with zeros.  The declared alignment is the
least number of elements whose bytes fill whole blocks.  Zeros up to it leave the
state alone if a block holds whole elements or an element fills whole blocks.
Otherwise they can take more blocks than the elements did.
-/

/-- The bytes of field elements: as many for each, and zeros for zero. -/
structure Serialization (F B : Type) [Zero F] [Zero B] where
  numBytes : Nat
  bytes : F -> List B
  length_bytes : forall element, (bytes element).length = numBytes
  bytes_zero : bytes 0 = List.replicate numBytes 0

variable {S F B D : Type} [Zero F] [Zero B] {itemBytes rate : Nat}

/-- `into_u32_stream` and the other sizes of words. -/
def intoWords (itemBytes : Nat) (bytes : List B) : List (Fin itemBytes -> B) :=
  table (bytes.length ⌈/⌉ itemBytes) (fun word byte => bytes.getD (itemBytes * word + byte) 0)

namespace SerializingStatefulSponge

/-- `SerializingStatefulSponge`. -/
def hasher (codec : Serialization F B) (inner : StatefulHasher S (Fin itemBytes -> B) D) :
    StatefulHasher S F D where
  initial := inner.initial
  absorbInto state input :=
    inner.absorbInto state (intoWords itemBytes (input.flatMap codec.bytes))
  squeeze := inner.squeeze

/-- The loop of `compute_field_alignment`. -/
def euclid (a b : Nat) : Nat :=
  if b = 0 then a else euclid b (a % b)
termination_by b
decreasing_by exact mod_lt a (Nat.pos_of_ne_zero ‹_›)

/-- `compute_field_alignment`. -/
def computeFieldAlignment (fieldBytes itemBytes innerAlignment : Nat) : Nat :=
  let innerBytes := innerAlignment * itemBytes
  innerBytes / euclid fieldBytes innerBytes

/-! ## The alignment -/

theorem euclid_eq (a b : Nat) : euclid a b = Nat.gcd b a := by
  fun_induction euclid a b with
  | case1 a => rw [Nat.gcd_zero_left]
  | case2 a b _ ih => rw [ih, ← Nat.gcd_rec]

/-- Blocks and elements in units of their greatest common divisor. -/
theorem alignment_shape (fieldBytes : Nat) (some : 0 < rate * itemBytes) :
    ∃ size unit, 0 < unit ∧ size * unit = fieldBytes ∧
      computeFieldAlignment fieldBytes itemBytes rate * unit = rate * itemBytes ∧
      (computeFieldAlignment fieldBytes itemBytes rate).Coprime size := by
  have unit := Nat.gcd_pos_of_pos_left fieldBytes some
  rcases Nat.exists_coprime (rate * itemBytes) fieldBytes with ⟨blocks, size, coprime, block, field⟩
  have aligned : computeFieldAlignment fieldBytes itemBytes rate = blocks := by
    rw [computeFieldAlignment, euclid_eq]
    exact Nat.div_eq_of_eq_mul_left unit block
  rw [aligned]
  exact ⟨size, _, unit, field.symm, block.symm, coprime⟩

theorem alignment_isLeast (fieldBytes : Nat) (some : 0 < rate * itemBytes) :
    IsLeast {count | 0 < count ∧ rate * itemBytes ∣ count * fieldBytes}
      (computeFieldAlignment fieldBytes itemBytes rate) := by
  rcases alignment_shape fieldBytes some with ⟨size, unit, positive, field, block, coprime⟩
  set alignment := computeFieldAlignment fieldBytes itemBytes rate
  have fills (count : Nat) : rate * itemBytes ∣ count * fieldBytes ↔ alignment ∣ count := by
    rw [← field, ← block, ← mul_assoc, Nat.mul_dvd_mul_iff_right positive, coprime.dvd_mul_right]
  refine ⟨⟨Nat.pos_of_mul_pos_right (block ▸ some), (fills _).mpr dvd_rfl⟩, fun count held => ?_⟩
  exact le_of_dvd held.1 ((fills count).mp held.2)

/-! ## Blocks that hold whole elements -/

theorem getD_append_zeros (values : List F) (count index : Nat) :
    (values ++ replicate count 0).getD index 0 = values.getD index 0 := by
  rcases lt_or_ge index values.length with inside | outside
  · rw [getD_append _ _ _ _ inside]
  · rw [getD_append_right _ _ _ _ outside, getD_eq_default _ _ outside, getD_eq_getElem?_getD,
      getElem?_replicate]
    split <;> rfl

theorem padRow_eq_table (alignment : Nat) (row : List F) :
    padRow alignment row = table (alignedLen row.length alignment) (fun index => row.getD index 0) := by
  rw [← length_padRow, ← table_getD (padRow alignment row) 0, length_table]
  exact table_congr (fun index _ => getD_append_zeros row _ index)

theorem getD_intoWords (some : 0 < itemBytes) (bytes : List B) (word : Nat) :
    (intoWords itemBytes bytes).getD word 0 =
      fun byte : Fin itemBytes => bytes.getD (itemBytes * word + byte) 0 := by
  rcases lt_or_ge word (bytes.length ⌈/⌉ itemBytes) with inside | outside
  · exact getD_table inside _ _
  · have past := (ceilDiv_le_iff_le_mul some).mp outside
    rw [getD_eq_default _ _ (by rwa [intoWords, length_table])]
    funext byte
    rw [getD_eq_default _ _ (past.trans (Nat.le_add_right _ _))]
    rfl

theorem alignedLen_eq {alignment : Nat} (positive : 0 < alignment) (len : Nat) :
    alignedLen len alignment = alignment * (len ⌈/⌉ alignment) := by
  rw [alignedLen, ceilDiv_eq_add_pred_div, mul_comm]
  split
  · have one : alignment = 1 := by omega
    rw [one, Nat.add_sub_cancel, Nat.div_one, one_mul]
  · rfl

section Law

variable (codec : Serialization F B)

theorem length_serialized (row : List F) :
    (row.flatMap codec.bytes).length = row.length * codec.numBytes :=
  length_flatMap_of_sized _ row (fun element _ => codec.length_bytes element)

/-- The blocks that the words of elements take. -/
theorem blocks_le_iff (some : 0 < itemBytes) (positive : 0 < rate) (row : List F) (count : Nat) :
    (intoWords itemBytes (row.flatMap codec.bytes)).length ⌈/⌉ rate ≤ count ↔
      row.length * codec.numBytes ≤ rate * itemBytes * count := by
  rw [intoWords, length_table, length_serialized, ceilDiv_le_iff_le_mul positive,
    ceilDiv_le_iff_le_mul some, mul_left_comm, mul_assoc]

/-- Padded elements are padded words if a block holds whole elements. -/
theorem intoWords_padRow (some : 0 < itemBytes) (positive : 0 < rate) {alignment : Nat}
    (whole : alignment * codec.numBytes = rate * itemBytes) (row : List F) :
    intoWords itemBytes ((padRow alignment row).flatMap codec.bytes) =
      padRow rate (intoWords itemBytes (row.flatMap codec.bytes)) := by
  have block : 0 < alignment * codec.numBytes := whole ▸ Nat.mul_pos positive some
  have aligned : 0 < alignment := Nat.pos_of_mul_pos_right block
  set words := intoWords itemBytes (row.flatMap codec.bytes)
  have padded : (padRow alignment row).flatMap codec.bytes = row.flatMap codec.bytes ++
      replicate ((alignedLen row.length alignment - row.length) * codec.numBytes) 0 := by
    rw [padRow, flatMap_append, flatMap_replicate, codec.bytes_zero, flatten_replicate_replicate]
  have blocks : words.length ⌈/⌉ rate = row.length ⌈/⌉ alignment := by
    refine eq_of_forall_ge_iff (fun count => ?_)
    rw [blocks_le_iff codec some positive, ceilDiv_le_iff_le_mul aligned, ← whole,
      mul_right_comm, Nat.mul_le_mul_right_iff (Nat.pos_of_mul_pos_left block)]
  have count : ((padRow alignment row).flatMap codec.bytes).length ⌈/⌉ itemBytes =
      alignedLen words.length rate := by
    rw [length_serialized, length_padRow, alignedLen_eq aligned, alignedLen_eq positive, blocks,
      mul_right_comm, whole, mul_comm rate, mul_assoc]
    exact smul_ceilDiv some _
  rw [padRow_eq_table rate words, intoWords, count]
  refine table_congr (fun word _ => ?_)
  rw [getD_intoWords some, padded]
  funext byte
  rw [getD_append_zeros]

/-! ## Blocks that cut elements -/

/-- `CryptographicPermutation`. -/
def Permutes (permute : List F -> List F) : Prop :=
  permute.Injective ∧ forall state, (permute state).length = state.length

/-- A permutation that turns the capacity part. -/
def rotateTail (rate : Nat) (state : List F) : List F :=
  state.take rate ++ (state.drop rate).rotate 1

omit [Zero F] in
theorem rotateTail_permutes (rate : Nat) : Permutes (rotateTail rate : List F -> List F) := by
  have size (state : List F) : (rotateTail rate state).length = state.length := by
    rw [rotateTail, length_append, length_rotate, ← length_append, take_append_drop]
  refine ⟨fun left right same => ?_, size⟩
  have long : left.length = right.length := by rw [← size left, ← size right, same]
  rcases append_inj same (by rw [length_take, length_take, long]) with ⟨first, second⟩
  rw [← take_append_drop rate left, ← take_append_drop rate right, first,
    rotate_injective 1 second]

/-- The capacity part is turned once for every block. -/
theorem drop_absorbInto (positive : 0 < rate) (fuel : Nat) (state input : List F)
    (enough : input.length ≤ fuel) :
    (absorbInto (rotateTail rate) rate fuel state input).drop rate =
      (state.drop rate).rotate (input.length ⌈/⌉ rate) := by
  induction fuel generalizing state input with
  | zero => rw [le_zero.mp enough, zero_ceilDiv, rotate_zero]; rfl
  | succ fuel ih =>
    rw [absorbInto]
    split
    · rename_i none
      rw [none, length_nil, zero_ceilDiv, rotate_zero]
    · rename_i held
      have some := length_pos_of_ne_nil held
      have full : (input.take rate ++ replicate (rate - (input.take rate).length) 0).length = rate := by
        rw [length_append, length_replicate, length_take]
        omega
      have more : input.length ⌈/⌉ rate = 1 + (input.drop rate).length ⌈/⌉ rate := by
        rw [ceilDiv_eq_add_pred_div, ceilDiv_eq_add_pred_div, length_drop, add_comm 1]
        rcases le_or_gt rate input.length with long | short
        · rw [← Nat.add_div_right _ positive]
          congr 1
          omega
        · rw [Nat.sub_eq_zero_of_le short.le, zero_add, div_eq_of_lt (sub_lt positive one_pos)]
          exact Nat.div_eq_of_lt_le (by omega) (by omega)
      rw [ih _ _ (by rw [length_drop]; omega), rotateTail,
        drop_left' (by rw [take_left' full, full]), drop_left' full, rotate_rotate, more]

/-- More blocks turn the capacity part further. -/
theorem not_absorbsPadding_of_blocks [Nontrivial B] (some : 0 < itemBytes) (positive : 0 < rate)
    {alignment : Nat} {row : List F}
    (more : (intoWords itemBytes (row.flatMap codec.bytes)).length ⌈/⌉ rate <
      (intoWords itemBytes ((padRow alignment row).flatMap codec.bytes)).length ⌈/⌉ rate) :
    ¬ (hasher codec (StatefulSponge.hasher (rotateTail rate) 0 rate 0) :
      StatefulHasher (List (Fin itemBytes -> B)) F _).AbsorbsPadding alignment := by
  intro law
  rcases exists_ne (0 : B) with ⟨mark, marked⟩
  set few := (intoWords itemBytes (row.flatMap codec.bytes)).length ⌈/⌉ rate
  set many := (intoWords itemBytes ((padRow alignment row).flatMap codec.bytes)).length ⌈/⌉ rate
  set tail : List (Fin itemBytes -> B) := replicate many 0 ++ [fun _ => mark]
  have long : many < tail.length := by rw [length_append, length_replicate]; exact lt_succ_self many
  have same := congrArg (List.drop rate) (law (replicate rate 0 ++ tail) row)
  have turned (input : List (Fin itemBytes -> B)) :=
    drop_absorbInto positive input.length (replicate rate 0 ++ tail) input (le_refl _)
  have heads := congrArg List.head? ((turned _).symm.trans (same.trans (turned _)))
  rw [drop_left' length_replicate, head?_rotate long, head?_rotate (more.trans long),
    getElem?_append_right (by rw [length_replicate]), getElem?_append_left (by rwa [length_replicate]),
    length_replicate, Nat.sub_self, getElem?_replicate, if_pos more] at heads
  exact marked (congrFun (Option.some.inj heads) ⟨0, some⟩)

/-- One element and its padding, of sizes that do not divide each other. -/
theorem blocks_lt (some : 0 < itemBytes) (positive : 0 < rate) {size unit alignment : Nat}
    (field : size * unit = codec.numBytes) (whole : alignment * unit = rate * itemBytes)
    (sizes : 2 ≤ size) (aligned : 2 ≤ alignment) :
    (intoWords itemBytes ([0].flatMap codec.bytes)).length ⌈/⌉ rate <
      (intoWords itemBytes ((padRow alignment [0]).flatMap codec.bytes)).length ⌈/⌉ rate := by
  have block : 0 < alignment * unit := whole ▸ Nat.mul_pos positive some
  have short : size ≤ alignment * (size - 1) :=
    le_trans (by omega) (Nat.mul_le_mul_right (size - 1) aligned)
  refine lt_of_le_of_lt ((blocks_le_iff codec some positive _ (size - 1)).mpr ?_)
    (lt_of_not_ge (fun few => ?_))
  · rw [length_singleton, one_mul, ← field, ← whole, mul_right_comm]
    exact Nat.mul_le_mul_right unit short
  · have fits := (blocks_le_iff codec some positive _ (size - 1)).mp few
    rw [length_padRow, length_singleton, alignedLen_of_le one_pos (one_le_two.trans aligned),
      ← field, ← whole, ← mul_assoc, mul_right_comm] at fits
    have less := Nat.le_of_mul_le_mul_left fits block
    omega

end Law

/-- Zeros up to the rate are absorbed without a change by the sponge, and zeros
up to the alignment by the serializing sponge exactly if a block holds whole
elements or an element fills whole blocks.  The alignment is the least number of
elements that fill whole blocks. -/
theorem absorbsPadding_iff [Nontrivial B] (codec : Serialization F B) (some : 0 < itemBytes)
    (positive : 0 < rate) :
    (forall (permute : List F -> List F) (width out : Nat),
      (StatefulSponge.hasher permute width rate out).AbsorbsPadding rate) ∧
    ((forall (permute : List (Fin itemBytes -> B) -> List (Fin itemBytes -> B)) (width out : Nat),
        Permutes permute -> (hasher codec (StatefulSponge.hasher permute width rate out)).AbsorbsPadding
          (computeFieldAlignment codec.numBytes itemBytes rate)) ↔
      codec.numBytes ∣ rate * itemBytes ∨ rate * itemBytes ∣ codec.numBytes) ∧
    IsLeast {count | 0 < count ∧ rate * itemBytes ∣ count * codec.numBytes}
      (computeFieldAlignment codec.numBytes itemBytes rate) := by
  have block := Nat.mul_pos positive some
  refine ⟨fun permute width out => absorbsPadding permute positive width out, ?_,
    alignment_isLeast _ block⟩
  rcases alignment_shape codec.numBytes block with ⟨size, unit, unitary, field, whole, coprime⟩
  set alignment := computeFieldAlignment codec.numBytes itemBytes rate
  rw [← whole, ← field, Nat.mul_dvd_mul_iff_right unitary, Nat.mul_dvd_mul_iff_right unitary]
  constructor
  · intro law
    by_contra neither
    rw [not_or] at neither
    have sizes : 2 ≤ size ∧ 2 ≤ alignment := by
      refine ⟨?_, ?_⟩
      · have one : size ≠ 1 := fun one => neither.1 (one ▸ one_dvd alignment)
        have zero : size ≠ 0 := fun zero => neither.2 (zero ▸ dvd_zero alignment)
        omega
      · have one : alignment ≠ 1 := fun one => neither.2 (one ▸ one_dvd size)
        have zero : alignment ≠ 0 := fun zero => neither.1 (zero ▸ dvd_zero size)
        omega
    have fewer := blocks_lt codec some positive field whole sizes.1 sizes.2
    have refuted := not_absorbsPadding_of_blocks codec some positive fewer
    exact refuted (law _ 0 0 (rotateTail_permutes rate))
  · rintro (divides | divides) permute width out _ state row
    · rw [coprime.symm.eq_one_of_dvd divides, one_mul] at field
      rw [field] at whole
      have law := absorbsPadding permute positive width out state
        (intoWords itemBytes (row.flatMap codec.bytes))
      rw [← intoWords_padRow codec some positive whole] at law
      exact law
    · rw [coprime.eq_one_of_dvd divides]
      exact StatefulHasher.absorbsPadding_one _ state row

/-- Field elements as eight bytes, the least significant first. -/
def feltBytes : Serialization Felt UInt8 where
  numBytes := 8
  bytes element := toLe 8 element.val
  length_bytes element := length_toLe 8 element.val
  bytes_zero := by decide

/-- A rate of three 32-bit words and elements of eight bytes: the padding of one
element takes a second block, which overwrites the first. -/
theorem padding_overwrites_element :
    let sponge : StatefulHasher _ Felt _ :=
      hasher feltBytes (StatefulSponge.hasher (id : List (Fin 4 -> UInt8) -> _) 4 3 3)
    computeFieldAlignment 8 4 3 = 3 ∧
      sponge.squeeze (sponge.absorbInto sponge.initial [1]) ≠
        sponge.squeeze (sponge.absorbInto sponge.initial (padRow 3 [1])) := by
  refine ⟨by rw [computeFieldAlignment, euclid_eq]; decide, ?_⟩
  decide +kernel

theorem padding_absorbed_at_rate_four :
    (0 < 8 ∧ 0 < 4 ∧ 8 ∣ 4 * 8) ∧
      forall (permute : List (Fin 8 -> UInt8) -> List (Fin 8 -> UInt8)), Permutes permute ->
        (hasher feltBytes (StatefulSponge.hasher permute 12 4 4)).AbsorbsPadding
          (computeFieldAlignment 8 8 4) := by
  refine ⟨by decide, fun permute permutes => ?_⟩
  have : Nontrivial UInt8 := ⟨0, 1, by decide⟩
  have law := (absorbsPadding_iff feltBytes (show 0 < 8 by decide) (show 0 < 4 by decide)).2.1
  exact law.mpr (Or.inl ⟨4, rfl⟩) permute 12 4 permutes

end SerializingStatefulSponge

end MidenVm.Stark
