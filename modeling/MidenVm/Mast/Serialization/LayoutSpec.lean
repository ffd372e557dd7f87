import MidenVm.Mast.Serialization.Layout

namespace MidenVm.Mast

open Foundation Outcome Parser Serde List MastForestHeader MastNodeEntry

/-!
# What a scanned layout guarantees

The scan never aborts, and a layout it returns describes the bytes it was
read from: the node entries are where the layout says, and there are as many
of each kind as the counts say.  Later stages only use `ScannedLayout`.
-/

/-! ## Checked arithmetic -/

variable {message : String} {header : MastForestHeader} {α : Type} {layout : ForestLayout}
variable (isHashless : Bool)

theorem addOrInvalid_eq_ok {left right sum : Nat} :
    addOrInvalid left right message = ok sum ↔ left + right < usizeLimit ∧ left + right = sum := by
  rw [addOrInvalid, okOr_eq_ok, checkedAdd_eq_some]

theorem mulOrInvalid_eq_ok {left right product : Nat} :
    mulOrInvalid left right message = ok product ↔ left * right < usizeLimit ∧
      left * right = product := by
  rw [mulOrInvalid, okOr_eq_ok, checkedMul_eq_some]

theorem addOrInvalid_of_lt {left right : Nat} (message : String)
    (small : left + right < usizeLimit) : addOrInvalid left right message = ok (left + right) :=
  addOrInvalid_eq_ok.mpr ⟨small, rfl⟩

theorem mulOrInvalid_of_lt {left right : Nat} (message : String)
    (small : left * right < usizeLimit) : mulOrInvalid left right message = ok (left * right) :=
  mulOrInvalid_eq_ok.mpr ⟨small, rfl⟩

theorem addOrInvalid_wellBehaved (left right : Nat) (message : String) :
    WellBehaved (lift (addOrInvalid left right message) : Reader Nat) := .lift (okOr_ne_panic _ _)

theorem mulOrInvalid_wellBehaved (left right : Nat) (message : String) :
    WellBehaved (lift (mulOrInvalid left right message) : Reader Nat) := .lift (okOr_ne_panic _ _)

/-! ## The header -/

theorem readAndValidateHeader_wellBehaved : WellBehaved readAndValidateHeader :=
  (readSlice_wellBehaved 4).bind (fun _ => (WellBehaved.ensure _ _).bind (fun _ =>
    readU8_wellBehaved.bind (fun _ => (readSlice_wellBehaved 3).bind (fun _ =>
      (WellBehaved.ensure _ _).bind (fun _ => (WellBehaved.ensure _ _).bind (fun _ => .pure _))))))

theorem validateInternalCount_wellBehaved (internalNodeCount : Nat) :
    WellBehaved (validateInternalCount isHashless internalNodeCount) := by
  cases isHashless with
  | true => exact .pure ()
  | false => exact (WellBehaved.checkAlloc _ _ _ : WellBehaved (validateBudgetedCount _ _ _))

theorem nodeHashLength_ne_panic (internalNodeCount : Nat) :
    nodeHashLength isHashless internalNodeCount ≠ panic := by
  cases isHashless with
  | true => exact fun aborted => absurd aborted (by simp [nodeHashLength])
  | false => exact okOr_ne_panic _ _

theorem MastForestHeader.readFrom_wellBehaved : WellBehaved (readFrom isHashless) :=
  readUsize_wellBehaved.bind fun _ => readUsize_wellBehaved.bind fun _ =>
  (addOrInvalid_wellBehaved _ _ _).bind fun _ => (WellBehaved.ensure _ _).bind fun _ =>
  (WellBehaved.checkAlloc _ _ _).bind fun _ => (WellBehaved.checkAlloc _ _ _).bind fun _ =>
  (validateInternalCount_wellBehaved _ _).bind fun _ => readUsize_wellBehaved.bind fun _ =>
  (WellBehaved.checkAlloc _ _ _).bind fun _ => (mulOrInvalid_wellBehaved _ _ _).bind fun _ =>
  (mulOrInvalid_wellBehaved _ _ _).bind fun _ => (mulOrInvalid_wellBehaved _ _ _).bind fun _ =>
  (WellBehaved.lift (nodeHashLength_ne_panic _ _)).bind fun _ =>
  (addOrInvalid_wellBehaved _ _ _).bind fun _ => WellBehaved.position.bind fun _ =>
  (readSlice_wellBehaved _).bind fun _ => readUsize_wellBehaved.bind fun _ =>
  (addOrInvalid_wellBehaved _ _ _).bind fun _ => (addOrInvalid_wellBehaved _ _ _).bind fun _ =>
  (WellBehaved.checkAlloc _ _ _).bind fun _ => .pure _

/-- How the lengths of a header fit together. -/
structure MastForestHeader.Consistent (header : MastForestHeader) : Prop where
  counts : header.internalNodeCount + header.externalNodeCount = header.nodeCount
  bounded : header.nodeCount ≤ maxNodes
  entries : header.nodeEntriesLen = header.nodeCount * 8
  tail : header.basicBlockLen + header.nodeEntriesLen ≤ header.coreTailLen

theorem MastForestHeader.consistent_of_readFrom {isHashless : Bool}
    (returned : Returns (readFrom isHashless) header) : header.Consistent := by
  rcases returned with ⟨source, after, ran⟩
  rcases seq_eq_ok.mp ran with ⟨internal, _, _, ran⟩
  rcases seq_eq_ok.mp ran with ⟨external, _, _, ran⟩
  rcases seq_eq_ok.mp ran with ⟨nodeCount, _, added, ran⟩
  rcases seq_eq_ok.mp ran with ⟨_, _, bounded, ran⟩
  rcases seq_eq_ok.mp ran with ⟨_, _, _, ran⟩
  rcases seq_eq_ok.mp ran with ⟨_, _, _, ran⟩
  rcases seq_eq_ok.mp ran with ⟨_, _, _, ran⟩
  rcases seq_eq_ok.mp ran with ⟨roots, _, _, ran⟩
  rcases seq_eq_ok.mp ran with ⟨_, _, _, ran⟩
  rcases seq_eq_ok.mp ran with ⟨_, _, _, ran⟩
  rcases seq_eq_ok.mp ran with ⟨digestsLen, _, _, ran⟩
  rcases seq_eq_ok.mp ran with ⟨entriesLen, _, entries, ran⟩
  rcases seq_eq_ok.mp ran with ⟨_, _, _, ran⟩
  rcases seq_eq_ok.mp ran with ⟨digestLen, _, _, ran⟩
  rcases seq_eq_ok.mp ran with ⟨_, _, _, ran⟩
  rcases seq_eq_ok.mp ran with ⟨_, _, _, ran⟩
  rcases seq_eq_ok.mp ran with ⟨blockLen, _, _, ran⟩
  rcases seq_eq_ok.mp ran with ⟨digestsEnd, _, digests, ran⟩
  rcases seq_eq_ok.mp ran with ⟨tailLen, _, tail, ran⟩
  rcases seq_eq_ok.mp ran with ⟨_, _, _, done⟩
  cases done
  have sum := (addOrInvalid_eq_ok.mp (lift_eq_ok.mp added).1).2
  have bound := ensure_eq_ok.mp (lift_eq_ok.mp bounded).1
  have size := (mulOrInvalid_eq_ok.mp (lift_eq_ok.mp entries).1).2
  have front := (addOrInvalid_eq_ok.mp (lift_eq_ok.mp digests).1).2
  have back := (addOrInvalid_eq_ok.mp (lift_eq_ok.mp tail).1).2
  exact ⟨sum, bound, size.symm, by dsimp only; omega⟩

/-! ## The sections -/

theorem MastNodeEntry.ofValue_ne_panic (value : Nat) : ofValue value ≠ panic := by
  have payload : forall (wrap : Nat -> MastNodeEntry) (payload : Nat),
      wrap <$> decodeU32Payload payload ≠ panic := by
    intro wrap payload
    unfold MastNodeEntry.decodeU32Payload ensure
    split <;> simp
  unfold ofValue
  dsimp only
  split <;> first | exact payload _ _ | simp

/-- An entry is a record of eight bytes. -/
theorem MastNodeEntry.readFrom_eq_fixed : readFrom =
    fixed (budgetExhausted 8) .unexpectedEof 8 (fun raw => ofValue (fromLe raw)) := by
  funext source
  rw [readFrom, readU64, readSlice, fixed, bind_apply, bind_apply, bind_apply]
  cases Parser.take (budgetExhausted 8) .unexpectedEof 8 source with
  | ok result => rfl
  | err error => rfl
  | panic => rfl

theorem MastNodeEntry.readFrom_wellBehaved : WellBehaved readFrom :=
  readU64_wellBehaved.bind (fun value => .lift (ofValue_ne_panic value))

theorem decodeSlice_ne_panic {reader : Reader α} (behaved : WellBehaved reader)
    (bytes : List UInt8) : decodeSlice reader bytes ≠ panic := by
  apply bind_ne_panic (behaved.neverPanics _)
  rintro ⟨value, after⟩ _ aborted
  cases aborted

theorem decodeSlice_eq_ok {reader : Reader α} {bytes : List UInt8} {value : α} :
    decodeSlice reader bytes = ok value ↔
      ∃ after, reader (Source.new bytes none) = ok (value, after) := by
  rw [decodeSlice, bind_eq_ok]
  constructor
  · rintro ⟨⟨found, after⟩, ran, same⟩
    cases same
    exact ⟨after, ran⟩
  · rintro ⟨after, ran⟩
    exact ⟨(value, after), ran, rfl⟩

theorem decodeSlice_entry {raw : List UInt8} (width : raw.length = 8) :
    decodeSlice MastNodeEntry.readFrom raw = MastNodeEntry.ofValue (fromLe raw) := by
  have taken : Parser.take (budgetExhausted 8) .unexpectedEof 8 (Source.new raw none) =
      (ok (raw, (Source.new raw none).advance 8) : Outcome DeserializationError _) := by
    refine take_eq_ok.mpr ⟨fun limit none => absurd none (by simp [Source.new]),
      le_of_eq width.symm, ?_⟩
    rw [← width]
    exact Prod.ext (take_length).symm rfl
  rw [decodeSlice, MastNodeEntry.readFrom_eq_fixed, fixed, bind_of_ok taken, lift]
  cases MastNodeEntry.ofValue (fromLe raw) with
  | ok entry => rfl
  | err error => rfl
  | panic => rfl

theorem validateNodeEntries_ne_panic (nodeEntries : List UInt8)
    (nodeCount externalNodeCount : Nat) :
    validateNodeEntries nodeEntries nodeCount externalNodeCount ≠ panic := by
  apply bind_ne_panic (decodeSlice_ne_panic (readFrom_wellBehaved.many nodeCount) _)
  intro _ _
  exact ensure_ne_panic _ _

theorem nodeHashSection_ne_panic (offset len : Nat) :
    nodeHashSection isHashless offset len ≠ panic := by
  cases isHashless with
  | true => exact fun aborted => absurd aborted (by simp [nodeHashSection])
  | false =>
    exact bind_ok_ne_panic (okOr_ne_panic _ _) _

theorem scanLayoutSections_wellBehaved (consistent : header.Consistent) :
    WellBehaved (scanLayoutSections header) := by
  refine WellBehaved.position.bind fun _ => (readSlice_wellBehaved _).bind_of fun coreTail taken =>
    (addOrInvalid_wellBehaved _ _ _).bind fun _ => (addOrInvalid_wellBehaved _ _ _).bind fun _ =>
    (WellBehaved.lift (nodeHashSection_ne_panic _ _ _)).bind fun _ =>
    (addOrInvalid_wellBehaved _ _ _).bind fun _ =>
    (addOrInvalid_wellBehaved _ _ _).bind_of fun nodeEntriesEnd added =>
    (WellBehaved.lift ?_).bind fun _ =>
    (WellBehaved.lift (validateNodeEntries_ne_panic _ _ _)).bind fun _ => .pure _
  rcases taken with ⟨source, after, taken⟩
  rcases take_eq_ok.mp taken with ⟨_, within, same⟩
  cases same
  rcases added with ⟨source, after, added⟩
  have stop := (addOrInvalid_eq_ok.mp (lift_eq_ok.mp added).1).2
  have tail := consistent.tail
  rw [slice_of_le _ (by omega) (by rw [length_take_of_le within]; omega)]
  simp

theorem readHeaderAndScanLayout_wellBehaved (allowHashless : Bool) :
    WellBehaved (readHeaderAndScanLayout allowHashless) :=
  readAndValidateHeader_wellBehaved.bind fun _ => (WellBehaved.ensure _ _).bind fun _ =>
  (readFrom_wellBehaved _).bind_of fun _ returned =>
  scanLayoutSections_wellBehaved (consistent_of_readFrom returned)

/-! ## Random access -/

theorem readFixedSectionEntry_eq_ok {bytes raw : List UInt8} {sectionOffset entrySize index : Nat}
    {sectionName : String} :
    readFixedSectionEntry bytes sectionOffset entrySize index sectionName = ok raw ↔
      sectionOffset + index * entrySize + entrySize < usizeLimit ∧
        sectionOffset + index * entrySize + entrySize ≤ bytes.length ∧
        raw = (bytes.drop (sectionOffset + index * entrySize)).take entrySize := by
  unfold readFixedSectionEntry
  simp only [bind_eq_ok, mulOrInvalid_eq_ok, addOrInvalid_eq_ok, ensure_eq_ok]
  constructor
  · rintro ⟨_, ⟨_, rfl⟩, _, ⟨_, rfl⟩, _, ⟨small, rfl⟩, _, within, cut⟩
    rw [slice_of_le _ (Nat.le_add_right _ _) within] at cut
    refine ⟨small, within, ?_⟩
    rw [← Outcome.ok.inj cut, drop_take, Nat.add_sub_cancel_left]
  · rintro ⟨small, within, rfl⟩
    refine ⟨_, ⟨by omega, rfl⟩, _, ⟨by omega, rfl⟩, _, ⟨small, rfl⟩, (), within, ?_⟩
    rw [slice_of_le _ (Nat.le_add_right _ _) within, drop_take, Nat.add_sub_cancel_left]

theorem readFixedSectionEntry_ne_panic (bytes : List UInt8)
    (sectionOffset entrySize index : Nat) (sectionName : String) :
    readFixedSectionEntry bytes sectionOffset entrySize index sectionName ≠ panic := by
  apply bind_ne_panic (okOr_ne_panic _ _)
  intro delta _
  apply bind_ne_panic (okOr_ne_panic _ _)
  intro entryOffset _
  apply bind_ne_panic (okOr_ne_panic _ _)
  intro entryEnd added
  rcases addOrInvalid_eq_ok.mp added with ⟨_, rfl⟩
  apply ensure_bind_ne_panic
  intro within
  rw [slice_of_le _ (Nat.le_add_right _ _) within]
  simp

theorem ForestLayout.readNodeEntryAt_ne_panic (layout : ForestLayout) (bytes : List UInt8)
    (index : Nat) : layout.readNodeEntryAt bytes index ≠ panic := by
  apply ensure_bind_ne_panic
  intro _
  apply bind_ne_panic (readFixedSectionEntry_ne_panic _ _ _ _ _)
  intro raw _
  exact decodeSlice_ne_panic readFrom_wellBehaved raw

theorem ForestLayout.readProcedureRootAt_ne_panic (layout : ForestLayout) (bytes : List UInt8)
    (index : Nat) : layout.readProcedureRootAt bytes index ≠ panic := by
  apply ensure_bind_ne_panic
  intro _
  apply bind_ne_panic (readFixedSectionEntry_ne_panic _ _ _ _ _)
  intro raw _
  exact bind_ok_ne_panic (ensure_ne_panic _ _) _

/-- The layout describes the bytes, and these are its node entries. -/
structure ScannedLayout (bytes : List UInt8) (layout : ForestLayout)
    (entries : List MastNodeEntry) : Prop where
  length_entries : entries.length = layout.nodeCount
  entryAt : forall index entry, entries[index]? = some entry ->
    layout.readNodeEntryAt bytes index = ok entry
  externals : entries.countP MastNodeEntry.isExternal = layout.externalNodeCount
  counts : layout.internalNodeCount + layout.externalNodeCount = layout.nodeCount
  bounded : layout.nodeCount ≤ maxNodes

/-- A part of a section that stands inside longer bytes. -/
theorem take_drop_inside (front core tail : List α) {skip start width len : Nat}
    (inSection : start + width ≤ len) (inCore : skip + len ≤ core.length) :
    (((front ++ (core ++ tail)).drop (front.length + skip + start)).take width) =
      ((((core.take (skip + len)).drop skip).drop start).take width) := by
  rw [add_assoc, ← drop_drop, drop_left, drop_append_of_le_length (by omega),
    take_append_of_le_length (by rw [length_drop]; omega), drop_take, drop_take,
    drop_drop, take_take, Nat.min_eq_left (by omega)]

/-- What the scan returns describes every extension of what it has read, and
it stops where the advice map starts. -/
theorem scannedLayout_of_scan {source after : ByteReader} (consistent : header.Consistent)
    (ran : scanLayoutSections header source = ok (layout, after)) (tail : List UInt8) :
    after.consumed.length = layout.adviceMapOffset ∧
      ∃ entries, ScannedLayout (after.consumed ++ tail) layout entries := by
  rcases seq_eq_ok.mp ran with ⟨blockOffset, _, placed, ran⟩
  cases placed
  rcases seq_eq_ok.mp ran with ⟨coreTail, _, taken, ran⟩
  rcases take_eq_ok.mp taken with ⟨_, within, same⟩
  cases same
  rcases seq_eq_ok.mp ran with ⟨entryOffset, _, found, ran⟩
  rcases lift_eq_ok.mp found with ⟨entryPlaced, rfl⟩
  rcases seq_eq_ok.mp ran with ⟨digestOffset, _, found, ran⟩
  rcases lift_eq_ok.mp found with ⟨digestPlaced, rfl⟩
  rcases seq_eq_ok.mp ran with ⟨hashOffset, _, found, ran⟩
  rcases lift_eq_ok.mp found with ⟨_, rfl⟩
  rcases seq_eq_ok.mp ran with ⟨adviceOffset, _, found, ran⟩
  rcases lift_eq_ok.mp found with ⟨advicePlaced, rfl⟩
  rcases seq_eq_ok.mp ran with ⟨entriesEnd, _, found, ran⟩
  rcases lift_eq_ok.mp found with ⟨entriesEnded, rfl⟩
  rcases seq_eq_ok.mp ran with ⟨section_, _, found, ran⟩
  rcases lift_eq_ok.mp found with ⟨cut, rfl⟩
  rcases seq_eq_ok.mp ran with ⟨_, _, found, done⟩
  rcases lift_eq_ok.mp found with ⟨validated, rfl⟩
  cases done
  have tailFits := consistent.tail
  have entriesSize := consistent.entries
  have bound : header.nodeCount < 2 ^ 30 := lt_of_le_of_lt consistent.bounded (by decide)
  rcases addOrInvalid_eq_ok.mp entryPlaced with ⟨_, rfl⟩
  rcases addOrInvalid_eq_ok.mp digestPlaced with ⟨small, rfl⟩
  rcases addOrInvalid_eq_ok.mp advicePlaced with ⟨_, rfl⟩
  rcases addOrInvalid_eq_ok.mp entriesEnded with ⟨_, rfl⟩
  have coreSize : (source.rest.take header.coreTailLen).length = header.coreTailLen :=
    length_take_of_le within
  rw [slice_of_le _ (Nat.le_add_right _ _) (by omega)] at cut
  have cut := Outcome.ok.inj cut
  rcases bind_eq_ok.mp validated with ⟨entries, decoded, counted⟩
  rcases decodeSlice_eq_ok.mp decoded with ⟨_, read⟩
  have count := length_of_many read
  rw [readFrom_eq_fixed] at read
  rcases many_fixed read with ⟨_, each⟩
  refine ⟨by rw [Source.length_consumed_advance within], entries, count, fun index entry found => ?_,
    ensure_eq_ok.mp counted, consistent.counts, consistent.bounded⟩
  have inEntries : index < header.nodeCount := by
    rw [← count]
    exact (List.getElem?_eq_some_iff.mp found).1
  have inSection : index * 8 + 8 ≤ header.nodeEntriesLen := by omega
  have value : ofValue (fromLe (record section_ 8 index)) = ok entry := each index entry found
  unfold ForestLayout.readNodeEntryAt
  rw [ensure_of inEntries, ok_bind, bind_eq_ok]
  refine ⟨_, readFixedSectionEntry_eq_ok.mpr ⟨?_, ?_, rfl⟩, ?_⟩
  · dsimp only [serializedSize]
    omega
  · dsimp only [serializedSize]
    rw [length_append, Source.length_consumed_advance within]
    omega
  · have raw : (((source.advance header.coreTailLen).consumed ++ tail).drop
        (source.consumed.length + header.basicBlockLen + index * 8)).take 8 =
          record section_ 8 index := by
      rw [record, ← cut, Source.advance, append_assoc]
      exact take_drop_inside source.consumed _ tail inSection (by omega)
    dsimp only [serializedSize]
    rw [raw, decodeSlice_entry, value]
    rw [record, length_take, length_drop, ← cut, length_drop, length_take]
    omega

/-- A payload is accepted only when its node entries are where its layout says. -/
theorem scannedLayout_of_readHeader {allowHashless : Bool} {source after : ByteReader}
    (ran : readHeaderAndScanLayout allowHashless source = ok (layout, after)) (tail : List UInt8) :
    after.consumed.length = layout.adviceMapOffset ∧
      ∃ entries, ScannedLayout (after.consumed ++ tail) layout entries := by
  rcases seq_eq_ok.mp ran with ⟨flags, _, _, ran⟩
  rcases seq_eq_ok.mp ran with ⟨_, _, _, ran⟩
  rcases seq_eq_ok.mp ran with ⟨header, _, headerRead, scanned⟩
  exact scannedLayout_of_scan (consistent_of_readFrom ⟨_, _, headerRead⟩) scanned tail

end MidenVm.Mast
