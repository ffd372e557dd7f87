import MidenVm.Mast.Serialization.Finalized
import MidenVm.Mast.Serialization.View

namespace MidenVm.Mast

open Foundation Outcome Parser Serde List OrderedMap Source AdviceMap

/-!
# The wire view and the forest

Both readers scan the same layout, so nodes, digests and roots agree.  They
differ on one thing: the reader of the advice map lets a repeated key replace
its values, where the index of the wire view refuses it.  Bytes that are read
as a forest are accepted by the view exactly when no key is repeated, and the
two then agree.
-/

/-! ## Indexing what is read -/

variable {source after : ByteReader} {bytes : List UInt8} {offset count : Nat} {entries : List (Word × List Felt)}
  {hasher : Hasher}

/-- Insert entries whose keys are not yet present. -/
def insertDistinct {ν : Type} (map : OrderedMap Word ν) :
    List (Word × ν) -> Outcome DeserializationError (OrderedMap Word ν)
  | [] => ok map
  | entry :: rest => do
      ensure (map.get? entry.1 = none) duplicateAdviceKey
      insertDistinct (map.insert entry.1 entry.2) rest

theorem insertDistinct_eq_ok {ν : Type} {map result : OrderedMap Word ν}
    {entries : List (Word × ν)} :
    insertDistinct map entries = ok result ↔
      ((forall entry, entry ∈ entries -> map.get? entry.1 = none) ∧
        (entries.map Prod.fst).Nodup) ∧ result = map.insertAll entries := by
  induction entries generalizing map with
  | nil => simp [insertDistinct, insertAll, eq_comm]
  | cons head tail ih =>
    have others : (forall entry, entry ∈ tail -> (map.insert head.1 head.2).get? entry.1 = none) ↔
        (forall entry, entry ∈ tail -> map.get? entry.1 = none) ∧ head.1 ∉ tail.map Prod.fst := by
      simp only [get?_insert, mem_map, not_exists, not_and]
      constructor
      · intro fresh
        refine ⟨fun entry member => ?_, fun entry member same => ?_⟩
        · have absent := fresh entry member
          split at absent
          · cases absent
          · exact absent
        · have absent := fresh entry member
          rw [if_pos same] at absent
          cases absent
      · rintro ⟨fresh, distinct⟩ entry member
        rw [if_neg (distinct entry member)]
        exact fresh entry member
    rw [insertDistinct, bind_unit_eq_ok, ensure_eq_ok, ih, others, map_cons, nodup_cons,
      forall_mem_cons]
    constructor
    · rintro ⟨fresh, ⟨⟨freshTail, absent⟩, distinct⟩, same⟩
      exact ⟨⟨⟨fresh, freshTail⟩, absent, distinct⟩, same⟩
    · rintro ⟨⟨⟨fresh, freshTail⟩, absent, distinct⟩, same⟩
      exact ⟨fresh, ⟨⟨freshTail, absent⟩, distinct⟩, same⟩

/-- The entries of an advice map in the order they are read. -/
def readAdviceEntries : Reader (List (Word × List Felt)) := do
  let count ← readUsize
  AdviceMap.readEntry.many count

theorem adviceMap_readFrom_eq_ok {map : AdviceMap} :
    readFrom source = ok (map, after) ↔
      ∃ entries, readAdviceEntries source = ok (entries, after) ∧
        map = empty.insertAll entries := by
  constructor
  · intro read
    rcases seq_eq_ok.mp read with ⟨count, middle, counted, read⟩
    rcases seq_eq_ok.mp read with ⟨entries, _, all, done⟩
    cases done
    exact ⟨entries, seq_eq_ok.mpr ⟨count, middle, counted, all⟩, rfl⟩
  · rintro ⟨entries, read, rfl⟩
    rcases seq_eq_ok.mp read with ⟨count, middle, counted, all⟩
    exact seq_eq_ok.mpr ⟨count, middle, counted, seq_eq_ok.mpr ⟨entries, after, all, rfl⟩⟩

namespace WireAdviceMapView

/-- The source of the index stands in the bytes where the offset says. -/
structure Placed (bytes : List UInt8) (offset : Nat) (reader : ByteReader) : Prop where
  unlimited : reader.budget = none
  rest : bytes.drop (offset + reader.consumed.length) = reader.rest
  within : offset + reader.consumed.length ≤ bytes.length

theorem Placed.advance {reader : ByteReader} (placed : Placed bytes offset reader)
    (room : count ≤ reader.rest.length) : Placed bytes offset (reader.advance count) := by
  have size := congrArg List.length placed.rest
  rw [length_drop] at size
  have within := placed.within
  refine ⟨by rw [Source.advance, placed.unlimited]; rfl, ?_, ?_⟩
  · rw [length_consumed_advance room, ← add_assoc, ← drop_drop, placed.rest]
    rfl
  · rw [length_consumed_advance room]
    omega

/-- What one parser reads, an unlimited source at the same bytes reads too. -/
theorem again_of_local {α : Type} {reader : Reader α} (isLocal : Local reader) {other : ByteReader}
    {value : α} (read : reader source = ok (value, after)) (unlimited : other.budget = none)
    (same : other.rest = source.rest) :
    ∃ count, count ≤ source.rest.length ∧ after = source.advance count ∧
      reader other = ok (value, other.advance count) := by
  rcases isLocal.again read with ⟨count, within, moved, again⟩
  exact ⟨count, within, moved, again other unlimited (same ▸ take_prefix _ _)⟩

theorem readRange_eq_ok {len : Nat} {values : List Felt} (small : bytes.length < usizeLimit)
    (within : offset + len * 8 ≤ bytes.length)
    (read : Felt.readFrom.many len (Source.new ((bytes.drop offset).take (len * 8)) none) =
        ok (values, after)) :
    readRange bytes ⟨offset, len⟩ = ok values := by
  unfold readRange feltSerializedSize
  dsimp only
  rw [mulOrInvalid_of_lt _ (by omega), ok_bind, addOrInvalid_of_lt _ (by omega), ok_bind,
    ensure_of within, ok_bind, slice_of_le _ (Nat.le_add_right _ _) within, ok_bind, drop_take,
    Nat.add_sub_cancel_left]
  exact decodeSlice_eq_ok.mpr ⟨after, read⟩

/-- An entry that is read is indexed with the place of its values, unless its
key is known. -/
theorem indexEntry_of_readEntry {middle other : ByteReader} {entry : Word × List Felt}
    (read : readEntry source = ok (entry, middle)) (placed : Placed bytes offset other)
    (same : other.rest = source.rest) (small : bytes.length < usizeLimit) :
    ∃ range count, count ≤ source.rest.length ∧ middle = source.advance count ∧
      readRange bytes range = ok entry.2 ∧
      forall known, indexEntry offset known other =
        (ensure (known.get? entry.1 = none) duplicateAdviceKey >>= fun _ =>
          ok (known.insert entry.1 range, other.advance count)) := by
  rcases seq_eq_ok.mp read with ⟨key, afterKey, readKey, read⟩
  rcases seq_eq_ok.mp read with ⟨values, afterValues, readValues, done⟩
  cases done
  rcases seq_eq_ok.mp readValues with ⟨len, afterLen, readLen, counted⟩
  rcases seq_eq_ok.mp counted with ⟨_, afterAlloc, allocated, readFelts⟩
  rcases checkAlloc_eq_ok.mp allocated with ⟨_, rfl⟩
  rcases again_of_local Word.readFrom_local readKey placed.unlimited same with
    ⟨keySize, keyWithin, rfl, keyAgain⟩
  have placedKey := placed.advance (same ▸ keyWithin)
  have sameKey : (other.advance keySize).rest = (source.advance keySize).rest := by
    rw [rest_advance, rest_advance, same]
  rcases again_of_local readUsize_local readLen placedKey.unlimited sameKey with
    ⟨lenSize, lenWithin, rfl, lenAgain⟩
  have placedLen := placedKey.advance (sameKey ▸ lenWithin)
  have sameLen : ((other.advance keySize).advance lenSize).rest =
      ((source.advance keySize).advance lenSize).rest := congrArg (List.drop lenSize) sameKey
  rcases (Felt.readFrom_local.many len).again readFelts with
    ⟨valuesSize, valuesWithin, rfl, valuesAgain⟩
  -- the values are eight bytes each, so that many bytes are skipped
  have sizes := length_rest_of_many readFelts Felt.length_rest_of_readFrom
  have skipped : valuesSize = len * 8 := by
    rw [rest_advance, length_drop] at sizes
    omega
  subst skipped
  generalize reached : (other.advance keySize).advance lenSize = reader at *
  generalize left : (source.advance keySize).advance lenSize = origin at *
  have room : len * 8 ≤ reader.rest.length := by rw [sameLen]; exact valuesWithin
  have inBytes : offset + reader.consumed.length + len * 8 ≤ bytes.length := by
    have size := congrArg List.length placedLen.rest
    have within := placedLen.within
    rw [length_drop] at size
    omega
  refine ⟨⟨offset + reader.consumed.length, len⟩, keySize + lenSize + len * 8, ?_, ?_, ?_, ?_⟩
  · rw [← left, rest_advance, length_drop, rest_advance, length_drop]
      at valuesWithin
    rw [rest_advance, length_drop] at lenWithin
    omega
  · rw [← advance_advance, ← advance_advance, left]
  · apply readRange_eq_ok small inBytes
    rw [placedLen.rest, sameLen]
    exact valuesAgain (Source.new (origin.rest.take (len * 8)) none) rfl (prefix_refl _)
  · intro known
    have taken : readSlice (len * feltSerializedSize) reader =
        ok (reader.rest.take (len * 8), reader.advance (len * 8)) :=
      take_eq_ok.mpr ⟨fun limit present =>
        absurd (placedLen.unlimited.symm.trans present) (by simp), room, rfl⟩
    have moved : (other.advance (keySize + lenSize + len * 8)) = reader.advance (len * 8) := by
      rw [← advance_advance, ← advance_advance, reached]
    rw [moved]
    refine (bind_of_ok keyAgain).trans ((bind_of_ok lenAgain).trans ?_)
    refine (bind_of_ok (show Parser.position reader = ok (_, _) from rfl)).trans ?_
    rw [addOrInvalid_of_lt _ (by omega)]
    refine (bind_of_ok (lift_apply _ _)).trans ?_
    rw [mulOrInvalid_of_lt _ (show len * feltSerializedSize < usizeLimit by
      unfold feltSerializedSize; omega)]
    refine (bind_of_ok (lift_apply _ _)).trans ((bind_of_ok taken).trans ?_)
    rw [bind_apply, lift]
    cases ensure (known.get? key = none) duplicateAdviceKey <;> rfl

/-- The whole list of entries. -/
theorem indexEntries_of_many {other : ByteReader}
    (read : readEntry.many count source = ok (entries, after))
    (placed : Placed bytes offset other) (same : other.rest = source.rest)
    (small : bytes.length < usizeLimit) :
    ∃ (ranges : List (Word × AdviceValueRange)) (moved : Nat), moved ≤ source.rest.length ∧
      after = source.advance moved ∧
      List.Forall₂ (fun entry range => entry.1 = range.1 ∧ readRange bytes range.2 = ok entry.2)
        entries ranges ∧
      forall known, indexEntries offset count known other =
        (insertDistinct known ranges >>= fun found => ok (found, other.advance moved)) := by
  induction count generalizing source other entries with
  | zero =>
    cases read
    refine ⟨[], 0, Nat.zero_le _, by simp, List.Forall₂.nil, fun known => ?_⟩
    rw [advance_zero]
    rfl
  | succ count ih =>
    rcases seq_eq_ok.mp read with ⟨entry, middle, first, read⟩
    rcases seq_eq_ok.mp read with ⟨tail, _, others, done⟩
    cases done
    rcases indexEntry_of_readEntry first placed same small with
      ⟨range, size, within, rfl, decoded, indexed⟩
    have placedNext := placed.advance (same ▸ within)
    rcases ih others placedNext (by rw [rest_advance, rest_advance, same]) with
      ⟨ranges, moved, room, rfl, decodedTail, indexedTail⟩
    rw [rest_advance, length_drop] at room
    refine ⟨(entry.1, range) :: ranges, size + moved, by omega, advance_advance _ _ _,
      List.Forall₂.cons ⟨rfl, decoded⟩ decodedTail, fun known => ?_⟩
    rw [indexEntries, bind_apply, indexed known, insertDistinct]
    cases ensure (known.get? entry.1 = none) duplicateAdviceKey with
    | ok _ =>
      rw [ok_bind, ok_bind, ok_bind, ← advance_advance]
      exact indexedTail _
    | err error => rfl
    | panic => rfl

/-- The index of what is read, unless a key is repeated. -/
theorem new_of_readEntries (read : readAdviceEntries source = ok (entries, after))
    (rest : source.rest = bytes.drop offset) (within : offset ≤ bytes.length)
    (small : bytes.length < usizeLimit) :
    ∃ (ranges : List (Word × AdviceValueRange)) (moved : Nat), moved ≤ source.rest.length ∧
      after = source.advance moved ∧
      List.Forall₂ (fun entry range => entry.1 = range.1 ∧ readRange bytes range.2 = ok entry.2)
        entries ranges ∧
      WireAdviceMapView.new bytes offset = (insertDistinct empty ranges >>= fun found =>
        ok ⟨bytes, found, offset + moved⟩) := by
  have placed : Placed bytes offset (Source.new (bytes.drop offset) none) := ⟨rfl, rfl, within⟩
  have size := congrArg List.length rest
  rw [length_drop] at size
  rcases seq_eq_ok.mp read with ⟨count, middle, readCount, read⟩
  rcases again_of_local readUsize_local readCount placed.unlimited rest.symm with
    ⟨countSize, countWithin, rfl, countAgain⟩
  have here : (Source.new (bytes.drop offset) (none : Option Nat)).rest.length =
      source.rest.length := congrArg List.length rest.symm
  have placedNext := placed.advance (le_trans countWithin (le_of_eq here.symm))
  rcases indexEntries_of_many read placedNext (congrArg (List.drop countSize) rest.symm) small with
    ⟨ranges, moved, room, rfl, decoded, indexed⟩
  rw [rest_advance, length_drop] at room
  refine ⟨ranges, countSize + moved, by omega, advance_advance _ _ _, decoded, ?_⟩
  have all : indexAll offset (Source.new (bytes.drop offset) none) =
      (insertDistinct empty ranges >>= fun found =>
        ok (found, (Source.new (bytes.drop offset) none).advance (countSize + moved))) := by
    rw [← advance_advance]
    exact (bind_of_ok countAgain).trans (indexed empty)
  have consumed : ((Source.new (bytes.drop offset) none).advance
      (countSize + moved)).consumed.length = countSize + moved := by
    rw [length_consumed_advance (by omega)]
    exact zero_add _
  unfold WireAdviceMapView.new
  rw [ensure_of within, ok_bind, all]
  cases insertDistinct empty ranges with
  | ok found =>
    rw [ok_bind, ok_bind, ok_bind]
    dsimp only
    rw [consumed, addOrInvalid_of_lt _ (by omega), ok_bind]
  | err error => rfl
  | panic => rfl

/-- An index without repetitions finds the values that were read. -/
theorem get_of_ranges {ranges : List (Word × AdviceValueRange)}
    (decoded : List.Forall₂ (fun entry range => entry.1 = range.1 ∧ readRange bytes range.2 =
        ok entry.2) entries ranges)
    (endOffset : Nat) (key : Word) :
    (WireAdviceMapView.mk bytes (empty.insertAll ranges) endOffset).get key =
      ok ((empty.insertAll entries).get? key) := by
  -- a lookup in the index, followed by reading the range, is the lookup in the map
  have found := @get?_insertAll_related _ _ _ _ (fun values range => range.map (readRange bytes) = values.map ok)
    _ _ (decoded.imp (fun entry range found => ⟨found.1, congrArg some found.2⟩)) empty empty (fun _ => rfl) key
  rw [WireAdviceMapView.get]
  cases held : (empty.insertAll ranges).get? key with
  | none =>
    rw [held, Option.map_none, eq_comm, Option.map_eq_none_iff] at found
    rw [found]
  | some range =>
    rw [held, Option.map_some, eq_comm, Option.map_eq_some_iff] at found
    rcases found with ⟨values, present, read⟩
    dsimp only
    rw [present, ← read]
    rfl

end WireAdviceMapView

/-! ## The dense order of entries -/

namespace MastNodeEntry.Builds

variable {nodeCount : Nat} {blockData : List UInt8} {digest : Word} {entry : MastNodeEntry}
  {node : MastNode}

section Builds

variable (builds : entry.Builds nodeCount blockData digest node)
include builds

/-- The entry has the kind and the children of the node. -/
theorem entry_eq : ∃ opsOffset, entry = MastNodeEntry.new node opsOffset := by
  cases builds with
  | block decoded nonempty => exact ⟨_, rfl⟩
  | _ => exact ⟨0, rfl⟩

theorem orderClass_eq : entry.orderClass = node.orderClass := by
  cases builds <;> rfl

theorem children_eq : entry.children = node.children := by
  cases builds <;> rfl

end Builds

end MastNodeEntry.Builds

section DenseOrder

variable {resolved : ResolvedSerializedForest} {entries : List MastNodeEntry}
  {blockData : List UInt8} {forest : MastForest}

theorem nextSerializedDigest_eq_ok {previous next : Option Word} {index : Nat}
    {entry : MastNodeEntry} {node : MastNode} {digest : Word}
    (found : resolved.nodeDigestForEntry index entry = ok digest)
    (builds : entry.Builds resolved.layout.nodeCount blockData digest node)
    (accepted : nextExternalDigest previous index node = ok next) :
    resolved.nextSerializedDigest previous index entry = ok next := by
  unfold ResolvedSerializedForest.nextSerializedDigest
  cases builds with
  | external =>
    rw [if_pos (by rfl), found, ok_bind]
    unfold nextExternalDigest at accepted
    cases previous with
    | none =>
      cases accepted
      rw [ensure_of (fun _ absent => absurd absent (by simp)), ok_bind]
    | some previousDigest =>
      rcases bind_unit_eq_ok.mp accepted with ⟨increasing, same⟩
      cases same
      rw [ensure_of (fun _ present => Option.some.inj present ▸ ensure_eq_ok.mp increasing), ok_bind]
  | _ =>
    cases accepted
    exact if_neg Bool.false_ne_true

/-- The check of the entries passes where that of the nodes does. -/
theorem foldlM_denseOrderStep (scanned : ScannedLayout resolved.bytes resolved.layout entries)
    (materializes : Materializes resolved entries blockData forest) {start remaining : Nat}
    (covers : start + remaining = resolved.layout.nodeCount) {previousClass : MastNodeOrderClass}
    {previousDigest : Option Word}
    (checked : checkDenseNodeOrder previousClass previousDigest start (forest.nodes.drop start) = ok ()) :
    ∃ final, (List.range' start remaining).foldlM resolved.denseOrderStep
      (previousClass, previousDigest) = ok final := by
  induction remaining generalizing start previousClass previousDigest with
  | zero => exact ⟨_, rfl⟩
  | succ remaining ih =>
    have inNodes : start < forest.nodes.length := by
      rw [materializes.length_nodes, scanned.length_entries]
      omega
    have inEntries : start < entries.length := by rwa [← materializes.length_nodes]
    have atNode := getElem?_eq_getElem inNodes
    have atEntry := getElem?_eq_getElem inEntries
    rcases materializes.nodeAt start _ _ atEntry atNode with ⟨digest, found, builds⟩
    have entryAt : resolved.nodeEntryAt start = ok entries[start] := scanned.entryAt _ _ atEntry
    rw [drop_eq_getElem_cons inNodes] at checked
    rcases bind_unit_eq_ok.mp checked with ⟨classes, checked⟩
    rcases bind_eq_ok.mp checked with ⟨nextDigest, next, checked⟩
    rcases bind_unit_eq_ok.mp checked with ⟨children, checked⟩
    have noForward : entries[start].forwardReference start = none := by
      rw [MastNodeEntry.forwardReference, builds.children_eq, find?_eq_none]
      intro childId child ahead
      have before := checkChildren_eq_ok.mp children childId child
      have behind := of_decide_eq_true ahead
      omega
    have stepped : resolved.denseOrderStep (previousClass, previousDigest) start =
        ok (forest.nodes[start].orderClass, nextDigest) := by
      unfold ResolvedSerializedForest.denseOrderStep
      rw [entryAt, ok_bind]
      dsimp only
      rw [builds.orderClass_eq, ensure_of (ensure_eq_ok.mp classes), ok_bind,
        nextSerializedDigest_eq_ok found builds next, ok_bind, noForward]
    rw [range'_succ, foldlM_cons, stepped, ok_bind]
    exact ih (by omega) checked

theorem validateDenseNodeOrder_of_materializes
    (scanned : ScannedLayout resolved.bytes resolved.layout entries)
    (materializes : Materializes resolved entries blockData forest) :
    resolved.validateDenseNodeOrder = ok () := by
  have checked : checkDenseNodeOrder .external none 0 (forest.nodes.drop 0) = ok () :=
    validateDenseNodeOrder_eq_ok.mpr materializes.denseOrder
  rcases foldlM_denseOrderStep scanned materializes (zero_add _) checked with ⟨final, folded⟩
  unfold ResolvedSerializedForest.validateDenseNodeOrder
  rw [range_eq_range', folded, ok_bind]

end DenseOrder

/-! ## Agreement -/

/-- The keys and values of the advice map of a payload, as they are on the
wire. -/
def wireAdviceEntries (bytes : List UInt8) :
    Outcome DeserializationError (List (Word × List Felt)) := do
  let (_, reader) ← readHeaderAndScanLayout false (Source.new bytes none)
  let (entries, _) ← readAdviceEntries reader
  ok entries

/-- No key of the advice map is on the wire twice. -/
def DistinctAdviceKeys (bytes : List UInt8) : Prop :=
  ∃ entries, wireAdviceEntries bytes = ok entries ∧ (entries.map Prod.fst).Nodup

/-- The view answers as the forest would. -/
structure ViewAgrees (hasher : Hasher) (view : MastForestWireView)
    (forest : MastForest) : Prop where
  nodeCount : view.nodeCount = forest.nodes.length
  nodeEntryAt : forall index node, forest.nodes[index]? = some node -> ∃ opsOffset,
    view.nodeEntryAt index = ok (MastNodeEntry.new node opsOffset)
  nodeDigestAt : forall index node, forest.nodes[index]? = some node ->
    view.nodeDigestAt hasher index = ok node.digest
  procedureRootCount : view.procedureRootCount = forest.roots.length
  procedureRootAt : forall index rootId, forest.roots[index]? = some rootId ->
    view.procedureRootAt index = ok rootId
  advice : forall key, view.adviceMap.get key = ok (forest.adviceMap.get? key)

theorem readAdviceEntries_wellBehaved : WellBehaved readAdviceEntries :=
  readUsize_wellBehaved.bind (fun count => readEntry_wellBehaved.many count)

/-- What reading a forest went through. -/
theorem readFromBytes_parts {forest : MastForest} (small : bytes.length < vecLenLimit)
    (read : MastForest.readFromBytes hasher bytes = ok forest) :
    ∃ layout scannedTo entries moved,
      readHeaderAndScanLayout false (new bytes none) = ok (layout, scannedTo) ∧
      scannedTo.rest = bytes.drop layout.adviceMapOffset ∧
      readAdviceEntries scannedTo = ok (entries, scannedTo.advance moved) ∧
      layout.adviceMapOffset + moved = bytes.length ∧
      (UntrustedMastForest.mk bytes layout (empty.insertAll entries) none).intoMaterialized
        hasher = ok forest := by
  rcases readWhole_eq_ok.mp read with ⟨after, ran, ended⟩
  rcases seq_eq_ok.mp ran with ⟨untrusted, decodedTo, decoded, lifted⟩
  rcases lift_eq_ok.mp lifted with ⟨materialized, rfl⟩
  rcases tracked_eq_ok.mp decoded with ⟨inner, tracked, rfl⟩
  rw [decodeTracked_eq] at tracked
  rcases seq_eq_ok.mp tracked with ⟨layout, scannedTo, scanned, continued⟩
  rcases seq_eq_ok.mp continued with ⟨adviceMap, adviceTo, adviceRead, finished⟩
  rcases seq_eq_ok.mp finished with ⟨recordedBytes, _, kept, done⟩
  cases kept
  cases done
  have start := (scannedLayout_of_readHeader scanned []).1
  have unlimitedScan := (readHeaderAndScanLayout_wellBehaved false).unlimited scanned
  rcases adviceMap_readFrom_eq_ok.mp adviceRead with ⟨entries, entriesRead, rfl⟩
  have unlimitedEntries := readAdviceEntries_wellBehaved.unlimited entriesRead
  rcases (readHeaderAndScanLayout_wellBehaved false).advances scanned with ⟨front, frontWithin, rfl⟩
  rcases readAdviceEntries_wellBehaved.advances entriesRead with ⟨moved, movedWithin, rfl⟩
  have frontSize : layout.adviceMapOffset = front := by
    rw [← start, length_consumed_advance frontWithin]
    exact zero_add front
  have restSize : front + moved ≤ bytes.length := by
    rw [rest_advance, length_drop] at movedWithin
    have whole : (restart (new bytes (some (saturatingMul bytes.length
      trustedByteReadBudgetMultiplier)))).rest.length = bytes.length := rfl
    omega
  -- the budget is not used up before the bytes are, so nothing is left of them
  have all : front + moved = bytes.length := by
    rw [advance_advance] at ended
    have covered : bytes.length ≤ saturatingMul bytes.length trustedByteReadBudgetMultiplier := by
      unfold saturatingMul trustedByteReadBudgetMultiplier usizeLimit
      unfold vecLenLimit at small
      omega
    simp [hasMoreBytes, advance, restart, new] at ended
    omega
  have consumed : (((new bytes (some (saturatingMul bytes.length
      trustedByteReadBudgetMultiplier))).restart.advance front).advance moved).consumed =
        bytes := by
    rw [advance_advance, all]
    exact take_length
  rw [consumed] at materialized
  refine ⟨layout, _, entries, moved, unlimitedScan, ?_, unlimitedEntries, ?_, materialized⟩
  · rw [frontSize]
    rfl
  · rw [frontSize]
    exact all

/-- Bytes that are read as a forest: the constructor of the view comes down to
indexing the advice map. -/
theorem wireView_new_eq {forest : MastForest} (small : bytes.length < vecLenLimit)
    (read : MastForest.readFromBytes hasher bytes = ok forest) :
    ∃ layout entries ranges, wireAdviceEntries bytes = ok entries ∧
      List.Forall₂ (fun entry range => entry.1 = range.1 ∧
        WireAdviceMapView.readRange bytes range.2 = ok entry.2) entries ranges ∧
      MastForestWireView.new hasher bytes =
        (insertDistinct empty ranges >>= fun found =>
          ok ⟨bytes, layout, ⟨bytes, found, bytes.length⟩⟩) ∧
      forall found, found = empty.insertAll ranges ->
        ViewAgrees hasher ⟨bytes, layout, ⟨bytes, found, bytes.length⟩⟩ forest := by
  rcases readFromBytes_parts small read with
    ⟨layout, scannedTo, entries, moved, scan, rest, entriesRead, all, materialized⟩
  have fits : bytes.length < usizeLimit := lt_trans small (by decide)
  rcases WireAdviceMapView.new_of_readEntries entriesRead rest (by omega) fits with
    ⟨ranges, again, againWithin, sameMove, decoded, indexed⟩
  have sameEnd : layout.adviceMapOffset + again = bytes.length := by
    have left := congrArg (fun source => source.rest.length) sameMove
    have right := congrArg List.length rest
    simp only [rest_advance, length_drop] at left right
    omega
  rw [sameEnd] at indexed
  have scanned : ∃ nodeEntries, ScannedLayout bytes layout nodeEntries := by
    have found := (scannedLayout_of_readHeader scan scannedTo.rest).2
    rcases (readHeaderAndScanLayout_wellBehaved false).advances scan with ⟨front, _, rfl⟩
    rwa [show ((new bytes none).advance front).consumed ++
      ((new bytes none).advance front).rest = bytes from take_append_drop front bytes]
      at found
  rcases scanned with ⟨nodeEntries, scanned⟩
  rcases bind_eq_ok.mp materialized with ⟨resolved, resolves, materialized⟩
  have shape : resolved.bytes = bytes ∧ resolved.layout = layout := by
    rcases bind_eq_ok.mp resolves with ⟨digests, _, same⟩
    cases same
    exact ⟨rfl, rfl⟩
  have scannedAgain : ScannedLayout resolved.bytes resolved.layout nodeEntries := by
    rw [shape.1, shape.2]
    exact scanned
  rcases scannedAgain.materialize_eq_ok.mp materialized with ⟨advice, blockData, _, materializes⟩
  have ordered := validateDenseNodeOrder_of_materializes scannedAgain materializes
  have digests : ResolvedSerializedForest.new hasher bytes layout none = ok resolved := resolves
  refine ⟨layout, entries, ranges, ?_, decoded, ?_, ?_⟩
  · unfold wireAdviceEntries
    rw [scan, ok_bind]
    dsimp only
    rw [entriesRead, ok_bind]
  · unfold MastForestWireView.new
    rw [scan, ok_bind]
    dsimp only
    rw [indexed]
    cases insertDistinct empty ranges with
    | ok found =>
      rw [ok_bind, ok_bind, ok_bind]
      dsimp only
      rw [checkNoTrailingPayload, ensure_of (le_refl _), ok_bind,
        ensure_of (drop_length), ok_bind, digests, ok_bind, ordered, ok_bind]
    | err error => rfl
    | panic => rfl
  · rintro found rfl
    have entryAt : forall (index : Nat) node, forest.nodes[index]? = some node -> ∃ entry,
        nodeEntries[index]? = some entry := by
      intro index node atNode
      have inside := (List.getElem?_eq_some_iff.mp atNode).1
      rw [materializes.length_nodes] at inside
      exact ⟨_, getElem?_eq_getElem inside⟩
    exact {
      nodeCount := by
        rw [materializes.length_nodes, scanned.length_entries]
        rfl
      nodeEntryAt := fun index node atNode => by
        rcases entryAt index node atNode with ⟨entry, atEntry⟩
        rcases materializes.nodeAt index entry node atEntry atNode with ⟨digest, _, builds⟩
        rcases builds.entry_eq with ⟨opsOffset, same⟩
        exact ⟨opsOffset, same ▸ scanned.entryAt index entry atEntry⟩
      nodeDigestAt := fun index node atNode => by
        rcases entryAt index node atNode with ⟨entry, atEntry⟩
        rcases materializes.nodeAt index entry node atEntry atNode with ⟨digest, found, builds⟩
        have atIndex : resolved.nodeEntryAt index = ok entry :=
          scannedAgain.entryAt index entry atEntry
        unfold MastForestWireView.nodeDigestAt ResolvedSerializedForest.nodeDigestAt
        rw [digests, ok_bind, atIndex, ok_bind, found, builds.digest_eq]
      procedureRootCount := by
        rw [materializes.length_roots, shape.2]
        rfl
      procedureRootAt := fun index rootId atRoot => by
        have found := materializes.rootAt index rootId atRoot
        rwa [ResolvedSerializedForest.procedureRootAt, shape.1, shape.2] at found
      advice := fun key => by
        rw [advice]
        exact WireAdviceMapView.get_of_ranges decoded bytes.length key }

/-- Bytes that are read as a forest are accepted by the wire view exactly when
no key of the advice map is repeated, and then the two agree. -/
theorem wire_view_agrees_iff (hasher : Hasher) {bytes : List UInt8} {forest : MastForest}
    (small : bytes.length < vecLenLimit)
    (read : MastForest.readFromBytes hasher bytes = ok forest) :
    (∃ view, MastForestWireView.new hasher bytes = ok view ∧ ViewAgrees hasher view forest) ↔
      DistinctAdviceKeys bytes := by
  rcases wireView_new_eq small read with ⟨layout, entries, ranges, onWire, decoded, built, agrees⟩
  have sameKeys : ranges.map Prod.fst = entries.map Prod.fst := by
    clear built agrees onWire
    induction decoded with
    | nil => rfl
    | cons head tail ih => rw [map_cons, map_cons, ih, head.1]
  have fresh : forall entry, entry ∈ ranges ->
      (empty : OrderedMap Word AdviceValueRange).get? entry.1 = none :=
    fun entry _ => get?_empty entry.1
  constructor
  · rintro ⟨view, accepted, _⟩
    rw [built] at accepted
    rcases bind_eq_ok.mp accepted with ⟨found, distinct, _⟩
    exact ⟨entries, onWire, sameKeys ▸ (insertDistinct_eq_ok.mp distinct).1.2⟩
  · rintro ⟨others, sameWire, distinct⟩
    cases onWire.symm.trans sameWire
    have indexed := insertDistinct_eq_ok.mpr ⟨⟨fresh, sameKeys.symm ▸ distinct⟩, rfl⟩
    exact ⟨_, by rw [built, indexed, ok_bind], agrees _ rfl⟩

/-- The small forest with these entries in its advice map. -/
def advicePayload (entries : List (Word × List Felt)) : List UInt8 :=
  structureBytes joinForest false ++
    (writeUsize entries.length ++ entries.flatMap AdviceMap.writeEntry)

/-- The small forest with one key in its advice map, written twice. -/
def repeatedKeyPayload : List UInt8 := advicePayload [(Word.zero, []), (Word.zero, [])]

theorem wire_view_refuses_repeated_key :
    MastForest.readFromBytes sumHasher repeatedKeyPayload =
        ok { joinForest with adviceMap := OrderedMap.empty.insert Word.zero [] } ∧
      MastForestWireView.new sumHasher repeatedKeyPayload = err duplicateAdviceKey := by
  constructor <;> decide +kernel

/-- With two keys the view is accepted, and it finds the values of the second. -/
theorem wire_view_agrees_two_keys :
    let payload := advicePayload [(Word.zero, []), (⟨0, 0, 0, 3⟩, [7, 11])]
    let forest := { joinForest with
      adviceMap := (OrderedMap.empty.insert Word.zero []).insert ⟨0, 0, 0, 3⟩ [7, 11] }
    MastForest.readFromBytes sumHasher payload = ok forest ∧
      ∃ view, MastForestWireView.new sumHasher payload = ok view ∧
        ViewAgrees sumHasher view forest := by
  intro payload forest
  have read : MastForest.readFromBytes sumHasher payload = ok forest := by decide +kernel
  have entries : wireAdviceEntries payload =
      ok [(Word.zero, []), (⟨0, 0, 0, 3⟩, [7, 11])] := by decide +kernel
  exact ⟨read, (wire_view_agrees_iff sumHasher (by decide +kernel) read).mpr
    ⟨_, entries, by decide⟩⟩

end MidenVm.Mast
