import MidenVm.Mast.ForestSpec
import MidenVm.Mast.Serialization.BlockSpec
import MidenVm.Mast.Serialization.LayoutSpec
import MidenVm.Mast.Serialization.Resolved

namespace MidenVm.Mast

open Foundation Outcome Parser Serde List ForestDigests

/-!
# Digests of a scanned layout

The slot table counts the nodes of each kind; the rebuilt table holds, for
every node, the digest of one hashing step over the digests before it.  A
forest materialized without node hashes therefore carries the digests that a
recomputation gives, and nothing on the way aborts.
-/

/-! ## Slots -/

variable {entries : List MastNodeEntry} {index nodeCount : Nat} {entry : MastNodeEntry}
  {digests table : List Word} {budget : Option Nat} {node : MastNode} {forest : MastForest}

/-- The number of external entries in front of an index. -/
def externalsBefore (entries : List MastNodeEntry) (index : Nat) : Nat :=
  (entries.take index).countP MastNodeEntry.isExternal

theorem externalsBefore_le (entries : List MastNodeEntry) (index : Nat) :
    externalsBefore entries index ≤ index :=
  le_trans countP_le_length (length_take_le _ _)

theorem externalsBefore_succ (found : entries[index]? = some entry) :
    externalsBefore entries (index + 1) =
      externalsBefore entries index + (if entry.isExternal then 1 else 0) := by
  rw [externalsBefore, take_add_one, found, countP_append]
  simp [externalsBefore, countP_singleton]

/-- The slot of an entry in its digest section. -/
def digestSlot (entries : List MastNodeEntry) (index : Nat) (entry : MastNodeEntry) : Nat :=
  if entry.isExternal then externalsBefore entries index else index - externalsBefore entries index

/-- A slot for every entry. -/
def SlotTable (entries : List MastNodeEntry) (slots : List Nat) : Prop :=
  slots.length = entries.length ∧ forall index entry, entries[index]? = some entry ->
    slots[index]? = some (digestSlot entries index entry)

namespace ScannedLayout

variable {bytes : List UInt8} {layout : ForestLayout}

section Scanned

variable (scanned : ScannedLayout bytes layout entries)
include scanned

/-- The indices a loop over the nodes goes through all have an entry. -/
theorem exists_entry {item : Nat} (found : (List.range layout.nodeCount)[index]? = some item) :
    item = index ∧ ∃ entry, entries[index]? = some entry := by
  rcases getElem?_range_eq_some.mp found with ⟨inRange, rfl⟩
  rw [← scanned.length_entries] at inRange
  exact ⟨rfl, _, getElem?_eq_getElem inRange⟩

theorem lt_nodeCount (found : entries[index]? = some entry) :
    index < layout.nodeCount :=
  scanned.length_entries ▸ (List.getElem?_eq_some_iff.mp found).1

theorem nodeCount_lt : layout.nodeCount < 2 ^ 30 :=
  lt_of_le_of_lt scanned.bounded (by decide)

end Scanned

theorem nextSlot_of_lt {slot : Nat} (message : String) (small : slot + 1 < 2 ^ 32) :
    nextSlot slot message = ok (slot + 1) := by
  rw [nextSlot, ensure_of small, ok_bind]

/-- The slot table of a scanned layout exists; only its budget can refuse it. -/
theorem buildDigestSlotByNode_eq (scanned : ScannedLayout bytes layout entries) :
    ∃ slots, SlotTable entries slots ∧ forall budget,
      buildDigestSlotByNode bytes layout budget =
        (reserveNodeCapacity 4 layout.nodeCount "digest slot table" budget >>= fun remaining =>
          ok (slots, remaining)) := by
  have bound := scanned.nodeCount_lt
  -- before each index, the slots of the entries so far and the two counters
  rcases @foldlM_returns _ _ _ (digestSlotStep bytes layout) (List.range layout.nodeCount)
    (fun count (state : SlotState) => state = ⟨(entries.mapIdx (digestSlot entries)).take count,
      externalsBefore entries count, count - externalsBefore entries count⟩)
    (by
      rintro count item state found rfl
      rcases scanned.exists_entry found with ⟨rfl, entry, atEntry⟩
      have inRange := scanned.lt_nodeCount atEntry
      have before := externalsBefore_le entries item
      have extended : (entries.mapIdx (digestSlot entries)).take (item + 1) =
          (entries.mapIdx (digestSlot entries)).take item ++ [digestSlot entries item entry] := by
        rw [take_add_one, getElem?_mapIdx, atEntry]
        rfl
      unfold digestSlotStep
      dsimp only
      rw [scanned.entryAt item entry atEntry, ok_bind, externalsBefore_succ atEntry,
        extended, digestSlot]
      cases entry.isExternal with
      | true =>
        rw [if_pos rfl, nextSlot_of_lt _ (by omega), ok_bind]
        refine ⟨_, rfl, ?_⟩
        simp
      | false =>
        rw [if_neg Bool.false_ne_true, nextSlot_of_lt _ (by omega), ok_bind]
        refine ⟨_, rfl, ?_⟩
        simp
        omega)
    ⟨[], 0, 0⟩ rfl with ⟨state, folded, rfl⟩
  rw [length_range, ← scanned.length_entries, take_of_length_le (length_mapIdx).le] at folded
  have all : externalsBefore entries entries.length = layout.externalNodeCount := by
    rw [externalsBefore, take_length, scanned.externals]
  have size := scanned.length_entries
  have counts := scanned.counts
  refine ⟨_, ⟨length_mapIdx, fun index entry found => by rw [getElem?_mapIdx, found]; rfl⟩,
    fun budget => ?_⟩
  unfold buildDigestSlotByNode
  congr 1
  funext remaining
  rw [← size, folded, ok_bind, require_of (by dsimp only; omega), ok_bind, require_of all, ok_bind]

end ScannedLayout

/-! ## The rebuilt table -/

theorem checkedChildIndex_eq_ok {parentIndex childId : Nat} :
    checkedChildIndex parentIndex nodeCount childId = ok () ↔
      childId < nodeCount ∧ childId < parentIndex := by
  rw [checkedChildIndex, bind_unit_eq_ok, ensure_eq_ok, ensure_eq_ok]

variable (hasher : Hasher) (bytes : List UInt8)

theorem recomputeDigest_ne_panic (blockData : List UInt8) (nodeCount : Nat)
    (digests : List Word) (entry : MastNodeEntry) :
    recomputeDigest hasher blockData nodeCount digests digests.length entry ≠ panic := by
  have safe : forall childId, checkedChildIndex digests.length nodeCount childId ≠ panic :=
    fun _ => bind_ne_panic (ensure_ne_panic _ _) (fun _ _ => ensure_ne_panic _ _)
  have inside : forall childId, checkedChildIndex digests.length nodeCount childId = ok () ->
      childId < digests.length := fun _ checked => (checkedChildIndex_eq_ok.mp checked).2
  cases entry with
  | block opsOffset =>
    exact bind_ok_ne_panic (decodeOperations_ne_panic _ _) _
  | join left right | split onTrue onFalse => exact hashChildren_ne_panic safe inside _ _ _
  | loop body | call callee | sysCall callee => exact hashChild_ne_panic safe inside _ _
  | _ => simp [recomputeDigest]

theorem readDigestEntry_ne_panic (sectionOffset index : Nat) :
    readDigestEntry bytes sectionOffset index ≠ panic := by
  apply bind_ne_panic (readFixedSectionEntry_ne_panic _ _ _ _ _)
  intro raw _
  exact decodeSlice_ne_panic Word.readFrom_wellBehaved raw

theorem basicBlockData_ne_panic (offset len : Nat) :
    basicBlockData bytes offset len ≠ panic := by
  apply bind_ne_panic (okOr_ne_panic _ _)
  intro stop added
  rcases addOrInvalid_eq_ok.mp added with ⟨_, rfl⟩
  apply ensure_bind_ne_panic
  intro within
  rw [slice_of_le _ (Nat.le_add_right _ _) within]
  simp

theorem reserveNodeCapacity_ne_panic (elementSize nodeCount : Nat) (label : String)
    (budget : Option Nat) : reserveNodeCapacity elementSize nodeCount label budget ≠ panic := by
  cases budget with
  | none => simp [reserveNodeCapacity]
  | some remaining =>
    refine bind_ok_ne_panic (bind_ne_panic (okOr_ne_panic _ _) (fun _ _ => ?_)) _
    exact bind_ok_ne_panic (ensure_ne_panic _ _) _

/-- Where the digest of an entry comes from, given the digests before it. -/
def digestSource (layout : ForestLayout)
    (blockData : List UInt8) (entries : List MastNodeEntry) (digests : List Word) (index : Nat)
    (entry : MastNodeEntry) : Outcome DeserializationError Word :=
  if entry.isExternal then readDigestEntry bytes layout.externalDigestOffset (externalsBefore entries index)
  else recomputeDigest hasher blockData layout.nodeCount digests index entry

/-- A digest for every entry, each computed from those before it. -/
def RebuiltTable (layout : ForestLayout)
    (blockData : List UInt8) (entries : List MastNodeEntry) (table : List Word) : Prop :=
  table.length = entries.length ∧ forall index entry digest, entries[index]? = some entry ->
    table[index]? = some digest ->
      digestSource hasher bytes layout blockData entries (table.take index) index entry = ok digest

/-- The digests of a resolved forest: slots, and a table exactly when the
layout has no node hashes. -/
structure ResolvedDigests (hasher : Hasher) (bytes : List UInt8) (layout : ForestLayout)
    (entries : List MastNodeEntry) (digests : ForestDigests) : Prop where
  slots : SlotTable entries digests.slotByNode
  present : layout.isHashless = false -> digests.hashTable = none
  absent : layout.isHashless = true -> ∃ blockData table, digests.hashTable = some table ∧
    basicBlockData bytes layout.basicBlockOffset layout.basicBlockLen = ok blockData ∧
      RebuiltTable hasher bytes layout blockData entries table

namespace ScannedLayout

variable {hasher : Hasher} {bytes : List UInt8} {layout : ForestLayout} {blockData : List UInt8}

section Scanned

variable (scanned : ScannedLayout bytes layout entries)
include scanned

/-- One step of the table: the digest of the next entry, and the number of
external entries so far. -/
theorem recomputeStep_eq_ok (found : entries[index]? = some entry) {next : List Word × Nat} :
    recomputeStep hasher bytes layout blockData (digests, externalsBefore entries index) index =
        ok next ↔
      ∃ digest, digestSource hasher bytes layout blockData entries digests index entry = ok digest ∧
        next = (digests ++ [digest], externalsBefore entries (index + 1)) := by
  have before := externalsBefore_le entries index
  have inRange := scanned.lt_nodeCount found
  have bound := scanned.nodeCount_lt
  have small : externalsBefore entries index + 1 < usizeLimit :=
    lt_of_lt_of_le (show _ < 2 ^ 31 by omega) (by decide)
  unfold recomputeStep digestSource
  rw [scanned.entryAt index entry found, ok_bind, externalsBefore_succ found]
  cases entry.isExternal with
  | true =>
    rw [if_pos rfl, if_pos rfl, if_pos rfl, bind_eq_ok]
    simp only [addOrInvalid_of_lt _ small, ok_bind, ok.injEq, eq_comm]
  | false =>
    rw [if_neg Bool.false_ne_true, if_neg Bool.false_ne_true, if_neg Bool.false_ne_true, bind_eq_ok]
    simp only [ok.injEq, add_zero, eq_comm]

theorem foldlM_recomputeStep_eq_ok {externalSlot : Nat}
    (folded : (List.range layout.nodeCount).foldlM (recomputeStep hasher bytes layout blockData) ([], 0) = ok (table, externalSlot)) :
    RebuiltTable hasher bytes layout blockData entries table := by
  have invariant := @foldlM_invariant _ _ _ _ _
    (fun count (state : List Word × Nat) => state.1.length = count ∧
      state.2 = externalsBefore entries count ∧
      forall index entry digest, entries[index]? = some entry -> state.1[index]? = some digest ->
        digestSource hasher bytes layout blockData entries (state.1.take index) index entry = ok digest)
    (by
      rintro count item ⟨digests, externalSlot⟩ next found ⟨size, slot, each⟩ stepped
      rcases scanned.exists_entry found with ⟨rfl, entry, atEntry⟩
      dsimp only at size slot
      subst slot
      rcases (scanned.recomputeStep_eq_ok atEntry).mp stepped with ⟨digest, computed, rfl⟩
      refine ⟨by simp [size], rfl, fun index other known atOther atKnown => ?_⟩
      dsimp only at atKnown ⊢
      rcases lt_or_ge index item with earlier | later
      · rw [getElem?_append_left (by omega)] at atKnown
        rw [take_append_of_le_length (by omega)]
        exact each index other known atOther atKnown
      · rw [getElem?_append_right (by omega)] at atKnown
        have last : index = item := by
          have inside := (List.getElem?_eq_some_iff.mp atKnown).1
          rw [length_singleton] at inside
          omega
        subst last
        rw [size, Nat.sub_self] at atKnown
        rw [atEntry] at atOther
        cases atKnown
        cases atOther
        rw [← size, take_left, size]
        exact computed)
    _ _ ⟨rfl, rfl, fun index entry digest _ none => absurd none (by simp)⟩ folded
  rw [length_range, ← scanned.length_entries] at invariant
  exact ⟨invariant.1, invariant.2.2⟩

theorem recomputeHashTable_sound (ran : recomputeHashTable hasher bytes layout budget = ok table) :
    ∃ blockData, basicBlockData bytes layout.basicBlockOffset layout.basicBlockLen = ok blockData ∧
      RebuiltTable hasher bytes layout blockData entries table := by
  rcases bind_eq_ok.mp ran with ⟨blockData, found, ran⟩
  rcases bind_eq_ok.mp ran with ⟨_, _, ran⟩
  rcases bind_eq_ok.mp ran with ⟨⟨digests, externalSlot⟩, folded, done⟩
  cases done
  exact ⟨blockData, found, scanned.foldlM_recomputeStep_eq_ok folded⟩

/-- A table with these digests is what is computed. -/
theorem recomputeHashTable_complete
    (rebuilt : RebuiltTable hasher bytes layout blockData entries table)
    (found : basicBlockData bytes layout.basicBlockOffset layout.basicBlockLen = ok blockData)
    {remaining : Option Nat}
    (reserved : reserveNodeCapacity Word.serializedSize layout.nodeCount "hash table" budget = ok remaining) :
    recomputeHashTable hasher bytes layout budget = ok table := by
  rcases @foldlM_returns _ _ _ (recomputeStep hasher bytes layout blockData)
    (List.range layout.nodeCount)
    (fun count (state : List Word × Nat) =>
      state = (table.take count, externalsBefore entries count))
    (by
      rintro count item state atItem rfl
      rcases scanned.exists_entry atItem with ⟨rfl, entry, atEntry⟩
      have inTable := (List.getElem?_eq_some_iff.mp atEntry).1
      rw [← rebuilt.1] at inTable
      have digest := rebuilt.2 item entry _ atEntry (getElem?_eq_getElem inTable)
      refine ⟨_, (scanned.recomputeStep_eq_ok atEntry).mpr ⟨_, digest, rfl⟩, ?_⟩
      rw [take_add_one, getElem?_eq_getElem inTable]
      rfl)
    ([], 0) rfl with ⟨state, folded, same⟩
  subst same
  rw [recomputeHashTable, found, ok_bind, reserved, ok_bind, folded, ok_bind]
  dsimp only
  rw [length_range, ← scanned.length_entries, ← rebuilt.1, take_length]

theorem recomputeHashTable_ne_panic (budget : Option Nat) :
    recomputeHashTable hasher bytes layout budget ≠ panic := by
  apply bind_ne_panic (basicBlockData_ne_panic _ _ _)
  intro blockData _
  apply bind_ne_panic (reserveNodeCapacity_ne_panic _ _ _ _)
  intro _ _
  refine bind_ok_ne_panic ?_ _
  apply foldlM_ne_panic (fun count (state : List Word × Nat) => state.1.length = count ∧
    state.2 = externalsBefore entries count)
  · rintro count item ⟨digests, externalSlot⟩ next found ⟨size, slot⟩ stepped
    rcases scanned.exists_entry found with ⟨rfl, entry, atEntry⟩
    dsimp only at size slot
    subst slot
    rcases (scanned.recomputeStep_eq_ok atEntry).mp stepped with ⟨digest, _, rfl⟩
    exact ⟨by simp [size], rfl⟩
  · rintro count item ⟨digests, externalSlot⟩ found ⟨size, _⟩
    rcases scanned.exists_entry found with ⟨rfl, entry, atEntry⟩
    dsimp only at size
    subst size
    unfold recomputeStep
    rw [scanned.entryAt _ entry atEntry, ok_bind]
    split
    · apply bind_ne_panic (readDigestEntry_ne_panic _ _ _)
      intro _ _
      exact bind_ok_ne_panic (okOr_ne_panic _ _) _
    · exact bind_ok_ne_panic (recomputeDigest_ne_panic _ _ _ _ _) _
  · exact ⟨rfl, rfl⟩

theorem forestDigests_sound {digests : ForestDigests}
    (ran : new hasher bytes layout budget = ok digests) :
    ResolvedDigests hasher bytes layout entries digests := by
  rcases scanned.buildDigestSlotByNode_eq with ⟨slots, table, built⟩
  rw [new, built, bind_eq_ok] at ran
  rcases ran with ⟨⟨slotByNode, remaining⟩, reserved, ran⟩
  rcases bind_eq_ok.mp reserved with ⟨_, _, same⟩
  cases same
  rcases bind_eq_ok.mp ran with ⟨hashTable, rebuilt, done⟩
  cases done
  unfold rebuiltTable at rebuilt
  refine ⟨table, fun hashed => ?_, fun hashless => ?_⟩
  · rw [hashed, if_neg Bool.false_ne_true] at rebuilt
    exact (ok.inj rebuilt).symm
  · rw [hashless, if_pos rfl] at rebuilt
    rcases bind_eq_ok.mp (show (recomputeHashTable hasher bytes layout remaining >>= fun table =>
      ok (some table)) = _ from rebuilt) with ⟨table, recomputed, same⟩
    cases same
    rcases scanned.recomputeHashTable_sound recomputed with ⟨blockData, found, valid⟩
    exact ⟨blockData, table, rfl, found, valid⟩

theorem forestDigests_ne_panic (budget : Option Nat) : new hasher bytes layout budget ≠ panic := by
  rcases scanned.buildDigestSlotByNode_eq with ⟨slots, _, built⟩
  rw [new, built]
  apply bind_ne_panic
  · exact bind_ok_ne_panic (reserveNodeCapacity_ne_panic _ _ _ _) _
  · rintro ⟨slotByNode, remaining⟩ _
    refine bind_ok_ne_panic ?_ _
    unfold rebuiltTable
    split
    · exact bind_ok_ne_panic (scanned.recomputeHashTable_ne_panic _) _
    · simp

end Scanned

end ScannedLayout

/-! ## Materialized nodes -/

theorem nodeIdWithNodeCount_eq_ok {id result : Nat} :
    nodeIdWithNodeCount id nodeCount = ok result ↔ id < nodeCount ∧ result = id := by
  rw [nodeIdWithNodeCount, bind_unit_eq_ok, ensure_eq_ok, ok.injEq, eq_comm (a := result)]

/-- What an entry becomes with a digest: the node of its kind, on children
that exist. -/
inductive MastNodeEntry.Builds (nodeCount : Nat) (blockData : List UInt8) (digest : Word) :
    MastNodeEntry -> MastNode -> Prop where
  | block {opsOffset : Nat} {opBatches : List OpBatch}
      (decoded : decodeOperations blockData opsOffset = ok opBatches) (nonempty : opBatches ≠ []) :
      Builds nodeCount blockData digest (.block opsOffset) (.block opBatches digest)
  | join {left right : Nat} (leftInside : left < nodeCount) (rightInside : right < nodeCount) :
      Builds nodeCount blockData digest (.join left right) (.join left right digest)
  | split {onTrue onFalse : Nat} (trueInside : onTrue < nodeCount)
      (falseInside : onFalse < nodeCount) :
      Builds nodeCount blockData digest (.split onTrue onFalse) (.split onTrue onFalse digest)
  | loop {body : Nat} (inside : body < nodeCount) :
      Builds nodeCount blockData digest (.loop body) (.loop body digest)
  | call {callee : Nat} (inside : callee < nodeCount) :
      Builds nodeCount blockData digest (.call callee) (.call callee false digest)
  | sysCall {callee : Nat} (inside : callee < nodeCount) :
      Builds nodeCount blockData digest (.sysCall callee) (.call callee true digest)
  | dyn : Builds nodeCount blockData digest .dyn (.dyn false digest)
  | dyncall : Builds nodeCount blockData digest .dyncall (.dyn true digest)
  | external : Builds nodeCount blockData digest .external (.external digest)

theorem buildLinked_eq_ok {built : MastNode} :
    buildLinked built = ok node ↔ node = built ∧ forall digest, built ≠ .block [] digest := by
  unfold buildLinked
  split
  · simp
  · rename_i other
    constructor
    · intro same
      exact ⟨(ok.inj same).symm, fun digest empty => other digest empty⟩
    · rintro ⟨rfl, _⟩
      rfl

theorem MastNodeEntry.builds_iff {blockData : List UInt8} {digest : Word} :
    (entry.tryIntoMastNodeBuilder nodeCount blockData digest >>= buildLinked) = ok node ↔
      entry.Builds nodeCount blockData digest node := by
  rw [bind_eq_ok]
  simp only [buildLinked_eq_ok]
  constructor
  · rintro ⟨built, ran, rfl, nonempty⟩
    cases entry with
    | block opsOffset =>
      rcases bind_eq_ok.mp ran with ⟨opBatches, decoded, same⟩
      cases same
      exact .block decoded (fun empty => nonempty digest (by rw [empty]))
    | join left right | split left right =>
      rcases bind_eq_ok.mp ran with ⟨_, leftFound, ran⟩
      rcases bind_eq_ok.mp ran with ⟨_, rightFound, same⟩
      cases same
      rcases nodeIdWithNodeCount_eq_ok.mp leftFound with ⟨leftInside, rfl⟩
      rcases nodeIdWithNodeCount_eq_ok.mp rightFound with ⟨rightInside, rfl⟩
      constructor
      · exact leftInside
      · exact rightInside
    | loop child | call child | sysCall child =>
      rcases bind_eq_ok.mp ran with ⟨_, found, same⟩
      cases same
      rcases nodeIdWithNodeCount_eq_ok.mp found with ⟨inside, rfl⟩
      constructor
      exact inside
    | dyn | dyncall | external =>
      cases ran
      constructor
  · intro builds
    have child : forall {id : Nat}, id < nodeCount -> nodeIdWithNodeCount id nodeCount = ok id :=
      fun inside => nodeIdWithNodeCount_eq_ok.mpr ⟨inside, rfl⟩
    refine ⟨node, ?_, rfl, ?_⟩
    · cases builds with
      | block decoded nonempty => rw [tryIntoMastNodeBuilder, decoded, ok_bind]
      | join leftInside rightInside | split leftInside rightInside =>
        rw [tryIntoMastNodeBuilder, child leftInside, ok_bind, child rightInside, ok_bind]
      | loop inside | call inside | sysCall inside =>
        rw [tryIntoMastNodeBuilder, child inside, ok_bind]
      | dyn | dyncall | external => rfl
    · intro other empty
      cases builds with
      | block decoded nonempty =>
        cases empty
        exact nonempty rfl
      | _ => cases empty

variable {hasher : Hasher}

namespace MastNodeEntry.Builds

variable {blockData : List UInt8} {digest : Word}

section Builds

variable (builds : entry.Builds nodeCount blockData digest node)
include builds

theorem digest_eq : node.digest = digest := by
  cases builds <;> rfl

theorem isExternal_eq : node.isExternal = entry.isExternal := by
  cases builds <;> rfl

/-- The two computations of digests agree on an entry and on its node. -/
theorem recomputeDigest_iff {computed : Word} (internal : entry.isExternal = false) :
    recomputeDigest hasher blockData nodeCount digests index entry = ok computed ↔
      computeNodeHash hasher digests index node = ok computed := by
  have check : forall {childId : Nat}, childId < nodeCount ->
      (checkedChildIndex index nodeCount childId = ok () ↔ checkNoForwardRef index childId = ok ()) := by
    intro childId inside
    rw [checkedChildIndex_eq_ok, checkNoForwardRef, ensure_eq_ok]
    exact and_iff_right inside
  have two : forall {combine : Word -> Word -> Word} {left right : Nat}, left < nodeCount ->
      right < nodeCount ->
      (hashChildren (checkedChildIndex index nodeCount) digests combine left right = ok computed ↔
        hashChildren (checkNoForwardRef index) digests combine left right = ok computed) := by
    intro combine left right leftInside rightInside
    rw [hashChildren_eq_ok, hashChildren_eq_ok, check leftInside, check rightInside]
  have one : forall {combine : Word -> Word} {child : Nat}, child < nodeCount ->
      (hashChild (checkedChildIndex index nodeCount) digests combine child = ok computed ↔
        hashChild (checkNoForwardRef index) digests combine child = ok computed) := by
    intro combine child inside
    rw [hashChild_eq_ok, hashChild_eq_ok, check inside]
  have plain : forall {value : Word}, (ok value : Outcome DeserializationError Word) = ok computed ↔
      (ok value : Outcome MastForestError Word) = ok computed := by
    intro value
    rw [ok.injEq, ok.injEq]
  cases builds with
  | block decoded nonempty =>
    rw [recomputeDigest, decoded, ok_bind]
    exact plain
  | join leftInside rightInside => exact two leftInside rightInside
  | split trueInside falseInside => exact two trueInside falseInside
  | loop inside | call inside | sysCall inside => exact one inside
  | dyn => exact plain
  | dyncall => exact plain
  | external => cases internal

end Builds

end MastNodeEntry.Builds

/-- The forest a resolved payload stands for. -/
structure Materializes (resolved : ResolvedSerializedForest) (entries : List MastNodeEntry)
    (blockData : List UInt8) (forest : MastForest) : Prop where
  length_nodes : forest.nodes.length = entries.length
  nodeAt : forall index entry node, entries[index]? = some entry ->
    forest.nodes[index]? = some node -> ∃ digest,
      resolved.nodeDigestForEntry index entry = ok digest ∧
        entry.Builds resolved.layout.nodeCount blockData digest node
  length_roots : forest.roots.length = resolved.layout.rootsCount
  rootAt : forall index rootId, forest.roots[index]? = some rootId ->
    resolved.procedureRootAt index = ok rootId
  rootsInside : forall rootId, rootId ∈ forest.roots -> rootId < forest.nodes.length
  denseOrder : DenseOrder forest.nodes

namespace ScannedLayout

variable {resolved : ResolvedSerializedForest}

theorem materializeNode_eq_ok (scanned : ScannedLayout resolved.bytes resolved.layout entries)
    {blockData : List UInt8} (found : entries[index]? = some entry) :
    resolved.materializeNode blockData index = ok node ↔
      ∃ digest, resolved.nodeDigestForEntry index entry = ok digest ∧
        entry.Builds resolved.layout.nodeCount blockData digest node := by
  have inRange := scanned.lt_nodeCount found
  have bound := scanned.nodeCount_lt
  have entryAt : resolved.nodeEntryAt index = ok entry := scanned.entryAt index entry found
  unfold ResolvedSerializedForest.materializeNode
  rw [entryAt, ok_bind, bind_eq_ok]
  simp only [← MastNodeEntry.builds_iff]
  apply exists_congr
  intro digest
  apply and_congr_right'
  rw [bind_eq_ok, bind_eq_ok]
  apply exists_congr
  intro built
  apply and_congr_right'
  rw [ensure_of (show index < 2 ^ 32 - 1 by omega)]
  cases buildLinked built <;> simp

theorem materialize_eq_ok (scanned : ScannedLayout resolved.bytes resolved.layout entries)
    {adviceMap : AdviceMap} :
    resolved.materialize hasher adviceMap = ok forest ↔
      forest.adviceMap = adviceMap ∧ ∃ blockData,
        basicBlockData resolved.bytes resolved.layout.basicBlockOffset
          resolved.layout.basicBlockLen = ok blockData ∧
        Materializes resolved entries blockData forest := by
  unfold ResolvedSerializedForest.materialize
  simp only [bind_eq_ok, collect_range_eq_ok, mapErr_eq_ok, fromTrustedDeserializationParts_eq_ok]
  constructor
  · rintro ⟨blockData, found, nodes, ⟨nodeCount, nodeAt⟩, roots, ⟨rootCount, rootAt⟩,
      ⟨_, inside⟩, order, rfl⟩
    refine ⟨rfl, blockData, found, by rw [nodeCount, scanned.length_entries],
      fun index entry node atEntry atNode => ?_, rootCount, rootAt, inside, order⟩
    exact (scanned.materializeNode_eq_ok atEntry).mp (nodeAt index node atNode)
  · rintro ⟨rfl, blockData, found, valid⟩
    refine ⟨blockData, found, forest.nodes, ⟨by rw [valid.length_nodes, scanned.length_entries],
      fun index node atNode => ?_⟩, forest.roots, ⟨valid.length_roots, valid.rootAt⟩,
      ⟨by rw [valid.length_nodes, scanned.length_entries]; exact scanned.bounded,
        valid.rootsInside⟩, valid.denseOrder, rfl⟩
    have inRange := (List.getElem?_eq_some_iff.mp atNode).1
    rw [valid.length_nodes] at inRange
    have atEntry := getElem?_eq_getElem inRange
    exact (scanned.materializeNode_eq_ok atEntry).mpr (valid.nodeAt index _ node atEntry atNode)

theorem tryIntoMastNodeBuilder_ne_panic (entry : MastNodeEntry) (nodeCount : Nat)
    (blockData : List UInt8) (digest : Word) :
    entry.tryIntoMastNodeBuilder nodeCount blockData digest ≠ panic := by
  have child : forall (id : Nat), nodeIdWithNodeCount id nodeCount ≠ panic := by
    intro id
    exact bind_ok_ne_panic (ensure_ne_panic _ _) _
  have one : forall (id : Nat) (wrap : Nat -> MastNode),
      (nodeIdWithNodeCount id nodeCount >>= fun found => ok (wrap found)) ≠ panic := by
    intro id wrap
    exact bind_ne_panic (child id) (fun _ _ => by simp)
  cases entry with
  | block opsOffset =>
    exact bind_ok_ne_panic (decodeOperations_ne_panic _ _) _
  | join left right | split left right => exact bind_ne_panic (child left) (fun _ _ => one right _)
  | loop callee | call callee | sysCall callee => exact one callee _
  | _ => simp [MastNodeEntry.tryIntoMastNodeBuilder]

theorem digestAt_ne_panic (digests : ForestDigests) (bytes : List UInt8) (layout : ForestLayout)
    (index : Nat) (entry : MastNodeEntry) : digests.digestAt bytes layout index entry ≠ panic := by
  apply bind_ne_panic (okOr_ne_panic _ _)
  intro slot _
  split
  · exact readDigestEntry_ne_panic _ _ _
  · unfold internalDigestAt
    split
    · exact okOr_ne_panic _ _
    · apply bind_ne_panic (okOr_ne_panic _ _)
      intro _ _
      exact readDigestEntry_ne_panic _ _ _

theorem materialize_ne_panic (resolved : ResolvedSerializedForest) (hasher : Hasher)
    (adviceMap : AdviceMap) : resolved.materialize hasher adviceMap ≠ panic := by
  apply bind_ne_panic (basicBlockData_ne_panic _ _ _)
  intro blockData _
  apply bind_ne_panic
  · apply collect_ne_panic
    intro index _
    apply bind_ne_panic (resolved.layout.readNodeEntryAt_ne_panic resolved.bytes index)
    intro entry _
    apply bind_ne_panic (digestAt_ne_panic _ _ _ _ _)
    intro digest _
    apply bind_ne_panic (tryIntoMastNodeBuilder_ne_panic _ _ _ _)
    intro built _
    apply bind_ne_panic
    · unfold buildLinked
      split <;> simp
    · intro node _
      exact bind_ok_ne_panic (ensure_ne_panic _ _) _
  · intro nodes _
    apply bind_ne_panic (collect_ne_panic (fun index _ =>
      resolved.layout.readProcedureRootAt_ne_panic resolved.bytes index))
    intro roots _
    rw [ne_eq, mapErr_eq_panic]
    exact fromTrustedDeserializationParts_ne_panic hasher _

end ScannedLayout

/-- Without node hashes on the wire, a materialized forest carries the digests
its structure hashes to. -/
theorem Materializes.locallyHashed {resolved : ResolvedSerializedForest}
    (digests : ResolvedDigests hasher resolved.bytes resolved.layout entries resolved.digests)
    (hashless : resolved.layout.isHashless = true) {blockData : List UInt8}
    (found : basicBlockData resolved.bytes resolved.layout.basicBlockOffset resolved.layout.basicBlockLen = ok blockData)
    (materializes : Materializes resolved entries blockData forest) :
    LocallyHashed hasher forest.nodes := by
  rcases digests.absent hashless with ⟨data, table, present, foundAgain, size, computed⟩
  rw [found] at foundAgain
  cases foundAgain
  -- every node has the digest the table has for it
  have same : forest.nodes.map MastNode.digest = table := by
    apply ext_getElem?
    intro index
    rw [getElem?_map]
    cases atNode : forest.nodes[index]? with
    | none =>
      have outside := List.getElem?_eq_none_iff.mp atNode
      rw [getElem?_eq_none (by rw [size, ← materializes.length_nodes]; exact outside)]
      rfl
    | some node =>
      have inRange := (List.getElem?_eq_some_iff.mp atNode).1
      rw [materializes.length_nodes] at inRange
      have atEntry := getElem?_eq_getElem inRange
      rw [← size] at inRange
      have atTable := getElem?_eq_getElem inRange
      rcases materializes.nodeAt index _ node atEntry atNode with ⟨digest, looked, builds⟩
      have source := computed index _ _ atEntry atTable
      rw [ResolvedSerializedForest.nodeDigestForEntry, digestAt,
        digests.slots.2 index _ atEntry, okOr_some, ok_bind] at looked
      unfold digestSource at source
      rw [Option.map_some, atTable, builds.digest_eq]
      split at looked
      · rename_i external
        rw [digestSlot, if_pos external] at looked
        rw [if_pos external, looked] at source
        exact congrArg some (ok.inj source)
      · rw [internalDigestAt, present] at looked
        dsimp only at looked
        rw [atTable, okOr_some] at looked
        exact congrArg some (ok.inj looked).symm
  intro nodeId node atNode
  have inRange := (List.getElem?_eq_some_iff.mp atNode).1
  rw [materializes.length_nodes] at inRange
  have atEntry := getElem?_eq_getElem inRange
  rcases materializes.nodeAt nodeId _ node atEntry atNode with ⟨digest, looked, builds⟩
  have atTable : table[nodeId]? = some node.digest := by
    rw [← same, getElem?_map, atNode]
    rfl
  have source := computed nodeId _ _ atEntry atTable
  rw [same]
  unfold digestSource at source
  split at source
  · rename_i external
    rw [← builds.isExternal_eq] at external
    cases node with
    | external known => rfl
    | _ => cases external
  · rename_i internal
    exact (builds.recomputeDigest_iff (Bool.eq_false_iff.mpr internal)).mp source

end MidenVm.Mast
