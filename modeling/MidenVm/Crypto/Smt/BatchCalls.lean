import MidenVm.Crypto.Smt.ApplySpec

namespace MidenVm.Crypto

open Foundation List Outcome SmtMap Felt

/-!
# Batches on reachable trees

A batch is computed against a tree and then applied, possibly with a set that
undoes it.  The result is that of writing the pairs into the map, whatever the
order of the pairs and of the hash maps, exactly when every leaf has room for
all the keys that the batch brings.  A batch that replaces a key of a full leaf
ends within the maximum and is still refused in one order; in another order it
is computed, and the application fails after the nodes were written.
-/

namespace SmtMap

variable {content : SmtMap}

theorem Fits.write (fits : content.Fits) {key value : Word}
    (room : ¬ Smt.Overflows content key value) : (content.write key value).Fits := by
  intro index
  have size := length_entriesAt_write content (key, value) index
  have before := fits index
  by_cases brings : content.Brings index (key, value)
  · have short : ¬ maxLeafEntries ≤ (content.entriesAt index).length :=
      fun full => room (overflows_of_brings brings full)
    rw [if_pos brings] at size
    change ((content.write key value).entriesAt index).length + _ = _ at size
    omega
  · rw [if_neg brings] at size
    change ((content.write key value).entriesAt index).length + _ = _ at size
    omega

theorem Room.fits_writeAll {writes : List (Word × Word)} (distinct : Distinct writes)
    (room : content.Room writes) :
    (content.writeAll writes).Fits := fun index => by
  have size := length_entriesAt_writeAll distinct content index
  have enough := room index
  omega

theorem fits_empty : empty.Fits := fun _ => Nat.zero_le _

/-- The entries of a map, written one by one. -/
theorem writeAll_entries (content : SmtMap) : empty.writeAll content.map.entries = content := by
  refine ext_value (fun key => ?_)
  cases found : content.map.get? key with
  | none =>
    have absent : content.value key = Word.zero := by rw [value, found]; rfl
    rw [absent]
    refine value_writeAll_apart (fun pair member same => ?_) _
    exact lookup_eq_none.mp found pair member same
  | some old =>
    have present : content.value key = old := by rw [value, found]; rfl
    rw [present]
    exact value_writeAll_of_mem content.map.nodup_keys (OrderedMap.mem_entries.mpr found) _

theorem Fits.room_entries (fits : content.Fits) : empty.Room content.map.entries := by
  intro index
  have size := length_entriesAt_writeAll content.map.nodup_keys empty index
  rw [writeAll_entries] at size
  rw [← size]
  have none : empty.taken index content.map.entries = 0 :=
    countP_eq_zero.mpr (fun pair _ takes => (of_decide_eq_true takes).2.2 rfl)
  rw [none]
  exact fits index

end SmtMap

namespace Smt

variable {D : Type} [DecidableEq D] {hasher : SmtHasher D}

/-! ## Reachable trees -/

variable {tree : Smt D} {content : SmtMap} {kvPairs : List (Word × Word)} {pair : Word × Word}

/-- A tree that calls of `insert` reach. -/
def Reachable (hasher : SmtHasher D) (tree : Smt D) : Prop :=
  ∃ calls, (runInserts hasher calls (new hasher)).2 = tree

section Free

variable (free : hasher.CollisionFree)
include free

omit free in
theorem runInserts_fitting (free : hasher.EmptyFree) (calls : List (Word × Word))
    (represents : tree.Represents hasher content) (fitting : content.Fitting calls) :
    (runInserts hasher calls tree).2.Represents hasher (content.writeAll calls) := by
  induction calls generalizing tree content with
  | nil => exact represents
  | cons call rest ih =>
    rcases call with ⟨key, value⟩
    rw [runInserts]
    rcases represents.insert_room free fitting.1 with ⟨after, ran, stays⟩
    rw [ran]
    exact ih stays fitting.2

/-- The trees that can be reached are those of the maps whose leaves are within
the maximum. -/
theorem reachable_iff :
    Reachable hasher tree ↔ ∃ content : SmtMap, tree.Represents hasher content ∧ content.Fits := by
  constructor
  · rintro ⟨calls, rfl⟩
    rcases runInserts_represents free.emptyFree calls (new_represents hasher) with
      ⟨final, represents, _, keeps⟩
    exact ⟨final, represents, keeps SmtMap.Fits (fun _ _ _ fits room => fits.write room) fits_empty⟩
  · rintro ⟨content, represents, fits⟩
    have whole := runInserts_fitting free.emptyFree content.map.entries (new_represents hasher)
      (fits.room_entries.fitting content.map.nodup_keys)
    rw [writeAll_entries] at whole
    exact ⟨content.map.entries, whole.unique represents⟩

/-- The roots of reachable trees agree exactly if the values of all keys do. -/
theorem reachable_root_eq_iff {tree other : Smt D} (reached : Reachable hasher tree)
    (otherReached : Reachable hasher other) :
    tree.root = other.root ↔ forall key, tree.getValue key = other.getValue key := by
  rcases (reachable_iff free).mp reached with ⟨content, represents, -⟩
  rcases (reachable_iff free).mp otherReached with ⟨written, otherRepresents, -⟩
  rw [represents.root, otherRepresents.root]
  simp only [represents.getValue, otherRepresents.getValue]
  exact ⟨fun same key => by rw [root_injective free same], fun same => by rw [ext_value same]⟩

omit free in
theorem reachable_root_eq_iff_sample :
    let tree := (runInserts freeHasher sampleCalls (new freeHasher)).2
    Reachable freeHasher tree ∧
      (tree.root = (new freeHasher).root ↔ forall key, tree.getValue key = (new freeHasher).getValue key) :=
  ⟨⟨_, rfl⟩, reachable_root_eq_iff freeHasher_collisionFree ⟨_, rfl⟩ ⟨[], rfl⟩⟩

/-! ## Batches -/

/-- A set that is refused leaves the tree as it was. -/
def Harmless (hasher : SmtHasher D) (set : MutationSet D) : Prop :=
  forall tree, Reachable hasher tree -> forall nodeOrder pairOrder error after,
    applyMutations hasher nodeOrder pairOrder set tree = (.err error, after) -> after = tree

/-- What a batch should do: it is computed, it is applied and leaves the tree of
the map after the writes, and it can be undone. -/
def Mutates (hasher : SmtHasher D) (tree : Smt D) (content : SmtMap)
    (kvPairs : List (Word × Word)) : Prop :=
  forall order, ∃ set, computeMutationsSequential hasher order kvPairs tree = .ok set ∧
    Harmless hasher set ∧
    (forall nodeOrder pairOrder, ∃ after,
      applyMutations hasher nodeOrder pairOrder set tree = (.ok (), after) ∧
        after.Represents hasher (content.writeAll kvPairs)) ∧
    forall nodeOrder pairOrder, ∃ after reverse,
      applyMutationsWithReversion hasher nodeOrder pairOrder set tree = (.ok reverse, after) ∧
        after.Represents hasher (content.writeAll kvPairs) ∧ Harmless hasher reverse ∧
        forall nodeOrder pairOrder,
          applyMutations hasher nodeOrder pairOrder reverse after = (.ok (), tree)

theorem Steps.harmless {target : SmtMap} {set : MutationSet D}
    (steps : Steps hasher content target set)
    (represents : tree.Represents hasher content) : Harmless hasher set := by
  intro other reached nodeOrder pairOrder error after failed
  rcases (reachable_iff free).mp reached with ⟨otherContent, otherRepresents, _⟩
  by_cases same : other = tree
  · rcases steps.apply represents nodeOrder pairOrder with ⟨final, ran, _⟩
    rw [same, ran] at failed
    cases failed
  · rw [steps.refused represents free otherRepresents same] at failed
    exact (Prod.mk.inj failed).2.symm

theorem computes_steps (order : MapOrder Word Word) (represents : tree.Represents hasher content)
    (distinct : SmtMap.Distinct kvPairs) (room : content.Room kvPairs) :
    ∃ set, computeMutationsSequential hasher order kvPairs tree = .ok set ∧
      Steps hasher content (content.writeAll kvPairs) set := by
  rcases (computes_start hasher represents).run_room free order represents distinct
    (fun _ _ seen => absurd seen not_mem_nil) room with ⟨pending, ran, computes, enough⟩
  refine ⟨_, by rw [computeMutationsSequential, ran, ok_bind]; rfl,
    computes.toTransforms, represents.root, computes.root, enough⟩

theorem mutates_of_room (represents : tree.Represents hasher content)
    (distinct : SmtMap.Distinct kvPairs)
    (room : content.Room kvPairs) : Mutates hasher tree content kvPairs := by
  intro order
  rcases computes_steps free order represents distinct room with ⟨set, ran, steps⟩
  refine ⟨set, ran, steps.harmless free represents, steps.apply represents,
    fun nodeOrder pairOrder => ?_⟩
  rcases steps.applyWithReversion represents nodeOrder pairOrder with
    ⟨after, reverse, applied, reached, back⟩
  refine ⟨after, reverse, applied, reached, back.harmless free reached,
    fun nodeOrder pairOrder => ?_⟩
  rcases back.apply reached nodeOrder pairOrder with ⟨restored, undone, original⟩
  rw [undone, original.unique represents]

/-- A leaf without room for a batch refuses it when the new keys come first. -/
theorem refused_of_no_room (order : MapOrder Word Word)
    (represents : tree.Represents hasher content)
    (fits : content.Fits) (distinct : SmtMap.Distinct kvPairs) {index : Nat}
    (above : maxLeafEntries < (content.entriesAt index).length + content.brought index kvPairs) :
    ∃ listing error, listing.Perm kvPairs ∧
      computeMutationsSequential hasher order listing tree = .err error := by
  let comes (pair : Word × Word) : Bool := decide (content.Brings index pair)
  have listed : (kvPairs.filter comes ++ kvPairs.filter (fun pair => !comes pair)).Perm kvPairs :=
    filter_append_perm comes kvPairs
  have count : (kvPairs.filter comes).length = content.brought index kvPairs :=
    countP_eq_length_filter.symm
  have start := computes_start hasher represents
  rcases start.run_full free order represents fits (kvPairs.filter (fun pair => !comes pair))
    (distinct.sublist filter_sublist) (fun _ _ seen => absurd seen not_mem_nil)
    (fun pair member => of_decide_eq_true (mem_filter.mp member).2)
    (fun _ _ impossible => by cases impossible) (fits index) (by
      rw [count]
      exact above) with ⟨error, failed⟩
  refine ⟨_, error, listed, ?_⟩
  rw [computeMutationsSequential, failed, err_bind]

end Free

/-- On a reachable tree a batch with different keys does what it should in every
order exactly when every leaf has room for all the keys it brings. -/
theorem mutations_work_iff_room (free : hasher.CollisionFree) {tree : Smt D}
    (reached : Reachable hasher tree) :
    ∃ content : SmtMap, tree.Represents hasher content ∧
      forall kvPairs, SmtMap.Distinct kvPairs ->
        ((forall listing, listing.Perm kvPairs -> Mutates hasher tree content listing) ↔
          content.Room kvPairs) := by
  rcases (reachable_iff free).mp reached with ⟨content, represents, fits⟩
  refine ⟨content, represents, fun kvPairs distinct => ⟨fun works index => ?_, fun room listing same => ?_⟩⟩
  · by_contra above
    rcases refused_of_no_room free .sorted represents fits distinct (Nat.lt_of_not_le above) with
      ⟨listing, error, same, refused⟩
    rcases works listing same .sorted with ⟨set, ran, _⟩
    rw [ran] at refused
    cases refused
  · exact mutates_of_room free represents (distinct.perm same.symm) (room.perm same.symm)

/-- One key of a leaf is put in the place of another, in a tree with two leaves. -/
theorem mutations_work_iff_room_replaced :
    let stored : List (Word × Word) := [(⟨1, 0, 0, 5⟩, ⟨1, 0, 0, 0⟩), (⟨1, 0, 0, 9⟩, ⟨2, 0, 0, 0⟩)]
    let tree := (runInserts freeHasher stored (new freeHasher)).2
    freeHasher.CollisionFree ∧ ∃ content : SmtMap, tree.Represents freeHasher content ∧
      content.map.entries = stored ∧
      Mutates freeHasher tree content [(⟨1, 0, 0, 5⟩, Word.zero),
        (⟨0, 0, 0, 5⟩, ⟨7, 0, 0, 0⟩)] := by
  intro stored tree
  have free := freeHasher_collisionFree
  have fitting : SmtMap.empty.Fitting stored :=
    ⟨fun overflows => absurd overflows.2.2 (by decide),
      fun overflows => absurd overflows.2.2 (by decide), trivial⟩
  have known := runInserts_fitting free.emptyFree stored (new_represents freeHasher) fitting
  rcases mutations_work_iff_room free ⟨stored, rfl⟩ with ⟨content, represents, works⟩
  have same : content = SmtMap.empty.writeAll stored :=
    ext_value (fun key => (represents.getValue key).symm.trans (known.getValue key))
  have entries : content.map.entries = stored := by
    rw [same]
    decide
  refine ⟨free, content, represents, entries, (works _ (by decide)).mpr (fun index => ?_) _ (List.Perm.refl _)⟩
  have held : (content.entriesAt index).length ≤ 2 := by
    rw [entriesAt, entries]
    exact length_filter_le ..
  have comes : content.brought index [(⟨1, 0, 0, 5⟩, Word.zero),
      (⟨0, 0, 0, 5⟩, ⟨7, 0, 0, 0⟩)] ≤ 2 :=
    countP_le_length
  exact Nat.le_trans (Nat.add_le_add held comes) (by decide)

/-! ## Replacing a key of a full leaf -/

/-- As many keys of one leaf as it can hold. -/
def fullLeaf : List (Word × Word) :=
  (List.range maxLeafEntries).map (fun place =>
    (⟨Felt.newUnchecked (place + 1), 0, 0, 5⟩, ⟨1, 0, 0, 0⟩))

theorem fullLeaf_eq : fullLeaf = (List.range maxLeafEntries).map (fun place =>
    (⟨newUnchecked (place + 1), 0, 0, 5⟩, ⟨1, 0, 0, 0⟩)) := rfl

-- The list is long and never has to be evaluated.
attribute [irreducible] fullLeaf

/-- The map of a full leaf. -/
def fullContent : SmtMap := SmtMap.empty.writeAll fullLeaf

/-- A key that the full leaf holds, one that it does not hold and its value. -/
def heldKey : Word := ⟨1, 0, 0, 5⟩
def otherKey : Word := ⟨0, 0, 0, 5⟩
def otherValue : Word := ⟨7, 0, 0, 0⟩

/-- The tree of one entry. -/
def oneEntry : Smt FreeDigest := (runInserts freeHasher [(otherKey, otherValue)] (new freeHasher)).2

theorem oneEntry_represents :
    oneEntry.Represents freeHasher (SmtMap.empty.writeAll [(otherKey, otherValue)]) :=
  runInserts_fitting freeHasher_collisionFree.emptyFree _ (new_represents freeHasher)
    ⟨fun overflows => absurd overflows.2.2 (by decide), trivial⟩

theorem size_fullLeaf : fullLeaf.length = maxLeafEntries := by
  rw [fullLeaf_eq, length_map, length_range]

theorem distinct_fullLeaf : SmtMap.Distinct fullLeaf := by
  rw [SmtMap.Distinct, fullLeaf_eq, map_map]
  refine List.Nodup.map_on (fun left leftInside right rightInside same => ?_) nodup_range
  have felts : newUnchecked (left + 1) = newUnchecked (right + 1) := congrArg Word.a same
  have small {place : Nat} (inside : place ∈ List.range maxLeafEntries) : place + 1 < modulus :=
    Nat.lt_of_le_of_lt (mem_range.mp inside) (by decide)
  exact Nat.succ.inj (newUnchecked_injOn (small leftInside) (small rightInside) felts)

theorem mem_fullLeaf (member : pair ∈ fullLeaf) : pair.1.d = 5 ∧ pair.1.a ≠ 0 ∧
    pair.2 = ⟨1, 0, 0, 0⟩ := by
  rw [fullLeaf_eq] at member
  rcases mem_map.mp member with ⟨place, inside, rfl⟩
  refine ⟨rfl, fun zero => ?_, rfl⟩
  have small : place + 1 < modulus := Nat.lt_of_le_of_lt (mem_range.mp inside) (by decide)
  exact Nat.succ_ne_zero place (newUnchecked_injOn small (by decide) zero)

theorem brings_fullLeaf (member : pair ∈ fullLeaf) : empty.Brings 5 pair := by
  rcases mem_fullLeaf member with ⟨here, _, value⟩
  refine ⟨?_, ?_, rfl⟩
  · rw [leafIndex, here]
    rfl
  · rw [value]
    decide

theorem length_fullLeaf : (fullContent.entriesAt 5).length = maxLeafEntries := by
  have size := length_entriesAt_writeAll distinct_fullLeaf empty 5
  have none : empty.taken 5 fullLeaf = 0 :=
    countP_eq_zero.mpr (fun pair _ takes => (of_decide_eq_true takes).2.2 rfl)
  have all : empty.brought 5 fullLeaf = fullLeaf.length :=
    countP_eq_length.mpr (fun pair member => decide_eq_true (brings_fullLeaf member))
  have vacant : (empty.entriesAt 5).length = 0 := rfl
  rw [none, all, size_fullLeaf, vacant, Nat.add_zero, Nat.zero_add] at size
  rw [fullContent]
  exact size

theorem room_fullLeaf : empty.Room fullLeaf := by
  intro index
  have count : empty.brought index fullLeaf ≤ fullLeaf.length := countP_le_length
  have vacant : (empty.entriesAt index).length = 0 := rfl
  rwa [vacant, Nat.zero_add, ← size_fullLeaf]

theorem value_heldKey : fullContent.value heldKey = ⟨1, 0, 0, 0⟩ := by
  refine value_writeAll_of_mem distinct_fullLeaf
    (show (heldKey, (⟨1, 0, 0, 0⟩ : Word)) ∈ fullLeaf from ?_) _
  rw [fullLeaf_eq]
  exact mem_map.mpr ⟨0, mem_range.mpr (by decide), by simp [heldKey, newUnchecked]⟩

theorem value_otherKey : fullContent.value otherKey = Word.zero :=
  value_writeAll_apart (fun _ member same =>
    (mem_fullLeaf member).2.1 (congrArg Word.a same)) _

theorem overflows_otherKey : Overflows fullContent otherKey otherValue :=
  overflows_of_brings (show fullContent.Brings 5 (otherKey, otherValue) from
    ⟨rfl, by decide, value_otherKey⟩) (Nat.le_of_eq length_fullLeaf.symm)

/-- The set of a batch that takes a key from the full leaf before it brings
another. -/
theorem full_leaf_computes {tree : Smt FreeDigest}
    (represents : tree.Represents freeHasher fullContent) :
    ∃ set, computeMutationsSequential freeHasher .sorted
        [(heldKey, Word.zero), (otherKey, otherValue)] tree = .ok set ∧
      set.oldRoot = tree.root ∧
      set.newPairs.entries = [(otherKey, otherValue), (heldKey, Word.zero)] ∧
      Transforms freeHasher fullContent
        (fullContent.writeAll [(heldKey, Word.zero), (otherKey, otherValue)])
        set.nodeMutations set.newPairs := by
  have free := freeHasher_collisionFree
  have start := computes_start freeHasher represents
  have taken : (heldKey, Word.zero).2 ≠ fullContent.value (heldKey, Word.zero).1 := by
    rw [value_heldKey]
    decide
  rcases start.pair_changes represents not_mem_nil free .sorted taken trivial
    (fun overflows => overflows.1 rfl) with ⟨first, ran, computes, seen, pairs⟩
  have new : otherKey ∉ first.seenKeys := by
    rw [seen]
    change otherKey ∉ [heldKey]
    decide
  have brought : (otherKey, otherValue).2 ≠ fullContent.value (otherKey, otherValue).1 := by
    rw [value_otherKey]
    decide
  have earlier : pairsAt .sorted first.newPairs (leafIndex otherKey) = [(heldKey, Word.zero)] := by
    rw [pairs]
    rfl
  set freed := fullContent.write heldKey Word.zero
  have space : ¬ Overflows freed otherKey otherValue := by
    intro overflows
    have size := length_entriesAt_write fullContent (heldKey, Word.zero) 5
    have takes : fullContent.Takes 5 (heldKey, Word.zero) := ⟨rfl, rfl, Ne.symm taken⟩
    rw [if_pos takes, if_neg (fun brings => brings.2.1 rfl), length_fullLeaf] at size
    have full : maxLeafEntries ≤ (freed.entriesAt 5).length := overflows.2.2
    change (freed.entriesAt 5).length + 1 = _ at size
    omega
  rcases computes.pair_changes represents new free .sorted brought
    (show fullContent.Fitting (pairsAt _ _ (leafIndex otherKey)) by
      rw [earlier]
      exact ⟨fun overflows => overflows.1 rfl, trivial⟩) space with
    ⟨second, continued, final, _, all⟩
  refine ⟨⟨tree.root, second.nodeMutations, second.newPairs, second.newRoot⟩, ?_, rfl, ?_,
    final.toTransforms⟩
  · rw [computeMutationsSequential, foldlM_cons, ran, ok_bind, foldlM_cons,
      continued]
    rfl
  · change second.newPairs.entries = _
    rw [all, pairs]
    rfl

/-- A batch that puts one key of a full leaf in the place of another keeps the
leaf at the maximum.  With the new key first it is refused; with the new key
last it is computed, and applying it fails after the nodes were changed. -/
theorem full_leaf_replacement_fails :
    ∃ tree : Smt FreeDigest, Reachable freeHasher tree ∧
      tree.Represents freeHasher fullContent ∧
      SmtMap.Distinct [(otherKey, otherValue), (heldKey, Word.zero)] ∧
      (fullContent.writeAll [(otherKey, otherValue), (heldKey, Word.zero)]).Fits ∧
      (∃ error, computeMutationsSequential freeHasher .sorted
        [(otherKey, otherValue), (heldKey, Word.zero)] tree = .err error) ∧
      ∃ set error after, computeMutationsSequential freeHasher .sorted
          [(heldKey, Word.zero), (otherKey, otherValue)] tree = .ok set ∧
        applyMutations freeHasher .sorted .sorted set tree = (.err error, after) ∧
        after.innerNodes ≠ tree.innerNodes := by
  have free := freeHasher_collisionFree
  have fits : fullContent.Fits := room_fullLeaf.fits_writeAll distinct_fullLeaf
  have fitting := room_fullLeaf.fitting distinct_fullLeaf
  have represents := runInserts_fitting free.emptyFree fullLeaf (new_represents freeHasher) fitting
  rw [← fullContent] at represents
  refine ⟨_, (reachable_iff free).mpr ⟨fullContent, represents, fits⟩, represents, by decide,
    fun index => ?_, ?_, ?_⟩
  · set swap := [(otherKey, otherValue), (heldKey, Word.zero)]
    have size := length_entriesAt_writeAll (show SmtMap.Distinct
      swap by decide) fullContent index
    have before := fits index
    by_cases here : index = 5
    · subst here
      have taken : fullContent.taken 5 swap = 1 := by
        rw [taken_cons, taken_cons, if_pos, if_neg]
        · rfl
        · exact fun takes => absurd takes.2.1 (by decide)
        · refine ⟨rfl, rfl, ?_⟩
          change fullContent.value heldKey ≠ _
          rw [value_heldKey]
          decide
      have brought : fullContent.brought 5 swap ≤ 1 := by
        rw [brought_cons, brought_cons, if_neg (fun brings => brings.2.1 rfl)]
        split
        · exact Nat.le_refl 1
        · exact Nat.zero_le 1
      omega
    · have brought : fullContent.brought index swap = 0 := by
        rw [brought_cons, brought_cons, if_neg (fun brings => here brings.1.symm),
          if_neg (fun brings => here brings.1.symm)]
        rfl
      omega
  · have refused : computePair freeHasher .sorted _ _ (otherKey, otherValue) = _ :=
      (computes_start freeHasher represents).pair_full represents not_mem_nil .sorted trivial
        overflows_otherKey
    exact ⟨_, by rw [computeMutationsSequential, foldlM_cons, refused]; rfl⟩
  · rcases full_leaf_computes represents with ⟨set, ran, oldRoot, pairs, transforms⟩
    rcases transforms.apply_full represents oldRoot .sorted .sorted pairs overflows_otherKey with
      ⟨error, after, failed, nodes⟩
    refine ⟨set, error, after, ran, failed, fun same => ?_⟩
    -- The nodes are those of the new map already, and a root stands for one map.
    have roots := nodes .root
    rw [same, represents.innerNodes] at roots
    have maps := congrArg (fun content => value content otherKey)
      (innerNodeOf_root_injective free roots)
    have written : (fullContent.writeAll [(heldKey, Word.zero), (otherKey, otherValue)]).value
        (otherKey, otherValue).1 = (otherKey, otherValue).2 :=
      value_writeAll_of_mem (by decide) (by decide) fullContent
    exact absurd (value_otherKey.symm.trans (maps.trans written)) (by decide)

end Smt

end MidenVm.Crypto
