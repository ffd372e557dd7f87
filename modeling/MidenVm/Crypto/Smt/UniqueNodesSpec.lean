import MidenVm.Crypto.Smt.UniqueNodes
import MidenVm.Crypto.Smt.PartialSpec

namespace MidenVm.Crypto

open Foundation List Outcome Option Parser Smt SmtLeaf OrderedMap
open Foundation.Mountain
open Foundation.SparseTree
open Serde

/-!
# What a partial tree that was read says

Reading validates every stored node and leaf against its parent, and reads a
parent that is not stored as empty.  A stored node that is not empty is
therefore connected to the root, and says what the tree with this root says.  A
leaf that is listed as empty is compared with nothing: it is accepted below any
node that is not stored, whatever the tree holds there.
-/

variable {D : Type} {hasher : SmtHasher D}

namespace SmtLeaf

/-! ## Leaves with arbitrary entries -/

variable {index : Nat} {entries : List (Word × Word)} {leaf : SmtLeaf}
    {state : SmtLeaf × (Word -> Word)}

/-- A constructor returned the leaf for the entries that it was given, as they
are or listed by elements or bytes. -/
inductive Obtained : List (Word × Word) -> SmtLeaf -> Prop where
  | new {entries : List (Word × Word)} {index : Nat} {leaf : SmtLeaf}
      (made : SmtLeaf.new entries index = .ok leaf) : Obtained entries leaf
  | elements {elements : List Felt} {index : Nat} {leaf : SmtLeaf}
      (made : tryFromElements elements index = .ok leaf) : Obtained (entriesOf elements) leaf
  | bytes {source after rest : ByteReader} {listed : Nat × List (Word × Word)} {leaf : SmtLeaf}
      (lists : readListed source = .ok (listed, after)) (made : readFrom source = .ok (leaf, rest)) :
      Obtained listed.2 leaf

theorem new_eq_ok (made : new entries index = .ok leaf) :
    leaf = ofEntries index entries ∧ forall entry, entry ∈ entries ->
      leafIndex entry.1 = index := by
  rcases entries with _ | ⟨first, _ | ⟨second, rest⟩⟩
  · cases made
    exact ⟨rfl, forall_mem_nil _⟩
  · rw [new] at made
    split at made
    · cases made
    · next here =>
      cases made
      exact ⟨rfl, forall_mem_singleton.mpr (not_not.mp here)⟩
  · rcases bind_eq_ok.mp made with ⟨several, found, made⟩
    rw [newMultiple] at found
    split at found
    · cases found
    split at found
    · cases found
    · next none =>
      cases found
      split at made
      · cases made
      · next here =>
        cases made
        refine ⟨rfl, forall_mem_cons.mpr ⟨not_not.mp here, fun entry member => ?_⟩⟩
        have same := find?_eq_none.mp none entry member
        exact (not_not.mp (of_decide_eq_false (Bool.eq_false_iff.mpr same))).trans (not_not.mp here)

/-- Constructors keep the entries as they are, in their order. -/
theorem Obtained.eq (obtained : Obtained entries leaf) :
    leaf = ofEntries leaf.index entries ∧ forall entry, entry ∈ entries ->
      leafIndex entry.1 = leaf.index := by
  have made {entries : List (Word × Word)} {index : Nat} {leaf : SmtLeaf}
      (made : SmtLeaf.new entries index = .ok leaf) : leaf = ofEntries leaf.index entries ∧
        forall entry, entry ∈ entries -> leafIndex entry.1 = leaf.index := by
    rcases new_eq_ok made with ⟨rfl, here⟩
    rw [index_ofEntries_of here]
    exact ⟨rfl, here⟩
  cases obtained with
  | new found => exact made found
  | @elements elements index _ found =>
    rw [tryFromElements] at found
    split at found
    · next none =>
      cases found
      rw [List.isEmpty_iff.mp none]
      exact ⟨rfl, forall_mem_nil _⟩
    split at found
    · cases found
    · exact made found
  | bytes lists found =>
    rw [readFrom, bind_of_ok lists] at found
    exact made (mapErr_eq_ok.mp (lift_eq_ok.mp found).1)

section Bytes

variable {start reserve : Nat} (small : leaf.index < 2 ^ smtDepth)
    (few : leaf.numEntries < usizeLimit)
include small few

theorem readListed_reads : Reads readListed start reserve leaf.writeInto (leaf.index,
      leaf.entries) := by
  have entry (entry : Word × Word) {start reserve : Nat} :
      Reads readEntry start reserve (entry.1.writeInto ++ entry.2.writeInto) entry :=
    .bind (Word.readFrom_reads entry.1) (.bind_pure (Prod.mk entry.1) (Word.readFrom_reads entry.2))
  refine .bind (readUsize_reads few) (.bind (readU64_reads small) (.bind_pure (Prod.mk leaf.index) ?_))
  rw [numEntries_eq]
  refine readMany_reads _ _ (by decide) (fun entry _ => ?_) (fun value _ _ _ => entry value)
  rw [length_append, Word.length_writeInto, Word.length_writeInto, Word.serializedSize]

theorem readFrom_reads (made : new leaf.entries leaf.index = .ok leaf) :
    Reads readFrom start reserve leaf.writeInto leaf :=
  (readListed_reads small few).bind_lift (by rw [made, mapErr_ok])

end Bytes

/-- Keys in strictly increasing order, and no empty value. -/
def WellFormed (leaf : SmtLeaf) : Prop :=
  SortedEntries leaf.entries ∧ forall entry, entry ∈ leaf.entries -> entry.2 ≠ Word.zero

/-- A change of a leaf. -/
inductive Change where
  | insert (key value : Word)
  | remove (key : Word)

def Change.key : Change -> Word
  | insert key _ => key
  | remove key => key

/-- A change of a leaf beside a map.  An insertion that is refused writes nothing. -/
def Change.apply (state : SmtLeaf × (Word -> Word)) : Change -> SmtLeaf × (Word -> Word)
  | insert key value =>
    match state.1.insert key value with
    | (.ok _, leaf) => (leaf, Function.update state.2 key value)
    | (_, leaf) => (leaf, state.2)
  | remove key => ((state.1.remove key).2, Function.update state.2 key Word.zero)

/-- The leaf holds the values of the map. -/
def Stores (index : Nat) (state : SmtLeaf × (Word -> Word)) : Prop :=
  ∃ entries, Holds index entries ∧
    state = (ofEntries index entries, fun key => (entries.lookup key).getD Word.zero)

theorem Stores.apply (stores : Stores index state) {change : Change}
    (here : leafIndex change.key = index) : Stores index (change.apply state) := by
  rcases stores with ⟨entries, holds, rfl⟩
  subst here
  cases change with
  | insert key value =>
    by_cases full : Full key entries
    · rw [Change.apply, Change.key, insert_full _ value holds.sorted full]
      exact ⟨entries, holds, rfl⟩
    · rw [Change.apply, Change.key, insert_room value holds.sorted full]
      refine ⟨_, ⟨sorted_insertEntry key value holds.sorted, fun entry member => ?_⟩,
        congrArg (Prod.mk _) ?_⟩
      · rcases mem_insertEntry member with rfl | old
        · rfl
        · exact holds.here entry old
      · funext wanted
        rw [lookup_insertEntry, Function.update_apply, apply_ite (getD · Word.zero)]
        rfl
  | remove key =>
    rw [Change.apply, Change.key, remove_ofEntries key holds.sorted]
    refine ⟨_, ⟨sorted_eraseEntry key holds.sorted, fun entry member => ?_⟩,
      congrArg (Prod.mk _) ?_⟩
    · exact holds.here entry (mem_of_mem_filter member)
    · funext wanted
      rw [lookup_eraseEntry, Function.update_apply, apply_ite (getD · Word.zero)]
      rfl

/-- Constructors check neither the order of the keys nor the values.  A leaf whose entries
are in order answers as a map after any changes of its keys. -/
theorem obtained_leaf_answers (obtained : Obtained entries leaf) :
    (leaf.WellFormed ↔ SortedEntries entries ∧ forall entry, entry ∈ entries -> entry.2 ≠ Word.zero) ∧
    (leaf.WellFormed -> forall changes : List Change,
      (forall change, change ∈ changes -> leafIndex change.key = leaf.index) ->
      let state := changes.foldl Change.apply (leaf, fun key => (entries.lookup key).getD Word.zero)
      forall key, leafIndex key = leaf.index -> state.1.getValue key = some (state.2 key)) := by
  rcases obtained.eq with ⟨made, here⟩
  have same : leaf.entries = entries := by rw [made, entries_ofEntries]
  refine ⟨by rw [WellFormed, same], fun ⟨sorted, _⟩ changes own => ?_⟩
  have stores : Stores leaf.index (changes.foldl Change.apply
      (leaf, fun key => (entries.lookup key).getD Word.zero)) := by
    refine foldlRecOn changes Change.apply ⟨entries, ⟨same ▸ sorted, here⟩, by rw [← made]⟩ ?_
    exact fun _ stores change member => stores.apply (own change member)
  rcases stores with ⟨left, holds, reached⟩
  intro state key inside
  rw [show state = _ from reached, getValue_eq _ ((index_ofEntries holds).trans inside.symm),
    entries_ofEntries]

/-- A leaf with two entries, read from bytes, before and after one of them is removed. -/
theorem obtained_leaf_answers_remove :
    let entries : List (Word × Word) := [(Word.zero, ⟨1, 0, 0, 0⟩), (⟨1, 0, 0, 0⟩, ⟨2, 0, 0, 0⟩)]
    ∃ leaf rest, readFrom (Source.new (ofEntries 0 entries).writeInto none) = .ok (leaf, rest) ∧
      leaf.WellFormed ∧ leaf.getValue Word.zero = some ⟨1, 0, 0, 0⟩ ∧
      (leaf.remove Word.zero).2.getValue Word.zero = some Word.zero := by
  intro entries
  set bytes := (ofEntries 0 entries).writeInto
  have covers : (Source.new bytes none).Covers (bytes.length + 0) :=
    fun _ present => by cases present
  have small : (ofEntries 0 entries).index < 2 ^ smtDepth := by decide
  have few : (ofEntries 0 entries).numEntries < usizeLimit := by decide
  have lists := readListed_reads small few (Source.new bytes none) [] rfl (append_nil _).symm covers
  have made :=
    readFrom_reads small few rfl (Source.new bytes none) [] rfl (append_nil _).symm covers
  have ordered : SortedEntries entries ∧ forall entry, entry ∈ entries -> entry.2 ≠ Word.zero :=
    ⟨pairwise_pair.mpr (by decide), by decide⟩
  rcases obtained_leaf_answers (.bytes lists made) with ⟨formed, answers⟩
  refine ⟨_, _, made, formed.mpr ordered, ?_, ?_⟩
  · exact answers (formed.mpr ordered) [] (forall_mem_nil _) Word.zero rfl
  · exact answers (formed.mpr ordered) [.remove Word.zero] (forall_mem_singleton.mpr rfl) Word.zero rfl

/-- An entry that is given twice is not gone after its removal. -/
theorem obtained_leaf_twice : ∃ leaf, SmtLeaf.new [(Word.zero, ⟨1, 0, 0, 0⟩),
      (Word.zero, ⟨1, 0, 0, 0⟩)] 0 =
      .ok leaf ∧ ¬ leaf.WellFormed ∧ (leaf.remove Word.zero).2.getValue Word.zero =
        some ⟨1, 0, 0, 0⟩ :=
  ⟨_, rfl, fun ordered => absurd (pairwise_cons.mp ordered.1).1 (by decide), by decide⟩

end SmtLeaf

namespace UniqueNodes

variable {readDigest : Reader D}

/-- A leaf as the bytes list it: its position and its entries. -/
def listedLeaf : Reader (Nat × List (Word × Word)) := do
  let position ← readU64
  let listed ← SmtLeaf.readListed
  pure (position, listed.2)

/-- The leaves that the bytes list: of what is listed twice, the last counts. -/
def listedLeaves (readDigest : Reader D) : Reader (OrderedMap Nat (List (Word × Word))) := do
  let _ ← readDigest
  let levelCount ← readU64
  let _ ← (readLevel readDigest).many levelCount
  let leafCount ← readU64
  let leaves ← listedLeaf.many leafCount
  pure (OrderedMap.empty.insertAll leaves)

theorem readLeaf_lists {source after : ByteReader} {leaf : Nat × SmtLeaf}
    (read : readLeaf source = .ok (leaf, after)) :
    ∃ listed, listedLeaf source = .ok (listed, after) ∧
      leaf.1 = listed.1 ∧ (some leaf.2).map SmtLeaf.entries = some listed.2 := by
  rcases seq_eq_ok.mp read with ⟨position, _, first, read⟩
  rcases seq_eq_ok.mp read with ⟨found, _, made, done⟩
  cases done
  rcases seq_eq_ok.mp made with ⟨listed, middle, lists, built⟩
  rcases (lift_eq_ok.mp built).2 with rfl
  refine ⟨(position, listed.2), ?_, rfl, ?_⟩
  · rw [listedLeaf, bind_of_ok first, bind_of_ok lists, Parser.pure_apply]
  · rw [map_some, (Obtained.bytes lists made).eq.1, entries_ofEntries]

/-- The leaves of nodes that were read have the entries that the bytes list. -/
theorem readFrom_lists {source rest : ByteReader} {unique : UniqueNodes D}
    (read : readFrom readDigest source = .ok (unique, rest)) :
    ∃ listed after, listedLeaves readDigest source = .ok (listed, after) ∧
      forall position, (unique.leaves.get? position).map SmtLeaf.entries =
        listed.get? position := by
  rcases seq_eq_ok.mp read with ⟨root, _, first, read⟩
  rcases seq_eq_ok.mp read with ⟨levelCount, _, second, read⟩
  rcases seq_eq_ok.mp read with ⟨levels, _, third, read⟩
  rcases seq_eq_ok.mp read with ⟨leafCount, _, fourth, read⟩
  rcases seq_eq_ok.mp read with ⟨leaves, after, fifth, read⟩
  rcases seq_eq_ok.mp read with ⟨_, _, _, read⟩
  rcases seq_eq_ok.mp read with ⟨_, _, _, read⟩
  rcases seq_eq_ok.mp read with ⟨_, _, _, done⟩
  cases done
  rcases many_related fifth readLeaf_lists with ⟨listed, again, same⟩
  refine ⟨OrderedMap.empty.insertAll listed, after, ?_, @get?_insertAll_related _ _ _ _
    (fun leaf entries => leaf.map SmtLeaf.entries = entries) _ _ same _ _ (fun _ => rfl)⟩
  rw [listedLeaves, bind_of_ok first, bind_of_ok second, bind_of_ok third, bind_of_ok fourth,
    bind_of_ok again, Parser.pure_apply]

end UniqueNodes

namespace PartialSmt

variable {height : Nat} {unique : UniqueNodes D}

/-- What `validate` checks, and that leaves are where their keys belong. -/
structure Valid (hasher : SmtHasher D) (tree : PartialSmt D) : Prop where
  nodes : forall {index : NodeIndex} {node : InnerNode D},
    tree.innerNodes.get? index = some node -> node.hash hasher = tree.getNodeHash hasher index
  leaves : forall {position : Nat} {leaf : SmtLeaf}, tree.leaves.get? position = some leaf ->
    leaf.hash hasher = tree.getNodeHash hasher ⟨smtDepth, position⟩
  indices : forall {position : Nat} {leaf : SmtLeaf}, tree.leaves.get? position = some leaf ->
    leaf.index = position

section Sound

variable (free : hasher.CollisionFree) {tree : PartialSmt D} (valid : tree.Valid hasher)
  {leaf : Nat -> D}
include free valid

/-- A stored node whose hash is that of the tree has the children of the tree. -/
theorem Valid.children {index : NodeIndex} {stored : InnerNode D}
    (found : tree.innerNodes.get? index = some stored)
    (same : tree.getNodeHash hasher index = node hasher.merge leaf (height + 1) index.position) :
    stored = childrenOf hasher leaf height index.position := by
  have hashes : hasher.merge stored.left stored.right =
      hasher.merge (node hasher.merge leaf height (2 * index.position))
        (node hasher.merge leaf height (2 * index.position + 1)) := (valid.nodes found).trans same
  rcases free.merge _ _ _ _ hashes with ⟨left, right⟩
  exact InnerNode.ext left right

variable (root : tree.root = node hasher.merge leaf smtDepth 0)
include root

/-- A node that is not empty is connected to the root. -/
theorem Valid.getNodeHash_of_solid {depth position : Nat} (level : depth + height = smtDepth)
    (inside : position < 2 ^ depth)
    (solid : tree.getNodeHash hasher ⟨depth, position⟩ ≠ emptyOf hasher height) :
    tree.getNodeHash hasher ⟨depth, position⟩ = node hasher.merge leaf height position := by
  induction depth generalizing height position with
  | zero =>
    rw [zero_add] at level
    rw [Nat.lt_one_iff.mp inside, level]
    exact root
  | succ depth ih =>
    have parent : depth + (height + 1) = smtDepth := by omega
    have half : position / 2 < 2 ^ depth := by
      rw [pow_succ] at inside
      omega
    rw [getNodeHash_succ] at solid ⊢
    cases found : tree.innerNodes.get? ⟨depth, position / 2⟩ with
    | none =>
      -- A parent that is not stored has empty children.
      rw [getInnerNodeOrEmpty, found, Option.getD_none, getInnerNode_eq hasher parent,
        ite_self] at solid
      exact absurd rfl solid
    | some stored =>
      have read : tree.getInnerNodeOrEmpty hasher ⟨depth, position / 2⟩ = stored := by
        rw [getInnerNodeOrEmpty, found, Option.getD_some]
      rw [read] at solid ⊢
      have above : tree.getNodeHash hasher ⟨depth, position / 2⟩ ≠ emptyOf hasher (height + 1) := by
        intro empty
        rcases free.merge _ _ _ _ ((valid.nodes found).trans empty) with ⟨left, right⟩
        rw [left, right, ite_self] at solid
        exact solid rfl
      rw [valid.children free found (ih parent half above)]
      exact childrenOf_select leaf height position

/-- The leaf of a stored leaf that is not empty is that of the tree. -/
theorem Valid.leaf_of_solid {position : Nat} {stored : SmtLeaf} (inside : position < 2 ^ smtDepth)
    (found : tree.leaves.get? position = some stored) (some : stored.entries ≠ []) :
    stored.hash hasher = leaf position := by
  have solid : tree.getNodeHash hasher ⟨smtDepth, position⟩ ≠ emptyOf hasher 0 := by
    rw [← valid.leaves found, SmtLeaf.hash_eq]
    exact fun empty => some (free.leaf_empty.mp empty)
  exact (valid.leaves found).trans
    (valid.getNodeHash_of_solid free root (add_zero smtDepth) inside solid)

omit root in
/-- A walk that meets an empty subtree ends at an empty leaf of the tree. -/
theorem Valid.meetsEmpty_sound [DecidableEq D] {depth place : Nat}
    (level : depth + height = smtDepth)
    (same : tree.getNodeHash hasher ⟨depth, place / 2 ^ height⟩ =
        node hasher.merge leaf height (place / 2 ^ height))
    (meets : tree.meetsEmpty hasher ⟨smtDepth, place⟩ height ⟨depth, place / 2 ^ height⟩ = true) :
    leaf place = hasher.emptyWord := by
  induction height generalizing depth with
  | zero => cases meets
  | succ bit ih =>
    rw [meetsEmpty_succ] at meets
    cases found : tree.innerNodes.get? ⟨depth, place / 2 ^ (bit + 1)⟩ with
    | none =>
      rw [found] at meets
      cases meets
    | some stored =>
      have next : depth + 1 + bit = smtDepth := by omega
      have half := div_two_pow_succ place bit
      have children := valid.children free found same
      rw [found, children, half] at meets
      simp only [childrenOf_select] at meets
      split at meets
      · rename_i empty
        rw [entry_eq hasher (show smtDepth - bit + bit = smtDepth by omega)] at empty
        exact vacant_of_node free.merge empty place rfl
      · refine ih next ?_ meets
        have read : tree.getInnerNodeOrEmpty hasher ⟨depth, place / 2 ^ bit / 2⟩ =
            childrenOf hasher leaf bit (place / 2 ^ bit / 2) := by
          rw [← half, getInnerNodeOrEmpty, found, Option.getD_some, children]
        rw [getNodeHash_succ, read]
        exact childrenOf_select leaf bit _

end Sound

/-! ## What reading validates -/

variable {tree : PartialSmt D}

section Read

variable [DecidableEq D]

theorem validate_eq_ok :
    tree.validate hasher = .ok () ↔
      (forall index node, tree.innerNodes.get? index = some node ->
        node.hash hasher = tree.getNodeHash hasher index) ∧
      forall position leaf, tree.leaves.get? position = some leaf ->
        leaf.hash hasher = tree.getNodeHash hasher ⟨smtDepth, position⟩ := by
  rw [validate, bind_unit_eq_ok, forEach_eq_ok, forEach_eq_ok, OrderedMap.forall_entries,
    forall_entries]
  simp only [ensure_eq_ok]

omit [DecidableEq D] in
theorem UniqueNodes.validate_eq_ok :
    unique.validate = .ok () ↔
      forall position leaf, unique.leaves.get? position = some leaf -> position = leaf.index := by
  rw [UniqueNodes.validate, forEach_eq_ok, OrderedMap.forall_entries]
  simp only [ensure_eq_ok]

theorem rebuildLayers_keeps (hasher : SmtHasher D) (unique : UniqueNodes D) (depth : Nat)
    (active : ActiveNodes) (tree : PartialSmt D) :
    (rebuildLayers hasher unique depth active tree).root = tree.root ∧
      (rebuildLayers hasher unique depth active tree).leaves = tree.leaves := by
  induction depth generalizing active tree with
  | zero => exact ⟨rfl, rfl⟩
  | succ depth ih =>
    rw [rebuildLayers]
    split
    · exact ih active tree
    · rename_i activeNodes _
      dsimp only
      generalize (OrderedMap.empty.insertAll
        (activeNodes.entries.map (fun entry => (entry.1.moveUp, ())))).entries.map Prod.fst =
          parents
      rw [(ih _ _).1, (ih _ _).2]
      refine foldlRecOn (motive := fun after => after.root = tree.root ∧ after.leaves = tree.leaves)
        parents (rebuildNode hasher unique) ⟨rfl, rfl⟩ (fun after kept parent _ => ?_)
      rcases insertInnerNode_keeps hasher after parent ⟨childHash hasher unique after parent.leftChild,
        childHash hasher unique after parent.rightChild⟩ with ⟨root, _, leaves⟩
      exact ⟨root.trans kept.1, leaves.trans kept.2⟩

omit [DecidableEq D] in
theorem leaves_withLeaves (unique : UniqueNodes D) (bare : tree.leaves = .empty) :
    (withLeaves unique tree).leaves = unique.leaves := by
  rw [withLeaves, bare]
  exact unique.leaves.insertAll_entries

/-- The leaves are those of the input, and everything stored is validated. -/
theorem fromUniqueNodes_valid (built : fromUniqueNodes hasher unique = .ok tree) :
    tree.leaves = unique.leaves ∧ tree.Valid hasher := by
  rw [fromUniqueNodes, bind_unit_eq_ok, UniqueNodes.validate_eq_ok] at built
  rcases built with ⟨indices, built⟩
  rcases bind_eq_ok.mp built with ⟨active, _, built⟩
  rcases bind_unit_eq_ok.mp built with ⟨checked, same⟩
  rcases Outcome.ok.inj same with rfl
  rcases validate_eq_ok.mp checked with ⟨nodes, leaves⟩
  have stored := leaves_withLeaves unique
    (rebuildLayers_keeps hasher unique smtDepth active (new unique.root)).2
  refine ⟨stored, fun found => nodes _ _ found, fun found => leaves _ _ found,
    fun {position leaf} found => ?_⟩
  rw [stored] at found
  exact (indices position leaf found).symm

end Read

end PartialSmt

/-! ## Full trees -/

namespace Smt

variable [DecidableEq D]

/-- A full tree: the nodes over leaves whose entries belong there. -/
def Whole (hasher : SmtHasher D) (tree : Smt D) : Prop :=
  ∃ entriesOf, tree.Built hasher entriesOf ∧
    forall index entry, entry ∈ entriesOf index -> leafIndex entry.1 = index

theorem Represents.whole {tree : Smt D} {content : SmtMap}
    (represents : tree.Represents hasher content) : tree.Whole hasher :=
  ⟨content.entriesAt,
    { leaves := represents.leaves
      numEntries := represents.numEntries.trans (SmtMap.size_eq_sum represents.leaves).symm
      root := represents.root
      innerNodes := represents.innerNodes },
    fun index => (content.holds_entriesAt index).here⟩

/-- The value of a key in a full tree. -/
theorem Built.getValue {tree : Smt D} {entriesOf : Nat -> List (Word × Word)}
    (built : tree.Built hasher entriesOf)
    (here : forall index entry, entry ∈ entriesOf index -> leafIndex entry.1 = index) (key : Word) :
    tree.getValue key = ((entriesOf (leafIndex key)).lookup key).getD Word.zero := by
  rw [Smt.getValue, built.leaves]
  by_cases none : entriesOf (leafIndex key) = []
  · rw [if_pos none, none]
    rfl
  · have index := index_ofEntries_of (here (leafIndex key))
    rw [if_neg none]
    simp only [getValue_eq _ index, entries_ofEntries, getD_some]

end Smt

namespace PartialSmt

variable {D : Type} [DecidableEq D] {hasher : SmtHasher D}
/-- What a partial tree that was read says about keys is what the full tree
with its root says, exactly if the leaves that the bytes list without entries
are empty. -/
theorem readFrom_agrees_iff (free : hasher.CollisionFree) {readDigest : Reader D}
    {source rest : ByteReader} {tree : PartialSmt D}
    (accepted : readFrom hasher readDigest source = .ok (tree, rest))
    {full : Smt D} (whole : full.Whole hasher) (same : full.root = tree.root) :
    ∃ listed after, UniqueNodes.listedLeaves readDigest source = .ok (listed, after) ∧
      (forall position, (tree.leaves.get? position).map SmtLeaf.entries = listed.get? position) ∧
      ((forall key value, tree.getValue hasher key = .ok value -> full.getValue key = value) ↔
        forall key, listed.get? (leafIndex key) = some [] -> full.getValue key = Word.zero) := by
  rcases Parser.seq_eq_ok.mp accepted with ⟨unique, _, read, made⟩
  rcases fromUniqueNodes_valid (mapErr_eq_ok.mp (lift_eq_ok.mp made).1) with ⟨leaves, valid⟩
  rcases UniqueNodes.readFrom_lists read with ⟨listed, after, lists, entries⟩
  rw [← leaves] at entries
  refine ⟨listed, after, lists, entries, ?_⟩
  rcases whole with ⟨entriesOf, built, here⟩
  have root := same.symm.trans built.root
  constructor
  · intro agrees key none
    rw [← entries, map_eq_some_iff] at none
    rcases none with ⟨stored, found, none⟩
    refine agrees key Word.zero ?_
    rw [getValue, getTrackedLeaf, found]
    simp [getValue_eq _ (valid.indices found), none, okOr]
  · intro empty key value read
    rw [getValue, okOr_eq_ok, Option.map_eq_some_iff] at read
    rcases read with ⟨stored, tracked, rfl⟩
    rw [built.getValue here]
    rcases tracked_cases tracked with found | ⟨rfl, vacant⟩
    · by_cases none : stored.entries = []
      · have zero := empty key (by rw [← entries, found, map_some, none])
        rw [built.getValue here] at zero
        rw [zero, getValue_eq _ (valid.indices found), none]
        rfl
      · have hashes := valid.leaf_of_solid free root (leafIndex_lt key) found none
        rw [hash_eq] at hashes
        rw [getValue_eq _ (valid.indices found), free.leaf hashes, getD_some]
    · have none : entriesOf (leafIndex key) = [] := by
        refine free.leaf_empty.mp ?_
        rcases vacant with empty | meets
        · rw [root] at empty
          exact vacant_of_node free.merge empty _ (Nat.div_eq_of_lt (leafIndex_lt key))
        · have hash : tree.getNodeHash hasher ⟨0, leafIndex key / 2 ^ smtDepth⟩ =
              node hasher.merge (fun index => hashEntries hasher (entriesOf index)) smtDepth
                (leafIndex key / 2 ^ smtDepth) := by
            rw [leafIndex_div]
            exact root
          have walk : tree.meetsEmpty hasher ⟨smtDepth, leafIndex key⟩ smtDepth
              ⟨0, leafIndex key / 2 ^ smtDepth⟩ = true := by
            rw [leafIndex_div]
            exact meets
          exact valid.meetsEmpty_sound free (zero_add smtDepth) hash walk
      rw [none, getValue_eq (.empty (leafIndex key)) rfl]
      rfl

/-! ## One leaf as bytes -/

/-- Digests that are all the same, in one byte. -/
def readConstant (digest : D) : Reader D := do
  let _ ← readU8
  pure digest

/-- The bytes of a root and of one leaf. -/
def leafBytes (leaf : SmtLeaf) : List UInt8 :=
  [0] ++ (writeU64 0 ++ (writeU64 1 ++ ((writeU64 leaf.index ++ leaf.writeInto) ++ writeU64 0)))

/-- The tree of one entry, read from the bytes of its leaf. -/
theorem readFrom_agrees_one_entry :
    ∃ tree rest, Smt.Reachable freeHasher oneEntry ∧
      readFrom freeHasher (readConstant oneEntry.root)
        (Source.new (leafBytes (.single otherKey otherValue)) none) = .ok (tree, rest) ∧
      tree.getValue freeHasher otherKey = .ok otherValue ∧
        oneEntry.getValue otherKey = otherValue := by
  have evaluated : ∃ result, readFrom freeHasher (readConstant oneEntry.root)
      (Source.new (leafBytes (.single otherKey otherValue)) none) = .ok result ∧
      oneEntry.root = result.1.root ∧
      result.1.leaves.entries = [(5, .single otherKey otherValue)] := by
    decide +kernel
  rcases evaluated with ⟨⟨tree, rest⟩, accepted, same, stored⟩
  rcases readFrom_agrees_iff freeHasher_collisionFree accepted oneEntry_represents.whole same with
    ⟨listed, _, _, entries, agrees⟩
  have read : tree.getValue freeHasher otherKey = .ok otherValue := by
    rw [getValue, getTrackedLeaf, OrderedMap.get?, stored]
    rfl
  refine ⟨tree, rest, ⟨_, rfl⟩, accepted, read, agrees.mpr (fun key none => ?_) _ _ read⟩
  -- the leaf that the bytes list has an entry
  rw [← entries, OrderedMap.get?, stored, lookup_cons_eq] at none
  split at none
  · cases none
  · cases none

/-- The root of a tree with one entry is accepted with the leaf of the entry
said to be empty, and then the key is said to have no value. -/
theorem readFrom_hides_entry :
    ∃ tree rest, Smt.Reachable freeHasher oneEntry ∧
      readFrom freeHasher (readConstant oneEntry.root) (Source.new (leafBytes (.empty 5)) none) =
        .ok (tree, rest) ∧
      oneEntry.root = tree.root ∧ tree.getValue freeHasher otherKey = .ok Word.zero ∧
      oneEntry.getValue otherKey = otherValue := by
  have evaluated : ∃ result, readFrom freeHasher (readConstant oneEntry.root)
      (Source.new (leafBytes (.empty 5)) none) = .ok result ∧
      oneEntry.root = result.1.root ∧ result.1.leaves.entries = [(5, .empty 5)] := by
    decide +kernel
  rcases evaluated with ⟨⟨tree, rest⟩, accepted, same, stored⟩
  refine ⟨tree, rest, ⟨_, rfl⟩, accepted, same, ?_, by decide +kernel⟩
  rw [getValue, getTrackedLeaf, OrderedMap.get?, stored]
  rfl

end PartialSmt

end MidenVm.Crypto
