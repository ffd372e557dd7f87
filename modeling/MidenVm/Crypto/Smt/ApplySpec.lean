import MidenVm.Crypto.Smt.MutationsSpec

namespace MidenVm.Crypto

open Foundation List Effect OrderedMap
open Foundation.Mountain
open Foundation.SparseTree

/-!
# Applying a mutation set

The nodes of a set are written first, then its pairs, and the root last.  The
nodes cannot fail; a pair can, when its leaf is full, and then the nodes are
already those of the new map.  With room for the whole batch no pair fails in
any order.
-/

namespace Smt

variable {D : Type} [DecidableEq D] {hasher : SmtHasher D}

/-! ## Nodes -/

variable {entries : List (NodeIndex × NodeMutation D)} {content : SmtMap}
  {mutations : OrderedMap NodeIndex (NodeMutation D)} {pairs : OrderedMap Word Word} {tree : Smt D}
  {writes : List (Word × Word)}

theorem applyNode_fst (hasher : SmtHasher D) (tree : Smt D) (entry : NodeIndex × NodeMutation D) :
    (applyNode hasher tree entry).1 = tree.innerNodes.get? entry.1 := by
  rcases entry with ⟨index, _ | node⟩
  · rfl
  · rw [applyNode, insertInnerNode]
    split <;> rfl

/-- Trees that differ in their inner nodes only. -/
def SameValues (tree after : Smt D) : Prop :=
  after.root = tree.root ∧ after.numEntries = tree.numEntries ∧ after.leaves = tree.leaves

/-- An addition is of a node that is not empty. -/
def Solid (hasher : SmtHasher D) (entry : NodeIndex × NodeMutation D) : Prop :=
  entry.2 ≠ .addition (EmptySubtreeRoots.getInnerNode hasher smtDepth entry.1.depth)

theorem applyNode_snd (tree : Smt D) {entry : NodeIndex × NodeMutation D}
    (solid : Solid hasher entry) :
    SameValues tree (applyNode hasher tree entry).2 ∧
      forall index, (applyNode hasher tree entry).2.innerNodes.get? index =
        if index = entry.1 then entry.2.node else tree.innerNodes.get? index := by
  rcases entry with ⟨place, _ | node⟩
  · exact ⟨⟨rfl, rfl, rfl⟩, fun index => get?_erase _ _ _⟩
  · have filled : node ≠ EmptySubtreeRoots.getInnerNode hasher smtDepth place.depth :=
      fun same => solid (congrArg NodeMutation.addition same)
    rw [applyNode, insertInnerNode, if_neg filled]
    exact ⟨⟨rfl, rfl, rfl⟩, fun index => get?_insert _ _ _ _⟩

/-- The changes of nodes, one after the other. -/
abbrev applyNodes (hasher : SmtHasher D) (entries : List (NodeIndex × NodeMutation D)) (tree : Smt D) : Smt D :=
  entries.foldl (fun tree entry => (applyNode hasher tree entry).2) tree

theorem applyNodes_spec (distinct : (entries.map Prod.fst).Nodup)
    (solid : forall entry, entry ∈ entries -> Solid hasher entry) (tree : Smt D) :
    SameValues tree (applyNodes hasher entries tree) ∧
      forall index, (applyNodes hasher entries tree).innerNodes.get? index =
          match entries.lookup index with
          | some mutation => mutation.node
          | none => tree.innerNodes.get? index := by
  induction entries generalizing tree with
  | nil => exact ⟨⟨rfl, rfl, rfl⟩, fun _ => rfl⟩
  | cons entry rest ih =>
    rcases entry with ⟨place, mutation⟩
    rw [map_cons, nodup_cons] at distinct
    rcases applyNode_snd tree (solid _ mem_cons_self) with ⟨values, written⟩
    rcases ih distinct.2 (fun other member => solid other (mem_cons_of_mem _ member))
      (applyNode hasher tree (place, mutation)).2 with ⟨later, nodes⟩
    rw [applyNodes, foldl_cons]
    refine ⟨⟨later.1.trans values.1, later.2.1.trans values.2.1, later.2.2.trans values.2.2⟩,
      fun index => ?_⟩
    rw [nodes, lookup_cons]
    by_cases here : index = place
    · have absent : rest.lookup index = none := lookup_eq_none.mpr (fun other member same =>
        distinct.1 (mem_map.mpr ⟨other, member, same.trans here⟩))
      rw [absent, beq_iff_eq.mpr here, written, if_pos here]
    · rw [beq_eq_false_iff_ne.mpr here, written, if_neg here]

/-- What was noted to undo the nodes. -/
theorem applyNodesReversing_spec (distinct : (entries.map Prod.fst).Nodup)
    (solid : forall entry, entry ∈ entries -> Solid hasher entry)
    (reverse : OrderedMap NodeIndex (NodeMutation D)) (tree : Smt D) :
    (applyNodesReversing hasher entries reverse tree).2 = applyNodes hasher entries tree ∧
      forall index, (applyNodesReversing hasher entries reverse tree).1.get? index =
        ((entries.lookup index).bind (reverseNode (tree.innerNodes.get? index))).or
          (reverse.get? index) := by
  induction entries generalizing reverse tree with
  | nil => exact ⟨rfl, fun _ => rfl⟩
  | cons entry rest ih =>
    rcases entry with ⟨place, mutation⟩
    rw [map_cons, nodup_cons] at distinct
    have written := (applyNode_snd tree (solid _ mem_cons_self)).2
    have step (noted : OrderedMap NodeIndex (NodeMutation D)) := ih distinct.2
      (fun other member => solid other (mem_cons_of_mem _ member)) noted
      (applyNode hasher tree (place, mutation)).2
    have old := applyNode_fst hasher tree (place, mutation)
    have absent : rest.lookup place = none := lookup_eq_none.mpr (fun other member same =>
      distinct.1 (mem_map.mpr ⟨other, member, same⟩))
    have elsewhere {noted : OrderedMap NodeIndex (NodeMutation D)} {index : NodeIndex}
        (apart : index ≠ place) (same : noted.get? index = reverse.get? index) :
        (applyNodesReversing hasher rest noted
          (applyNode hasher tree (place, mutation)).2).1.get? index =
        ((((place, mutation) :: rest).lookup index).bind
          (reverseNode (tree.innerNodes.get? index))).or (reverse.get? index) := by
      rw [(step noted).2, lookup_cons, beq_eq_false_iff_ne.mpr apart, written, if_neg apart, same]
    rw [applyNodesReversing, applyNodes, foldl_cons]
    simp only [old]
    cases undone : reverseNode (tree.innerNodes.get? place) mutation with
    | none =>
      refine ⟨(step reverse).1, fun index => ?_⟩
      by_cases here : index = place
      · rw [here]
        simp [(step reverse).2, absent, undone]
      · exact elsewhere here rfl
    | some undo =>
      refine ⟨(step (reverse.insert place undo)).1, fun index => ?_⟩
      by_cases here : index = place
      · rw [here]
        simp [(step (reverse.insert place undo)).2, absent, undone, get?_insert]
      · exact elsewhere here (by rw [get?_insert, if_neg here])

theorem Transforms.solid {target : SmtMap}
    (transforms : Transforms hasher content target mutations pairs)
    (order : MapOrder NodeIndex (NodeMutation D)) (entry : NodeIndex × NodeMutation D)
    (member : entry ∈ order.list mutations) : Solid hasher entry := by
  rcases entry with ⟨index, mutation⟩
  intro empty
  have nodes := transforms.nodes index
  rw [overlay, order.mem_list.mp member] at nodes
  change mutation = _ at empty
  rw [empty] at nodes
  exact innerNodeOf_ne_empty nodes.symm rfl

/-- The tree after the nodes were written has the nodes of the second map. -/
theorem Transforms.nodes_applied {target : SmtMap}
    (transforms : Transforms hasher content target mutations pairs)
    (order : MapOrder NodeIndex (NodeMutation D)) (represents : tree.Represents hasher content) :
    let after := applyNodes hasher (order.list mutations) tree
    after.HoldsLeaves content ∧
      forall index, after.innerNodes.get? index =
        innerNodeOf hasher (target.leafHash hasher) index := by
  rcases applyNodes_spec (order.nodup_keys mutations) (transforms.solid order) tree with
    ⟨values, nodes⟩
  refine ⟨⟨values.2.1.trans represents.numEntries, fun index => ?_⟩, fun index => ?_⟩
  · rw [values.2.2, represents.leaves]
  · have written := nodes index
    rw [order.lookup_list, represents.innerNodes] at written
    exact written.trans (transforms.nodes index)

/-! ## Pairs -/

omit [DecidableEq D] in
/-- A batch that fits in its order is written as a whole. -/
theorem applyPairs_spec (holds : tree.HoldsLeaves content) (fitting : content.Fitting writes) :
    ∃ after, forEach (fun pair : Word × Word => (insertValue pair.1 pair.2).done) writes tree
        = ((.ok () : Outcome (MerkleError D) Unit), after) ∧
      after.HoldsLeaves (content.writeAll writes) ∧ after.root = tree.root ∧
      after.innerNodes = tree.innerNodes := by
  induction writes generalizing tree content with
  | nil => exact ⟨tree, rfl, holds, rfl, rfl⟩
  | cons pair rest ih =>
    rcases holds.insertValue_room fitting.1 with ⟨stored, ran, leaves, root, nodes⟩
    rcases ih leaves fitting.2 with ⟨after, continued, final, finalRoot, finalNodes⟩
    refine ⟨after, ?_, final, finalRoot.trans root, finalNodes.trans nodes⟩
    have done : (insertValue pair.1 pair.2).done tree = (.ok (), stored) := by
      rw [done, run_bind_ok ran]
      rfl
    rw [forEach, run_bind_ok done]
    exact continued

omit [DecidableEq D] in
/-- The values that were replaced. -/
theorem applyPairsReversing_spec (holds : tree.HoldsLeaves content)
    (distinct : SmtMap.Distinct writes)
    (fitting : content.Fitting writes) (reversePairs : OrderedMap Word Word) :
    ∃ after undo, applyPairsReversing writes reversePairs tree = (.ok undo, after) ∧
      after.HoldsLeaves (content.writeAll writes) ∧ after.root = tree.root ∧
      after.innerNodes = tree.innerNodes ∧
      forall key, undo.get? key =
        ((writes.lookup key).map (fun _ => content.value key)).or (reversePairs.get? key) := by
  induction writes generalizing tree content reversePairs with
  | nil => exact ⟨tree, reversePairs, rfl, holds, rfl, rfl, fun _ => rfl⟩
  | cons pair rest ih =>
    rcases pair with ⟨key, value⟩
    rcases SmtMap.distinct_cons.mp distinct with ⟨apart, others⟩
    rcases holds.insertValue_room fitting.1 with ⟨stored, ran, leaves, root, nodes⟩
    rcases ih leaves others fitting.2 (reversePairs.insert key (content.value key)) with
      ⟨after, undo, continued, final, finalRoot, finalNodes, replaced⟩
    refine ⟨after, undo, ?_, final, finalRoot.trans root, finalNodes.trans nodes, fun wanted => ?_⟩
    · rw [applyPairsReversing, run_bind_ok ran]
      cases found : content.map.get? key with
      | none | some old =>
        rw [SmtMap.value, found] at continued
        exact continued
    · rw [replaced, lookup_cons, get?_insert, SmtMap.value_write]
      by_cases here : wanted = key
      · have absent : rest.lookup key = none := lookup_eq_none.mpr apart
        simp [here, absent]
      · rw [if_neg here, if_neg here, beq_eq_false_iff_ne.mpr here]

/-- A pair that overflows its leaf is refused when the nodes are written. -/
theorem Transforms.apply_full {target : SmtMap} {set : MutationSet D}
    (transforms : Transforms hasher content target set.nodeMutations set.newPairs)
    (represents : tree.Represents hasher content) (oldRoot : set.oldRoot = tree.root)
    (nodeOrder : MapOrder NodeIndex (NodeMutation D)) (pairOrder : MapOrder Word Word)
    {pair : Word × Word}
    {rest : List (Word × Word)} (listed : pairOrder.list set.newPairs = pair :: rest)
    (overflows : Overflows content pair.1 pair.2) :
    ∃ error after, applyMutations hasher nodeOrder pairOrder set tree = (.err error, after) ∧
      forall index, after.innerNodes.get? index =
        innerNodeOf hasher (target.leafHash hasher) index := by
  rcases transforms.nodes_applied nodeOrder represents with ⟨holds, nodes⟩
  have checked : checkRoot set tree = (.ok (), tree) := by
    rw [checkRoot, check, if_neg (not_not.mpr oldRoot)]
  have refused := run_bind_err (holds.insertValue_full overflows) (fun _ => pure ())
  refine ⟨.tooManyLeafEntries ((content.entriesAt (leafIndex pair.1)).length + 1), _, ?_, nodes⟩
  rw [applyMutations, run_bind_ok checked, run_update_bind, listed]
  exact run_bind_err (run_bind_err refused _) _

/-! ## Sets -/

/-- A set stands for the step from one map to another, and every leaf has room
for all the keys it brings. -/
structure Steps (hasher : SmtHasher D) (content target : SmtMap) (set : MutationSet D) : Prop
    extends Transforms hasher content target set.nodeMutations set.newPairs where
  oldRoot : set.oldRoot = content.root hasher
  newRoot : set.newRoot = target.root hasher
  room : content.Room set.newPairs.entries

section Steps

variable {content target : SmtMap} {set : MutationSet D} (steps : Steps hasher content target set)
include steps

theorem Steps.fitting (order : MapOrder Word Word) : content.Fitting (order.list set.newPairs) :=
  (steps.room.perm (order.perm set.newPairs).symm).fitting (distinct_list order set.newPairs)

variable {tree : Smt D} (represents : tree.Represents hasher content)
include represents

theorem Steps.checkRoot : checkRoot set tree = (.ok (), tree) := by
  rw [Smt.checkRoot, check, if_neg]
  rw [not_not, steps.oldRoot, represents.root]

/-- Applying a set performs its step. -/
theorem Steps.apply (nodeOrder : MapOrder NodeIndex (NodeMutation D))
    (pairOrder : MapOrder Word Word) :
    ∃ after, applyMutations hasher nodeOrder pairOrder set tree = (.ok (), after) ∧
      after.Represents hasher target := by
  rcases steps.toTransforms.nodes_applied nodeOrder represents with ⟨holds, nodes⟩
  rcases applyPairs_spec holds (steps.fitting pairOrder) with
    ⟨written, ran, leaves, _, sameNodes⟩
  rw [steps.writeAll pairOrder] at leaves
  refine ⟨{ written with root := set.newRoot }, ?_,
    ⟨⟨leaves.numEntries, leaves.leaves⟩, steps.newRoot, fun index => ?_⟩⟩
  · rw [applyMutations, run_bind_ok (steps.checkRoot represents), run_update_bind,
      run_bind_ok ran]
    rfl
  · exact (congrArg (fun map => get? map index) sameNodes).trans (nodes index)

/-- Applying a set with reversion performs its step and returns the step back. -/
theorem Steps.applyWithReversion (nodeOrder : MapOrder NodeIndex (NodeMutation D))
    (pairOrder : MapOrder Word Word) :
    ∃ after reverse, applyMutationsWithReversion hasher nodeOrder pairOrder set tree =
        (.ok reverse, after) ∧
      after.Represents hasher target ∧ Steps hasher target content reverse := by
  rcases steps.toTransforms.nodes_applied nodeOrder represents with ⟨holds, nodes⟩
  rcases applyNodesReversing_spec (nodeOrder.nodup_keys set.nodeMutations) (steps.toTransforms.solid nodeOrder)
    .empty tree with ⟨same, noted⟩
  rcases applyPairsReversing_spec holds (distinct_list pairOrder set.newPairs)
    (steps.fitting pairOrder) .empty with ⟨written, undo, ran, leaves, _, sameNodes, replaced⟩
  rw [steps.writeAll pairOrder] at leaves
  have undoes (key : Word) : undo.get? key = (set.newPairs.get? key).map (fun _ => content.value key) := by
    rw [replaced, pairOrder.lookup_list, get?_empty, Option.or_none]
  set reversing := applyNodesReversing hasher (nodeOrder.list set.nodeMutations) .empty
  refine ⟨{ written with root := set.newRoot },
    ⟨set.newRoot, (reversing tree).1,
      undo, set.oldRoot⟩, ?_, ⟨⟨leaves.numEntries, leaves.leaves⟩, steps.newRoot, fun index => ?_⟩,
    ⟨⟨fun index => ?_, fun key => ?_, fun key value found => ?_⟩, steps.newRoot, steps.oldRoot, ?_⟩⟩
  · have first : (modifyGet reversing : Effect (Smt D) (MerkleError D) _) tree =
        (.ok (reversing tree).1, applyNodes hasher (nodeOrder.list set.nodeMutations) tree) := by
      rw [Effect.modifyGet, same]
    rw [applyMutationsWithReversion, run_bind_ok (steps.checkRoot represents), run_bind_ok first]
    rw [run_bind_ok ran]
    rfl
  · exact (congrArg (fun map => get? map index) sameNodes).trans (nodes index)
  · -- Where the set does not change a node, the two maps agree.
    have forward := steps.nodes index
    rw [overlay] at forward
    rw [overlay, noted, nodeOrder.lookup_list, represents.innerNodes, get?_empty, Option.or_none]
    cases found : set.nodeMutations.get? index with
    | none =>
      rw [found] at forward
      exact forward.symm
    | some mutation =>
      rw [found] at forward
      cases old : innerNodeOf hasher (content.leafHash hasher) index with
      | none =>
        cases mutation with
        | removal => exact forward.symm
        | addition node => rfl
      | some node =>
        cases mutation with
        | removal => rfl
        | addition other => rfl
  · rw [undoes, steps.value]
    cases found : set.newPairs.get? key with
    | none => rfl
    | some value => rfl
  · rw [undoes] at found
    rcases Option.map_eq_some_iff.mp found with ⟨new, written, rfl⟩
    rw [steps.value, written]
    exact Ne.symm (steps.changes key new written)
  · have back := SmtMap.Room.undo (distinct_list pairOrder set.newPairs)
      (steps.room.perm (pairOrder.perm set.newPairs).symm)
    rw [steps.writeAll pairOrder] at back
    refine back.perm ((perm_ext_iff_of_nodup (List.Nodup.of_map Prod.fst ?_)
      (List.Nodup.of_map Prod.fst undo.nodup_keys)).mpr (fun pair => ?_))
    · rw [map_map]
      exact distinct_list pairOrder set.newPairs
    · rw [show pair = (pair.1, pair.2) from rfl, mem_entries, undoes,
        Option.map_eq_some_iff, mem_map]
      constructor
      · rintro ⟨other, member, equal⟩
        rcases Prod.mk.inj equal with ⟨key, value⟩
        rw [← key, ← value]
        exact ⟨other.2, pairOrder.mem_list.mp member, rfl⟩
      · rintro ⟨value, found, same⟩
        exact ⟨(pair.1, value), pairOrder.mem_list.mpr found, by rw [same]⟩

/-- A set applied to the tree of another map is refused. -/
theorem Steps.refused (free : hasher.CollisionFree) {other : Smt D} {otherContent : SmtMap}
    (otherRepresents : other.Represents hasher otherContent) (different : other ≠ tree)
    (nodeOrder : MapOrder NodeIndex (NodeMutation D)) (pairOrder : MapOrder Word Word) :
    applyMutations hasher nodeOrder pairOrder set other =
      (.err (.conflictingRoots other.root set.oldRoot), other) := by
  have apart : set.oldRoot ≠ other.root := by
    rw [steps.oldRoot, otherRepresents.root]
    intro same
    have maps := SmtMap.root_injective free same
    exact different (otherRepresents.unique (maps ▸ represents))
  change Effect.bind (Smt.checkRoot set) _ other = _
  rw [Effect.bind, Smt.checkRoot, Effect.check, if_pos apart]

end Steps

end Smt

end MidenVm.Crypto
