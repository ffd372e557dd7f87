import MidenVm.Crypto.Smt.Batch

namespace MidenVm.Crypto

open Foundation List Outcome OrderedMap SmtLeaf SmtMap
open Foundation.Mountain
open Foundation.SparseTree

/-!
# What a mutation set stands for

A mutation set stands for the step from one map to another: its nodes, laid
over those of the first map, are those of the second, and its pairs are the
values that differ.  `Transforms` says so.  Computing a batch keeps it pair by
pair, applying a set performs the step, and the set that a reversing
application returns is the same step the other way.
-/

variable {D : Type}

/-! ## Nodes with changes laid over them -/

variable {index : Nat} {tree : Smt D} {content : SmtMap} {pair : Word × Word}

/-- The node that a change leaves. -/
def NodeMutation.node : NodeMutation D -> Option (InnerNode D)
  | .removal => none
  | .addition node => some node

/-- Stored nodes with changes laid over them. -/
def overlay (stored : NodeIndex -> Option (InnerNode D))
    (mutations : OrderedMap NodeIndex (NodeMutation D)) (index : NodeIndex) :
    Option (InnerNode D) :=
  match mutations.get? index with
  | some mutation => mutation.node
  | none => stored index

theorem overlay_insert (stored : NodeIndex -> Option (InnerNode D))
    (mutations : OrderedMap NodeIndex (NodeMutation D)) (index : NodeIndex)
    (mutation : NodeMutation D) (wanted : NodeIndex) :
    overlay stored (mutations.insert index mutation) wanted =
      if wanted = index then mutation.node else overlay stored mutations wanted := by
  rw [overlay, get?_insert]
  split
  · rename_i found
    split at found
    · rename_i here
      rw [if_pos here, Option.some.inj found]
    · rename_i apart
      rw [if_neg apart, overlay, found]
  · rename_i found
    split at found
    · cases found
    · rename_i apart
      rw [if_neg apart, overlay, found]

namespace Smt

theorem prospectiveNode_eq (hasher : SmtHasher D) (tree : Smt D)
    (mutations : OrderedMap NodeIndex (NodeMutation D)) (index : NodeIndex) :
    prospectiveNode hasher tree mutations index =
      (overlay tree.innerNodes.get? mutations index).getD
        (EmptySubtreeRoots.getInnerNode hasher smtDepth index.depth) := by
  rw [prospectiveNode, overlay]
  rcases mutations.get? index with _ | _ | node
  · rfl
  · rfl
  · rfl

variable [DecidableEq D] {hasher : SmtHasher D}

theorem innerNodeOf_ne_empty {leaf : Nat -> D} {index : NodeIndex} {stored : InnerNode D}
    (found : innerNodeOf hasher leaf index = some stored) :
    stored ≠ EmptySubtreeRoots.getInnerNode hasher smtDepth index.depth := by
  rw [innerNodeOf] at found
  split at found
  · rename_i filled
    cases found
    intro same
    have hash := congrArg (InnerNode.hash hasher) same
    have above : smtDepth - index.depth = smtDepth - index.depth - 1 + 1 := by omega
    rw [getInnerNode_eq hasher (above ▸ Nat.add_sub_of_le (le_of_lt filled.1)), hash_childrenOf,
      ← above] at hash
    apply filled.2
    rw [hash, above]
    rfl
  · cases found

/-- The changes above a leaf, laid over the nodes, are the nodes of the new
leaves. -/
theorem mutateNodes_spec (free : hasher.CollisionFree) {leaf new : Nat -> D} {place : Nat}
    {value : D} (changed : new = Function.update leaf place value) {depth height : Nat}
    (level : depth + height = smtDepth) {mutations : OrderedMap NodeIndex (NodeMutation D)}
    (stored : forall index, overlay tree.innerNodes.get? mutations index =
        innerNodeOf hasher (if depth ≤ index.depth then new else leaf) index) :
    let result := mutateNodes hasher tree depth (place / 2 ^ height)
      (node hasher.merge new height (place / 2 ^ height)) mutations
    result.1 = node hasher.merge new smtDepth (place / 2 ^ smtDepth) ∧
      forall index, overlay tree.innerNodes.get? result.2 index = innerNodeOf hasher new index := by
  induction depth generalizing height mutations with
  | zero =>
    rw [Nat.zero_add] at level
    rw [level]
    refine ⟨rfl, fun index => ?_⟩
    exact (stored index).trans (by rw [if_pos (Nat.zero_le _)])
  | succ depth ih =>
    have next : depth + (height + 1) = smtDepth := by omega
    have up := (div_two_pow_succ place height).symm
    -- The node on the path still has the children of the old leaves.
    have read : prospectiveNode hasher tree mutations ⟨depth, place / 2 ^ (height + 1)⟩ =
        childrenOf hasher leaf height (place / 2 ^ (height + 1)) := by
      rw [prospectiveNode_eq, stored, if_neg (Nat.not_succ_le_self depth),
        innerNodeOf_getD free.emptyFree next]
    rw [mutateNodes]
    simp only [up, read, replaceChild_update changed, hash_childrenOf, entry_eq hasher next]
    refine ih next (stored_level changed next stored (fun index => ?_))
    rw [overlay_insert]
    by_cases here : index = ⟨depth, place / 2 ^ (height + 1)⟩
    · rw [if_pos here, if_pos here, innerNodeOf_eq hasher next]
      split <;> rfl
    · rw [if_neg here, if_neg here]

/-! ## Prospective leaves -/

theorem constructProspectiveLeaf_filled (index : Nat) {entries : List (Word × Word)}
    (filled : entries ≠ []) (key value : Word) :
    constructProspectiveLeaf (.ofEntries index entries) key value =
      if value ≠ Word.zero then
        match (ofEntries index entries).insert key value with
        | (.ok _, changed) => .ok changed
        | (.err error, _) => .err error
        | (.panic, _) => .panic
      else .ok ((ofEntries index entries).remove key).2 := by
  rcases entries with _ | ⟨first, _ | ⟨second, rest⟩⟩
  · exact absurd rfl filled
  · rfl
  · rfl

theorem constructProspectiveLeaf_room (changes : pair.2 ≠ content.value pair.1)
    (room : ¬ Overflows content pair.1 pair.2) :
    constructProspectiveLeaf
        (.ofEntries (leafIndex pair.1) (content.entriesAt (leafIndex pair.1))) pair.1 pair.2 =
      .ok (.ofEntries (leafIndex pair.1)
        ((content.write pair.1 pair.2).entriesAt (leafIndex pair.1))) := by
  have sorted := (content.holds_entriesAt (leafIndex pair.1)).sorted
  rw [entriesAt_write, if_pos rfl]
  by_cases none : content.entriesAt (leafIndex pair.1) = []
  · have absent : content.value pair.1 = Word.zero := by
      rw [value_eq_entriesAt, none]
      rfl
    rw [if_neg (fun zero => changes (zero.trans absent.symm)), none]
    rfl
  · rw [constructProspectiveLeaf_filled _ none]
    by_cases zero : pair.2 = Word.zero
    · rw [if_neg (not_not.mpr zero), if_pos zero, remove_ofEntries pair.1 sorted]
    · rw [if_pos zero, if_neg zero, insert_room pair.2 sorted (fun full => room ⟨zero, full⟩)]

theorem constructProspectiveLeaf_full (overflows : Overflows content pair.1 pair.2) :
    constructProspectiveLeaf
        (.ofEntries (leafIndex pair.1) (content.entriesAt (leafIndex pair.1))) pair.1 pair.2 =
      .err (.tooManyLeafEntries ((content.entriesAt (leafIndex pair.1)).length + 1)) := by
  rcases overflows with ⟨filled, full⟩
  have some : content.entriesAt (leafIndex pair.1) ≠ [] := fun none =>
    not_full_of_short (by rw [none]; exact Nat.zero_le 1) full
  rw [constructProspectiveLeaf_filled _ some, if_pos filled,
    insert_full _ _ (content.holds_entriesAt (leafIndex pair.1)).sorted full]

/-- A batch for one leaf that fits in its order. -/
theorem prospectiveLeaf_fold {writes : List (Word × Word)} (distinct : SmtMap.Distinct writes)
    (fitting : content.Fitting writes)
    (here : forall pair, pair ∈ writes -> leafIndex pair.1 = index)
    (changes : forall pair, pair ∈ writes -> pair.2 ≠ content.value pair.1) :
    writes.foldlM (fun leaf pair => constructProspectiveLeaf leaf pair.1 pair.2)
        (ofEntries index (content.entriesAt index)) =
      .ok (.ofEntries index ((content.writeAll writes).entriesAt index)) := by
  induction writes generalizing content with
  | nil => rfl
  | cons pair rest ih =>
    rcases distinct_cons.mp distinct with ⟨apart, others⟩
    have same := here pair mem_cons_self
    subst same
    rw [foldlM_cons, constructProspectiveLeaf_room (changes pair mem_cons_self)
      fitting.1, ok_bind]
    refine ih others fitting.2 (fun other member => here other (mem_cons_of_mem _ member))
      (fun other member => ?_)
    rw [value_write, if_neg (apart other member)]
    exact changes other (mem_cons_of_mem _ member)

/-! ## Computing a set -/

/-- The step from one map to another as changes of nodes and pairs. -/
structure Transforms (hasher : SmtHasher D) (content target : SmtMap)
    (mutations : OrderedMap NodeIndex (NodeMutation D)) (pairs : OrderedMap Word Word) : Prop where
  nodes : forall index, overlay (innerNodeOf hasher (content.leafHash hasher)) mutations index =
    innerNodeOf hasher (target.leafHash hasher) index
  value : forall key, target.value key = (pairs.get? key).getD (content.value key)
  changes : forall key value, pairs.get? key = some value -> value ≠ content.value key

variable (order : MapOrder Word Word) (pairs : OrderedMap Word Word)

/-- The pairs of a map that go to one leaf, as the code visits them. -/
def pairsAt (index : Nat) : List (Word × Word) :=
  (order.list pairs).filter (fun pair => leafIndex pair.1 = index)

theorem distinct_list :
    SmtMap.Distinct (order.list pairs) := order.nodup_keys pairs

theorem distinct_pairsAt (index : Nat) :
    SmtMap.Distinct (pairsAt order pairs index) :=
  (distinct_list order pairs).sublist filter_sublist

theorem mem_pairsAt {order : MapOrder Word Word} {pairs : OrderedMap Word Word} :
    pair ∈ pairsAt order pairs index ↔ pairs.get? pair.1 = some pair.2 ∧
      leafIndex pair.1 = index := by
  rw [pairsAt, mem_filter, decide_eq_true_eq, ← order.mem_list]

section Transforms

variable {content target : SmtMap} {mutations : OrderedMap NodeIndex (NodeMutation D)}
  {pairs : OrderedMap Word Word} (transforms : Transforms hasher content target mutations pairs)
variable (order : MapOrder Word Word)
include transforms

/-- Writing the pairs, in any order, performs the step. -/
theorem Transforms.writeAll : content.writeAll (order.list pairs) = target := by
  refine ext_value (fun key => ?_)
  rw [transforms.value]
  cases found : pairs.get? key with
  | none =>
    refine value_writeAll_apart (fun pair member same => ?_) content
    rw [← same, order.mem_list.mp member] at found
    cases found
  | some value =>
    exact value_writeAll_of_mem (distinct_list order pairs) (order.mem_list.mpr found) content

/-- The pairs of a leaf give the leaf. -/
theorem Transforms.entriesAt_pairsAt (index : Nat) :
    (content.writeAll (pairsAt order pairs index)).entriesAt index = target.entriesAt index := by
  refine entriesAt_congr (fun key here => ?_)
  rw [transforms.value]
  cases found : pairs.get? key with
  | none =>
    refine value_writeAll_apart (fun pair member same => ?_) content
    rw [← same, (mem_pairsAt.mp member).1] at found
    cases found
  | some value =>
    exact value_writeAll_of_mem (distinct_pairsAt order pairs index)
      (show (key, value) ∈ _ from mem_pairsAt.mpr ⟨found, here⟩) content

/-- The leaf that the earlier pairs leave. -/
theorem Transforms.fold_pairsAt (fitting : content.Fitting (pairsAt order pairs index)) :
    (pairsAt order pairs index).foldlM
        (fun leaf pair => constructProspectiveLeaf leaf pair.1 pair.2)
        (ofEntries index (content.entriesAt index)) =
      .ok (.ofEntries index (target.entriesAt index)) := by
  rw [← transforms.entriesAt_pairsAt order index]
  exact prospectiveLeaf_fold (distinct_pairsAt order pairs index) fitting
    (fun pair member => (mem_pairsAt.mp member).2)
    (fun pair member => transforms.changes pair.1 pair.2 (mem_pairsAt.mp member).1)

end Transforms

/-- What is pending after some pairs stands for the step they make. -/
structure Computes (hasher : SmtHasher D) (content current : SmtMap) (pending : Pending D) : Prop
    extends Transforms hasher content current pending.nodeMutations pending.newPairs where
  root : pending.newRoot = current.root hasher
  seen : forall key value, pending.newPairs.get? key = some value -> key ∈ pending.seenKeys

theorem computes_start (hasher : SmtHasher D) (represents : tree.Represents hasher content) :
    Computes hasher content content ⟨[], tree.root, .empty, .empty⟩ where
  nodes _ := rfl
  value _ := rfl
  changes _ _ impossible := by cases impossible
  root := represents.root
  seen _ _ impossible := by cases impossible

section Pair

variable {tree : Smt D} {content current : SmtMap} {pending : Pending D}
  (represents : tree.Represents hasher content) (computes : Computes hasher content current pending)
  {pair : Word × Word} (unseen : pair.1 ∉ pending.seenKeys) (order : MapOrder Word Word)
include computes unseen

theorem Computes.absent : pending.newPairs.get? pair.1 = none := by
  cases found : pending.newPairs.get? pair.1 with
  | none => rfl
  | some value => exact absurd (computes.seen _ _ found) unseen

theorem Computes.value_unseen : current.value pair.1 = content.value pair.1 := by
  rw [computes.value, computes.absent unseen]
  rfl

include represents

/-- A pair that changes nothing is only remembered. -/
theorem Computes.pair_same (same : pair.2 = content.value pair.1) :
    computePair hasher order tree pending pair =
      .ok { pending with seenKeys := pair.1 :: pending.seenKeys } := by
  rw [computePair]
  simp only [if_neg unseen, computes.absent unseen, Option.getD_none,
    represents.getValue, if_pos same]

/-- A pair that changes a value, with the leaf that the earlier pairs left. -/
theorem Computes.pair_eq (changes : pair.2 ≠ content.value pair.1)
    (fitting : content.Fitting (pairsAt order pending.newPairs (leafIndex pair.1))) :
    computePair hasher order tree pending pair =
      mapLeafError (constructProspectiveLeaf (.ofEntries (leafIndex pair.1)
        (current.entriesAt (leafIndex pair.1))) pair.1 pair.2) >>= fun newLeaf =>
      .ok ⟨pair.1 :: pending.seenKeys,
        (mutateNodes hasher tree smtDepth (leafIndex pair.1) (newLeaf.hash hasher)
          pending.nodeMutations).1, pending.newPairs.insert pair.1 pair.2,
        (mutateNodes hasher tree smtDepth (leafIndex pair.1) (newLeaf.hash hasher)
          pending.nodeMutations).2⟩ := by
  have folded := computes.fold_pairsAt order fitting
  rw [pairsAt] at folded
  rw [computePair]
  simp only [if_neg unseen, computes.absent unseen, Option.getD_none, represents.getValue,
    if_neg changes]
  rw [computeChange]
  simp only [represents.getLeaf, folded, unwrap_ok, ok_bind, pure_eq_ok]

/-- A pair that its leaf cannot take is refused. -/
theorem Computes.pair_full
    (fitting : content.Fitting (pairsAt order pending.newPairs (leafIndex pair.1)))
    (overflows : Overflows current pair.1 pair.2) :
    computePair hasher order tree pending pair =
      .err (.tooManyLeafEntries ((current.entriesAt (leafIndex pair.1)).length + 1)) := by
  have brings := brings_of_overflows overflows
  have changes : pair.2 ≠ content.value pair.1 := by
    rw [← computes.value_unseen unseen, brings.2.2]
    exact brings.2.1
  rw [computes.pair_eq represents unseen order changes fitting,
    constructProspectiveLeaf_full overflows]
  rfl

/-- A pair that changes a value and that its leaf can take. -/
theorem Computes.pair_changes (free : hasher.CollisionFree) (order : MapOrder Word Word)
    (changes : pair.2 ≠ content.value pair.1)
    (fitting : content.Fitting (pairsAt order pending.newPairs (leafIndex pair.1)))
    (room : ¬ Overflows current pair.1 pair.2) :
    ∃ after, computePair hasher order tree pending pair = .ok after ∧
      Computes hasher content (current.write pair.1 pair.2) after ∧
      after.seenKeys = pair.1 :: pending.seenKeys ∧
      after.newPairs = pending.newPairs.insert pair.1 pair.2 := by
  have differs : pair.2 ≠ current.value pair.1 := by rwa [computes.value_unseen unseen]
  have stored : tree.innerNodes.get? = innerNodeOf hasher (content.leafHash hasher) :=
    funext represents.innerNodes
  have below (index : NodeIndex) : overlay tree.innerNodes.get? pending.nodeMutations index = _ :=
    (stored ▸ computes.nodes index).trans
      (innerNodeOf_ite hasher ((current.write pair.1 pair.2).leafHash hasher) index).symm
  have levels := mutateNodes_spec free (current.leafHash_write hasher pair.1 pair.2)
    (add_zero smtDepth) below
  have leafHash : node hasher.merge ((current.write pair.1 pair.2).leafHash hasher) 0
      (leafIndex pair.1) = (ofEntries (leafIndex pair.1)
        ((current.write pair.1 pair.2).entriesAt (leafIndex pair.1))).hash hasher := by
    rw [hash_eq, entries_ofEntries]
    rfl
  rw [pow_zero, Nat.div_one, leafIndex_div, leafHash] at levels
  rw [computes.pair_eq represents unseen order changes fitting,
    constructProspectiveLeaf_room differs room, mapLeafError, ok_bind]
  generalize mutateNodes hasher tree smtDepth (leafIndex pair.1) _ pending.nodeMutations = above
    at levels ⊢
  rcases levels with ⟨newRoot, nodes⟩
  refine ⟨_, rfl, ⟨⟨fun index => ?_, fun key => ?_, fun key value => ?_⟩, newRoot,
    fun key value => ?_⟩, rfl, rfl⟩
  · rw [← stored]
    exact nodes index
  · rw [value_write, get?_insert]
    split
    · rfl
    · exact computes.value key
  · rw [get?_insert]
    split
    · rename_i here
      rintro ⟨⟩
      rwa [here]
    · exact computes.changes key value
  · rw [get?_insert]
    split
    · rename_i here
      exact fun _ => mem_cons.mpr (.inl here)
    · exact fun found => mem_cons_of_mem _ (computes.seen key value found)

end Pair

/-- A batch that every leaf has room for is computed in any order of visits. -/
theorem Computes.run_room (free : hasher.CollisionFree) (order : MapOrder Word Word)
    {current : SmtMap} (represents : tree.Represents hasher content) {pending : Pending D}
    (computes : Computes hasher content current pending) {rest : List (Word × Word)}
    (distinct : SmtMap.Distinct rest)
    (unseen : forall pair, pair ∈ rest -> pair.1 ∉ pending.seenKeys)
    (room : content.Room (pending.newPairs.entries ++ rest)) :
    ∃ after, rest.foldlM (computePair hasher order tree) pending = .ok after ∧
      Computes hasher content (current.writeAll rest) after ∧
      content.Room after.newPairs.entries := by
  induction rest generalizing current pending with
  | nil =>
    rw [append_nil] at room
    exact ⟨pending, rfl, computes, room⟩
  | cons pair rest ih =>
    rcases distinct_cons.mp distinct with ⟨apart, others⟩
    have new := unseen pair mem_cons_self
    have later : forall other, other ∈ rest -> other.1 ∉ pair.1 :: pending.seenKeys := by
      intro other member
      rw [mem_cons, not_or]
      exact ⟨apart other member, unseen other (mem_cons_of_mem _ member)⟩
    rw [foldlM_cons]
    by_cases same : pair.2 = content.value pair.1
    · have unchanged : current.write pair.1 pair.2 = current := by
        rw [same, ← computes.value_unseen new, current.write_same]
      have kept : Computes hasher content (current.write pair.1 pair.2)
          { pending with seenKeys := pair.1 :: pending.seenKeys } := by
        rw [unchanged]
        exact ⟨computes.toTransforms, computes.root,
          fun key value found => mem_cons_of_mem _ (computes.seen key value found)⟩
      rw [computes.pair_same represents new order same, ok_bind]
      exact ih kept others later (room.sublist
        (List.Sublist.append_left (sublist_cons_self pair rest) _))
    · have whole : content.Room (order.list pending.newPairs ++ [pair]) :=
        (room.sublist (List.Sublist.append_left
          (cons_sublist_cons.mpr (nil_sublist rest)) _)).perm
          ((order.perm pending.newPairs).symm.append_right [pair])
      have different : SmtMap.Distinct (order.list pending.newPairs ++ [pair]) := by
        refine SmtMap.Distinct.perm (distinct_cons.mpr
          ⟨fun other member equal => ?_, distinct_list order pending.newPairs⟩)
          (perm_append_singleton pair _).symm
        have found := order.mem_list.mp (show (other.1, other.2) ∈ _ from member)
        exact new (equal ▸ computes.seen other.1 other.2 found)
      have fitting := (whole.sublist (filter_sublist.trans (sublist_append_left _ _))).fitting
        (distinct_pairsAt order pending.newPairs (leafIndex pair.1))
      have fits := (fitting_append.mp (whole.fitting different)).2.1
      rw [computes.writeAll order] at fits
      rcases computes.pair_changes represents new free order same fitting fits with
        ⟨after, ran, continues, seen, pairs⟩
      rw [ran, ok_bind]
      refine ih continues others (seen ▸ later) (room.perm ?_)
      rw [pairs]
      exact perm_middle.trans
        ((perm_insert (computes.absent new) pair.2).symm.append_right rest)

/-- New keys for one leaf that come first are refused as soon as it is full. -/
theorem Computes.run_full (free : hasher.CollisionFree) (order : MapOrder Word Word)
    {current : SmtMap}
    (represents : tree.Represents hasher content) (fits : content.Fits) {pending : Pending D}
    (computes : Computes hasher content current pending) {first : List (Word × Word)}
    (rest : List (Word × Word)) (distinct : SmtMap.Distinct first)
    (unseen : forall pair, pair ∈ first -> pair.1 ∉ pending.seenKeys)
    (brings : forall pair, pair ∈ first -> content.Brings index pair)
    (brought : forall key value, pending.newPairs.get? key = some value -> content.Brings index (key, value))
    (before : (content.entriesAt index).length + pending.newPairs.entries.length ≤ maxLeafEntries)
    (above : maxLeafEntries < (content.entriesAt index).length + pending.newPairs.entries.length +
        first.length) :
    ∃ error, (first ++ rest).foldlM (computePair hasher order tree) pending = .err error := by
  induction first generalizing current pending with
  | nil =>
    rw [length_nil] at above
    omega
  | cons pair first ih =>
    rcases distinct_cons.mp distinct with ⟨apart, others⟩
    have new := unseen pair mem_cons_self
    have comes := brings pair mem_cons_self
    set listed := order.list pending.newPairs
    have all : forall other, other ∈ listed -> content.Brings index other :=
      fun other member => brought other.1 other.2 (order.mem_list.mp member)
    have count : content.brought index listed = pending.newPairs.entries.length := by
      rw [← (order.perm pending.newPairs).length_eq]
      exact countP_eq_length.mpr (fun other member => decide_eq_true (all other member))
    have none : content.taken index listed = 0 :=
      countP_eq_zero.mpr (fun other member =>
        fun takes => (all other member).2.1 (of_decide_eq_true takes).2.1)
    have size := length_entriesAt_writeAll (distinct_list order pending.newPairs) content
      index
    rw [computes.writeAll order, none, count, add_zero] at size
    have room : content.Room listed := by
      intro place
      by_cases here : place = index
      · rw [here, count]
        exact before
      · have nothing : content.brought place listed = 0 :=
          countP_eq_zero.mpr (fun other member =>
            fun comes => here ((of_decide_eq_true comes).1.symm.trans (all other member).1))
        rw [nothing]
        exact fits place
    have fitting := (room.sublist filter_sublist).fitting
      (distinct_pairsAt order pending.newPairs (leafIndex pair.1))
    have bringsNow : current.Brings index pair :=
      ⟨comes.1, comes.2.1, (computes.value_unseen new).trans comes.2.2⟩
    rw [cons_append, foldlM_cons]
    by_cases full : maxLeafEntries ≤ (current.entriesAt index).length
    · have overflows := overflows_of_brings bringsNow full
      exact ⟨_, by rw [computes.pair_full represents new order fitting overflows, err_bind]⟩
    · have changes : pair.2 ≠ content.value pair.1 := by
        rw [comes.2.2]
        exact comes.2.1
      have fitsNow : ¬ Overflows current pair.1 pair.2 := fun overflows =>
        full (comes.1 ▸ overflows.2.2)
      rcases computes.pair_changes represents new free order changes fitting fitsNow with
        ⟨after, ran, continues, seen, pairs⟩
      have longer : after.newPairs.entries.length = pending.newPairs.entries.length + 1 := by
        rw [pairs, (perm_insert (computes.absent new) pair.2).length_eq, length_cons]
      rw [ran, ok_bind]
      rw [length_cons] at above
      refine ih continues others ?_ (fun other member => brings other
        (mem_cons_of_mem _ member)) ?_ (by omega) (by omega)
      · intro other member
        rw [seen, mem_cons, not_or]
        exact ⟨apart other member, unseen other (mem_cons_of_mem _ member)⟩
      · intro key value found
        rw [pairs, get?_insert] at found
        split at found
        · rename_i here
          cases found
          rw [here]
          exact comes
        · exact brought key value found

end Smt

end MidenVm.Crypto
