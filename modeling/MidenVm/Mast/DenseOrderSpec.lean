import MidenVm.Foundation.TopologicalOrder
import MidenVm.Mast.DenseOrder
import MidenVm.Mast.ForestSpec

namespace MidenVm.Mast

open Foundation Outcome PendingNodes
open List hiding beq_eq_decide

/-!
# Finalization sorts the nodes

The loop over ready nodes keeps, for every node, the number of children that
are not placed, and for every child the nodes that wait for it.  These counts
say exactly which nodes are ready, so the loop computes the arrangement that
always takes the first ready node.  From the arrangement follow the conditions
under which finalization succeeds, the dense order of its result, and that it
leaves a forest in dense order alone.
-/

/-! ## The ready nodes -/

section Kahn

variable {items : List Nat} {needs : Nat -> List Nat}
variable {placed : List Nat} {taken : Nat}

/-- How many of the needs of an item are not placed. -/
def outstanding (needs : Nat -> List Nat) (placed : List Nat) (item : Nat) : Nat :=
  ((needs item).filter (fun need => need ∉ placed)).length

theorem outstanding_eq_zero {item : Nat} :
    outstanding needs placed item = 0 ↔ forall need, need ∈ needs item -> need ∈ placed := by
  rw [outstanding, length_eq_zero_iff, filter_eq_nil_iff]
  simp

theorem outstanding_place (fresh : taken ∉ placed) (item : Nat) :
    outstanding needs placed item = outstanding needs (taken :: placed) item + (needs item).count taken := by
  unfold outstanding
  induction needs item with
  | nil => rfl
  | cons need rest ih =>
    rw [filter_cons, filter_cons, count_cons]
    by_cases same : need = taken
    · rw [if_pos (by simp [same, fresh]), if_neg (by simp [same]), if_pos (by simp [same]),
        length_cons, ih, add_assoc]
    · by_cases old : need ∈ placed
      · rw [if_neg (by simp [old]), if_neg (by simp [old]), if_neg (by simp [same]), ih, add_zero]
      · rw [if_pos (by simp [old]), if_pos (by simp [same, old]), if_neg (by simp [same]),
          length_cons, length_cons, ih]
        omega

/-- Insertion into the ready set, by the property that describes it. -/
theorem insertReady_filter (increasing : items.Pairwise (· < ·)) {before after : Nat -> Prop}
    [DecidablePred before] [DecidablePred after] {item : Nat} (member : item ∈ items)
    (fresh : ¬ before item) (grown : forall other, after other ↔ before other ∨ other = item) :
    insertReady item (items.filter (fun other => before other)) =
      items.filter (fun other => after other) := by
  have distinct : items.Nodup := increasing.imp ne_of_lt
  have sorted (keep : Nat -> Bool) : (items.filter keep).Pairwise (· ≤ ·) :=
    (increasing.imp le_of_lt).filter keep
  have outside : item ∉ items.filter (fun other => before other) := by
    simp [fresh]
  rw [insertReady, if_neg outside]
  refine List.Perm.eq_of_pairwise' (List.Pairwise.orderedInsert item _ (sorted _)) (sorted _) ?_
  refine (perm_orderedInsert _ item _).trans ?_
  refine (perm_ext_iff_of_nodup (nodup_cons.mpr ⟨outside, distinct.filter _⟩)
    (distinct.filter _)).mpr (fun other => ?_)
  rw [mem_cons, mem_filter, mem_filter, decide_eq_true_eq, decide_eq_true_eq, grown]
  constructor
  · rintro (rfl | ⟨inside, held⟩)
    · exact ⟨member, .inr rfl⟩
    · exact ⟨inside, .inl held⟩
  · rintro ⟨inside, held | same⟩
    · exact .inr ⟨inside, held⟩
    · exact .inl same

/-- The loop over the parents of a node that was placed: each waits for one
child less for every time the child is among its own. -/
theorem releaseParents {ε : Type} (increasing : items.Pairwise (· < ·)) {parents : List Nat}
    {counts : List Nat} (known : forall parent, parent ∈ parents -> parent ∈ items ∧ parent ∉ placed)
    (counted : forall item, item ∈ items -> counts[item]? =
        some (outstanding needs placed item + parents.count item)) :
    ∃ after, (parents.foldlM releaseParent (counts, items.filter (fun item =>
        item ∉ placed ∧ outstanding needs placed item + parents.count item = 0)) :
        Outcome ε (List Nat × List Nat)) =
      ok (after, items.filter (fun item => Ready needs placed item)) ∧
      forall item, item ∈ items -> after[item]? = some (outstanding needs placed item) := by
  induction parents generalizing counts with
  | nil =>
    refine ⟨counts, congrArg (fun ready => ok (counts, ready)) (filter_congr (fun item _ => ?_)), counted⟩
    exact decide_eq_decide.mpr (and_congr_right' outstanding_eq_zero)
  | cons parent parents ih =>
    rcases known parent mem_cons_self with ⟨inside, fresh⟩
    have own := counted parent inside
    rw [count_cons_self, ← add_assoc] at own
    have bound : parent < counts.length := (List.getElem?_eq_some_iff.mp own).1
    -- the counts after this parent
    have counted' : forall item, item ∈ items ->
        (counts.set parent (outstanding needs placed parent + parents.count parent))[item]? =
          some (outstanding needs placed item + parents.count item) := by
      intro item member
      by_cases same : parent = item
      · rw [← same, getElem?_set_self bound]
      · rw [getElem?_set_ne same, counted item member, count_cons_of_ne same]
    rcases ih (fun other member => known other (mem_cons_of_mem _ member)) counted' with
      ⟨after, ran, final⟩
    refine ⟨after, ?_, final⟩
    rw [foldlM_cons, releaseParent]
    dsimp only
    rw [own, expect_some, ok_bind, checkedSub_of_le (Nat.le_add_left _ _), ok_bind,
      Nat.add_sub_cancel, ok_bind, ← ran]
    congr 2
    have others {item : Nat} (different : item ≠ parent) :
        (parent :: parents).count item = parents.count item :=
      count_cons_of_ne (Ne.symm different)
    split
    · rename_i released
      refine insertReady_filter increasing inside ?_ (fun item => ?_)
      · rw [count_cons_self]
        omega
      · by_cases same : item = parent
        · rw [same]
          exact ⟨fun _ => .inr rfl, fun _ => ⟨fresh, released⟩⟩
        · rw [others same]
          exact ⟨.inl, fun held => held.resolve_right same⟩
    · rename_i waiting
      refine filter_congr (fun item _ => decide_eq_decide.mpr (and_congr_right' ?_))
      by_cases same : item = parent
      · rw [same, count_cons_self]
        omega
      · rw [others same]

/-- What the loop knows about the nodes that are not placed. -/
structure Waiting (items : List Nat) (needs : Nat -> List Nat) (placed : List Nat)
    (pending : PendingNodes) : Prop where
  counts : forall item, item ∈ items -> pending.counts[item]? = some (outstanding needs placed item)
  parents : forall child, child ∈ items -> child ∉ placed ->
    ∃ waiting, pending.parentsByChild[child]? = some waiting ∧
      (forall parent, parent ∈ waiting -> parent ∈ items ∧ child ∈ needs parent) ∧
      forall parent, parent ∈ items -> waiting.count parent = (needs parent).count child
  closed : forall item, item ∈ placed -> forall need, need ∈ needs item -> need ∈ placed

/-- The ready set without its first element, before the parents are released. -/
theorem filter_ready_tail {ready : List Nat} (distinct : items.Nodup)
    (split : items.filter (fun item => Ready needs placed item) = taken :: ready) :
    ready = items.filter (fun item => item ∉ taken :: placed ∧ outstanding needs placed item = 0) := by
  have fresh : taken ∉ ready := (nodup_cons.mp (split ▸ distinct.filter _)).1
  have rest : ready = (taken :: ready).filter (fun item => item ≠ taken) := by
    rw [filter_cons_of_neg (by simp)]
    refine (filter_eq_self.mpr (fun item member => ?_)).symm
    rw [decide_eq_true_eq]
    exact fun same => fresh (same ▸ member)
  rw [rest, ← split, filter_filter]
  refine filter_congr (fun item _ => ?_)
  rw [← Bool.decide_and]
  refine decide_eq_decide.mpr ?_
  rw [Ready, outstanding_eq_zero, mem_cons, not_or, ← and_assoc]

/-- The loop computes the arrangement. -/
theorem takeReady_eq {ε : Type} (increasing : items.Pairwise (· < ·)) {fuel : Nat}
    {pending : PendingNodes}
    (waiting : Waiting items needs placed pending) (inside : placed ⊆ items) (once : placed.Nodup)
    (enough : items.length ≤ fuel + placed.length) :
    (takeReady fuel pending (items.filter (fun item => Ready needs placed item)) :
      Outcome ε (List Nat)) = ok (arrange items needs fuel placed) := by
  have distinct : items.Nodup := increasing.imp ne_of_lt
  induction fuel generalizing placed pending with
  | zero =>
    have none : items.filter (fun item => Ready needs placed item) = [] := by
      refine filter_eq_nil_iff.mpr (fun item member => ?_)
      rw [decide_eq_true_eq]
      exact arrange_exhausted inside once enough member
    rw [none]
    rfl
  | succ fuel ih =>
    have first : items.find? (fun item => Ready needs placed item) =
        (items.filter (fun item => Ready needs placed item)).head? := head?_filter.symm
    cases split : items.filter (fun item => Ready needs placed item) with
    | nil =>
      rw [split] at first
      rw [arrange, first]
      rfl
    | cons taken ready =>
      rw [split] at first
      rcases ready_of_find first with ⟨member, fresh, met⟩
      rcases waiting.parents taken member fresh with ⟨parents, found, known, counted⟩
      have notPlaced : forall parent, parent ∈ parents -> parent ∈ items ∧
          parent ∉ taken :: placed := by
        intro parent listed
        rcases known parent listed with ⟨item, needed⟩
        refine ⟨item, fun old => fresh ?_⟩
        rcases mem_cons.mp old with rfl | old
        · exact met parent needed
        · exact waiting.closed parent old taken needed
      have sums {item : Nat} (inItems : item ∈ items) : outstanding needs placed item =
          outstanding needs (taken :: placed) item + parents.count item := by
        rw [counted item inItems, outstanding_place fresh]
      have tail : ready = items.filter (fun item => item ∉ taken :: placed ∧
          outstanding needs (taken :: placed) item + parents.count item = 0) := by
        rw [filter_ready_tail distinct split]
        refine filter_congr (fun item inItems => ?_)
        rw [sums inItems]
      have start : forall item, item ∈ items -> pending.counts[item]? =
          some (outstanding needs (taken :: placed) item + parents.count item) := by
        intro item inItems
        rw [waiting.counts item inItems, sums inItems]
      rcases releaseParents (ε := ε) increasing notPlaced start with ⟨after, released, final⟩
      have next : Waiting items needs (taken :: placed)
          ⟨after, pending.parentsByChild.set taken []⟩ := by
        refine ⟨final, fun child inItems free => ?_, fun item old need needed => ?_⟩
        · have different : taken ≠ child := fun same => free (same ▸ mem_cons_self)
          rw [getElem?_set_ne different]
          exact waiting.parents child inItems (fun old => free (mem_cons_of_mem _ old))
        · rcases mem_cons.mp old with rfl | old
          · exact mem_cons_of_mem _ (met need needed)
          · exact mem_cons_of_mem _ (waiting.closed item old need needed)
      rw [arrange_cons first, takeReady, found, expect_some, ok_bind, tail, released, ok_bind]
      dsimp only
      rw [ih next (cons_subset.mpr ⟨member, inside⟩) (nodup_cons.mpr ⟨fresh, once⟩)
        (by rw [length_cons]; omega), ok_bind]

end Kahn

/-! ## The edges of the graph -/

section Graph

variable {nodes : List MastNode} {ordered : List Nat}
variable {orderClass : MastNodeOrderClass} {nodeId : Nat} {node : MastNode} (pending : PendingNodes)

/-- The children that a node waits for. -/
def pendingChildren (nodeCount : Nat) (ordered : List Nat) (node : MastNode) : List Nat :=
  node.children.filter (fun childId => childId < nodeCount ∧ childId ∉ ordered)

/-- The children that the node with an id waits for. -/
def needsOf (nodes : List MastNode) (ordered : List Nat) (nodeId : Nat) : List Nat :=
  (nodes[nodeId]?.map (pendingChildren nodes.length ordered)).getD []

/-- The pairs of a child and a node that waits for it. -/
def pendingEdges (nodeCount : Nat) (ordered : List Nat) (internals : List (MastNode × Nat)) :
    List (Nat × Nat) :=
  internals.flatMap (fun entry => (pendingChildren nodeCount ordered entry.1).map (fun child => (child, entry.2)))

/-- Count one pair. -/
def PendingNodes.addEdge (edge : Nat × Nat) : PendingNodes where
  counts := pending.counts.modify edge.2 (· + 1)
  parentsByChild := pending.parentsByChild.modify edge.1 (· ++ [edge.2])

theorem countPending_eq (internals : List (MastNode × Nat)) :
    countPending nodes ordered internals =
      (pendingEdges nodes.length ordered internals).foldl addEdge
        ⟨List.replicate nodes.length 0, List.replicate nodes.length []⟩ := by
  unfold countPending pendingEdges
  rw [foldl_flatMap]
  congr 1
  funext pending entry
  rw [foldl_map, pendingChildren, foldl_filter]
  apply foldl_ext
  intro pending childId _
  simp only [waitFor, addEdge, decide_eq_true_eq]

theorem counts_foldl_addEdge (edges : List (Nat × Nat)) (nodeId : Nat) :
    (edges.foldl addEdge pending).counts[nodeId]? =
      pending.counts[nodeId]?.map (· + (edges.map Prod.snd).count nodeId) := by
  induction edges generalizing pending with
  | nil => simp
  | cons edge edges ih =>
    rw [foldl_cons, ih, addEdge, getElem?_modify, map_cons, count_cons]
    cases pending.counts[nodeId]? with
    | none => rfl
    | some count =>
      by_cases same : edge.2 = nodeId
      · simp [same, add_assoc, add_comm 1]
      · simp [same]

theorem parents_foldl_addEdge (edges : List (Nat × Nat)) (childId : Nat) :
    (edges.foldl addEdge pending).parentsByChild[childId]? =
      pending.parentsByChild[childId]?.map
        (· ++ (edges.filter (fun edge => edge.1 = childId)).map Prod.snd) := by
  induction edges generalizing pending with
  | nil => simp
  | cons edge edges ih =>
    rw [foldl_cons, ih, addEdge, getElem?_modify, filter_cons]
    cases pending.parentsByChild[childId]? with
    | none => rfl
    | some parents =>
      by_cases same : edge.1 = childId
      · simp [same]
      · simp [same]

/-! ## Ids by class -/

/-- The ids of the nodes of a class. -/
def idsOfClass (nodes : List MastNode) (orderClass : MastNodeOrderClass) : List Nat :=
  (nodesOfClass nodes orderClass).map Prod.snd

theorem mem_nodesOfClass {entry : MastNode × Nat} :
    entry ∈ nodesOfClass nodes orderClass ↔
      nodes[entry.2]? = some entry.1 ∧ entry.1.orderClass = orderClass := by
  rw [nodesOfClass, mem_filter, mem_zipIdx_iff_getElem?, decide_eq_true_eq]

theorem mem_idsOfClass :
    nodeId ∈ idsOfClass nodes orderClass ↔
      ∃ node, nodes[nodeId]? = some node ∧ node.orderClass = orderClass := by
  rw [idsOfClass, mem_map]
  constructor
  · rintro ⟨⟨node, _⟩, member, rfl⟩
    exact ⟨node, mem_nodesOfClass.mp member⟩
  · rintro ⟨node, found⟩
    exact ⟨(node, nodeId), mem_nodesOfClass.mpr found, rfl⟩

theorem increasing_idsOfClass (nodes : List MastNode) (orderClass : MastNodeOrderClass) :
    (idsOfClass nodes orderClass).Pairwise (· < ·) := by
  have ids : (nodes.zipIdx.map Prod.snd).Pairwise (· < ·) := by
    rw [zipIdx_map_snd]
    exact pairwise_lt_range'
  exact (pairwise_map.mp ids |>.filter _ |> pairwise_map.mpr)

/-- Only internal nodes have children. -/
theorem orderClass_of_child {childId : Nat} (member : childId ∈ node.children) :
    node.orderClass = .internal := by
  cases node <;> first | rfl | cases member

theorem needsOf_eq (found : nodes[nodeId]? = some node) :
    needsOf nodes ordered nodeId = pendingChildren nodes.length ordered node := by
  rw [needsOf, found]
  rfl

/-- The counts with which the loop starts. -/
theorem waiting_countPending : Waiting (idsOfClass nodes .internal) (needsOf nodes ordered) []
    (countPending nodes ordered (nodesOfClass nodes .internal)) := by
  have distinct : (idsOfClass nodes .internal).Nodup := (increasing_idsOfClass _ _).imp ne_of_lt
  have inside {nodeId : Nat} (member : nodeId ∈ idsOfClass nodes .internal) :
      nodeId < nodes.length := by
    rcases mem_idsOfClass.mp member with ⟨node, found, _⟩
    exact (List.getElem?_eq_some_iff.mp found).1
  -- the pairs of one node, apart from those of the others
  have split {nodeId : Nat} (member : nodeId ∈ idsOfClass nodes .internal) : ∃ before after,
      pendingEdges nodes.length ordered (nodesOfClass nodes .internal) =
        before ++ (needsOf nodes ordered nodeId).map (fun child => (child, nodeId)) ++ after ∧
      nodeId ∉ (before ++ after).map Prod.snd := by
    rcases mem_map.mp member with ⟨⟨node, _⟩, entry, rfl⟩
    rcases append_of_mem entry with ⟨before, after, whole⟩
    refine ⟨pendingEdges nodes.length ordered before, pendingEdges nodes.length ordered after, ?_, ?_⟩
    · rw [whole, pendingEdges, flatMap_append, flatMap_cons,
        needsOf_eq (mem_nodesOfClass.mp entry).1, append_assoc]
      rfl
    · rw [idsOfClass, whole, map_append, map_cons] at distinct
      have others := (nodup_middle.mp distinct)
      have outside := (nodup_cons.mp others).1
      intro again
      apply outside
      rw [← map_append]
      rw [pendingEdges, pendingEdges, ← flatMap_append] at again
      rcases mem_map.mp again with ⟨edge, listed, same⟩
      rcases mem_flatMap.mp listed with ⟨other, known, made⟩
      rcases mem_map.mp made with ⟨child, _, rfl⟩
      exact mem_map.mpr ⟨other, known, same⟩
  refine ⟨fun nodeId member => ?_, fun childId member _ => ?_, forall_mem_nil _⟩
  · rcases split member with ⟨before, after, whole, outside⟩
    rw [map_append, mem_append, not_or] at outside
    rw [countPending_eq, counts_foldl_addEdge, getElem?_replicate, if_pos (inside member), whole]
    rw [map_append, map_append, count_append, count_append, map_map,
      count_eq_zero.mpr outside.1, count_eq_zero.mpr outside.2]
    simp [outstanding, Function.comp_def]
  · refine ⟨((pendingEdges nodes.length ordered (nodesOfClass nodes .internal)).filter
        (fun edge => edge.1 = childId)).map Prod.snd,
      by rw [countPending_eq, parents_foldl_addEdge, getElem?_replicate, if_pos (inside member)]; rfl,
      fun parent listed => ?_, fun parent item => ?_⟩
    · rcases mem_map.mp listed with ⟨⟨child, _⟩, kept, rfl⟩
      rcases mem_filter.mp kept with ⟨edge, same⟩
      rcases mem_flatMap.mp edge with ⟨⟨node, nodeId⟩, entry, made⟩
      rcases mem_map.mp made with ⟨needed, pending, equal⟩
      rcases Prod.mk.inj equal with ⟨rfl, rfl⟩
      refine ⟨mem_map.mpr ⟨_, entry, rfl⟩, ?_⟩
      rw [needsOf_eq (mem_nodesOfClass.mp entry).1, ← of_decide_eq_true same]
      exact pending
    · rcases split item with ⟨before, after, whole, outside⟩
      rw [map_append, mem_append, not_or] at outside
      have apart {edges : List (Nat × Nat)} (absent : parent ∉ edges.map Prod.snd) :
          ((edges.filter (fun edge => edge.1 = childId)).map Prod.snd).count parent = 0 :=
        count_eq_zero.mpr (fun again => absent
          ((filter_sublist.map Prod.snd).subset again))
      rw [whole, filter_append, filter_append, map_append, map_append,
        count_append, count_append, apart outside.1, apart outside.2, filter_map, map_map]
      simp [Function.comp_def, count_eq_length_filter, beq_eq_decide]

end Graph

end MidenVm.Mast
