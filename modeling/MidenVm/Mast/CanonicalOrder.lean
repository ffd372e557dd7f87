import MidenVm.Mast.DenseOrderSpec

namespace MidenVm.Mast

open Foundation Outcome List MastNode

/-!
# The order that finalization computes

External nodes by digest, then basic blocks by id, then the arrangement of the
internal nodes.  The order exists exactly when no child lies outside the
forest, no node is its own descendant and no two external nodes share a
digest.
-/

variable {nodes : List MastNode}
variable {nodeId childId parentId : Nat}

/-- One node is a child of another. -/
def ChildOf (nodes : List MastNode) (childId parentId : Nat) : Prop :=
  ∃ node, nodes[parentId]? = some node ∧ childId ∈ node.children

/-- The conditions under which the nodes have a dense order. -/
structure Sortable (nodes : List MastNode) : Prop where
  bounded : forall childId parentId, ChildOf nodes childId parentId -> childId < nodes.length
  acyclic : forall nodeId, ¬ Relation.TransGen (ChildOf nodes) nodeId nodeId
  distinct : (nodes.filterMap MastNode.externalDigest).Nodup

/-- The ids of external nodes by digest, then those of basic blocks. -/
def leafIds (nodes : List MastNode) : List Nat :=
  ((nodesOfClass nodes .external).insertionSort externalBefore).map Prod.snd ++ idsOfClass nodes .basicBlock

/-- The internal nodes with children first. -/
def internalOrder (nodes : List MastNode) : List Nat :=
  arrange (idsOfClass nodes .internal) (needsOf nodes (leafIds nodes))
    (idsOfClass nodes .internal).length []

/-- The old ids in the new order. -/
def denseIds (nodes : List MastNode) : List Nat := leafIds nodes ++ internalOrder nodes

/-- No internal node is left over. -/
def Complete (nodes : List MastNode) : Prop :=
  forall nodeId, nodeId ∈ idsOfClass nodes .internal -> nodeId ∈ internalOrder nodes

/-! ## Leaves -/

/-- The counts before the first internal node is placed. -/
def pendingNodes (nodes : List MastNode) : PendingNodes :=
  countPending nodes (leafIds nodes) (nodesOfClass nodes .internal)

theorem perm_externals (nodes : List MastNode) :
    (((nodesOfClass nodes .external).insertionSort externalBefore).map Prod.snd).Perm
      (idsOfClass nodes .external) :=
  (perm_insertionSort externalBefore _).map Prod.snd

theorem nodup_idsOfClass (nodes : List MastNode) (orderClass : MastNodeOrderClass) :
    (idsOfClass nodes orderClass).Nodup :=
  (increasing_idsOfClass nodes orderClass).imp ne_of_lt

/-- A node has one class. -/
theorem disjoint_idsOfClass {first second : MastNodeOrderClass} (differ : first ≠ second)
    (member : nodeId ∈ idsOfClass nodes first) : nodeId ∉ idsOfClass nodes second := by
  intro again
  rcases mem_idsOfClass.mp member with ⟨node, found, rfl⟩
  rcases mem_idsOfClass.mp again with ⟨other, found', rfl⟩
  rw [found] at found'
  cases found'
  exact differ rfl

theorem mem_leafIds :
    nodeId ∈ leafIds nodes ↔ nodeId ∈ idsOfClass nodes .external ∨
      nodeId ∈ idsOfClass nodes .basicBlock := by
  rw [leafIds, mem_append, (perm_externals nodes).mem_iff]

theorem nodup_leafIds (nodes : List MastNode) : (leafIds nodes).Nodup := by
  refine List.Nodup.append ((perm_externals nodes).nodup_iff.mpr (nodup_idsOfClass nodes .external))
    (nodup_idsOfClass nodes .basicBlock) ?_
  intro nodeId external block
  exact disjoint_idsOfClass (by decide) ((perm_externals nodes).mem_iff.mp external) block

theorem not_mem_leafIds (internal : nodeId ∈ idsOfClass nodes .internal) :
    nodeId ∉ leafIds nodes := by
  rw [mem_leafIds]
  rintro (external | block)
  · exact disjoint_idsOfClass (by decide) external internal
  · exact disjoint_idsOfClass (by decide) block internal

theorem mem_internal_of_not_leaf (inside : nodeId < nodes.length)
    (outside : nodeId ∉ leafIds nodes) : nodeId ∈ idsOfClass nodes .internal := by
  rw [mem_leafIds, not_or, mem_idsOfClass, mem_idsOfClass] at outside
  have found : nodes[nodeId]? = some nodes[nodeId] := getElem?_eq_getElem inside
  rw [mem_idsOfClass]
  refine ⟨_, found, ?_⟩
  cases kind : nodes[nodeId].orderClass with
  | external => exact absurd ⟨_, found, kind⟩ outside.1
  | basicBlock => exact absurd ⟨_, found, kind⟩ outside.2
  | internal => rfl

theorem lt_of_mem_class {orderClass : MastNodeOrderClass}
    (member : nodeId ∈ idsOfClass nodes orderClass) : nodeId < nodes.length := by
  rcases mem_idsOfClass.mp member with ⟨_, found, _⟩
  exact (List.getElem?_eq_some_iff.mp found).1

/-! ## The order as a whole -/

theorem mem_internalOrder (member : nodeId ∈ internalOrder nodes) : nodeId ∈ idsOfClass nodes .internal :=
  (mem_arrange member).1

theorem nodup_denseIds (nodes : List MastNode) : (denseIds nodes).Nodup := by
  refine List.Nodup.append (nodup_leafIds nodes) (nodup_arrange _ _) ?_
  intro nodeId leaf internal
  exact not_mem_leafIds (mem_internalOrder internal) leaf

theorem lt_of_mem_denseIds (member : nodeId ∈ denseIds nodes) : nodeId < nodes.length := by
  rcases mem_append.mp member with leaf | internal
  · rcases mem_leafIds.mp leaf with external | block
    · exact lt_of_mem_class external
    · exact lt_of_mem_class block
  · exact lt_of_mem_class (mem_internalOrder internal)

theorem mem_denseIds (complete : Complete nodes) : nodeId ∈ denseIds nodes ↔
    nodeId < nodes.length := by
  refine ⟨lt_of_mem_denseIds, fun inside => ?_⟩
  rw [denseIds, mem_append]
  by_cases leaf : nodeId ∈ leafIds nodes
  · exact .inl leaf
  · exact .inr (complete nodeId (mem_internal_of_not_leaf inside leaf))

theorem perm_denseIds (complete : Complete nodes) :
    (denseIds nodes).Perm (List.range nodes.length) := by
  rw [perm_ext_iff_of_nodup (nodup_denseIds nodes) nodup_range]
  intro nodeId
  rw [mem_denseIds complete, mem_range]

theorem length_denseIds (complete : Complete nodes) : (denseIds nodes).length = nodes.length :=
  (perm_denseIds complete).length_eq.trans length_range

theorem parent_internal (child : ChildOf nodes childId parentId) :
    parentId ∈ idsOfClass nodes .internal := by
  rcases child with ⟨node, found, member⟩
  exact mem_idsOfClass.mpr ⟨node, found, orderClass_of_child member⟩

theorem mem_needsOf :
    childId ∈ needsOf nodes (leafIds nodes) parentId ↔
      ChildOf nodes childId parentId ∧ childId < nodes.length ∧ childId ∉ leafIds nodes := by
  unfold needsOf ChildOf
  cases nodes[parentId]? with
  | none => simp
  | some node => simp [pendingChildren]

/-- A child stands before its parents. -/
theorem child_before {before after : List Nat}
    (split : denseIds nodes = before ++ parentId :: after)
    (child : ChildOf nodes childId parentId)
    (inside : childId < nodes.length) : childId ∈ before := by
  have fresh : parentId ∉ leafIds nodes := not_mem_leafIds (parent_internal child)
  rcases append_eq_append_iff.mp split with ⟨middle, front, back⟩ | ⟨middle, front, back⟩
  · rw [front, mem_append]
    by_cases leaf : childId ∈ leafIds nodes
    · exact .inl leaf
    · rcases needs_before back (mem_needsOf.mpr ⟨child, inside, leaf⟩) with placed | none
      · exact .inr placed
      · cases none
  · cases middle with
    | nil =>
      by_cases leaf : childId ∈ leafIds nodes
      · rwa [front, append_nil] at leaf
      · have first : internalOrder nodes = [] ++ parentId :: after := back.symm
        rcases needs_before first (mem_needsOf.mpr ⟨child, inside, leaf⟩) with none | none
        · cases none
        · cases none
    | cons first middle =>
      -- the parent would be a leaf
      rw [cons_append, List.cons.injEq] at back
      exact absurd (by rw [front, ← back.1]; simp) fresh

/-- The new id of a node. -/
def newPosition (nodes : List MastNode) (nodeId : Nat) : Nat := (denseIds nodes).idxOf nodeId

theorem newPosition_lt_newPosition (complete : Complete nodes)
    (child : ChildOf nodes childId parentId)
    (inside : childId < nodes.length) : newPosition nodes childId < newPosition nodes parentId := by
  have member : parentId ∈ denseIds nodes :=
    (mem_denseIds complete).mpr (lt_of_mem_class (parent_internal child))
  rcases append_of_mem member with ⟨before, after, split⟩
  have earlier := child_before split child inside
  have fresh : parentId ∉ before := by
    have distinct := nodup_denseIds nodes
    rw [split] at distinct
    exact fun old => disjoint_of_nodup_append distinct old mem_cons_self
  rw [newPosition, newPosition, split, idxOf_append_of_mem earlier, idxOf_append_of_notMem fresh]
  exact Nat.lt_add_right _ (idxOf_lt_length_of_mem earlier)

/-- A rank that grows along a relation rules cycles out. -/
theorem acyclic_of_rank {relation : Nat -> Nat -> Prop} (rank : Nat -> Nat)
    (grows : forall first second, relation first second -> rank first < rank second)
    (nodeId : Nat) : ¬ Relation.TransGen relation nodeId nodeId := by
  intro cycle
  have above := cycle.lift rank grows
  rw [Relation.transGen_eq_self] at above
  exact lt_irrefl _ above

/-- An order of all nodes rules cycles out. -/
theorem acyclic_of_complete (complete : Complete nodes)
    (bounded : forall childId parentId, ChildOf nodes childId parentId -> childId < nodes.length)
    (nodeId : Nat) : ¬ Relation.TransGen (ChildOf nodes) nodeId nodeId := by
  exact acyclic_of_rank (newPosition nodes)
    (fun _ _ child => newPosition_lt_newPosition complete child (bounded _ _ child)) nodeId

theorem Sortable.complete (sortable : Sortable nodes) : Complete nodes := by
  have child {need item : Nat} (needed : need ∈ needsOf nodes (leafIds nodes) item) :
      ChildOf nodes need item := (mem_needsOf.mp needed).1
  have founded : WellFounded (fun need item => need ∈ needsOf nodes (leafIds nodes) item) := by
    refine wellFounded_of_acyclic (fun need item needed => ⟨sortable.bounded need item (child needed),
      lt_of_mem_class (parent_internal (child needed))⟩) ?_
    exact fun nodeId cycle => sortable.acyclic nodeId (cycle.lift id fun _ _ => child)
  intro nodeId member
  refine arrange_complete (fun item _ need needed => ?_) founded member
  rcases mem_needsOf.mp needed with ⟨_, inside, outside⟩
  exact mem_internal_of_not_leaf inside outside

theorem complete_iff_length :
    (internalOrder nodes).length = (idsOfClass nodes .internal).length ↔ Complete nodes := by
  have distinct : (internalOrder nodes).Nodup := nodup_arrange _ _
  have inside : internalOrder nodes ⊆ idsOfClass nodes .internal := fun _ => mem_internalOrder
  constructor
  · intro same nodeId member
    exact ((subperm_of_subset distinct inside).perm_of_length_le (le_of_eq same.symm)).mem_iff.mpr member
  · intro complete
    exact le_antisymm (distinct.length_le_of_subset inside)
      ((nodup_idsOfClass nodes .internal).length_le_of_subset complete)

/-! ## The checks -/

instance : Std.Total externalBefore where
  total left right := by
    rcases lt_trichotomy left.1.digest right.1.digest with less | same | greater
    · exact .inl (.inl less)
    · rcases Nat.le_total left.2 right.2 with first | first
      · exact .inl (.inr ⟨same, first⟩)
      · exact .inr (.inr ⟨same.symm, first⟩)
    · exact .inr (.inl greater)

instance : IsTrans (MastNode × Nat) externalBefore where
  trans first second third := by
    rintro (less | ⟨same, first_le⟩) (less' | ⟨same', second_le⟩)
    · exact .inl (lt_trans less less')
    · exact .inl (same' ▸ less)
    · exact .inl (same ▸ less')
    · exact .inr ⟨same.trans same', Nat.le_trans first_le second_le⟩

theorem digests_externals (nodes : List MastNode) :
    (nodesOfClass nodes .external).map (fun entry => entry.1.digest) =
      nodes.filterMap externalDigest := by
  have shifted (start : Nat) : ((nodes.zipIdx start).filter (fun entry =>
      entry.1.orderClass = .external)).map (fun entry => entry.1.digest) =
      nodes.filterMap externalDigest := by
    induction nodes generalizing start with
    | nil => rfl
    | cons node rest ih =>
      rw [zipIdx_cons, filter_cons, filterMap_cons]
      cases node with
      | external digest =>
        exact congrArg (digest :: ·) (ih (start + 1))
      | _ => exact ih (start + 1)
  exact shifted 0

theorem checkExternalDigests_eq_ok {previous : Option Word} {entries : List (MastNode × Nat)} :
    checkExternalDigests previous entries = ok () ↔
      (forall last, previous = some last -> forall entry, entry ∈ entries ->
        last < entry.1.digest) ∧ (entries.map (fun entry => entry.1.digest)).Pairwise (· < ·) := by
  induction entries generalizing previous with
  | nil => simp [checkExternalDigests]
  | cons entry rest ih =>
    rw [checkExternalDigests, bind_unit_eq_ok, ensure_eq_ok, ih, map_cons, pairwise_cons]
    constructor
    · rintro ⟨above, next, increasing⟩
      have later := next _ rfl
      refine ⟨fun last same other member => ?_, forall_mem_map.mpr later, increasing⟩
      rcases mem_cons.mp member with rfl | old
      · exact above last same
      · exact lt_trans (above last same) (later other old)
    · rintro ⟨above, later, increasing⟩
      refine ⟨fun last same => above last same entry mem_cons_self, ?_, increasing⟩
      intro last same other member
      cases same
      exact later _ (mem_map_of_mem member)

/-- After sorting, increasing digests are distinct digests. -/
theorem checkExternalDigests_sorted :
    checkExternalDigests none ((nodesOfClass nodes .external).insertionSort externalBefore) =
      ok () ↔ (nodes.filterMap externalDigest).Nodup := by
  rw [checkExternalDigests_eq_ok, ← digests_externals,
    ← ((perm_insertionSort externalBefore _).map (fun entry => entry.1.digest)).nodup_iff]
  constructor
  · rintro ⟨_, increasing⟩
    exact increasing.imp ne_of_lt
  · intro distinct
    refine ⟨fun last absent => absurd absent (by simp), pairwise_map.mpr ?_⟩
    have sorted := pairwise_insertionSort externalBefore (nodesOfClass nodes .external)
    refine (sorted.and (pairwise_map.mp distinct)).imp ?_
    rintro left right ⟨less | ⟨same, _⟩, differ⟩
    · exact less
    · exact absurd same differ

theorem checkInternalChildren_eq_ok :
    checkInternalChildren nodes.length (nodesOfClass nodes .internal) = ok () ↔
      forall childId parentId, ChildOf nodes childId parentId -> childId < nodes.length := by
  have none_iff (node : MastNode) :
      (node.children.filter (fun childId => nodes.length ≤ childId)).getLast? = none ↔
        forall childId, childId ∈ node.children -> childId < nodes.length := by
    simp
  rw [checkInternalChildren, forEach_eq_ok]
  constructor
  · rintro passed childId parentId ⟨node, found, member⟩
    have checked :=
      passed (node, parentId) (mem_nodesOfClass.mpr ⟨found, orderClass_of_child member⟩)
    dsimp only at checked
    split at checked
    · cases checked
    · next inside => exact (none_iff node).mp inside childId member
  · rintro bounded ⟨node, parentId⟩ entry
    have found := (mem_nodesOfClass.mp entry).1
    dsimp only
    rw [(none_iff node).mpr (fun childId member => bounded childId parentId ⟨node, found, member⟩)]

/-- The loop over the ready nodes, from the counts of the source. -/
theorem takeReady_countPending (nodes : List MastNode) :
    (takeReady (nodesOfClass nodes .internal).length (pendingNodes nodes)
      ((idsOfClass nodes .internal).filter (fun nodeId => (pendingNodes nodes).counts[nodeId]? = some 0)) :
      Outcome MastForestError (List Nat)) = ok (internalOrder nodes) := by
  set internal := idsOfClass nodes .internal
  have waiting : Waiting internal (needsOf nodes (leafIds nodes)) []
      (pendingNodes nodes) := waiting_countPending
  have start : internal.filter (fun nodeId => (pendingNodes nodes).counts[nodeId]? = some 0) =
      internal.filter (fun nodeId => Ready (needsOf nodes (leafIds nodes)) [] nodeId) := by
    apply filter_congr
    intro nodeId member
    rw [waiting.counts nodeId member, decide_eq_decide, Option.some.injEq,
      outstanding_eq_zero, Ready]
    simp
  have size : (nodesOfClass nodes .internal).length = internal.length :=
    (length_map _).symm
  rw [start, size]
  exact takeReady_eq (increasing_idsOfClass nodes .internal) waiting (nil_subset _) nodup_nil
    (le_refl _)

/-- When the order exists, and what it is. -/
theorem finalDenseNodeOrder_eq_ok {order : List Nat} :
    finalDenseNodeOrder nodes = ok order ↔ Sortable nodes ∧ order = denseIds nodes := by
  set internal := nodesOfClass nodes .internal
  have run : finalDenseNodeOrder nodes = (do
      checkExternalDigests none ((nodesOfClass nodes .external).insertionSort externalBefore)
      checkInternalChildren nodes.length internal
      let ordered ← takeReady internal.length (pendingNodes nodes)
        ((idsOfClass nodes .internal).filter (fun nodeId => (pendingNodes nodes).counts[nodeId]? = some 0))
      if ordered.length = internal.length then ok (leafIds nodes ++ ordered)
      else do
        let nodeId ← expect ((idsOfClass nodes .internal).find? (fun nodeId => nodeId ∉ ordered))
        err (.invalidNodeOrder nodeId
          "internal nodes must form an acyclic child-before-parent graph")) := rfl
  have size : internal.length = (idsOfClass nodes .internal).length :=
    (length_map _).symm
  rw [run, takeReady_countPending, ok_bind, bind_unit_eq_ok, bind_unit_eq_ok,
    checkExternalDigests_sorted, checkInternalChildren_eq_ok, size]
  constructor
  · rintro ⟨distinct, bounded, last⟩
    by_cases all : (internalOrder nodes).length = (idsOfClass nodes .internal).length
    · rw [if_pos all, ok.injEq] at last
      exact ⟨⟨bounded, acyclic_of_complete (complete_iff_length.mp all) bounded, distinct⟩, last.symm⟩
    · rw [if_neg all, bind_eq_ok] at last
      rcases last with ⟨_, _, failed⟩
      cases failed
  · rintro ⟨sortable, rfl⟩
    refine ⟨sortable.distinct, sortable.bounded, ?_⟩
    rw [if_pos (complete_iff_length.mpr sortable.complete), denseIds]

end MidenVm.Mast
