import MidenVm.Mast.CanonicalOrder

namespace MidenVm.Mast

open Foundation Outcome List IdMap MastNode

/-!
# The forest that finalization returns

Every node moves to its position in the computed order and its children are
renamed.  The result is in dense order.  A forest in dense order is its own
result: its computed order is the identity.
-/

variable {nodes : List MastNode}

/-! ## Renamed nodes -/

variable {node : MastNode} {nodeId : Nat} {parts : MastForest} (map : IdMap)

theorem MastNode.orderClass_remapChildren (node : MastNode) :
    (node.remapChildren map).orderClass = node.orderClass := by
  cases node <;> rfl

theorem MastNode.externalDigest_remapChildren (node : MastNode) :
    (node.remapChildren map).externalDigest = node.externalDigest := by
  cases node <;> rfl

theorem MastNode.children_remapChildren (node : MastNode) :
    (node.remapChildren map).children = node.children.map map.move := by
  cases node <;> rfl

theorem MastNode.remapChildren_of_fixed {map : IdMap}
    (fixed : forall childId, childId ∈ node.children -> map.move childId = childId) :
    node.remapChildren map = node := by
  cases node <;> simp_all [remapChildren, children]

/-- What a node is, apart from the ids of its children. -/
def MastNode.withoutChildren : MastNode -> MastNode
  | .join _ _ digest => .join 0 0 digest
  | .split _ _ digest => .split 0 0 digest
  | .loop _ digest => .loop 0 digest
  | .call _ isSyscall digest => .call 0 isSyscall digest
  | node => node

theorem MastNode.withoutChildren_remapChildren (node : MastNode) :
    (node.remapChildren map).withoutChildren = node.withoutChildren := by
  cases node <;> rfl

theorem buildLinkedNode_eq_ok {built : MastNode} :
    buildLinkedNode node = ok built ↔ (forall digest, node ≠ .block [] digest) ∧ built = node := by
  cases node with
  | block opBatches digest => cases opBatches <;> simp [buildLinkedNode, eq_comm]
  | _ => simp [buildLinkedNode, eq_comm]

/-! ## The map of ids -/

/-- The new id of every node. -/
def newIds (nodes : List MastNode) : IdMap :=
  (List.range nodes.length).map (fun nodeId => some (newPosition nodes nodeId))

theorem get_newIds (nodeId : Nat) :
    (newIds nodes).get nodeId =
      if nodeId < nodes.length then some (newPosition nodes nodeId) else none := by
  unfold IdMap.get newIds
  rw [getElem?_map]
  by_cases inside : nodeId < nodes.length
  · rw [getElem?_range inside, if_pos inside]
    rfl
  · rw [getElem?_eq_none (by simpa using inside), if_neg inside]
    rfl

theorem move_newIds (inside : nodeId < nodes.length) :
    (newIds nodes).move nodeId = newPosition nodes nodeId := by
  rw [move, get_newIds, if_pos inside]
  rfl

/-- Insertion of consecutive targets. -/
theorem foldlM_insert {ε : Type} {order : List Nat} {map : IdMap} {start : Nat}
    (distinct : order.Nodup) (inside : forall nodeId, nodeId ∈ order -> nodeId < map.length) :
    ∃ renamed : IdMap, ((order.zipIdx start).foldlM (fun map (oldId, newId) => map.insert oldId newId) map :
        Outcome ε IdMap) = ok renamed ∧ renamed.length = map.length ∧
      forall nodeId, renamed[nodeId]? =
        if nodeId ∈ order then some (some (start + order.idxOf nodeId)) else map[nodeId]? := by
  induction order generalizing map start with
  | nil => exact ⟨map, rfl, rfl, fun _ => rfl⟩
  | cons first rest ih =>
    rcases nodup_cons.mp distinct with ⟨fresh, others⟩
    have room : first < map.length := inside first mem_cons_self
    have still (nodeId : Nat) (member : nodeId ∈ rest) :
        nodeId < (map.set first (some start)).length := by
      rw [length_set]
      exact inside nodeId (mem_cons_of_mem _ member)
    rcases @ih (map.set first (some start)) (start + 1) others still with ⟨renamed, run, size, spec⟩
    refine ⟨renamed, ?_, by rw [size, length_set], fun nodeId => ?_⟩
    · rw [zipIdx_cons, foldlM_cons]
      show (insert map first start >>= _) = _
      rw [IdMap.insert, require_of room, ok_bind, ok_bind]
      exact run
    · rw [spec nodeId]
      by_cases same : nodeId = first
      · subst same
        rw [if_neg fresh, if_pos mem_cons_self, getElem?_set_self room, idxOf_cons_self]
        rfl
      · by_cases later : nodeId ∈ rest
        · rw [if_pos later, if_pos (mem_cons_of_mem _ later), idxOf_cons_ne _ (Ne.symm same)]
          congr 2
          omega
        · rw [if_neg later, if_neg (by simp [same, later]), getElem?_set_ne (Ne.symm same)]

theorem finalRemapping_eq {ε : Type} (complete : Complete nodes) :
    (finalRemapping nodes.length (denseIds nodes) : Outcome ε IdMap) = ok (newIds nodes) := by
  have room (nodeId : Nat) (member : nodeId ∈ denseIds nodes) :
      nodeId < (withLen nodes.length).length := by
    rw [withLen, length_replicate]
    exact lt_of_mem_denseIds member
  rcases foldlM_insert (ε := ε) (nodup_denseIds nodes) room with ⟨renamed, run, size, spec⟩
  rw [finalRemapping, run]
  congr 1
  apply ext_getElem?
  intro nodeId
  rw [spec nodeId, newIds, getElem?_map]
  by_cases inside : nodeId < nodes.length
  · rw [if_pos ((mem_denseIds complete).mpr inside), getElem?_range inside, zero_add]
    rfl
  · rw [if_neg (fun member => inside (lt_of_mem_denseIds member)),
      getElem?_eq_none (by simpa [withLen] using inside),
      getElem?_eq_none (by simpa using inside)]
    rfl

/-! ## The nodes in their new places -/

/-- A node with renamed children. -/
def moved (nodes : List MastNode) (oldId : Nat) : MastNode :=
  (nodes.getD oldId (.external Word.zero)).remapChildren (newIds nodes)

theorem moved_of_found {oldId : Nat} (found : nodes[oldId]? = some node) :
    moved nodes oldId = node.remapChildren (newIds nodes) := by
  rw [moved, getD_eq_getElem?_getD, found, Option.getD_some]

/-- The nodes in the new order, with renamed children. -/
def renumbered (nodes : List MastNode) : List MastNode := (denseIds nodes).map (moved nodes)

theorem getElem?_renumbered (complete : Complete nodes) {oldId : Nat}
    (found : nodes[oldId]? = some node) :
    (renumbered nodes)[newPosition nodes oldId]? = some (node.remapChildren (newIds nodes)) := by
  have member : oldId ∈ denseIds nodes :=
    (mem_denseIds complete).mpr (List.getElem?_eq_some_iff.mp found).1
  rw [renumbered, getElem?_map, newPosition, getElem?_idxOf member, Option.map_some,
    moved_of_found found]

/-- Every place of the new order holds a renamed node. -/
theorem exists_old {newId : Nat} (found : (renumbered nodes)[newId]? = some node) :
    ∃ oldId old, nodes[oldId]? = some old ∧ newId = newPosition nodes oldId ∧
      node = old.remapChildren (newIds nodes) := by
  rw [renumbered, getElem?_map, Option.map_eq_some_iff] at found
  rcases found with ⟨oldId, placed, rfl⟩
  rcases List.getElem?_eq_some_iff.mp placed with ⟨bound, rfl⟩
  have inside : (denseIds nodes)[newId] < nodes.length := lt_of_mem_denseIds (getElem_mem bound)
  have found := getElem?_eq_getElem inside
  exact ⟨_, _, found, ((nodup_denseIds nodes).idxOf_getElem newId bound).symm, moved_of_found found⟩

theorem classes_of_ids {ids : List Nat} {orderClass : MastNodeOrderClass}
    (known : forall nodeId, nodeId ∈ ids -> nodeId ∈ idsOfClass nodes orderClass)
    (member : nodeId ∈ ids) : (moved nodes nodeId).orderClass = orderClass := by
  rcases mem_idsOfClass.mp (known nodeId member) with ⟨node, found, rfl⟩
  rw [moved_of_found found, orderClass_remapChildren]

theorem externalDigest_of_class (kind : node.orderClass ≠ .external) :
    node.externalDigest = none := by
  cases node <;> first | rfl | exact absurd rfl kind

theorem externals_renumbered (nodes : List MastNode) :
    (renumbered nodes).filterMap externalDigest =
      ((nodesOfClass nodes .external).insertionSort externalBefore).map (fun entry => entry.1.digest) := by
  have nothing {ids : List Nat} {orderClass : MastNodeOrderClass} (other : orderClass ≠ .external)
      (known : forall nodeId, nodeId ∈ ids -> nodeId ∈ idsOfClass nodes orderClass) :
      (ids.map (moved nodes)).filterMap externalDigest = [] := by
    rw [filterMap_map, filterMap_eq_nil_iff]
    intro nodeId member
    exact externalDigest_of_class (fun same => other ((classes_of_ids known member).symm.trans same))
  rw [renumbered, denseIds, leafIds, map_append, map_append, filterMap_append,
    filterMap_append, nothing (by decide : MastNodeOrderClass.basicBlock ≠ .external) (fun _ => id),
    nothing (by decide : MastNodeOrderClass.internal ≠ .external) (fun _ => mem_internalOrder),
    append_nil, append_nil, map_map, filterMap_map, ← filterMap_eq_map]
  apply filterMap_congr
  rintro ⟨node, nodeId⟩ member
  rcases mem_nodesOfClass.mp ((perm_insertionSort externalBefore _).mem_iff.mp member) with
    ⟨found, kind⟩
  show (moved nodes nodeId).externalDigest = some node.digest
  rw [moved_of_found found, externalDigest_remapChildren]
  cases node <;> first | rfl | cases kind

theorem denseOrder_renumbered (sortable : Sortable nodes) : DenseOrder (renumbered nodes) := by
  have two {low high : List Nat} {lowClass highClass : MastNodeOrderClass}
      (lows : forall nodeId, nodeId ∈ low -> nodeId ∈ idsOfClass nodes lowClass)
      (highs : forall nodeId, nodeId ∈ high -> nodeId ∈ idsOfClass nodes highClass)
      (ranked : lowClass.rank ≤ highClass.rank) (left : Nat) (first : left ∈ low) (right : Nat)
      (second : right ∈ high) : (moved nodes left).orderClass.rank ≤ (moved nodes right).orderClass.rank := by
    rwa [classes_of_ids lows first, classes_of_ids highs second]
  have one {ids : List Nat} {orderClass : MastNodeOrderClass}
      (known : forall nodeId, nodeId ∈ ids -> nodeId ∈ idsOfClass nodes orderClass) :=
    pairwise_of_forall_mem_list (two known known (le_refl _))
  have externals (nodeId : Nat)
      (member : nodeId ∈ ((nodesOfClass nodes .external).insertionSort externalBefore).map Prod.snd) :
      nodeId ∈ idsOfClass nodes .external := (perm_externals nodes).mem_iff.mp member
  refine ⟨?_, ?_, ?_⟩
  · refine pairwise_map.mpr (pairwise_append.mpr ⟨pairwise_append.mpr
      ⟨one externals, one (fun _ => id), two externals (fun _ => id) (by decide)⟩,
      one (fun _ => mem_internalOrder), fun left first right second => ?_⟩)
    rcases mem_append.mp first with external | block
    · exact two externals (fun _ => mem_internalOrder) (by decide) left external right second
    · exact two (fun _ => id) (fun _ => mem_internalOrder) (by decide) left block right second
  · rw [externals_renumbered]
    exact (checkExternalDigests_eq_ok.mp (checkExternalDigests_sorted.mpr sortable.distinct)).2
  · intro newId node found childId member
    rcases exists_old found with ⟨oldId, old, place, rfl, rfl⟩
    rw [children_remapChildren, mem_map] at member
    rcases member with ⟨oldChild, listed, rfl⟩
    have child : ChildOf nodes oldChild oldId := ⟨old, place, listed⟩
    have inside := sortable.bounded _ _ child
    rw [move_newIds inside]
    exact newPosition_lt_newPosition sortable.complete child inside

/-! ## Forests in dense order -/

namespace DenseOrder

variable (dense : DenseOrder nodes)
include dense

theorem child_lt {childId parentId : Nat} (child : ChildOf nodes childId parentId) :
    childId < parentId := by
  rcases child with ⟨node, found, member⟩
  exact dense.backward parentId node found childId member

theorem sortable : Sortable nodes := by
  refine ⟨fun childId parentId child => ?_, acyclic_of_rank id (fun _ _ => dense.child_lt),
    dense.externals.imp ne_of_lt⟩
  exact lt_trans (dense.child_lt child) (lt_of_mem_class (parent_internal child))

/-- Classes of lower rank have smaller ids. -/
theorem id_lt {low high : MastNodeOrderClass} (ranked : low.rank < high.rank) {first second : Nat}
    (lowId : first ∈ idsOfClass nodes low) (highId : second ∈ idsOfClass nodes high) :
    first < second := by
  rcases mem_idsOfClass.mp lowId with ⟨node, found, rfl⟩
  rcases mem_idsOfClass.mp highId with ⟨other, found', rfl⟩
  rcases List.getElem?_eq_some_iff.mp found with ⟨bound, rfl⟩
  rcases List.getElem?_eq_some_iff.mp found' with ⟨bound', rfl⟩
  by_contra later
  rcases Nat.lt_or_eq_of_le (not_lt.mp later) with less | same
  · exact absurd (pairwise_iff_getElem.mp dense.classes second first bound' bound less) (not_le.mpr ranked)
  · subst same
    exact lt_irrefl _ ranked

theorem leafIds_eq : leafIds nodes = idsOfClass nodes .external ++ idsOfClass nodes .basicBlock := by
  have sorted : (nodesOfClass nodes .external).Pairwise externalBefore := by
    have increasing := dense.externals
    rw [← digests_externals] at increasing
    exact (pairwise_map.mp increasing).imp .inl
  rw [leafIds, sorted.insertionSort_eq]
  rfl

theorem internalOrder_eq : internalOrder nodes = idsOfClass nodes .internal := by
  have ordered (first : List Nat) (item : Nat) (last : List Nat)
      (split : [] ++ idsOfClass nodes .internal = first ++ item :: last) :
      needsOf nodes (leafIds nodes) item ⊆ first := by
    intro need needed
    rcases mem_needsOf.mp needed with ⟨child, inside, outside⟩
    have member : need ∈ first ++ item :: last := by
      rw [← split, nil_append]
      exact mem_internal_of_not_leaf inside outside
    have increasing := increasing_idsOfClass nodes .internal
    rw [nil_append] at split
    rw [split] at increasing
    rcases mem_append.mp member with before | after
    · exact before
    · have above := (pairwise_append.mp increasing).2.1
      have less := dense.child_lt child
      rcases mem_cons.mp after with rfl | after
      · exact absurd less (lt_irrefl _)
      · exact absurd less (Nat.lt_asymm (rel_of_pairwise_cons above after))
  exact arrange_of_ordered (nodup_idsOfClass nodes .internal) (fun _ => Iff.rfl) ordered

theorem denseIds_eq : denseIds nodes = List.range nodes.length := by
  refine List.Perm.eq_of_pairwise' ?_ pairwise_lt_range (perm_denseIds dense.sortable.complete)
  rw [denseIds, dense.leafIds_eq, dense.internalOrder_eq]
  refine pairwise_append.mpr ⟨pairwise_append.mpr ⟨increasing_idsOfClass _ _,
    increasing_idsOfClass _ _, fun first lowId second highId => dense.id_lt (by decide) lowId highId⟩,
    increasing_idsOfClass _ _, fun first lowId second highId => ?_⟩
  rcases mem_append.mp lowId with external | block
  · exact dense.id_lt (by decide) external highId
  · exact dense.id_lt (by decide) block highId

end DenseOrder

section Identity

variable (identity : denseIds nodes = List.range nodes.length)
include identity

theorem newPosition_of_identity (inside : nodeId < nodes.length) :
    newPosition nodes nodeId = nodeId := by
  have place :=
    (nodup_denseIds nodes).idxOf_getElem nodeId (by rw [identity, length_range]; exact inside)
  simpa only [newPosition, identity, getElem_range] using place

theorem move_of_identity (nodeId : Nat) : (newIds nodes).move nodeId = nodeId := by
  by_cases inside : nodeId < nodes.length
  · rw [move_newIds inside, newPosition_of_identity identity inside]
  · rw [move, get_newIds, if_neg inside]
    rfl

theorem renumbered_of_identity : renumbered nodes = nodes := by
  rw [renumbered, identity]
  apply ext_getElem
  · simp
  · intro nodeId _ inside
    rw [getElem_map, getElem_range, moved_of_found (getElem?_eq_getElem inside)]
    exact remapChildren_of_fixed (fun childId _ => move_of_identity identity childId)

end Identity

theorem identity_iff_dense (sortable : Sortable nodes) :
    denseIds nodes = List.range (denseIds nodes).length ↔ DenseOrder nodes := by
  rw [length_denseIds sortable.complete]
  constructor
  · intro identity
    exact renumbered_of_identity identity ▸ denseOrder_renumbered sortable
  · exact DenseOrder.denseIds_eq

/-! ## Finalization -/

/-- The forest with its nodes in the new places. -/
def canonicalized (parts : MastForest) : MastForest where
  nodes := renumbered parts.nodes
  roots := parts.roots.map (newIds parts.nodes).move
  adviceMap := parts.adviceMap

/-- What a forest that is not in dense order must satisfy. -/
def Movable (parts : MastForest) : Prop :=
  (forall rootId, rootId ∈ parts.roots -> rootId < parts.nodes.length) ∧
    forall digest, .block [] digest ∉ parts.nodes

theorem collect_nodes {built : List MastNode} :
    collect (denseIds nodes) (fun oldId => do
      let node ← expect nodes[oldId]?
      buildLinkedNode (node.remapChildren (newIds nodes))) = ok built ↔
    (forall oldId, oldId ∈ denseIds nodes -> forall digest,
      nodes[oldId]? ≠ some (.block [] digest)) ∧ built = renumbered nodes := by
  refine collect_eq_ok_iff (moved nodes) (fun oldId member node => ?_)
  have inside : oldId < nodes.length := lt_of_mem_denseIds member
  have found := getElem?_eq_getElem inside
  rw [found, expect_some, ok_bind, buildLinkedNode_eq_ok, moved_of_found found]
  refine and_congr_left (fun _ => forall_congr' (fun digest => not_congr ?_))
  rw [Option.some.injEq]
  cases nodes[oldId] <;> simp [remapChildren]

theorem collect_roots {roots : List Nat} :
    collect parts.roots (fun rootId =>
      okOr ((newIds parts.nodes).get rootId) (MastForestError.nodeIdOverflow rootId parts.nodes.length)) =
      ok roots ↔
    (forall rootId, rootId ∈ parts.roots -> rootId < parts.nodes.length) ∧
      roots = parts.roots.map (newIds parts.nodes).move := by
  refine collect_eq_ok_iff _ (fun rootId _ root => ?_)
  rw [okOr_eq_ok, get_newIds]
  by_cases inside : rootId < parts.nodes.length
  · rw [if_pos inside, move_newIds inside, Option.some.injEq, and_iff_right inside, eq_comm]
  · simp [inside]

theorem canonicalizeParts_eq_ok {result : MastForest × IdMap} :
    canonicalizeParts parts = ok result ↔
      Sortable parts.nodes ∧ (DenseOrder parts.nodes ∨ Movable parts) ∧
        result = (canonicalized parts, newIds parts.nodes) := by
  rw [canonicalizeParts, bind_eq_ok]
  simp only [finalDenseNodeOrder_eq_ok]
  constructor
  · rintro ⟨order, ⟨sortable, rfl⟩, run⟩
    rw [finalRemapping_eq sortable.complete, ok_bind] at run
    refine ⟨sortable, ?_⟩
    by_cases identity : denseIds parts.nodes = List.range (denseIds parts.nodes).length
    · rw [if_pos identity, bind_unit_eq_ok, ok.injEq] at run
      have dense := (identity_iff_dense sortable).mp identity
      refine ⟨.inl dense, ?_⟩
      rw [← run.2, canonicalized, renumbered_of_identity dense.denseIds_eq,
        funext (move_of_identity dense.denseIds_eq), map_id']
    · simp only [if_neg identity, bind_eq_ok, collect_nodes, collect_roots] at run
      rcases run with ⟨_, ⟨full, rfl⟩, _, ⟨rooted, rfl⟩, _, _, finished⟩
      cases finished
      refine ⟨.inr ⟨rooted, fun digest member => ?_⟩, rfl⟩
      rcases getElem?_of_mem member with ⟨oldId, found⟩
      exact full oldId ((mem_denseIds sortable.complete).mpr (List.getElem?_eq_some_iff.mp found).1) digest found
  · rintro ⟨sortable, allowed, rfl⟩
    refine ⟨_, ⟨sortable, rfl⟩, ?_⟩
    rw [finalRemapping_eq sortable.complete, ok_bind]
    by_cases dense : DenseOrder parts.nodes
    · rw [if_pos ((identity_iff_dense sortable).mpr dense),
        require_of (validateDenseNodeOrder_eq_ok.mpr dense), ok_bind, canonicalized,
        renumbered_of_identity dense.denseIds_eq, funext (move_of_identity dense.denseIds_eq), map_id']
    · have movable := allowed.resolve_left dense
      have built := collect_nodes.mpr ⟨fun oldId _ digest found =>
        movable.2 digest (mem_of_getElem? found), rfl⟩
      have moved := collect_roots.mpr ⟨movable.1, rfl⟩
      rw [if_neg (fun identity => dense ((identity_iff_dense sortable).mp identity)), built,
        ok_bind, moved,
        ok_bind, require_of (validateDenseNodeOrder_eq_ok.mpr (denseOrder_renumbered sortable)), ok_bind,
        canonicalized]

theorem newPosition_lt (complete : Complete nodes) (inside : nodeId < nodes.length) :
    newPosition nodes nodeId < nodes.length :=
  length_denseIds complete ▸ idxOf_lt_length_of_mem ((mem_denseIds complete).mpr inside)

theorem newPosition_injective (complete : Complete nodes) {first second : Nat}
    (left : first < nodes.length)
    (same : newPosition nodes first = newPosition nodes second) : first = second :=
  (idxOf_inj ((mem_denseIds complete).mpr left)).mp same

/-- The new ids as a permutation. -/
noncomputable def rename (complete : Complete nodes) : Equiv.Perm (Fin nodes.length) :=
  Equiv.ofBijective (fun nodeId => ⟨newPosition nodes nodeId, newPosition_lt complete nodeId.isLt⟩)
    (Finite.injective_iff_bijective.mp (fun first _ same =>
      Fin.ext (newPosition_injective complete first.isLt (congrArg Fin.val same))))

/-- A forest in dense order is returned as it is. -/
theorem canonicalizeParts_of_dense (dense : DenseOrder parts.nodes) :
    canonicalizeParts parts = ok (parts, (List.range parts.nodes.length).map some) := by
  rw [canonicalizeParts_eq_ok]
  refine ⟨dense.sortable, .inl dense, ?_⟩
  have fixed : newIds parts.nodes = (List.range parts.nodes.length).map some := by
    refine map_congr_left (fun nodeId member => ?_)
    rw [newPosition_of_identity dense.denseIds_eq (mem_range.mp member)]
  rw [canonicalized, renumbered_of_identity dense.denseIds_eq,
    funext (move_of_identity dense.denseIds_eq), map_id', fixed]

/-- When finalization succeeds, and what it returns.  Roots are looked at only
if some node has to move. -/
theorem canonicalizeParts_spec (parts : MastForest) :
    ((∃ result, canonicalizeParts parts = ok result) ↔
      (forall childId parentId, ChildOf parts.nodes childId parentId -> childId < parts.nodes.length) ∧
      (forall nodeId, ¬ Relation.TransGen (ChildOf parts.nodes) nodeId nodeId) ∧
      (parts.nodes.filterMap MastNode.externalDigest).Nodup ∧
      (validateDenseNodeOrder parts.nodes = ok () ∨
        (forall rootId, rootId ∈ parts.roots -> rootId < parts.nodes.length) ∧
          forall digest, .block [] digest ∉ parts.nodes)) ∧
    forall out map, canonicalizeParts parts = ok (out, map) ->
      out.nodes.length = parts.nodes.length ∧
      (∃ rename : Equiv.Perm (Fin parts.nodes.length), forall nodeId : Fin parts.nodes.length,
        map.get nodeId = some (rename nodeId) ∧
        ∃ renamed, out.nodes[(rename nodeId).val]? = some renamed ∧
          renamed.withoutChildren = parts.nodes[nodeId].withoutChildren ∧
          renamed.digest = parts.nodes[nodeId].digest ∧
          renamed.children.map some = parts.nodes[nodeId].children.map map.get) ∧
      out.roots = parts.roots.map map.move ∧ out.adviceMap = parts.adviceMap ∧
      validateDenseNodeOrder out.nodes = ok () ∧
      canonicalizeParts out = ok (out, (List.range out.nodes.length).map some) := by
  constructor
  · simp only [canonicalizeParts_eq_ok, validateDenseNodeOrder_eq_ok]
    constructor
    · rintro ⟨_, sortable, allowed, _⟩
      exact ⟨sortable.bounded, sortable.acyclic, sortable.distinct, allowed⟩
    · rintro ⟨bounded, acyclic, distinct, allowed⟩
      exact ⟨_, ⟨bounded, acyclic, distinct⟩, allowed, rfl⟩
  · intro out map run
    rcases canonicalizeParts_eq_ok.mp run with ⟨sortable, _, same⟩
    cases same
    have complete := sortable.complete
    have dense : DenseOrder (canonicalized parts).nodes := denseOrder_renumbered sortable
    refine ⟨?_, ⟨rename complete, fun nodeId => ⟨?_, ?_⟩⟩, rfl, rfl,
      validateDenseNodeOrder_eq_ok.mpr dense, canonicalizeParts_of_dense dense⟩
    · rw [canonicalized, renumbered, length_map, length_denseIds complete]
    · rw [get_newIds, if_pos nodeId.isLt]
      rfl
    · have found : parts.nodes[nodeId.val]? = some parts.nodes[nodeId] :=
        getElem?_eq_getElem nodeId.isLt
      refine ⟨_, getElem?_renumbered complete found, withoutChildren_remapChildren _ _, ?_, ?_⟩
      · cases parts.nodes[nodeId] <;> rfl
      · rw [children_remapChildren, map_map]
        refine map_congr_left (fun childId member => ?_)
        have inside := sortable.bounded childId nodeId ⟨_, found, member⟩
        rw [Function.comp_apply, move_newIds inside, get_newIds, if_pos inside]

/-- One node in place, with a root outside the forest. -/
theorem canonicalizeParts_root_outside :
    ¬ forall parts : MastForest, (∃ result, canonicalizeParts parts = ok result) ↔
      (forall childId parentId, ChildOf parts.nodes childId parentId -> childId < parts.nodes.length) ∧
      (forall rootId, rootId ∈ parts.roots -> rootId < parts.nodes.length) ∧
      (forall nodeId, ¬ Relation.TransGen (ChildOf parts.nodes) nodeId nodeId) ∧
      (parts.nodes.filterMap MastNode.externalDigest).Nodup := by
  intro claim
  have accepted := (claim ⟨[.dyn false dynDefaultDigest], [1], OrderedMap.empty⟩).mp ⟨_, rfl⟩
  exact absurd (accepted.2.1 1 mem_cons_self) (by decide)

end MidenVm.Mast
