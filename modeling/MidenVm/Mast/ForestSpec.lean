import MidenVm.Mast.BatchSafety
import MidenVm.Mast.Forest

namespace MidenVm.Mast

open Foundation Outcome List MastNode Option

/-!
# What the checks of a forest establish

One statement per check: the bounds, the dense order, the batches of the
basic blocks and the digests.  A node of a checked forest unfolds to a finite
tree, and its digest is the hash of that tree.
-/

variable {parts forest : MastForest} {nodeId childId : Nat} {node : MastNode} {rest nodes : List MastNode}
  {ε : Type} {digests computed : List Word} {hasher : Hasher}

theorem validateMastForestPartsBounds_eq_ok :
    validateMastForestPartsBounds parts = ok () ↔
      parts.nodes.length ≤ maxNodes ∧ forall rootId, rootId ∈ parts.roots ->
        rootId < parts.nodes.length := by
  rw [validateMastForestPartsBounds, bind_unit_eq_ok, ensure_eq_ok, forEach_eq_ok]
  simp only [ensure_eq_ok]

theorem validateMastForestPartsBounds_ne_panic (parts : MastForest) :
    validateMastForestPartsBounds parts ≠ panic :=
  bind_ne_panic (ensure_ne_panic _ _)
    (fun _ _ => forEach_ne_panic (fun _ _ => ensure_ne_panic _ _))

/-! ## Dense order -/

def MastNode.externalDigest : MastNode -> Option Word
  | .external digest => some digest
  | _ => none

/-- Externals with increasing digests, then blocks, then the rest; children first. -/
structure DenseOrder (nodes : List MastNode) : Prop where
  classes : nodes.Pairwise (fun left right => left.orderClass.rank ≤ right.orderClass.rank)
  externals : (nodes.filterMap MastNode.externalDigest).Pairwise (· < ·)
  backward : forall nodeId (node : MastNode), nodes[nodeId]? = some node ->
    forall childId, childId ∈ node.children -> childId < nodeId

theorem checkChildren_eq_ok {children : List Nat} :
    checkChildren nodeId children = ok () ↔ forall childId, childId ∈ children ->
      childId < nodeId := by
  have none_iff : (children.filter (fun childId => nodeId ≤ childId)).getLast? = none ↔
      forall childId, childId ∈ children -> childId < nodeId := by
    simp
  rw [← none_iff, checkChildren]
  cases (children.filter (fun childId => nodeId ≤ childId)).getLast? <;> simp

/-- The digest an external node leaves for the next one. -/
def MastNode.lastDigest (node : MastNode) (previous : Option Word) : Option Word :=
  (node.externalDigest).or previous

theorem nextExternalDigest_eq_ok {previous next : Option Word} :
    nextExternalDigest previous nodeId node = ok next ↔
      (forall before digest, previous = some before -> node.externalDigest = some digest ->
        before < digest) ∧ next = node.lastDigest previous := by
  cases node with
  | external digest =>
    cases previous with
    | none => simp [nextExternalDigest, lastDigest, externalDigest, eq_comm]
    | some before =>
      rw [nextExternalDigest, bind_unit_eq_ok, ensure_eq_ok]
      simp [lastDigest, externalDigest, eq_comm]
  | _ => simp [nextExternalDigest, lastDigest, externalDigest, eq_comm]

/-- Comparing each external digest with the one before it orders all of them. -/
theorem increasing_cons {previous : Option Word} :
    ((forall before digest, previous = some before -> node.externalDigest = some digest ->
        before < digest) ∧
      (forall last, node.lastDigest previous = some last ->
        forall digest, digest ∈ rest.filterMap externalDigest -> last < digest) ∧
      (rest.filterMap externalDigest).Pairwise (· < ·)) ↔
    (forall last, previous = some last ->
      forall digest, digest ∈ (node :: rest).filterMap externalDigest -> last < digest) ∧
    ((node :: rest).filterMap externalDigest).Pairwise (· < ·) := by
  cases own : node.externalDigest with
  | none =>
    rw [filterMap_cons_none own]
    simp [lastDigest, own]
  | some digest =>
    rw [filterMap_cons_some own, pairwise_cons]
    simp only [lastDigest, own, some_or, some.injEq, forall_eq', mem_cons, forall_eq_or_imp]
    constructor
    · rintro ⟨first, below, others⟩
      exact ⟨fun last same => ⟨first last digest same rfl, fun later member =>
        lt_trans (first last digest same rfl) (below later member)⟩, below, others⟩
    · rintro ⟨first, below, others⟩
      exact ⟨fun before other same same' => same' ▸ (first before same).1, below, others⟩

theorem backward_cons :
    ((forall childId, childId ∈ node.children -> childId < nodeId) ∧
      (forall index (other : MastNode), rest[index]? = some other ->
        forall childId, childId ∈ other.children -> childId < nodeId + 1 + index)) ↔
    forall index (other : MastNode), (node :: rest)[index]? = some other ->
      forall childId, childId ∈ other.children -> childId < nodeId + index := by
  constructor
  · rintro ⟨first, others⟩ index other found childId member
    cases index with
    | zero =>
      cases found
      exact first childId member
    | succ index =>
      have bound := others index other found childId member
      omega
  · intro all
    refine ⟨fun childId member => all 0 node rfl childId member, ?_⟩
    intro index other found childId member
    have bound := all (index + 1) other found childId member
    omega

/-- The loop of the order check, from any node on. -/
theorem checkDenseNodeOrder_eq_ok {previousClass : MastNodeOrderClass}
    {previousDigest : Option Word} :
    checkDenseNodeOrder previousClass previousDigest nodeId nodes = ok () ↔
      (forall node, node ∈ nodes -> previousClass.rank ≤ node.orderClass.rank) ∧
      nodes.Pairwise (fun left right => left.orderClass.rank ≤ right.orderClass.rank) ∧
      ((forall last, previousDigest = some last ->
        forall digest, digest ∈ nodes.filterMap externalDigest -> last < digest) ∧
        (nodes.filterMap externalDigest).Pairwise (· < ·)) ∧
      (forall index (node : MastNode), nodes[index]? = some node ->
        forall childId, childId ∈ node.children -> childId < nodeId + index) := by
  induction nodes generalizing previousClass previousDigest nodeId with
  | nil => simp [checkDenseNodeOrder]
  | cons node rest ih =>
    rw [checkDenseNodeOrder, bind_unit_eq_ok, ensure_eq_ok, bind_eq_ok, ← increasing_cons,
      ← backward_cons, pairwise_cons]
    simp only [nextExternalDigest_eq_ok, bind_unit_eq_ok, checkChildren_eq_ok, ih]
    constructor
    · rintro ⟨class_le, _, ⟨digest_lt, rfl⟩, children_lt, above, classes, ⟨below, externals⟩,
        backward⟩
      refine ⟨?_, ⟨above, classes⟩, ⟨digest_lt, below, externals⟩, children_lt, backward⟩
      intro other member
      rcases mem_cons.mp member with rfl | old
      · exact class_le
      · exact le_trans class_le (above other old)
    · rintro ⟨class_le, ⟨above, classes⟩, ⟨digest_lt, below, externals⟩, children_lt, backward⟩
      exact ⟨class_le node mem_cons_self, _, ⟨digest_lt, rfl⟩, children_lt, above, classes,
        ⟨below, externals⟩, backward⟩

theorem validateDenseNodeOrder_eq_ok : validateDenseNodeOrder nodes = ok () ↔ DenseOrder nodes := by
  rw [validateDenseNodeOrder, checkDenseNodeOrder_eq_ok]
  constructor
  · rintro ⟨_, classes, ⟨_, externals⟩, backward⟩
    exact ⟨classes, externals, by simpa using backward⟩
  · rintro ⟨classes, externals, backward⟩
    exact ⟨fun _ _ => Nat.zero_le _, classes,
      ⟨fun last absent => absurd absent (by simp), externals⟩, by simpa using backward⟩

theorem checkDenseNodeOrder_ne_panic (previousClass : MastNodeOrderClass)
    (previousDigest : Option Word) (nodeId : Nat) (nodes : List MastNode) :
    checkDenseNodeOrder previousClass previousDigest nodeId nodes ≠ panic := by
  induction nodes generalizing previousClass previousDigest nodeId with
  | nil => simp [checkDenseNodeOrder]
  | cons node rest ih =>
    apply ensure_bind_ne_panic
    intro _
    apply bind_ne_panic
    · unfold nextExternalDigest
      split
      · split
        · simp
        · exact bind_ne_panic (ensure_ne_panic _ _) (fun _ _ => by simp)
      · simp
    · intro next _
      apply bind_ne_panic
      · unfold checkChildren
        split <;> simp
      · exact fun _ _ => ih node.orderClass next (nodeId + 1)

/-! ## Blocks -/

theorem MastForest.validate_eq_ok :
    forest.validate = ok () ↔
      forall nodeId node, forest.nodes[nodeId]? = some node -> nodeId < 2 ^ 32 ∧
        forall opBatches digest, node = .block opBatches digest ->
          validateBatchInvariants opBatches = ok () := by
  rw [MastForest.validate, forEach_zipIdx_eq_ok]
  refine forall_congr' (fun nodeId => forall_congr' (fun node => imp_congr_right (fun _ => ?_)))
  dsimp only
  rw [bind_unit_eq_ok, require_eq_ok]
  cases node <;> simp

theorem MastForest.validate_ne_panic (bounded : forest.nodes.length ≤ maxNodes) :
    forest.validate ≠ panic := by
  apply forEach_ne_panic
  rintro ⟨node, nodeId⟩ member
  have below := (List.getElem?_eq_some_iff.mp (mk_mem_zipIdx_iff_getElem?.mp member)).1
  have fits : nodeId < 2 ^ 32 := lt_of_lt_of_le below (le_trans bounded (by decide))
  dsimp only
  rw [require_of fits, ok_bind]
  cases node with
  | block opBatches digest =>
    simp only [ne_eq, mapErr_eq_panic]
    exact validateBatchInvariants_ne_panic opBatches
  | _ => simp

/-! ## Digests -/

/-- The structure a node stands for, with the digests of externals as leaves. -/
inductive MastTree where
  | block (opBatches : List OpBatch)
  | join (first second : MastTree)
  | split (onTrue onFalse : MastTree)
  | loop (body : MastTree)
  | call (isSyscall : Bool) (callee : MastTree)
  | dyn (isDyncall : Bool)
  | external (digest : Word)

/-- The hash of a structure, computed by recursion. -/
def MastTree.digest (hasher : Hasher) : MastTree -> Word
  | block opBatches => hasher.block opBatches
  | join first second => hasher.join (first.digest hasher) (second.digest hasher)
  | split onTrue onFalse => hasher.split (onTrue.digest hasher) (onFalse.digest hasher)
  | loop body => hasher.loop (body.digest hasher)
  | call isSyscall callee => hasher.call isSyscall (callee.digest hasher)
  | dyn isDyncall => dynDigest isDyncall
  | external digest => digest

/-- A node id followed through the forest. -/
inductive Unfolds (nodes : List MastNode) : Nat -> MastTree -> Prop where
  | block {nodeId : Nat} {opBatches : List OpBatch} {digest : Word}
      (found : nodes[nodeId]? = some (.block opBatches digest)) :
      Unfolds nodes nodeId (.block opBatches)
  | join {nodeId first second : Nat} {digest : Word} {firstTree secondTree : MastTree}
      (found : nodes[nodeId]? = some (.join first second digest))
      (firstUnfolds : Unfolds nodes first firstTree)
      (secondUnfolds : Unfolds nodes second secondTree) :
      Unfolds nodes nodeId (.join firstTree secondTree)
  | split {nodeId onTrue onFalse : Nat} {digest : Word} {trueTree falseTree : MastTree}
      (found : nodes[nodeId]? = some (.split onTrue onFalse digest))
      (trueUnfolds : Unfolds nodes onTrue trueTree)
      (falseUnfolds : Unfolds nodes onFalse falseTree) :
      Unfolds nodes nodeId (.split trueTree falseTree)
  | loop {nodeId body : Nat} {digest : Word} {bodyTree : MastTree}
      (found : nodes[nodeId]? = some (.loop body digest))
      (bodyUnfolds : Unfolds nodes body bodyTree) :
      Unfolds nodes nodeId (.loop bodyTree)
  | call {nodeId callee : Nat} {isSyscall : Bool} {digest : Word} {calleeTree : MastTree}
      (found : nodes[nodeId]? = some (.call callee isSyscall digest))
      (calleeUnfolds : Unfolds nodes callee calleeTree) :
      Unfolds nodes nodeId (.call isSyscall calleeTree)
  | dyn {nodeId : Nat} {isDyncall : Bool} {digest : Word}
      (found : nodes[nodeId]? = some (.dyn isDyncall digest)) :
      Unfolds nodes nodeId (.dyn isDyncall)
  | external {nodeId : Nat} {digest : Word}
      (found : nodes[nodeId]? = some (.external digest)) :
      Unfolds nodes nodeId (.external digest)

/-- Every digest is what one hashing step gives from the digests before it. -/
def LocallyHashed (hasher : Hasher) (nodes : List MastNode) : Prop :=
  forall nodeId node, nodes[nodeId]? = some node ->
    computeNodeHash hasher ((nodes.map MastNode.digest).take nodeId) nodeId node = ok node.digest

variable {check : Nat -> Outcome ε Unit}

theorem hashChild_eq_ok {combine : Word -> Word} {digest : Word} :
    hashChild check digests combine childId = ok digest ↔
      check childId = ok () ∧
        ∃ childDigest, digests[childId]? = some childDigest ∧ combine childDigest = digest := by
  rw [hashChild, bind_unit_eq_ok, bind_eq_ok]
  simp only [expect_eq_ok, ok.injEq]

theorem hashChildren_eq_ok {combine : Word -> Word -> Word} {leftId rightId : Nat} {digest : Word} :
    hashChildren check digests combine leftId rightId = ok digest ↔
      check leftId = ok () ∧ check rightId = ok () ∧
        ∃ leftDigest, digests[leftId]? = some leftDigest ∧
          ∃ rightDigest, digests[rightId]? = some rightDigest ∧
            combine leftDigest rightDigest = digest := by
  rw [hashChildren, bind_unit_eq_ok, bind_unit_eq_ok, bind_eq_ok]
  simp only [bind_eq_ok, expect_eq_ok, ok.injEq]

theorem expect_ne_panic (inside : childId < digests.length) :
    (expect digests[childId]? : Outcome ε Word) ≠ panic := by
  rw [getElem?_eq_getElem inside, expect_some]
  simp

theorem hashChild_ne_panic (safe : forall childId, check childId ≠ panic)
    (inside : forall childId, check childId = ok () -> childId < digests.length)
    (combine : Word -> Word) (childId : Nat) : hashChild check digests combine childId ≠ panic :=
  bind_ne_panic (safe childId) (fun _ checked =>
    bind_ne_panic (expect_ne_panic (inside childId checked)) (fun _ _ => by simp))

theorem hashChildren_ne_panic (safe : forall childId, check childId ≠ panic)
    (inside : forall childId, check childId = ok () -> childId < digests.length)
    (combine : Word -> Word -> Word) (leftId rightId : Nat) :
    hashChildren check digests combine leftId rightId ≠ panic :=
  bind_ne_panic (safe leftId) (fun _ leftChecked =>
    bind_ne_panic (safe rightId) (fun _ rightChecked =>
      bind_ne_panic (expect_ne_panic (inside leftId leftChecked)) (fun _ _ =>
        bind_ne_panic (expect_ne_panic (inside rightId rightChecked)) (fun _ _ => by simp))))

/-- A child digest found before a node belongs to a node of the forest. -/
theorem digest_before {digest : Word}
    (found : ((nodes.map MastNode.digest).take nodeId)[childId]? = some digest) :
    childId < nodeId ∧ ∃ child, nodes[childId]? = some child ∧ child.digest = digest := by
  rw [getElem?_take, getElem?_map] at found
  split at found
  · rename_i below
    rcases map_eq_some_iff.mp found with ⟨child, present, same⟩
    exact ⟨below, child, present, same⟩
  · cases found

/-- Digests that agree step by step are hashes of whole structures. -/
theorem LocallyHashed.digest_eq (hashed : LocallyHashed hasher nodes) (nodeId : Nat)
    (node : MastNode) (found : nodes[nodeId]? = some node) :
    ∃ tree, Unfolds nodes nodeId tree ∧ node.digest = tree.digest hasher := by
  induction nodeId using Nat.strong_induction_on generalizing node with
  | _ nodeId ih =>
    have step := hashed nodeId node found
    have child : forall {childId digest},
        ((nodes.map MastNode.digest).take nodeId)[childId]? = some digest ->
        ∃ tree, Unfolds nodes childId tree ∧ digest = tree.digest hasher := by
      intro childId digest present
      rcases digest_before present with ⟨below, child, atChild, rfl⟩
      exact ih childId below child atChild
    cases node with
    | block opBatches digest => exact ⟨_, .block found, (ok.inj step).symm⟩
    | join first second digest =>
      rcases hashChildren_eq_ok.mp step with ⟨_, _, _, atFirst, _, atSecond, same⟩
      rcases child atFirst with ⟨firstTree, firstUnfolds, rfl⟩
      rcases child atSecond with ⟨secondTree, secondUnfolds, rfl⟩
      exact ⟨_, .join found firstUnfolds secondUnfolds, same.symm⟩
    | split onTrue onFalse digest =>
      rcases hashChildren_eq_ok.mp step with ⟨_, _, _, atTrue, _, atFalse, same⟩
      rcases child atTrue with ⟨trueTree, trueUnfolds, rfl⟩
      rcases child atFalse with ⟨falseTree, falseUnfolds, rfl⟩
      exact ⟨_, .split found trueUnfolds falseUnfolds, same.symm⟩
    | loop body digest =>
      rcases hashChild_eq_ok.mp step with ⟨_, _, atBody, same⟩
      rcases child atBody with ⟨bodyTree, bodyUnfolds, rfl⟩
      exact ⟨_, .loop found bodyUnfolds, same.symm⟩
    | call callee isSyscall digest =>
      rcases hashChild_eq_ok.mp step with ⟨_, _, atCallee, same⟩
      rcases child atCallee with ⟨calleeTree, calleeUnfolds, rfl⟩
      exact ⟨_, .call found calleeUnfolds, same.symm⟩
    | dyn isDyncall digest => exact ⟨_, .dyn found, (ok.inj step).symm⟩
    | external digest => exact ⟨_, .external found, rfl⟩

theorem computeNodeHashes_eq_ok (returned : forest.computeNodeHashes hasher = ok computed) :
    computed.length = forest.nodes.length ∧
      forall nodeId node, forest.nodes[nodeId]? = some node ->
        ∃ digest, computed[nodeId]? = some digest ∧
          computeNodeHash hasher (computed.take nodeId) nodeId node = ok digest := by
  have ended := foldlM_invariant (fun index computed => computed.length = index ∧
    forall nodeId node, nodeId < index -> forest.nodes[nodeId]? = some node ->
      ∃ digest, computed[nodeId]? = some digest ∧
        computeNodeHash hasher (computed.take nodeId) nodeId node = ok digest)
    (by
      rintro index ⟨node, atIndex⟩ computed next found ⟨length, before⟩ ran
      rcases getElem?_zipIdx_eq_some.mp found with ⟨present, rfl⟩
      rcases bind_eq_ok.mp ran with ⟨digest, hashed, done⟩
      cases done
      refine ⟨by simp [length], fun nodeId other below atNode => ?_⟩
      rcases Nat.lt_succ_iff_lt_or_eq.mp below with earlier | rfl
      · rcases before nodeId other earlier atNode with ⟨found, atDigest, step⟩
        refine ⟨found, ?_, ?_⟩
        · rw [getElem?_append_left (by omega), atDigest]
        · rwa [take_append_of_le_length (by omega)]
      · rw [present] at atNode
        cases atNode
        refine ⟨digest, by simp [length], ?_⟩
        rw [take_append_of_le_length (by omega), take_of_length_le (by omega)]
        exact hashed)
    ⟨rfl, fun _ _ impossible => absurd impossible (Nat.not_lt_zero _)⟩ returned
  rw [length_zipIdx] at ended
  refine ⟨ended.1, fun nodeId node found => ?_⟩
  exact ended.2 nodeId node (List.getElem?_eq_some_iff.mp found).1 found

/-- The stored digests are accepted exactly when each is one hashing step away
from those before it. -/
theorem MastForest.validateNodeHashes_eq_ok :
    forest.validateNodeHashes hasher = ok () ↔ LocallyHashed hasher forest.nodes := by
  constructor
  · intro accepted
    rcases bind_eq_ok.mp accepted with ⟨computed, returned, compared⟩
    rcases computeNodeHashes_eq_ok returned with ⟨length, each⟩
    have agree : computed = forest.nodes.map digest := by
      apply ext_getElem? 
      intro nodeId
      rw [getElem?_map]
      cases found : forest.nodes[nodeId]? with
      | none =>
        rw [List.getElem?_eq_none_iff] at found
        rw [map_none, List.getElem?_eq_none_iff, length]
        exact found
      | some node =>
        rcases each nodeId node found with ⟨digest, atDigest, _⟩
        have zipped : (forest.nodes.zip computed)[nodeId]? = some (node, digest) :=
          getElem?_zip_eq_some.mpr ⟨found, atDigest⟩
        have same := ensure_eq_ok.mp (forEach_zipIdx_eq_ok.mp compared nodeId _ zipped)
        rw [atDigest, map_some]
        exact congrArg some same.symm
    intro nodeId node found
    rcases each nodeId node found with ⟨digest, atDigest, step⟩
    rw [agree] at step atDigest
    rw [getElem?_map, found] at atDigest
    cases atDigest
    exact step
  · intro hashed
    have run := @foldlM_returns _ _ _ (computeNodeHashStep hasher) forest.nodes.zipIdx
      (fun index computed => computed = (forest.nodes.map digest).take index)
      (by
        rintro index ⟨node, nodeId⟩ computed found rfl
        rcases getElem?_zipIdx_eq_some.mp found with ⟨present, rfl⟩
        refine ⟨(forest.nodes.map digest).take (nodeId + 1), ?_, rfl⟩
        rw [computeNodeHashStep, hashed nodeId node present, ok_bind, take_add_one,
          getElem?_map, present]
        rfl) [] (by simp)
    rcases run with ⟨computed, returned, same⟩
    rw [length_zipIdx, take_of_length_le (by simp)] at same
    subst same
    refine bind_eq_ok.mpr ⟨_, returned, forEach_zipIdx_eq_ok.mpr ?_⟩
    rintro nodeId ⟨node, digest⟩ zipped
    rcases getElem?_zip_eq_some.mp zipped with ⟨atNode, atDigest⟩
    rw [getElem?_map, atNode] at atDigest
    exact ensure_of (some.inj atDigest) _

theorem computeNodeHash_ne_panic (node : MastNode) :
    computeNodeHash hasher computed computed.length node ≠ panic := by
  have safe : forall childId, checkNoForwardRef computed.length childId ≠ panic :=
    fun _ => ensure_ne_panic _ _
  have inside : forall childId, checkNoForwardRef computed.length childId = ok () ->
      childId < computed.length := fun _ checked => ensure_eq_ok.mp checked
  cases node with
  | join first second digest | split onTrue onFalse digest =>
    exact hashChildren_ne_panic safe inside _ _ _
  | loop body digest | call callee isSyscall digest => exact hashChild_ne_panic safe inside _ _
  | _ => simp [computeNodeHash]

theorem MastForest.validateNodeHashes_ne_panic (hasher : Hasher) (forest : MastForest) :
    forest.validateNodeHashes hasher ≠ panic := by
  apply bind_ne_panic
  · apply foldlM_ne_panic (fun index computed => computed.length = index)
    · rintro index entry computed next _ rfl ran
      rcases bind_eq_ok.mp ran with ⟨digest, _, done⟩
      cases done
      simp
    · rintro index ⟨node, nodeId⟩ computed found rfl
      rcases getElem?_zipIdx_eq_some.mp found with ⟨_, rfl⟩
      exact bind_ne_panic (computeNodeHash_ne_panic node) (fun _ _ => by simp)
    · rfl
  · exact fun _ _ => forEach_ne_panic (fun _ _ => ensure_ne_panic _ _)

/-! ## Trusted parts -/

/-- Roots inside the forest have digests to commit to. -/
theorem computeMastForestCommitment_returns (hasher : Hasher)
    (inside : forall rootId, rootId ∈ parts.roots -> rootId < parts.nodes.length) :
    ∃ commitment, (computeMastForestCommitment hasher parts : Outcome ε _) = ok commitment := by
  have digests : ∃ digests, (collect parts.roots (fun nodeId =>
      expect (parts.nodes[nodeId]?.map digest)) : Outcome ε _) = ok digests := by
    apply collect_returns
    intro rootId member
    exact ⟨_, by rw [getElem?_eq_getElem (inside rootId member), map_some, expect_some]⟩
  rcases digests with ⟨digests, collected⟩
  exact ⟨_, by rw [computeMastForestCommitment, computeNodesCommitment, collected, ok_bind, ok_bind]⟩

theorem fromTrustedDeserializationParts_eq_ok :
    fromTrustedDeserializationParts hasher parts = ok forest ↔
      (parts.nodes.length ≤ maxNodes ∧ forall rootId, rootId ∈ parts.roots -> rootId < parts.nodes.length) ∧
      DenseOrder parts.nodes ∧ forest = parts := by
  rw [fromTrustedDeserializationParts, bind_unit_eq_ok, validateMastForestPartsBounds_eq_ok,
    bind_unit_eq_ok, validateDenseNodeOrder_eq_ok, bind_eq_ok]
  constructor
  · rintro ⟨bounds, order, _, _, same⟩
    exact ⟨bounds, order, (ok.inj same).symm⟩
  · rintro ⟨bounds, order, rfl⟩
    rcases computeMastForestCommitment_returns hasher bounds.2 with ⟨commitment, returned⟩
    exact ⟨bounds, order, commitment, returned, rfl⟩

theorem fromTrustedDeserializationParts_ne_panic (hasher : Hasher) (parts : MastForest) :
    fromTrustedDeserializationParts hasher parts ≠ panic := by
  apply bind_ne_panic (validateMastForestPartsBounds_ne_panic parts)
  intro _ bounds
  apply bind_ne_panic (checkDenseNodeOrder_ne_panic _ _ _ _)
  intro _ _
  rcases computeMastForestCommitment_returns hasher
    (validateMastForestPartsBounds_eq_ok.mp bounds).2 with ⟨commitment, returned⟩
  rw [returned, ok_bind]
  simp

end MidenVm.Mast
