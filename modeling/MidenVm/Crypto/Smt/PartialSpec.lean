import MidenVm.Crypto.Smt.Partial
import MidenVm.Crypto.Smt.WithEntries

namespace MidenVm.Crypto

open Foundation Outcome Nat EmptySubtreeRoots NodeIndex Smt
open Foundation.Mountain
open Foundation.SparseTree

/-!
# What a partial tree knows

A partial tree that was built from openings of a tree and then updated is the
tree restricted to the paths that were opened or written: `Tracks` says so for
the leaves and for the inner nodes.  A node that is not stored is read as empty,
and this is right below an empty node that hangs off a known path.  Keys that
are accepted are therefore those whose leaf is on a known path or below such a
node.
-/

namespace PartialSmt

variable {D : Type} {hasher : SmtHasher D}
variable {tree : PartialSmt D} {depth height place : Nat}

/-- The hash of a node below the root is read from its parent. -/
theorem getNodeHash_succ (tree : PartialSmt D) (depth position : Nat) :
    tree.getNodeHash hasher ⟨depth + 1, position⟩ =
      if position % 2 = 1 then (tree.getInnerNodeOrEmpty hasher ⟨depth, position / 2⟩).right
      else (tree.getInnerNodeOrEmpty hasher ⟨depth, position / 2⟩).left := by
  have below : ¬ isRoot ⟨depth + 1, position⟩ = true := by simp [isRoot]
  simp [getNodeHash, below, moveUp, isPositionOdd]

/-- The child of two on the way to a position. -/
theorem childrenOf_select (leaf : Nat -> D) (height position : Nat) :
    (if position % 2 = 1 then (childrenOf hasher leaf height (position / 2)).right
      else (childrenOf hasher leaf height (position / 2)).left) =
      node hasher.merge leaf height position := by
  by_cases odd : position % 2 = 1
  · have right : 2 * (position / 2) + 1 = position := by omega
    rw [if_pos odd, childrenOf, right]
  · have left : 2 * (position / 2) = position := by omega
    rw [if_neg odd, childrenOf, left]

/-- One level of the walk to a leaf. -/
theorem meetsEmpty_succ [DecidableEq D] (tree : PartialSmt D) (depth place bit : Nat) :
    tree.meetsEmpty hasher ⟨smtDepth, place⟩ (bit + 1) ⟨depth, place / 2 ^ (bit + 1)⟩ =
      match tree.innerNodes.get? ⟨depth, place / 2 ^ (bit + 1)⟩ with
      | none => false
      | some stored =>
        if (if place / 2 ^ bit % 2 = 1 then stored.right else stored.left) =
            entry hasher smtDepth (smtDepth - bit) then true
        else tree.meetsEmpty hasher ⟨smtDepth, place⟩ bit ⟨depth + 1, place / 2 ^ bit⟩ := by
  set child := place / 2 ^ bit
  have turn : isNthBitOdd ⟨smtDepth, place⟩ bit = true ↔ child % 2 = 1 := by
    rw [isNthBitOdd, beq_iff_eq, and_one_is_mod, shiftRight_eq_div_pow]
  have turned : (if child % 2 = 1 then rightChild ⟨depth, place / 2 ^ (bit + 1)⟩
      else leftChild ⟨depth, place / 2 ^ (bit + 1)⟩) = ⟨depth + 1, child⟩ := by
    rw [div_two_pow_succ]
    by_cases odd : child % 2 = 1
    · have right : 2 * (child / 2) + 1 = child := by omega
      rw [if_pos odd, rightChild, right]
    · have left : 2 * (child / 2) = child := by omega
      rw [if_neg odd, leftChild, left]
  rw [meetsEmpty]
  cases tree.innerNodes.get? ⟨depth, place / 2 ^ (bit + 1)⟩ with
  | none => rfl
  | some stored => simp only [turn, turned]

/-- A key is tracked by a stored leaf, or because nothing is below a node on the
way to it. -/
theorem tracked_cases [DecidableEq D] {key : Word} {leaf : SmtLeaf}
    (tracked : tree.getTrackedLeaf hasher key = some leaf) :
    tree.leaves.get? (leafIndex key) = some leaf ∨
      leaf = .empty (leafIndex key) ∧
        (tree.root = entry hasher smtDepth 0 ∨
          tree.meetsEmpty hasher ⟨smtDepth, leafIndex key⟩ smtDepth .root = true) := by
  rw [getTrackedLeaf] at tracked
  split at tracked
  · rename_i found
    exact .inl (found.trans tracked)
  · split at tracked
    · rename_i empty
      exact .inr ⟨(Option.some.inj tracked).symm, .inl empty⟩
    · split at tracked
      · rename_i meets
        exact .inr ⟨(Option.some.inj tracked).symm, .inr meets⟩
      · cases tracked

/-! ## Known paths -/

/-- A node on the path of one of the leaves. -/
def OnPath (known : List Nat) (index : NodeIndex) : Prop :=
  ∃ place ∈ known, place / 2 ^ (smtDepth - index.depth) = index.position

instance (known : List Nat) (index : NodeIndex) : Decidable (OnPath known index) :=
  inferInstanceAs (Decidable (∃ place ∈ known, _))

theorem onPath_iff {known : List Nat} {position : Nat} (level : depth + height = smtDepth) :
    OnPath known ⟨depth, position⟩ ↔ ∃ place ∈ known, place / 2 ^ height = position := by
  have above : smtDepth - depth = height := by omega
  rw [OnPath]
  simp only [above]

theorem div_pow_of_le {other low high : Nat} (order : low ≤ high)
    (same : place / 2 ^ low = other / 2 ^ low) : place / 2 ^ high = other / 2 ^ high := by
  rcases Nat.exists_eq_add_of_le order with ⟨more, rfl⟩
  rw [pow_add, ← Nat.div_div_eq_div_mul, ← Nat.div_div_eq_div_mul, same]

variable [DecidableEq D]

/-- The leaves and nodes on the known paths of a map. -/
structure Covers (hasher : SmtHasher D) (tree : PartialSmt D) (content : SmtMap)
    (known : List Nat) : Prop where
  numEntries : tree.numEntries = tree.leaves.total SmtLeaf.numEntries
  leaves : forall place, tree.leaves.get? place =
    if place ∈ known then content.leafAt place else none
  innerNodes : forall index, tree.innerNodes.get? index =
    if OnPath known index then innerNodeOf hasher (content.leafHash hasher) index else none

/-- The tree of a map, restricted to known paths. -/
structure Tracks (hasher : SmtHasher D) (tree : PartialSmt D) (content : SmtMap)
    (known : List Nat) : Prop extends tree.Covers hasher content known where
  root : tree.root = content.root hasher

/-- Nothing is known of a tree to begin with. -/
theorem new_covers (hasher : SmtHasher D) (root : D) (content : SmtMap) :
    (new root).Covers hasher content [] where
  numEntries := rfl
  leaves _ := rfl
  innerNodes index := (if_neg (fun onPath => by
    rcases onPath with ⟨_, member, _⟩
    exact absurd member List.not_mem_nil)).symm

/-- A leaf that is fixed by what is known: on a known path, or below an empty
node whose parent is on one. -/
def Determined (content : SmtMap) (known : List Nat) (place : Nat) : Prop :=
  place ∈ known ∨ (forall index, content.entriesAt index = []) ∨
    ∃ height, height < smtDepth ∧
      (∃ other ∈ known, other / 2 ^ (height + 1) = place / 2 ^ (height + 1)) ∧
      forall index, index / 2 ^ height = place / 2 ^ height -> content.entriesAt index = []

section Known

variable (free : hasher.CollisionFree) {content : SmtMap} {known : List Nat}
include free

omit [DecidableEq D] in
/-- A node is empty if no leaf below it has entries. -/
theorem node_empty_iff {position : Nat} :
    node hasher.merge (content.leafHash hasher) height position = emptyOf hasher height ↔
      forall index, index / 2 ^ height = position -> content.entriesAt index = [] := by
  rw [emptyOf, node_eq_emptyRoot_iff free.merge]
  exact forall₂_congr (fun index _ => free.leaf_empty)

/-- The walk over known nodes meets an empty one. -/
theorem Covers.meetsEmpty_iff (covers : tree.Covers hasher content known)
    (level : depth + height = smtDepth)
    (solid : node hasher.merge (content.leafHash hasher) height (place / 2 ^ height) ≠ emptyOf hasher height) :
    tree.meetsEmpty hasher ⟨smtDepth, place⟩ height ⟨depth, place / 2 ^ height⟩ = true ↔
      ∃ low, low < height ∧
        (∃ other ∈ known, other / 2 ^ (low + 1) = place / 2 ^ (low + 1)) ∧
        forall index, index / 2 ^ low = place / 2 ^ low -> content.entriesAt index = [] := by
  induction height generalizing depth with
  | zero =>
    refine iff_of_false (fun meets => by cases meets) (fun below => ?_)
    rcases below with ⟨low, impossible, _⟩
    exact absurd impossible (Nat.not_lt_zero low)
  | succ bit ih =>
    have next : depth + 1 + bit = smtDepth := by omega
    rw [meetsEmpty_succ, covers.innerNodes]
    by_cases onPath : OnPath known ⟨depth, place / 2 ^ (bit + 1)⟩
    · rw [if_pos onPath, innerNodeOf_eq hasher level, if_neg solid, div_two_pow_succ]
      simp only [childrenOf_select]
      rw [entry_eq hasher (show smtDepth - bit + bit = smtDepth by omega)]
      by_cases empty : node hasher.merge (content.leafHash hasher) bit (place / 2 ^ bit) =
        emptyOf hasher bit
      · rw [if_pos empty]
        exact iff_of_true rfl ⟨bit, lt_succ_self bit, (onPath_iff level).mp onPath,
          (node_empty_iff free).mp empty⟩
      · rw [if_neg empty, ih next empty]
        refine exists_congr (fun low => and_congr_left (fun both => ?_))
        refine ⟨lt_succ_of_lt, fun below => ?_⟩
        -- The node of the lowest level is not empty, so it is a lower one.
        rcases Nat.lt_succ_iff_lt_or_eq.mp below with less | same
        · exact less
        · rw [same] at both
          exact absurd ((node_empty_iff free).mpr both.2) empty
    · rw [if_neg onPath]
      refine iff_of_false (fun meets => by cases meets) (fun below => ?_)
      rcases below with ⟨low, less, ⟨other, member, same⟩, _⟩
      exact onPath ((onPath_iff level).mpr ⟨other, member, div_pow_of_le less same⟩)

omit free in
theorem leafAt_eq_none : content.leafAt place = none ↔ content.entriesAt place = [] := by
  rw [SmtMap.leafAt]
  split
  · rename_i empty
    exact iff_of_true rfl empty
  · rename_i some
    exact iff_of_false (fun none => by cases none) some

omit [DecidableEq D] in
theorem root_empty_iff : content.root hasher = emptyOf hasher smtDepth ↔
    forall index, content.entriesAt index = [] := by
  rw [SmtMap.root, node_empty_iff free]
  refine forall_congr' (fun index => ⟨fun below => ?_, fun none _ => none⟩)
  by_cases inside : index < 2 ^ smtDepth
  · exact below (div_eq_of_lt inside)
  · exact content.entriesAt_of_ge (not_lt.mp inside)

/-- The keys that are accepted, and their leaves. -/
theorem Tracks.getTrackedLeaf (tracks : tree.Tracks hasher content known) (key : Word) :
    (Determined content known (leafIndex key) ->
      tree.getTrackedLeaf hasher key =
        some (.ofEntries (leafIndex key) (content.entriesAt (leafIndex key)))) ∧
    (¬ Determined content known (leafIndex key) -> tree.getTrackedLeaf hasher key = none) := by
  have walk (solid : node hasher.merge (content.leafHash hasher) smtDepth
      (leafIndex key / 2 ^ smtDepth) ≠ emptyOf hasher smtDepth) :=
    tracks.meetsEmpty_iff free (zero_add smtDepth) solid
  rw [leafIndex_div] at walk
  have root : tree.root = entry hasher smtDepth 0 ↔ forall index, content.entriesAt index = [] := by
    rw [tracks.root]
    exact root_empty_iff free
  have stored := tracks.leaves (leafIndex key)
  rw [PartialSmt.getTrackedLeaf]
  constructor
  · intro determined
    by_cases held : leafIndex key ∈ known ∧ content.entriesAt (leafIndex key) ≠ []
    · rw [stored, if_pos held.1, SmtMap.leafAt, if_neg held.2]
    · have absent : tree.leaves.get? (leafIndex key) = none := by
        rw [stored]
        by_cases member : leafIndex key ∈ known
        · rw [if_pos member, leafAt_eq_none]
          exact not_not.mp (fun some => held ⟨member, some⟩)
        · rw [if_neg member]
      have none : content.entriesAt (leafIndex key) = [] := by
        rcases determined with member | all | ⟨height, _, _, below⟩
        · exact not_not.mp (fun some => held ⟨member, some⟩)
        · exact all _
        · exact below _ rfl
      rw [absent, none]
      by_cases empty : tree.root = entry hasher smtDepth 0
      · exact if_pos empty
      · have solid : content.root hasher ≠ emptyOf hasher smtDepth := tracks.root ▸ empty
        have meets : tree.meetsEmpty hasher ⟨smtDepth, leafIndex key⟩ smtDepth .root = true := by
          refine (walk solid).mpr ?_
          rcases determined with member | all | below
          · -- The leaf itself is the empty node below its known parent.
            refine ⟨0, by decide, ⟨_, member, rfl⟩, fun index same => ?_⟩
            rw [pow_zero, Nat.div_one, Nat.div_one] at same
            rw [same]
            exact none
          · exact absurd (root.mpr all) empty
          · exact below
        simp only [if_neg empty, meets, if_true]
        rfl
  · intro undetermined
    have unknown : leafIndex key ∉ known := fun member => undetermined (.inl member)
    have empty : tree.root ≠ entry hasher smtDepth 0 := fun same =>
      undetermined (.inr (.inl (root.mp same)))
    have solid : content.root hasher ≠ emptyOf hasher smtDepth := tracks.root ▸ empty
    have meets : ¬ tree.meetsEmpty hasher ⟨smtDepth, leafIndex key⟩ smtDepth .root = true :=
      fun meets => undetermined (.inr (.inr ((walk solid).mp meets)))
    rw [stored, if_neg unknown]
    simp only [if_neg empty, meets]
    rfl

/-- The nodes on the way to a leaf that is determined are read as they are. -/
theorem Covers.children (covers : tree.Covers hasher content known)
    (determined : Determined content known place) (level : depth + (height + 1) = smtDepth) :
    tree.getInnerNodeOrEmpty hasher ⟨depth, place / 2 ^ (height + 1)⟩ =
      childrenOf hasher (content.leafHash hasher) height (place / 2 ^ (height + 1)) := by
  rw [getInnerNodeOrEmpty, covers.innerNodes]
  by_cases onPath : OnPath known ⟨depth, place / 2 ^ (height + 1)⟩
  · rw [if_pos onPath]
    exact innerNodeOf_getD free.emptyFree level
  · have vacant : forall index, index / 2 ^ (height + 1) = place / 2 ^ (height + 1) ->
        content.entriesAt index = [] := by
      intro index below
      rcases determined with member | all | ⟨other, _, shared, none⟩
      · exact absurd ((onPath_iff level).mpr ⟨place, member, rfl⟩) onPath
      · exact all index
      · -- The known path is left above this node, so it lies below the empty one.
        rcases shared with ⟨path, member, same⟩
        rcases lt_or_ge height other with inside | outside
        · exact none index (div_pow_of_le inside below)
        · exact absurd ((onPath_iff level).mpr
            ⟨path, member, div_pow_of_le (succ_le_succ outside) same⟩) onPath
    rw [if_neg onPath, ← innerNodeOf_getD free.emptyFree level, innerNodeOf_eq hasher level,
      if_pos ((node_empty_iff free).mpr vacant)]

theorem Covers.map_proofIter (covers : tree.Covers hasher content known)
    (determined : Determined content known place) (level : depth + height = smtDepth) :
    (proofIter depth (place / 2 ^ height ^^^ 1)).map (tree.getNodeHash hasher) =
      siblings hasher.merge (content.leafHash hasher) depth height (place / 2 ^ height) := by
  induction depth generalizing height with
  | zero => rfl
  | succ depth ih =>
    have parent : depth + (height + 1) = smtDepth := by omega
    have up := (div_two_pow_succ place height).symm
    have half : (place / 2 ^ height ^^^ 1) / 2 = place / 2 ^ (height + 1) := by
      rw [xor_one_div, up]
    have beside : tree.getNodeHash hasher ⟨depth + 1, place / 2 ^ height ^^^ 1⟩ =
        node hasher.merge (content.leafHash hasher) height (place / 2 ^ height ^^^ 1) := by
      rw [getNodeHash_succ, half, covers.children free determined parent, ← half]
      exact childrenOf_select _ _ _
    rw [proofIter, List.map_cons, beside, half, ih parent, siblings, up, xor_one_eq_sibling]

/-- The opening of a key that is determined is that of the tree. -/
theorem Tracks.openAt (tracks : tree.Tracks hasher content known) {key : Word}
    (determined : Determined content known (leafIndex key)) :
    tree.openAt hasher key =
      .ok ⟨SparseMerklePath.ofNodes hasher (pathOf hasher content key),
        SmtLeaf.ofEntries (leafIndex key) (content.entriesAt (leafIndex key))⟩ := by
  have nodes := tracks.map_proofIter free determined (add_zero smtDepth)
  rw [pow_zero, Nat.div_one] at nodes
  have short : (pathOf hasher content key).length ≤ smtMaxDepth := by
    rw [pathOf, length_siblings]
    exact le_refl 64
  rw [PartialSmt.openAt, getLeaf, (tracks.getTrackedLeaf free key).1 determined, okOr_some,
    ok_bind, getPath, proofIndices, nodes]
  rw [pathOf] at short
  simp only [SparseMerklePath.fromSizedIter_eq_ok hasher short, unwrap_ok, ok_bind, pure_eq_ok]
  rfl

end Known

/-! ## Writing a path -/

section Write

variable (free : hasher.EmptyFree) {leaf : Nat -> D}
include free

/-- Storing the children of a node, or dropping the node when it is empty. -/
theorem get?_insertInnerNode (tree : PartialSmt D) {position : Nat}
    (level : depth + (height + 1) = smtDepth) (index : NodeIndex) :
    (tree.insertInnerNode hasher ⟨depth, position⟩
      (childrenOf hasher leaf height position)).innerNodes.get? index =
      if index = ⟨depth, position⟩ then innerNodeOf hasher leaf index
      else tree.innerNodes.get? index := by
  have same : childrenOf hasher leaf height position =
        getInnerNode hasher smtDepth depth ↔
      node hasher.merge leaf (height + 1) position = emptyOf hasher (height + 1) := by
    rw [getInnerNode_eq hasher level, InnerNode.ext_iff]
    constructor
    · rintro ⟨left, right⟩
      exact congrArg₂ hasher.merge left right
    · exact free.node _ _ _
  rw [insertInnerNode]
  by_cases empty : node hasher.merge leaf (height + 1) position = emptyOf hasher (height + 1)
  · rw [if_pos (same.mpr empty), OrderedMap.get?_erase]
    split
    · rename_i here
      rw [here, innerNodeOf_eq hasher level, if_pos empty]
    · rfl
  · rw [if_neg (fun equal => empty (same.mp equal)), OrderedMap.get?_insert]
    split
    · rename_i here
      rw [here, innerNodeOf_eq hasher level, if_neg empty]
    · rfl

omit free in
theorem insertInnerNode_keeps (hasher : SmtHasher D) (tree : PartialSmt D) (index : NodeIndex)
    (stored : InnerNode D) : (tree.insertInnerNode hasher index stored).root = tree.root ∧
      (tree.insertInnerNode hasher index stored).numEntries = tree.numEntries ∧
      (tree.insertInnerNode hasher index stored).leaves = tree.leaves := by
  rw [insertInnerNode]
  split
  · exact ⟨rfl, rfl, rfl⟩
  · exact ⟨rfl, rfl, rfl⟩

/-- The nodes of a path above a depth. -/
def Above (place depth : Nat) (index : NodeIndex) : Prop :=
  index.depth < depth ∧ place / 2 ^ (smtDepth - index.depth) = index.position

instance (place depth : Nat) (index : NodeIndex) : Decidable (Above place depth index) :=
  inferInstanceAs (Decidable (_ ∧ _))

omit free in
/-- One more node of a path. -/
theorem written_above (level : depth + (height + 1) = smtDepth)
    {before middle after : NodeIndex -> Option (InnerNode D)}
    (first : forall index, middle index = if index = ⟨depth, place / 2 ^ (height + 1)⟩ then
        innerNodeOf hasher leaf index else before index)
    (rest : forall index, after index = if Above place depth index then innerNodeOf hasher leaf index
        else middle index)
    (index : NodeIndex) :
    after index = if Above place (depth + 1) index then innerNodeOf hasher leaf index
      else before index := by
  have at_depth : smtDepth - depth = height + 1 := by omega
  have one_more : Above place (depth + 1) index ↔
      Above place depth index ∨ index = ⟨depth, place / 2 ^ (height + 1)⟩ := by
    rw [Above, Above, Nat.lt_succ_iff_lt_or_eq, or_and_right]
    refine or_congr_right ⟨fun both => ?_, fun same => ?_⟩
    · rcases both with ⟨deep, same⟩
      rw [deep, at_depth] at same
      exact NodeIndex.ext deep same.symm
    · rw [same]
      exact ⟨rfl, by rw [at_depth]⟩
  rw [rest, first]
  by_cases inside : Above place depth index
  · rw [if_pos inside, if_pos (one_more.mpr (.inl inside))]
  · rw [if_neg inside]
    by_cases here : index = ⟨depth, place / 2 ^ (height + 1)⟩
    · rw [if_pos here, if_pos (one_more.mpr (.inr here))]
    · rw [if_neg here, if_neg (fun above => (one_more.mp above).elim inside here)]

/-- What a loop over a path leaves: the nodes of the path, and everything else
as it was. -/
structure WritesPath (hasher : SmtHasher D) (leaf : Nat -> D) (place depth : Nat)
    (before after : PartialSmt D) : Prop where
  numEntries : after.numEntries = before.numEntries
  leaves : after.leaves = before.leaves
  innerNodes : forall index, after.innerNodes.get? index =
    if Above place depth index then innerNodeOf hasher leaf index else before.innerNodes.get? index

/-- One more node of a path. -/
theorem WritesPath.succ (level : depth + (height + 1) = smtDepth) {before after : PartialSmt D}
    (rest : WritesPath hasher leaf place depth (before.insertInnerNode hasher ⟨depth, place / 2 ^ (height +
        1)⟩ (childrenOf hasher leaf height (place / 2 ^ (height + 1)))) after) :
    WritesPath hasher leaf place (depth + 1) before after := by
  rcases insertInnerNode_keeps hasher before ⟨depth, place / 2 ^ (height + 1)⟩
    (childrenOf hasher leaf height (place / 2 ^ (height + 1))) with ⟨_, count, leaves⟩
  exact ⟨rest.numEntries.trans count, rest.leaves.trans leaves,
    written_above level (get?_insertInnerNode free before level) rest.innerNodes⟩

theorem recomputeNodes_writes {old : Nat -> D} {value : D}
    (changed : leaf = Function.update old place value) (level : depth + height = smtDepth)
    (children : forall {upper lower : Nat}, upper + (lower + 1) = smtDepth -> upper < depth ->
        tree.getInnerNodeOrEmpty hasher ⟨upper, place / 2 ^ (lower + 1)⟩ =
        childrenOf hasher old lower (place / 2 ^ (lower + 1))) :
    let result := recomputeNodes hasher depth (place / 2 ^ height)
      (node hasher.merge leaf height (place / 2 ^ height)) tree
    result.root = node hasher.merge leaf smtDepth (place / 2 ^ smtDepth) ∧
      WritesPath hasher leaf place depth tree result := by
  induction depth generalizing height tree with
  | zero =>
    rw [Nat.zero_add] at level
    subst level
    exact ⟨rfl, rfl, rfl, fun index => (if_neg (fun above => Nat.not_lt_zero _ above.1)).symm⟩
  | succ depth ih =>
    have parent : depth + (height + 1) = smtDepth := by omega
    have up := (div_two_pow_succ place height).symm
    rw [recomputeNodes, up, children parent (lt_succ_self depth),
      replaceChild_update changed height]
    have kept {upper lower : Nat} (below : upper + (lower + 1) = smtDepth) (less : upper < depth) :
        (tree.insertInnerNode hasher ⟨depth, place / 2 ^ (height + 1)⟩ (childrenOf hasher leaf height
          (place / 2 ^ (height + 1)))).getInnerNodeOrEmpty hasher ⟨upper, place / 2 ^ (lower + 1)⟩ =
          childrenOf hasher old lower (place / 2 ^ (lower + 1)) := by
      rw [getInnerNodeOrEmpty, get?_insertInnerNode free tree parent, if_neg]
      · exact children below (lt_succ_of_lt less)
      · exact fun same => Nat.ne_of_lt less (congrArg NodeIndex.depth same)
    have next := ih parent kept
    exact ⟨next.1, next.2.succ free parent⟩

omit free [DecidableEq D] in
/-- A node and its sibling are the children of their parent. -/
theorem children_of_sibling (hasher : SmtHasher D) (leaf : Nat -> D) (depth height position : Nat) :
    (if (sibling ⟨depth, position⟩).isPositionOdd = true then
      (⟨node hasher.merge leaf height position, node hasher.merge leaf height (sibling position)⟩ :
        InnerNode D)
      else ⟨node hasher.merge leaf height (sibling position),
        node hasher.merge leaf height position⟩) =
      childrenOf hasher leaf height (position / 2) := by
  have turn : (sibling ⟨depth, position⟩).isPositionOdd = true ↔ sibling position % 2 = 1 := by
    rw [NodeIndex.sibling, NodeIndex.isPositionOdd, xor_one_eq_sibling, beq_iff_eq]
  rw [childrenOf]
  by_cases odd : position % 2 = 1
  · have beside : sibling position = position - 1 := if_pos odd
    have left : 2 * (position / 2) = position - 1 := by omega
    have right : position - 1 + 1 = position := by omega
    have even : ¬ sibling position % 2 = 1 := by omega
    rw [if_neg (fun isOdd => even (turn.mp isOdd)), beside, left, right]
  · have beside : sibling position = position + 1 := if_neg odd
    have left : 2 * (position / 2) = position := by omega
    have isOdd : sibling position % 2 = 1 := by omega
    rw [if_pos (turn.mpr isOdd), beside, left]

theorem addSiblings_writes (level : depth + height = smtDepth) (tree : PartialSmt D) :
    let added := addSiblings hasher (siblings hasher.merge leaf depth height (place / 2 ^ height))
      ⟨depth, place / 2 ^ height⟩ (node hasher.merge leaf height (place / 2 ^ height)) tree
    added.1 = node hasher.merge leaf smtDepth (place / 2 ^ smtDepth) ∧ added.2.root = tree.root ∧
      WritesPath hasher leaf place depth tree added.2 := by
  induction depth generalizing height tree with
  | zero =>
    rw [Nat.zero_add] at level
    subst level
    exact ⟨rfl, rfl, rfl, rfl, fun index => (if_neg (fun above => Nat.not_lt_zero _ above.1)).symm⟩
  | succ depth ih =>
    have parent : depth + (height + 1) = smtDepth := by omega
    have up := (div_two_pow_succ place height).symm
    have pair := children_of_sibling hasher leaf (depth + 1) height (place / 2 ^ height)
    rw [siblings, addSiblings, pair, moveUp, up]
    rcases ih parent (tree.insertInnerNode hasher ⟨depth, place / 2 ^ (height + 1)⟩
      (childrenOf hasher leaf height (place / 2 ^ (height + 1)))) with ⟨hash, root, writes⟩
    exact ⟨hash, root.trans (insertInnerNode_keeps hasher tree _ _).1, writes.succ free parent⟩

end Write

end PartialSmt

end MidenVm.Crypto
