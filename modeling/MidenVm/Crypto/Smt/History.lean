import MidenVm.Crypto.Smt.TreeSpec

namespace MidenVm.Crypto

open Foundation List Outcome SmtLeaf SparseMerklePath
open Foundation.Mountain
open Foundation.SparseTree

/-!
# Histories of insertions

Whatever was inserted, overwritten and removed before, a tree is the one of the
map that is left: its root, its nodes, its leaves and its counter, and what it
opens.  A call that fails changes nothing, so failed calls may stand anywhere in
a history.
-/

variable {D : Type} [DecidableEq D] {hasher : SmtHasher D}

/-! ## Openings of the tree of a map -/

theorem xor_one_eq_sibling (position : Nat) : position ^^^ 1 = sibling position := by
  rw [sibling]
  split
  · rename_i odd
    exact Nat.xor_one_of_odd (Nat.odd_iff.mpr odd)
  · rename_i even
    exact Nat.xor_one_of_even (Nat.even_iff.mpr (by omega))

theorem xor_one_div (position : Nat) : (position ^^^ 1) / 2 = position / 2 := by
  rw [xor_one_eq_sibling, sibling]
  split <;> omega

namespace Smt

section Open

variable {tree : Smt D} {content : SmtMap} (free : hasher.EmptyFree)
  (represents : tree.Represents hasher content)
include free represents

/-- The hash of every node below the root is read from its parent. -/
theorem Represents.getNodeHash {depth height : Nat} (level : depth + 1 + height = smtDepth)
    (position : Nat) :
    tree.getNodeHash hasher ⟨depth + 1, position⟩ =
      node hasher.merge (content.leafHash hasher) height position := by
  have parent : depth + (height + 1) = smtDepth := by omega
  have below : ¬ NodeIndex.isRoot ⟨depth + 1, position⟩ = true := by simp [NodeIndex.isRoot]
  have read : tree.getInnerNode hasher ⟨depth, position / 2⟩ =
      childrenOf hasher (content.leafHash hasher) height (position / 2) := by
    rw [getInnerNode, represents.innerNodes, innerNodeOf_getD free parent]
  rw [Smt.getNodeHash, if_neg below, NodeIndex.moveUp]
  simp only [Nat.add_sub_cancel, read, NodeIndex.isPositionOdd]
  by_cases odd : position % 2 = 1
  · have right : 2 * (position / 2) + 1 = position := by omega
    rw [if_pos (beq_iff_eq.mpr odd), childrenOf, right]
  · have left : 2 * (position / 2) = position := by omega
    rw [if_neg (fun equal => odd (beq_iff_eq.mp equal)), childrenOf, left]

theorem Represents.map_proofIter {depth height : Nat} (level : depth + height = smtDepth)
    (position : Nat) :
    (NodeIndex.proofIter depth (position ^^^ 1)).map (tree.getNodeHash hasher) =
      siblings hasher.merge (content.leafHash hasher) depth height position := by
  induction depth generalizing height position with
  | zero => rfl
  | succ depth ih =>
    have next : depth + (height + 1) = smtDepth := by omega
    rw [NodeIndex.proofIter, map_cons, represents.getNodeHash free level, xor_one_div, ih next,
      siblings, xor_one_eq_sibling]

/-- The siblings of a leaf of a map. -/
def pathOf (hasher : SmtHasher D) (content : SmtMap) (key : Word) : List D :=
  siblings hasher.merge (content.leafHash hasher) smtDepth 0 (leafIndex key)

/-- An opening holds the leaf of the key and its siblings. -/
theorem Represents.openAt {ε : Type} (key : Word) :
    (tree.openAt hasher key : Outcome ε (SmtProof D)) =
      .ok ⟨ofNodes hasher (pathOf hasher content key),
        ofEntries (leafIndex key) (content.entriesAt (leafIndex key))⟩ := by
  have nodes := represents.map_proofIter free (add_zero smtDepth) (leafIndex key)
  have short : (pathOf hasher content key).length ≤ smtMaxDepth := by
    rw [pathOf, length_siblings]
    exact le_refl 64
  rw [Smt.openAt, getPath, NodeIndex.proofIndices, nodes]
  rw [pathOf] at short
  simp only [fromSizedIter_eq_ok hasher short, unwrap_ok, ok_bind,
    represents.getLeaf, pure_eq_ok]
  rfl

omit [DecidableEq D] free represents in
theorem climb_pathOf (hasher : SmtHasher D) (content : SmtMap) (key : Word) :
    climb hasher.merge (leafIndex key) (content.leafHash hasher (leafIndex key))
        (siblings hasher.merge (content.leafHash hasher) smtDepth 0 (leafIndex key)) =
      content.root hasher := by
  have climbed := climb_siblings hasher.merge (content.leafHash hasher) smtDepth 0 (leafIndex key)
  rwa [leafIndex_div, zero_add] at climbed

/-- The opening of a key proves its value. -/
theorem Represents.verifies (key : Word) :
    ∃ proof, (tree.openAt hasher key : Outcome (SmtProofError D) (SmtProof D)) = .ok proof ∧
      proof.verifyPresence hasher key (content.value key) tree.root = .ok () := by
  refine ⟨_, represents.openAt free key, ?_⟩
  have holds := content.holds_entriesAt (leafIndex key)
  have depth : (pathOf hasher content key).length = smtDepth := length_siblings _ _ _ _ _
  have inside : leafIndex key < 2 ^ (pathOf hasher content key).length := by
    rw [depth]
    exact leafIndex_lt key
  have computed := computeRoot_ofNodes hasher (le_of_eq depth) inside
    (content.leafHash hasher (leafIndex key))
  rw [SmtProof.verifyPresence, getValue_ofEntries holds, okOr_some, ok_bind,
    SmtProof.computeRoot, index_ofEntries holds, hash_eq,
    entries_ofEntries]
  rw [SmtMap.leafHash] at computed
  rw [computed, unwrap_ok, ok_bind, represents.root]
  have root : climb hasher.merge (leafIndex key)
      (hashEntries hasher (content.entriesAt (leafIndex key))) (pathOf hasher content key) =
      content.root hasher := climb_pathOf hasher content key
  rw [if_neg (not_not.mpr root), ← content.value_eq_entriesAt, if_neg (not_not.mpr rfl)]

end Open

/-! ## What a tree commits to -/

/-- A leaf that is not empty stands below a node. -/
def Above (content : SmtMap) (index : NodeIndex) : Prop :=
  index.depth < smtDepth ∧
    ∃ place, place / 2 ^ (smtDepth - index.depth) = index.position ∧ content.entriesAt place ≠ []

/-- A tree and the map it commits to. -/
structure CommitsTo (hasher : SmtHasher D) (tree : Smt D) (content : SmtMap) : Prop where
  root : tree.root = node hasher.merge (content.leafHash hasher) smtDepth 0
  value : forall key, tree.getValue key = content.value key
  size : tree.numEntries = content.size
  leaf : forall index leaf, tree.leaves.get? index = some leaf ↔
    leaf = .ofEntries index (content.entriesAt index) ∧ content.entriesAt index ≠ []
  ordered : forall index leaf, tree.leaves.get? index = some leaf ->
    leaf.entries.Pairwise (fun left right => left.1 < right.1)
  inner : forall index node, tree.innerNodes.get? index = some node ↔
    node = childrenOf hasher (content.leafHash hasher) (smtDepth - index.depth - 1) index.position ∧
      Above content index
  opens : forall key, ∃ proof, (tree.openAt hasher key : Outcome (SmtProofError D) _) = .ok proof ∧
    proof.verifyPresence hasher key (content.value key) tree.root = .ok ()

omit [DecidableEq D] in
/-- Nodes are stored exactly above the leaves that are not empty. -/
theorem above_iff (free : hasher.CollisionFree) (content : SmtMap) (index : NodeIndex) :
    (index.depth < smtDepth ∧
      node hasher.merge (content.leafHash hasher) (smtDepth - index.depth) index.position ≠
        emptyOf hasher (smtDepth - index.depth)) ↔ Above content index := by
  refine and_congr_right (fun _ => ?_)
  have vacant : node hasher.merge (content.leafHash hasher) (smtDepth - index.depth)
      index.position = emptyRoot hasher.merge hasher.emptyWord (smtDepth - index.depth) ↔
      Vacant hasher.emptyWord (content.leafHash hasher) (smtDepth - index.depth) index.position :=
    node_eq_emptyRoot_iff free.merge
  rw [emptyOf, Ne, vacant, Vacant]
  push Not
  refine exists_congr (fun place => and_congr_right (fun _ => ?_))
  exact not_congr free.leaf_empty

theorem Represents.commitsTo (free : hasher.CollisionFree) {tree : Smt D} {content : SmtMap}
    (represents : tree.Represents hasher content) : tree.CommitsTo hasher content where
  root := represents.root
  value := represents.getValue
  size := represents.numEntries
  leaf index leaf := by
    rw [represents.leaves, SmtMap.leafAt]
    split
    · rename_i none
      exact iff_of_false (fun impossible => by cases impossible) (fun both => both.2 none)
    · rename_i some
      rw [Option.some.injEq, eq_comm]
      exact (and_iff_left some).symm
  ordered index leaf found := by
    rw [represents.leaves, SmtMap.leafAt] at found
    split at found
    · cases found
    · cases found
      rw [entries_ofEntries]
      exact (content.holds_entriesAt index).sorted
  inner index node := by
    rw [represents.innerNodes, innerNodeOf, ← above_iff free]
    split
    · rename_i stored
      rw [Option.some.injEq, eq_comm]
      exact (and_iff_left stored).symm
    · rename_i absent
      exact iff_of_false (fun impossible => by cases impossible) (fun both => absent both.2)
  opens := represents.verifies free.emptyFree

/-! ## Runs -/

/-- Calls of `insert` one after the other, failed ones included: what they
return, and the tree at the end. -/
def runInserts (hasher : SmtHasher D) :
    List (Word × Word) -> Smt D -> List (Outcome (MerkleError D) Word) × Smt D
  | [], tree => ([], tree)
  | (key, value) :: rest, tree =>
    let (result, after) := Smt.insert hasher key value tree
    let (results, final) := runInserts hasher rest after
    (result :: results, final)

end Smt

/-- The map after a sequence of writes. -/
def SmtMap.writeAll (content : SmtMap) (writes : List (Word × Word)) : SmtMap :=
  writes.foldl (fun content entry => content.write entry.1 entry.2) content

namespace Smt

variable {tree : Smt D} {content : SmtMap}

/-- One call: the tree of the new map, or an error and the same tree. -/
theorem Represents.insert_cases (free : hasher.EmptyFree)
    (represents : tree.Represents hasher content) (key value : Word) :
    (∃ error, Overflows content key value ∧ Smt.insert hasher key value tree = (.err error, tree)) ∨
    ∃ after, ¬ Overflows content key value ∧
      Smt.insert hasher key value tree = (.ok (content.value key), after) ∧
      after.Represents hasher (content.write key value) := by
  by_cases overflows : Overflows content key value
  · exact .inl ⟨_, overflows, represents.insert_full overflows⟩
  · rcases represents.insert_room free overflows with ⟨after, ran, stays⟩
    exact .inr ⟨after, overflows, ran, stays⟩

/-- Every history leaves the tree of some map, the one of all its writes when
no call failed, and what every write with room keeps holds of the map. -/
theorem runInserts_represents (free : hasher.EmptyFree) (calls : List (Word × Word))
    (represents : tree.Represents hasher content) :
    ∃ final, (runInserts hasher calls tree).2.Represents hasher final ∧
      ((forall result, result ∈ (runInserts hasher calls tree).1 -> ∃ old, result = .ok old) ->
        final = content.writeAll calls) ∧
      forall kept : SmtMap -> Prop, (forall content key value, kept content ->
        ¬ Overflows content key value -> kept (content.write key value)) -> kept content ->
          kept final := by
  induction calls generalizing tree content with
  | nil => exact ⟨content, represents, fun _ => rfl, fun _ _ held => held⟩
  | cons call rest ih =>
    rcases call with ⟨key, value⟩
    rw [runInserts]
    rcases represents.insert_cases free key value with
      ⟨error, _, ran⟩ | ⟨after, room, ran, stays⟩
    · rcases ih represents with ⟨final, reached, _, keeps⟩
      rw [ran]
      refine ⟨final, reached, fun succeeded => ?_, keeps⟩
      rcases succeeded _ mem_cons_self with ⟨old, impossible⟩
      cases impossible
    · rcases ih stays with ⟨final, reached, whole, keeps⟩
      rw [ran]
      refine ⟨final, reached, fun succeeded => whole (fun result member => ?_),
        fun kept step held => keeps kept step (step content key value held room)⟩
      exact succeeded result (mem_cons_of_mem _ member)

/-- Insertions that all succeed lead to the tree of the map they write, whatever
their order and whatever was removed on the way; a call that fails leaves the
tree as it was, and no call aborts. -/
theorem inserts_commit_to_map (free : hasher.CollisionFree) {calls : List (Word × Word)}
    {results : List (Outcome (MerkleError D) Word)} {tree : Smt D}
    (ran : runInserts hasher calls (new hasher) = (results, tree)) :
    ((forall result, result ∈ results -> ∃ old, result = .ok old) ->
      tree.CommitsTo hasher (SmtMap.empty.writeAll calls) ∧
      forall otherCalls otherResults other,
        runInserts hasher otherCalls (new hasher) = (otherResults, other) ->
        (forall result, result ∈ otherResults -> ∃ old, result = .ok old) ->
        SmtMap.empty.writeAll otherCalls = SmtMap.empty.writeAll calls -> other = tree) ∧
    (forall key value error after, Smt.insert hasher key value tree = (.err error, after) -> after = tree) ∧
    (forall key value after, Smt.insert hasher key value tree ≠ (.panic, after)) := by
  have fresh := new_represents hasher
  rcases runInserts_represents free.emptyFree calls fresh with ⟨content, represents, whole, _⟩
  rw [ran] at represents whole
  refine ⟨fun succeeded => ?_, fun key value error after failed => ?_,
    fun key value after aborted => ?_⟩
  · rw [whole succeeded] at represents
    refine ⟨represents.commitsTo free, fun otherCalls otherResults other otherRan every same => ?_⟩
    rcases runInserts_represents free.emptyFree otherCalls fresh with
      ⟨otherContent, reached, otherWhole, _⟩
    rw [otherRan] at reached otherWhole
    rw [otherWhole every, same] at reached
    exact reached.unique represents
  · rcases represents.insert_cases free.emptyFree key value with ⟨_, _, ended⟩ | ⟨_, _, ended, _⟩
    · rw [ended] at failed
      exact (Prod.mk.inj failed).2.symm
    · rw [ended] at failed
      cases failed
  · rcases represents.insert_cases free.emptyFree key value with ⟨_, _, ended⟩ | ⟨_, _, ended, _⟩
    · rw [ended] at aborted
      cases aborted
    · rw [ended] at aborted
      cases aborted

/-! ## A history that shares a leaf -/

/-- Two keys of one leaf, the second of which is removed again, and one of
another leaf. -/
def sampleCalls : List (Word × Word) :=
  [(⟨1, 0, 0, 5⟩, ⟨7, 0, 0, 0⟩), (⟨0, 0, 0, 5⟩, ⟨8, 0, 0, 0⟩), (⟨0, 0, 0, 6⟩, ⟨9, 0, 0, 0⟩),
    (⟨0, 0, 0, 5⟩, Word.zero)]

theorem inserts_commit_to_map_shared_leaf :
    freeHasher.CollisionFree ∧
      (forall result, result ∈ (runInserts freeHasher sampleCalls (new freeHasher)).1 ->
        ∃ old, result = .ok old) ∧
      (runInserts freeHasher sampleCalls (new freeHasher)).2.CommitsTo freeHasher
        (SmtMap.empty.writeAll sampleCalls) := by
  have succeeded : forall result, result ∈ (runInserts freeHasher sampleCalls (new freeHasher)).1 ->
      ∃ old, result = .ok old := by
    decide +kernel
  exact ⟨freeHasher_collisionFree, succeeded,
    ((inserts_commit_to_map freeHasher_collisionFree rfl).1 succeeded).1⟩

end Smt

end MidenVm.Crypto
