import MidenVm.Crypto.Smt.PartialSpec

namespace MidenVm.Crypto

open Foundation List Outcome Effect OrderedMap PartialSmt Smt SmtLeaf SmtMap
open Foundation.Mountain

/-!
# Partial trees beside full ones

Openings of a tree are added to a partial tree one after the other, and then
both trees are updated with the same calls.  The partial tree stays the
restriction of the full one to the paths that were opened or written.
-/

namespace PartialSmt

variable {D : Type} [DecidableEq D] {hasher : SmtHasher D}

/-! ## What a written path adds -/

variable {place : Nat} {known : List Nat} {index : NodeIndex} {content : SmtMap} {tree : PartialSmt D}
  {key : Word} {full : Smt D} {keys : List Word}

theorem onPath_cons :
    OnPath (place :: known) index ↔
      place / 2 ^ (smtDepth - index.depth) = index.position ∨ OnPath known index := by
  simp only [OnPath, mem_cons, exists_eq_or_imp]

/-- The nodes of one more path. -/
theorem WritesPath.nodes {old new : Nat -> D} {before after : PartialSmt D}
    (writes : WritesPath hasher new place smtDepth before after)
    (stored : forall index, before.innerNodes.get? index = if OnPath known index then
        innerNodeOf hasher old index else none)
    (beside : forall index : NodeIndex, place / 2 ^ (smtDepth - index.depth) ≠ index.position ->
        innerNodeOf hasher old index = innerNodeOf hasher new index)
    (index : NodeIndex) :
    after.innerNodes.get? index =
      if OnPath (place :: known) index then innerNodeOf hasher new index else none := by
  rw [writes.innerNodes, stored]
  by_cases onPath : place / 2 ^ (smtDepth - index.depth) = index.position
  · rw [if_pos (onPath_cons.mpr (.inl onPath))]
    by_cases upper : index.depth < smtDepth
    · rw [if_pos ⟨upper, onPath⟩]
    · have none {leaf : Nat -> D} : innerNodeOf hasher leaf index = none :=
        innerNodeOf_of_ge hasher (not_lt.mp upper)
      rw [if_neg (fun above => upper above.1), none, none, ite_self]
  · have same : OnPath (place :: known) index ↔ OnPath known index := by
      rw [onPath_cons, or_iff_right onPath]
    rw [if_neg (fun above => onPath above.2), beside index onPath]
    simp only [same]

omit [DecidableEq D] in
/-- The leaf of one more path. -/
theorem leaves_store {leaves after : OrderedMap Nat SmtLeaf} {old new : SmtMap}
    (stored : forall wanted, leaves.get? wanted = if wanted ∈ known then old.leafAt wanted else none)
    (beside : forall wanted, wanted ≠ place -> old.entriesAt wanted = new.entriesAt wanted)
    (written : forall wanted, after.get? wanted = if wanted = place then new.leafAt place
        else leaves.get? wanted)
    (wanted : Nat) :
    after.get? wanted = if wanted ∈ place :: known then new.leafAt wanted else none := by
  rw [written]
  by_cases here : wanted = place
  · rw [if_pos here, if_pos (mem_cons.mpr (.inl here)), here]
  · have same : wanted ∈ place :: known ↔ wanted ∈ known := by
      rw [mem_cons, or_iff_right here]
    rw [if_neg here, stored, leafAt, beside wanted here]
    simp only [same, leafAt]

/-! ## Adding openings -/

/-- The leaf of a map at an index, empty or not. -/
def leafOf (content : SmtMap) (place : Nat) : SmtLeaf := .ofEntries place (content.entriesAt place)

theorem index_leafOf (content : SmtMap) (place : Nat) : (leafOf content place).index = place :=
  index_ofEntries (content.holds_entriesAt place)

theorem numEntries_leafOf (content : SmtMap) (place : Nat) :
    (leafOf content place).numEntries = (content.entriesAt place).length :=
  numEntries_ofEntries place _

omit [DecidableEq D] in
theorem hash_leafOf (content : SmtMap) (place : Nat) :
    (leafOf content place).hash hasher = content.leafHash hasher place := by
  rw [hash_eq, leafOf, entries_ofEntries]
  rfl

/-- The leaves once a leaf is put in its place, where no empty leaf is kept. -/
def putLeaf (place : Nat) (leaf : SmtLeaf) (leaves : OrderedMap Nat SmtLeaf) : OrderedMap Nat SmtLeaf :=
  if 0 < leaf.numEntries then leaves.insert place leaf else leaves.erase place

omit [DecidableEq D] in
theorem storeLeaf_eq (leaf : SmtLeaf) (tree : PartialSmt D) :
    storeLeaf leaf tree = { tree with leaves := putLeaf leaf.index leaf tree.leaves } := by
  rw [storeLeaf, putLeaf]
  split <;> rfl

theorem get?_putLeaf (content : SmtMap) (place wanted : Nat) (leaves : OrderedMap Nat SmtLeaf) :
    (putLeaf place (leafOf content place) leaves).get? wanted =
      if wanted = place then content.leafAt place else leaves.get? wanted := by
  rw [putLeaf, numEntries_leafOf, leafAt]
  by_cases none : content.entriesAt place = []
  · rw [if_neg (by rw [none]; exact lt_irrefl 0), if_pos none, get?_erase]
  · rw [if_pos (length_pos_iff.mpr none), if_neg none, get?_insert, leafOf]

/-- The entries of the leaf that is replaced go, those of the new leaf come. -/
theorem total_putLeaf (place : Nat) (leaf : SmtLeaf) (leaves : OrderedMap Nat SmtLeaf) :
    (putLeaf place leaf leaves).total SmtLeaf.numEntries +
        (leaves.get? place).elim 0 SmtLeaf.numEntries =
      leaves.total SmtLeaf.numEntries + leaf.numEntries := by
  rw [putLeaf]
  split
  · exact total_insert _ _ _ _
  · rename_i none
    rw [Nat.eq_zero_of_not_pos none, add_zero]
    exact total_erase _ _ _

/-- The opening of a key in the tree of a map. -/
def proofOf (hasher : SmtHasher D) (content : SmtMap) (key : Word) : SmtProof D :=
  ⟨SparseMerklePath.ofNodes hasher (Smt.pathOf hasher content key), leafOf content (leafIndex key)⟩

section Free

variable (free : hasher.EmptyFree)
include free

/-- The path of a key, written from its siblings up to the root. -/
theorem addSiblings_path (content : SmtMap) (key : Word) (tree : PartialSmt D) :
    ∃ after, addSiblings hasher (pathOf hasher content key) ⟨smtDepth, leafIndex key⟩
        (content.leafHash hasher (leafIndex key)) tree = (content.root hasher, after) ∧
      after.root = tree.root ∧
      WritesPath hasher (content.leafHash hasher) (leafIndex key) smtDepth tree after := by
  have start : leafIndex key / 2 ^ 0 = leafIndex key := Nat.div_one _
  have top : leafIndex key / 2 ^ smtDepth = 0 := leafIndex_div key
  have loop : _ ∧ _ ∧ WritesPath hasher (content.leafHash hasher) (leafIndex key) smtDepth tree _ :=
    addSiblings_writes free (Nat.add_zero smtDepth) tree
  simp only [start, top] at loop
  exact ⟨_, Prod.ext loop.1 rfl, loop.2⟩

/-- Adding an opening of the map makes its path known. -/
theorem Covers.addPathUnchecked {ε : Type} (covers : tree.Covers hasher content known)
    (key : Word) : ∃ after, (PartialSmt.addPathUnchecked hasher (proofOf hasher content key).leaf
        (proofOf hasher content key).path : Effect (PartialSmt D) ε D) tree =
        (.ok (content.root hasher), after) ∧
      after.root = tree.root ∧ after.Covers hasher content (leafIndex key :: known) := by
  set leaf := (proofOf hasher content key).leaf
  have index : leaf.index = leafIndex key := index_leafOf content _
  have hash : leaf.hash hasher = content.leafHash hasher (leafIndex key) := hash_leafOf content _
  have balance := total_putLeaf leaf.index leaf tree.leaves
  -- The entries of the leaf that is replaced were counted before.
  have counted : Outcome.checkedSub ((storeLeaf leaf tree).numEntries + leaf.numEntries)
      ((tree.leaves.get? leaf.index).elim 0 SmtLeaf.numEntries) =
      (.ok ((storeLeaf leaf tree).leaves.total SmtLeaf.numEntries) : Outcome ε Nat) := by
    rw [storeLeaf_eq]
    dsimp only
    rw [covers.numEntries, ← balance, checkedSub_of_le (Nat.le_add_left _ _), Nat.add_sub_cancel]
  have siblingsRead : ((proofOf hasher content key).path.iter hasher : Outcome ε (List D)) =
      .ok (Smt.pathOf hasher content key) :=
    SparseMerklePath.iter_ofNodes hasher _
  rcases addSiblings_path free content key { storeLeaf leaf tree with
    numEntries :=
      (storeLeaf leaf tree).leaves.total SmtLeaf.numEntries } with ⟨after, ran, rootKept, writes⟩
  refine ⟨after, ?_, rootKept.trans (by rw [storeLeaf_eq]), ?_⟩
  · rw [PartialSmt.addPathUnchecked]
    refine Eq.trans (Effect.run_read_bind _ _ _) ?_
    refine Eq.trans (Effect.run_update_bind _ _ _) ?_
    refine Eq.trans (Effect.run_check_bind (by exact counted) _) ?_
    refine Eq.trans (Effect.run_update_bind _ _ _) ?_
    refine Eq.trans (Effect.run_check_bind (by exact siblingsRead) _) ?_
    rw [Effect.modifyGet, index, hash, ran]
  · exact {
      numEntries := by
        rw [writes.numEntries, writes.leaves]
      leaves := by
        rw [writes.leaves, storeLeaf_eq, index]
        exact leaves_store covers.leaves (fun _ _ => rfl) (fun wanted => get?_putLeaf content _ wanted _)
      innerNodes := writes.nodes (by rw [storeLeaf_eq]; exact covers.innerNodes) (fun _ _ => rfl) }

/-- An opening of the tree is accepted. -/
theorem Tracks.addProof (tracks : tree.Tracks hasher content known) (key : Word) :
    ∃ after, addProof hasher (proofOf hasher content key) tree = (.ok (), after) ∧
      after.Tracks hasher content (leafIndex key :: known) := by
  rcases tracks.addPathUnchecked free key with ⟨after, ran, root, covers⟩
  have same := root.trans tracks.root
  refine ⟨after, ?_, covers, same⟩
  rw [PartialSmt.addProof, addPath, Effect.run_bind_ok ran, Effect.check, if_neg (not_not.mpr same)]

theorem Tracks.addProofs (keys : List Word) {known : List Nat}
    (tracks : tree.Tracks hasher content known) :
    ∃ after, Effect.forEach (PartialSmt.addProof hasher) (keys.map (proofOf hasher content)) tree =
        (.ok (), after) ∧
      after.Tracks hasher content ((keys.map leafIndex).reverse ++ known) := by
  induction keys generalizing tree known with
  | nil => exact ⟨tree, rfl, tracks⟩
  | cons key rest ih =>
    rcases tracks.addProof free key with ⟨middle, ran, next⟩
    rcases ih next with ⟨after, continued, last⟩
    refine ⟨after, ?_, ?_⟩
    · rw [map_cons, Effect.forEach, Effect.run_bind_ok ran]
      exact continued
    · rw [map_cons, reverse_cons, append_assoc]
      exact last

/-- A partial tree of the openings of some keys, and of no other. -/
theorem fromProofs_tracks (content : SmtMap) (key : Word) (keys : List Word) :
    ∃ tree, fromProofs hasher ((key :: keys).map (proofOf hasher content)) = .ok tree ∧
      tree.Tracks hasher content ((keys.map leafIndex).reverse ++ [leafIndex key]) := by
  rcases (new_covers hasher (EmptySubtreeRoots.entry hasher smtDepth 0) content).addPathUnchecked free
    key with ⟨first, ran, _, covers⟩
  have tracks : ({ first with root := content.root hasher } : PartialSmt D).Tracks hasher content
      [leafIndex key] := { covers with root := rfl }
  rcases tracks.addProofs free keys with ⟨tree, added, known⟩
  refine ⟨tree, ?_, known⟩
  have built : (do
      let pathRoot ← PartialSmt.addPathUnchecked hasher (proofOf hasher content key).leaf
        (proofOf hasher content key).path
      Effect.update (fun tree => { tree with root := pathRoot })
      Effect.forEach (PartialSmt.addProof hasher) (keys.map (proofOf hasher content)) :
        Effect (PartialSmt D) (MerkleError D) Unit) (default hasher) = (.ok (), tree) := by
    rw [PartialSmt.default, Effect.run_bind_ok ran, Effect.run_update_bind]
    exact added
  rw [map_cons, fromProofs]
  simp only [built]

end Free

/-! ## Insertions -/

/-- An insertion whose leaf could be changed. -/
theorem insert_eq {value : Word} {current changed : SmtLeaf} {count : Nat}
    (found : tree.getLeaf hasher key = .ok current)
    (change : changeLeaf ((tree.leaves.get? current.index).getD (.empty current.index)) key value =
        ((.ok () : Outcome (MerkleError D) Unit), changed))
    (counted : Outcome.checkedSub (tree.numEntries + changed.numEntries) current.numEntries =
        (.ok count : Outcome (MerkleError D) Nat)) :
    insert hasher key value tree =
      (.ok ((current.getValue key).getD Word.zero),
        recomputeNodes hasher smtDepth current.index (changed.hash hasher)
          { tree with
            leaves := putLeaf current.index changed tree.leaves
            numEntries := count }) := by
  rw [insert]
  refine Eq.trans (run_check_bind (by exact found) _) ?_
  refine Eq.trans (run_read_bind _ _ _) ?_
  simp only [change]
  refine Eq.trans (run_update_bind _ _ _) ?_
  refine Eq.trans (run_check_bind (by rfl) _) ?_
  refine Eq.trans (run_check_bind (by exact counted) _) ?_
  refine Eq.trans (run_update_bind _ _ _) ?_
  refine Eq.trans (run_update_bind _ _ _) ?_
  refine Eq.trans (run_update_bind _ _ _) ?_
  rw [run_pure, putLeaf]
  simp only [Nat.pos_iff_ne_zero, ite_not, erase_insert]
  split <;> rfl

/-- Two leaves part at some level below a node they share. -/
theorem exists_parting {other high : Nat} (apart : place ≠ other)
    (same : place / 2 ^ high = other / 2 ^ high) :
    ∃ low, low < high ∧ place / 2 ^ low ≠ other / 2 ^ low ∧
      place / 2 ^ (low + 1) = other / 2 ^ (low + 1) := by
  induction high with
  | zero =>
    rw [pow_zero, Nat.div_one, Nat.div_one] at same
    exact absurd same apart
  | succ high ih =>
    by_cases lower : place / 2 ^ high = other / 2 ^ high
    · rcases ih lower with ⟨low, less, parted⟩
      exact ⟨low, Nat.lt_succ_of_lt less, parted⟩
    · exact ⟨high, Nat.lt_succ_self high, lower, same⟩

section Insert

variable {content : SmtMap} {known : List Nat}

theorem Determined.vacant (determined : Determined content known place) (unknown : place ∉ known) :
    content.entriesAt place = [] := by
  rcases determined with member | all | ⟨_, _, _, below⟩
  · exact absurd member unknown
  · exact all place
  · exact below place rfl

theorem Tracks.determined (free : hasher.CollisionFree) (tracks : tree.Tracks hasher content known)
    {leaf : SmtLeaf} (found : tree.getTrackedLeaf hasher key = some leaf) :
    Determined content known (leafIndex key) := by
  by_contra undetermined
  rw [(tracks.getTrackedLeaf free key).2 undetermined] at found
  cases found

/-- A write into an empty subtree splits it, and the parts that stay empty hang
from the written path. -/
theorem determined_of_split {high : Nat} (value : Word) (bound : high ≤ smtDepth)
    (same : place / 2 ^ high = leafIndex key / 2 ^ high)
    (vacant : forall index, index / 2 ^ high = place / 2 ^ high -> content.entriesAt index = []) :
    Determined (content.write key value) (leafIndex key :: known) place := by
  by_cases here : place = leafIndex key
  · exact .inl (mem_cons.mpr (.inl here))
  · rcases exists_parting here same with ⟨low, less, parted, shared⟩
    refine .inr (.inr ⟨low, lt_of_lt_of_le less bound,
      ⟨_, mem_cons_self, shared.symm⟩, fun index below => ?_⟩)
    have beside : leafIndex key ≠ index := fun equal => parted (by rw [equal, below])
    rw [entriesAt_write, if_neg beside]
    exact vacant index (div_pow_of_le (le_of_lt less) below)

/-- What is determined stays determined. -/
theorem Determined.write (inside : place < 2 ^ smtDepth)
    (determined : Determined content known place)
    (key value : Word) : Determined (content.write key value) (leafIndex key :: known) place := by
  rcases determined with member | all | ⟨height, bound, ⟨path, member, shared⟩, below⟩
  · exact .inl (mem_cons_of_mem _ member)
  · refine determined_of_split value (le_refl smtDepth) ?_ (fun index _ => all index)
    rw [Nat.div_eq_of_lt inside, leafIndex_div]
  · by_cases same : place / 2 ^ height = leafIndex key / 2 ^ height
    · exact determined_of_split value (le_of_lt bound) same below
    · refine .inr (.inr ⟨height, bound, ⟨path, mem_cons_of_mem _ member, shared⟩,
        fun index under => ?_⟩)
      have beside : leafIndex key ≠ index := fun equal => same (by rw [equal, under])
      rw [entriesAt_write, if_neg beside]
      exact below index under

omit [DecidableEq D] in
theorem changeLeaf_room {value : Word} (room : ¬ Smt.Overflows content key value) :
    (changeLeaf (leafOf content (leafIndex key)) key value :
        Outcome (MerkleError D) Unit × SmtLeaf) =
      (.ok (), leafOf (content.write key value) (leafIndex key)) := by
  have sorted := (content.holds_entriesAt (leafIndex key)).sorted
  rw [changeLeaf, leafOf, leafOf, entriesAt_write, if_pos rfl]
  by_cases zero : value = Word.zero
  · rw [if_neg (not_not.mpr zero), if_pos zero, remove_ofEntries key sorted]
  · rw [if_pos zero, if_neg zero, insert_room value sorted (fun full => room ⟨zero, full⟩)]

/-- The leaf that `insert` changes. -/
theorem Covers.storedLeaf (covers : tree.Covers hasher content known)
    (determined : Determined content known place) : tree.leaves.get? place =
      content.leafAt place := by
  rw [covers.leaves]
  by_cases member : place ∈ known
  · rw [if_pos member]
  · rw [if_neg member, leafAt_eq_none.mpr (determined.vacant member)]

theorem leafAt_getD (content : SmtMap) (place : Nat) :
    (content.leafAt place).getD (.empty place) = leafOf content place := by
  rw [leafAt, leafOf]
  split
  · rename_i none
    rw [none]
    rfl
  · rfl

theorem leafAt_elim (content : SmtMap) (place : Nat) :
    (content.leafAt place).elim 0 SmtLeaf.numEntries = (content.entriesAt place).length := by
  rw [leafAt]
  split
  · rename_i none
    rw [none]
    rfl
  · rw [Option.elim_some, numEntries_ofEntries]

/-- The nodes of the path of a key that is written. -/
theorem Covers.recomputeNodes (free : hasher.CollisionFree)
    (covers : tree.Covers hasher content known)
    (value : Word) (determined : Determined content known (leafIndex key)) (stored : PartialSmt D)
    (same : stored.innerNodes = tree.innerNodes) :
    ∃ after, recomputeNodes hasher smtDepth (leafIndex key)
        ((content.write key value).leafHash hasher (leafIndex key)) stored = after ∧
      after.root = (content.write key value).root hasher ∧
      WritesPath hasher ((content.write key value).leafHash hasher) (leafIndex key) smtDepth stored
        after := by
  have start : leafIndex key / 2 ^ 0 = leafIndex key := Nat.div_one _
  have top : leafIndex key / 2 ^ smtDepth = 0 := leafIndex_div key
  have children {upper lower : Nat} (level : upper + (lower + 1) = smtDepth) (_ : upper < smtDepth) :
      stored.getInnerNodeOrEmpty hasher ⟨upper, leafIndex key / 2 ^ (lower + 1)⟩ =
        childrenOf hasher (content.leafHash hasher) lower (leafIndex key / 2 ^ (lower + 1)) := by
    rw [getInnerNodeOrEmpty, same]
    exact covers.children free determined level
  have levels := recomputeNodes_writes free.emptyFree (content.leafHash_write hasher key value)
    (add_zero smtDepth) children
  simp only [start, top] at levels
  exact ⟨_, rfl, levels⟩

/-- A write leaves the nodes beside its path. -/
theorem innerNodeOf_write (content : SmtMap) (value : Word)
    (apart : leafIndex key / 2 ^ (smtDepth - index.depth) ≠ index.position) :
    innerNodeOf hasher (content.leafHash hasher) index =
      innerNodeOf hasher ((content.write key value).leafHash hasher) index := by
  rcases lt_or_ge index.depth smtDepth with upper | lower
  · rcases Nat.exists_eq_add_of_lt upper with ⟨height, level⟩
    have below : index.depth + (height + 1) = smtDepth := level.symm
    have above : smtDepth - index.depth = height + 1 := by omega
    rw [above] at apart
    rw [content.leafHash_write hasher key value]
    exact (innerNodeOf_update_apart hasher _ below apart).symm
  · rw [innerNodeOf_of_ge hasher lower, innerNodeOf_of_ge hasher lower]

/-- A write to a key that is determined, and that its leaf has room for. -/
theorem Tracks.insert_room (free : hasher.CollisionFree) (tracks : tree.Tracks hasher content known)
    {value : Word} (determined : Determined content known (leafIndex key))
    (room : ¬ Smt.Overflows content key value) :
    ∃ after, PartialSmt.insert hasher key value tree = (.ok (content.value key), after) ∧
      after.Tracks hasher (content.write key value) (leafIndex key :: known) := by
  have found : tree.getLeaf hasher key = .ok (leafOf content (leafIndex key)) := by
    rw [getLeaf, (tracks.getTrackedLeaf free key).1 determined, okOr_some, leafOf]
  have index := index_leafOf content (leafIndex key)
  have previous : ((leafOf content (leafIndex key)).getValue key).getD Word.zero =
      content.value key := by
    rw [leafOf, SmtLeaf.getValue_ofEntries (content.holds_entriesAt (leafIndex key)),
      Option.getD_some, content.value_eq_entriesAt]
  set written := content.write key value
  have change : changeLeaf ((tree.leaves.get? (leafOf content (leafIndex key)).index).getD
      (.empty (leafOf content (leafIndex key)).index)) key value =
      ((.ok () : Outcome (MerkleError D) Unit), leafOf written (leafIndex key)) := by
    rw [index, tracks.storedLeaf determined, leafAt_getD]
    exact changeLeaf_room room
  have balance := total_putLeaf (leafIndex key) (leafOf written (leafIndex key))
    tree.leaves
  set leaves := putLeaf (leafIndex key) (leafOf written (leafIndex key)) tree.leaves
  have counted : Outcome.checkedSub
      (tree.numEntries + (leafOf written (leafIndex key)).numEntries)
      (leafOf content (leafIndex key)).numEntries =
      (.ok (leaves.total SmtLeaf.numEntries) : Outcome (MerkleError D) Nat) := by
    rw [tracks.numEntries, ← balance, tracks.storedLeaf determined, leafAt_elim,
      numEntries_leafOf content, checkedSub_of_le (Nat.le_add_left _ _), Nat.add_sub_cancel]
  have ran := insert_eq found change counted
  rw [index, previous, hash_leafOf] at ran
  rcases tracks.recomputeNodes free value determined
      { tree with leaves := leaves, numEntries := leaves.total SmtLeaf.numEntries } rfl with
    ⟨after, recomputed, root, writes⟩
  rw [recomputed] at ran
  refine ⟨after, ran, ?_, root⟩
  exact {
    numEntries := by rw [writes.numEntries, writes.leaves]
    leaves := by
      rw [writes.leaves]
      refine leaves_store tracks.leaves (fun wanted apart => ?_)
        (fun wanted => get?_putLeaf written (leafIndex key) wanted tree.leaves)
      rw [SmtMap.entriesAt_write, if_neg (Ne.symm apart)]
    innerNodes := writes.nodes tracks.innerNodes (fun index apart =>
      innerNodeOf_write content value apart) }

end Insert

/-! ## Runs -/

/-- Calls of `insert` one after the other, failed ones included: what they
return, and the tree at the end. -/
def runInserts (hasher : SmtHasher D) :
    List (Word × Word) -> PartialSmt D -> List (Outcome (MerkleError D) Word) × PartialSmt D
  | [], tree => ([], tree)
  | (key, value) :: rest, tree =>
    let (result, after) := PartialSmt.insert hasher key value tree
    let (results, final) := runInserts hasher rest after
    (result :: results, final)

/-- Each call is made on a key that is tracked then. -/
def TrackedCalls (hasher : SmtHasher D) : List (Word × Word) -> PartialSmt D -> Prop
  | [], _ => True
  | (key, value) :: rest, tree =>
    (∃ leaf, tree.getTrackedLeaf hasher key = some leaf) ∧
      TrackedCalls hasher rest (PartialSmt.insert hasher key value tree).2

/-- A partial tree of the openings of some keys of a tree: of at least one by
`from_proofs`, of any number by `add_proof` on the root. -/
def BuiltFrom (hasher : SmtHasher D) (full : Smt D) (keys : List Word) (tree : PartialSmt D) : Prop :=
  ∃ openings, List.Forall₂ (fun key proof =>
      (full.openAt hasher key : Outcome (MerkleError D) (SmtProof D)) = .ok proof) keys openings ∧
    (openings ≠ [] ∧ fromProofs hasher openings = .ok tree ∨
      Effect.forEach (addProof hasher) openings (new full.root) = (.ok (), tree))

theorem Determined.congr {other : List Nat} (same : forall index, index ∈ known -> index ∈ other)
    (determined : Determined content known place) : Determined content other place := by
  rcases determined with member | all | ⟨height, bound, ⟨path, member, shared⟩, below⟩
  · exact .inl (same place member)
  · exact .inr (.inl all)
  · exact .inr (.inr ⟨height, bound, ⟨path, same path member, shared⟩, below⟩)

theorem openings_eq (free : hasher.EmptyFree) (represents : full.Represents hasher content)
    {openings : List (SmtProof D)}
    (opened : List.Forall₂ (fun key proof => (full.openAt hasher key :
        Outcome (MerkleError D) (SmtProof D)) = .ok proof) keys openings) :
    openings = keys.map (proofOf hasher content) := by
  induction opened with
  | nil => rfl
  | cons opening _ ih =>
    rw [represents.openAt free] at opening
    rw [map_cons, ← ih, proofOf]
    exact congrArg (fun proof => proof :: _) (Outcome.ok.inj opening).symm

/-- Openings make their keys known, and no others. -/
theorem BuiltFrom.tracks (free : hasher.EmptyFree) (represents : full.Represents hasher content)
    (built : BuiltFrom hasher full keys tree) :
    ∃ known, (forall place, place ∈ known ↔ place ∈ keys.map leafIndex) ∧
      tree.Tracks hasher content known := by
  rcases built with ⟨openings, opened, ways⟩
  have openings_eq := openings_eq free represents opened
  subst openings_eq
  rcases ways with ⟨some, ran⟩ | ran
  · cases keys with
    | nil => exact absurd rfl some
    | cons key rest =>
      rcases fromProofs_tracks free content key rest with ⟨made, accepted, tracks⟩
      rw [accepted] at ran
      refine ⟨_, fun place => ?_, Outcome.ok.inj ran ▸ tracks⟩
      rw [mem_append, mem_reverse, mem_singleton, map_cons, mem_cons, or_comm]
  · have start : (new full.root).Tracks hasher content [] :=
      { new_covers hasher full.root content with root := represents.root }
    rcases start.addProofs free keys with ⟨made, accepted, tracks⟩
    rw [accepted] at ran
    refine ⟨_, fun place => ?_, (Prod.mk.inj ran).2 ▸ tracks⟩
    rw [append_nil, mem_reverse]

/-- Both trees after the same calls. -/
theorem Tracks.runInserts (free : hasher.CollisionFree) (calls : List (Word × Word))
    {known : List Nat}
    (represents : full.Represents hasher content) (tracks : tree.Tracks hasher content known)
    (tracked : TrackedCalls hasher calls tree)
    (succeeded : forall result, result ∈ (Smt.runInserts hasher calls full).1 -> ∃ old, result = .ok old) :
    (PartialSmt.runInserts hasher calls tree).1 = (Smt.runInserts hasher calls full).1 ∧
      (Smt.runInserts hasher calls full).2.Represents hasher (content.writeAll calls) ∧
      (runInserts hasher calls tree).2.Tracks hasher (content.writeAll calls)
        ((calls.map (fun call => leafIndex call.1)).reverse ++ known) ∧
      forall place, place < 2 ^ smtDepth -> Determined content known place ->
        Determined (content.writeAll calls)
          ((calls.map (fun call => leafIndex call.1)).reverse ++ known) place := by
  induction calls generalizing full tree content known with
  | nil => exact ⟨rfl, represents, tracks, fun _ _ determined => determined⟩
  | cons call rest ih =>
    rcases call with ⟨key, value⟩
    rcases tracked with ⟨⟨leaf, found⟩, later⟩
    have determined := tracks.determined free found
    rw [Smt.runInserts] at succeeded ⊢
    rcases represents.insert_cases free.emptyFree key value with
      ⟨error, _, ran⟩ | ⟨next, room, ran, stays⟩
    · rw [ran] at succeeded
      rcases succeeded _ mem_cons_self with ⟨old, impossible⟩
      cases impossible
    · rcases tracks.insert_room free determined room with ⟨after, wrote, follows⟩
      rw [wrote] at later
      rw [ran] at succeeded
      rcases ih stays follows later (fun result member =>
        succeeded result (mem_cons_of_mem _ member)) with ⟨results, whole, final, kept⟩
      rw [runInserts, ran, wrote, map_cons, reverse_cons, append_assoc]
      refine ⟨congrArg (Outcome.ok (content.value key) :: ·) results, whole, final,
        fun place inside before => ?_⟩
      exact kept place inside (before.write inside key value)

/-- A partial tree beside the full one: `known` are the leaves that were opened
or written. -/
structure Follows (hasher : SmtHasher D) (full : Smt D) (content : SmtMap) (known : List Nat)
    (tree : PartialSmt D) : Prop where
  root : tree.root = full.root
  leaf : forall key leaf, tree.getTrackedLeaf hasher key = some leaf -> leaf = full.getLeaf key
  opens : forall key leaf, tree.getTrackedLeaf hasher key = some leaf ->
    tree.openAt hasher key = full.openAt hasher key
  accepts : forall key, leafIndex key ∈ known -> ∃ leaf, tree.getTrackedLeaf hasher key = some leaf
  rejects : forall key, ¬ Determined content known (leafIndex key) ->
    tree.getTrackedLeaf hasher key = none

theorem Tracks.follows (free : hasher.CollisionFree) (represents : full.Represents hasher content)
    (tracks : tree.Tracks hasher content known) : Follows hasher full content known tree := by
  refine ⟨tracks.root.trans represents.root.symm, fun key leaf found => ?_,
    fun key leaf found => ?_,
    fun key member => ⟨_, (tracks.getTrackedLeaf free key).1 (.inl member)⟩,
    fun key => (tracks.getTrackedLeaf free key).2⟩
  · rw [(tracks.getTrackedLeaf free key).1 (tracks.determined free found)] at found
    rw [represents.getLeaf]
    exact (Option.some.inj found).symm
  · rw [tracks.openAt free (tracks.determined free found), represents.openAt free.emptyFree]

/-- Only which leaves are known matters. -/
theorem Follows.congr {other : List Nat} (same : forall place, place ∈ known ↔ place ∈ other)
    (follows : Follows hasher full content known tree) : Follows hasher full content other tree :=
  { follows with
    accepts := fun key member => follows.accepts key ((same _).mpr member)
    rejects := fun key undetermined => follows.rejects key (fun determined =>
      undetermined (determined.congr (fun place => (same place).mp))) }

/-- A partial tree of openings follows the full tree through every sequence of
calls on tracked keys that the full tree accepts, and tracks what it tracked. -/
theorem inserts_follow_full_tree (free : hasher.CollisionFree) {full : Smt D} {content : SmtMap}
    (represents : full.Represents hasher content) {keys : List Word} {tree : PartialSmt D}
    (built : BuiltFrom hasher full keys tree) {calls : List (Word × Word)}
    (tracked : TrackedCalls hasher calls tree)
    (succeeded : forall result, result ∈ (Smt.runInserts hasher calls full).1 -> ∃ old, result = .ok old) :
    (runInserts hasher calls tree).1 = (Smt.runInserts hasher calls full).1 ∧
      Follows hasher (Smt.runInserts hasher calls full).2 (content.writeAll calls)
        ((keys ++ calls.map Prod.fst).map leafIndex) (runInserts hasher calls tree).2 ∧
      forall key leaf, tree.getTrackedLeaf hasher key = some leaf ->
        ∃ later, (runInserts hasher calls tree).2.getTrackedLeaf hasher key = some later := by
  rcases built.tracks free.emptyFree represents with ⟨known, opened, tracks⟩
  rcases tracks.runInserts free calls represents tracked succeeded with
    ⟨results, whole, final, kept⟩
  refine ⟨results, (final.follows free whole).congr (fun place => ?_), fun key leaf found => ?_⟩
  · rw [mem_append, mem_reverse, opened, map_append, mem_append, map_map,
      or_comm]
    rfl
  · have determined := tracks.determined free found
    exact ⟨_, (final.getTrackedLeaf free key).1 (kept _ (leafIndex_lt key) determined)⟩

/-- The opening of one key of the tree of two, which then loses its entry. -/
theorem inserts_follow_full_tree_removal :
    ∃ (full : Smt FreeDigest) (tree : PartialSmt FreeDigest),
      full.Represents freeHasher (SmtMap.empty.writeAll Smt.sampleCalls) ∧
      BuiltFrom freeHasher full [⟨1, 0, 0, 5⟩] tree ∧
      (runInserts freeHasher [(⟨1, 0, 0, 5⟩, Word.zero)] tree).2.root =
        (Smt.runInserts freeHasher [(⟨1, 0, 0, 5⟩, Word.zero)] full).2.root := by
  have free := freeHasher_collisionFree
  have filled : forall result, result ∈ (Smt.runInserts freeHasher sampleCalls (Smt.new freeHasher)).1 ->
      ∃ old, result = .ok old := by
    decide +kernel
  rcases runInserts_represents free.emptyFree sampleCalls (new_represents freeHasher) with
    ⟨content, represents, whole, _⟩
  rw [whole filled] at represents
  rcases fromProofs_tracks free.emptyFree (empty.writeAll sampleCalls) ⟨1, 0, 0, 5⟩ [] with
    ⟨tree, accepted, tracks⟩
  have built : BuiltFrom freeHasher _ [⟨1, 0, 0, 5⟩] tree :=
    ⟨_, .cons (represents.openAt free.emptyFree _) .nil, .inl ⟨cons_ne_nil _ _, accepted⟩⟩
  have tracked : TrackedCalls freeHasher [(⟨1, 0, 0, 5⟩, Word.zero)] tree :=
    ⟨⟨_, (tracks.getTrackedLeaf free _).1 (.inl mem_cons_self)⟩, trivial⟩
  refine ⟨_, tree, represents, built, ?_⟩
  exact (inserts_follow_full_tree free represents built tracked (by decide +kernel)).2.1.root

/-- No opening at all: `from_proofs` makes the tree of no entries, whose root is
not that of the tree and which takes every key for empty. -/
theorem fromProofs_of_no_openings :
    ∃ (full : Smt FreeDigest) (tree : PartialSmt FreeDigest),
      full.Represents freeHasher (SmtMap.empty.write ⟨0, 0, 0, 5⟩ ⟨7, 0, 0, 0⟩) ∧
      fromProofs freeHasher [] = .ok tree ∧ tree.root ≠ full.root ∧
      tree.getTrackedLeaf freeHasher ⟨0, 0, 0, 5⟩ = some (.empty 5) ∧
      full.getLeaf ⟨0, 0, 0, 5⟩ ≠ .empty 5 :=
  ⟨oneEntry, default freeHasher, oneEntry_represents, rfl, by decide +kernel, by decide +kernel,
    by decide +kernel⟩

end PartialSmt

end MidenVm.Crypto
