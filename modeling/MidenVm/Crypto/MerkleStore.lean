import MidenVm.Crypto.Smt.Content

namespace MidenVm.Crypto

open Foundation Mountain SparseTree Outcome Nat

/-!
# The Merkle store

The store maps every inner node of its trees to the two children; a new store
holds the nodes of empty trees.  `find_lone_leaf` goes down from a node of a
sparse tree while one of the two children is empty.  It compares the children
with the roots of the empty subtrees of a tree of depth 64, whatever the depth
of the tree is, and it asks the store for the node it starts from, which has no
entry when that is a leaf.
-/

variable {D : Type}

/-- `StoreNode`. -/
structure StoreNode (D : Type) where
  left : D
  right : D

/-- `MerkleStore`, the latest entry first. -/
structure MerkleStore (D : Type) where
  nodes : List (D × StoreNode D)

namespace MerkleStore

/-- `MerkleStore::new`, by `empty_hashes`. -/
def new (hasher : SmtHasher D) : MerkleStore D :=
  ⟨(List.range 255).map (fun height =>
    let child := emptyRoot hasher.merge hasher.emptyWord height
    (hasher.merge child child, ⟨child, child⟩))⟩

/-- `Extend for MerkleStore`. -/
def extend (store : MerkleStore D) (nodes : List (D × StoreNode D)) : MerkleStore D :=
  ⟨nodes.reverse ++ store.nodes⟩

section Model

variable [DecidableEq D]

/-- `HashMap::get` on the nodes. -/
def get (store : MerkleStore D) (hash : D) : Option (StoreNode D) := store.nodes.lookup hash

/-- The loop of `find_lone_leaf`, with the levels left to the leaves. -/
def loneLeafFrom (hasher : SmtHasher D) (store : MerkleStore D) :
    Nat -> NodeIndex -> D -> Outcome (MerkleError D) (Option (NodeIndex × D))
  | 0, index, node =>
    if (store.get node).isSome then .err (.depthTooBig (index.depth + 1)) else .ok (some (index, node))
  | levels + 1, index, node =>
    match store.get node with
    | none => .ok (some (index, node))
    | some children =>
      let emptyNode := EmptySubtreeRoots.entry hasher 64 (index.depth + 1)
      if children.left ≠ emptyNode ∧ children.right = emptyNode then
        loneLeafFrom hasher store levels index.leftChild children.left
      else if children.left = emptyNode ∧ children.right ≠ emptyNode then
        loneLeafFrom hasher store levels index.rightChild children.right
      else .ok none

/-- `MerkleStore::find_lone_leaf`. -/
def findLoneLeaf (hasher : SmtHasher D) (store : MerkleStore D) (root : D) (rootIndex : NodeIndex)
    (treeDepth : Nat) : Outcome (MerkleError D) (Option (NodeIndex × D)) :=
  if treeDepth > 64 then .err (.depthTooBig treeDepth)
  else if (store.get root).isNone then .err (.rootNotInStore root)
  else if rootIndex.depth > treeDepth then .err (.depthTooBig rootIndex.depth)
  else loneLeafFrom hasher store (treeDepth - rootIndex.depth) rootIndex root

end Model

/-! ## The only leaf below a node -/

section Lone

variable {empty : D} {leaf : Nat -> D} {treeDepth levels pos child other index bound : Nat}

/-- A leaf that is not empty, alone below a node. -/
structure Lone (empty : D) (leaf : Nat -> D) (levels pos index : Nat) : Prop where
  below : index / 2 ^ levels = pos
  solid : leaf index ≠ empty
  alone : forall place, place / 2 ^ levels = pos -> leaf place ≠ empty -> place = index

/-- A search below a node for the only leaf that is not empty. -/
def Searches (empty : D) (leaf : Nat -> D) (levels pos : Nat)
    (found : Nat -> Outcome (MerkleError D) (Option (NodeIndex × D)))
    (result : Outcome (MerkleError D) (Option (NodeIndex × D))) : Prop :=
  (∃ index, Lone empty leaf levels pos index ∧ result = found index) ∨
    (¬ ∃ index, Lone empty leaf levels pos index) ∧ result = .ok none

/-- What a search below a node is for. -/
def Answers (empty : D) (leaf : Nat -> D) (treeDepth levels pos : Nat)
    (result : Outcome (MerkleError D) (Option (NodeIndex × D))) : Prop :=
  Searches empty leaf levels pos (fun index => .ok (some (⟨treeDepth, index⟩, leaf index))) result

/-- Beside an empty child the leaves of a node are those of the other child. -/
theorem Searches.parent (half : child / 2 = pos) (kin : other / 2 = pos) (apart : child ≠ other)
    (vacant : Vacant empty leaf levels other)
    {found : Nat -> Outcome (MerkleError D) (Option (NodeIndex × D))}
    {result : Outcome (MerkleError D) (Option (NodeIndex × D))}
    (searches : Searches empty leaf levels child found result) :
    Searches empty leaf (levels + 1) pos found result := by
  have among (place : Nat) (solid : leaf place ≠ empty) :
      place / 2 ^ (levels + 1) = pos ↔ place / 2 ^ levels = child := by
    have outside : place / 2 ^ levels ≠ other := fun below => solid (vacant place below)
    rw [div_two_pow_succ]
    omega
  have same (index : Nat) : Lone empty leaf (levels + 1) pos index ↔
      Lone empty leaf levels child index := by
    constructor
    · rintro ⟨below, solid, alone⟩
      exact ⟨(among index solid).mp below, solid,
        fun place under full => alone place ((among place full).mpr under) full⟩
    · rintro ⟨below, solid, alone⟩
      exact ⟨(among index solid).mpr below, solid,
        fun place under full => alone place ((among place full).mp under) full⟩
  simp only [Searches, same]
  exact searches

/-- A leaf beside a lone one is empty. -/
theorem Lone.empty_eq {value : D} (lone : Lone empty leaf (levels + 1) pos index)
    (other : Lone value leaf (levels + 1) pos index) : empty = value := by
  rcases lone with ⟨rfl, _, alone⟩
  have beside (place : Nat) (kin : place / 2 = index / 2) (apart : place ≠ index) :
      empty = value := by
    have below : place / 2 ^ (levels + 1) = index / 2 ^ (levels + 1) := by
      rw [pow_succ', ← Nat.div_div_eq_div_mul, kin, Nat.div_div_eq_div_mul]
    have vacant := not_not.mp (fun solid => apart (alone place below solid))
    have same := not_not.mp (fun solid => apart (other.alone place below solid))
    exact vacant.symm.trans same
  rcases Nat.even_or_odd' index with ⟨half, rfl | rfl⟩
  · exact beside (2 * half + 1) (by omega) (by omega)
  · exact beside (2 * half) (by omega) (by omega)

theorem not_lone_of_solid (left : ¬ Vacant empty leaf levels (2 * pos))
    (right : ¬ Vacant empty leaf levels (2 * pos + 1)) :
    ¬ Lone empty leaf (levels + 1) pos index := by
  intro lone
  have found {side : Nat} (half : side / 2 = pos) (solid : ¬ Vacant empty leaf levels side) :
      index / 2 ^ levels = side := by
    rcases not_forall.mp solid with ⟨place, solid⟩
    rcases Classical.not_imp.mp solid with ⟨below, solid⟩
    rw [← lone.alone place (by rw [div_two_pow_succ, below, half]) solid, below]
  have first := found (by omega) left
  have second := found (by omega) right
  omega

theorem child_inside (half : child / 2 = pos) (inside : (pos + 1) * 2 ^ (levels + 1) ≤ bound) :
    (child + 1) * 2 ^ levels ≤ bound := by
  refine le_trans (Nat.mul_le_mul_right _ (show child + 1 ≤ (pos + 1) * 2 by omega)) ?_
  rwa [mul_assoc, ← pow_succ']

end Lone

/-! ## Sparse trees in a store -/

variable {hasher : SmtHasher D} {store : MerkleStore D}
variable {leaf : Nat -> D} {treeDepth depth levels pos : Nat}

/-- A store that holds a tree: every hash is that of the children. -/
structure Loads (hasher : SmtHasher D) (store : MerkleStore D) (leaf : Nat -> D)
    (treeDepth : Nat) : Prop where
  honest : forall entry, entry ∈ store.nodes -> hasher.merge entry.2.left entry.2.right = entry.1
  covers : forall height index, (index + 1) * 2 ^ (height + 1) ≤ 2 ^ treeDepth ->
    ∃ entry, entry ∈ store.nodes ∧ entry.1 = node hasher.merge leaf (height + 1) index

variable [DecidableEq D] (loads : Loads hasher store leaf treeDepth)
variable (free : forall a b c d, hasher.merge a b = hasher.merge c d -> a = c ∧ b = d)
include loads free

theorem Loads.children (inside : (pos + 1) * 2 ^ (levels + 1) ≤ 2 ^ treeDepth) :
    store.get (node hasher.merge leaf (levels + 1) pos) =
      some ⟨node hasher.merge leaf levels (2 * pos), node hasher.merge leaf levels (2 * pos + 1)⟩ := by
  cases found : store.get (node hasher.merge leaf (levels + 1) pos) with
  | none =>
    rcases loads.covers levels pos inside with ⟨entry, member, hash⟩
    exact absurd hash.symm (bne_iff_ne.mp (List.lookup_eq_none_iff.mp found entry member))
  | some children =>
    rcases List.lookup_eq_some_iff.mp found with ⟨front, back, split, _⟩
    have same := loads.honest _ (split ▸ List.mem_append_right front (.head back))
    rcases free _ _ _ _ same with ⟨left, right⟩
    rw [← left, ← right]

/-- The search takes the root of an empty subtree that a tree of depth 64 has at
the depth of the leaves for an empty leaf. -/
theorem loneLeafFrom_searches (level : depth + levels = treeDepth) (deep : treeDepth ≤ 64)
    (inside : (pos + 1) * 2 ^ levels ≤ 2 ^ treeDepth)
    (solid : levels = 0 -> ¬ Vacant (EmptySubtreeRoots.entry hasher 64 treeDepth) leaf levels pos) :
    Searches (EmptySubtreeRoots.entry hasher 64 treeDepth) leaf levels pos
      (fun index => loneLeafFrom hasher store 0 ⟨treeDepth, index⟩ (leaf index))
      (loneLeafFrom hasher store levels ⟨depth, pos⟩ (node hasher.merge leaf levels pos)) := by
  induction levels generalizing depth pos with
  | zero =>
    simp only [Vacant, pow_zero, Nat.div_one, forall_eq] at solid
    refine .inl ⟨pos, ⟨Nat.div_one pos, solid trivial, fun place below _ => ?_⟩,
      by rw [← level]; rfl⟩
    rwa [pow_zero, Nat.div_one] at below
  | succ levels ih =>
    have eqv (side : Nat) : node hasher.merge leaf levels side =
        EmptySubtreeRoots.entry hasher 64 (depth + 1) ↔
        Vacant (EmptySubtreeRoots.entry hasher 64 treeDepth) leaf levels side := by
      rw [← node_eq_emptyRoot_iff free, EmptySubtreeRoots.entry, EmptySubtreeRoots.entry,
        emptyRoot_emptyRoot, show 64 - treeDepth + levels = 64 - (depth + 1) by omega]
    have below (side : Nat) (half : side / 2 = pos)
        (solid : node hasher.merge leaf levels side ≠ EmptySubtreeRoots.entry hasher 64 (depth + 1)) :=
      ih (show depth + 1 + levels = treeDepth by omega) (child_inside half inside)
        (fun _ vacant => solid ((eqv side).mpr vacant))
    rw [loneLeafFrom, loads.children free inside]
    dsimp only [NodeIndex.leftChild, NodeIndex.rightChild]
    split_ifs with first second
    · exact (below _ (by omega) first.1).parent (by omega) (show (2 * pos + 1) / 2 = pos by omega) (by omega)
        ((eqv _).mp first.2)
    · exact (below _ (by omega) second.2).parent (by omega) (show 2 * pos / 2 = pos by omega) (by omega)
        ((eqv _).mp second.1)
    · refine .inr ⟨?_, rfl⟩
      rintro ⟨index, lone⟩
      rw [Ne, eqv, eqv] at first second
      by_cases left : Vacant (EmptySubtreeRoots.entry hasher 64 treeDepth) leaf levels (2 * pos)
      · have right := not_not.mp (fun solid => second ⟨left, solid⟩)
        exact lone.solid (forall_below_succ.mpr ⟨left, right⟩ index lone.below)
      · exact not_lone_of_solid left (fun right => first ⟨left, right⟩) lone

omit loads free in
theorem loneLeafFrom_zero_eq_ok {index : NodeIndex} {value : D} {found : Option (NodeIndex × D)} :
    loneLeafFrom hasher store 0 index value = .ok found ↔ store.get value = none ∧
      found = some (index, value) := by
  rw [loneLeafFrom]
  cases store.get value with
  | none => simp [eq_comm]
  | some children => simp

/-- The search is right below the inner nodes of a tree of depth 64 if the only
leaf is not the hash of a stored node.  In a lower tree it is right where it has
nothing to find, unless all leaves but one are the root of an empty subtree. -/
theorem findLoneLeaf_answers_iff (apart : forall a b, hasher.merge a b ≠ hasher.emptyWord)
    (sum : depth + levels = treeDepth) (deep : treeDepth ≤ 64) (inside : pos < 2 ^ depth) :
    Answers hasher.emptyWord leaf treeDepth levels pos
        (findLoneLeaf hasher store (node hasher.merge leaf levels pos) ⟨depth, pos⟩ treeDepth) ↔
      0 < levels ∧
      (forall index, Lone hasher.emptyWord leaf levels pos index ->
        treeDepth = 64 ∧ store.get (leaf index) = none) ∧
      (treeDepth = 64 ∨
        ¬ ∃ index, Lone (EmptySubtreeRoots.entry hasher 64 treeDepth) leaf levels pos index) := by
  have room : (pos + 1) * 2 ^ levels ≤ 2 ^ treeDepth := by
    rw [← sum, pow_add]
    exact Nat.mul_le_mul_right _ inside
  rw [findLoneLeaf, if_neg (not_lt.mpr deep)]
  cases levels with
  | zero =>
    -- a leaf is not in the store, or it is below the depth of the tree
    refine ⟨fun answers => ?_, fun more => absurd more.1 (lt_irrefl _)⟩
    rw [node, show treeDepth - depth = 0 by omega, loneLeafFrom, if_neg (not_lt.mpr (Nat.le.intro sum))] at answers
    cases found : store.get (leaf pos) with
    | none | some _ =>
      rw [found] at answers
      rcases answers with ⟨_, _, result⟩ | ⟨_, result⟩ <;> cases result
  | succ levels =>
    have searches :=
      loneLeafFrom_searches loads free sum deep room (fun zero => absurd zero (succ_ne_zero _))
    rw [loads.children free room, if_neg (Bool.eq_false_iff.mp Option.isNone_some),
      if_neg (not_lt.mpr (Nat.le.intro sum)), show treeDepth - depth = levels + 1 by omega]
    rcases Nat.lt_or_eq_of_le deep with shallow | rfl
    · have other : hasher.emptyWord ≠ EmptySubtreeRoots.entry hasher 64 treeDepth := by
        rw [EmptySubtreeRoots.entry, show 64 - treeDepth = 63 - treeDepth + 1 by omega]
        exact (apart _ _).symm
      rcases searches with ⟨index, lone, result⟩ | ⟨none, result⟩
      · refine iff_of_false ?_ (fun more => more.2.2.elim (Nat.ne_of_lt shallow) (fun none => none ⟨index, lone⟩))
        rw [result]
        rintro (⟨found, only, same⟩ | ⟨_, same⟩)
        · cases (loneLeafFrom_zero_eq_ok.mp same).2
          exact other (only.empty_eq lone)
        · cases (loneLeafFrom_zero_eq_ok.mp same).2
      · rw [result]
        constructor
        · rintro (⟨_, _, same⟩ | ⟨empty, _⟩)
          · cases same
          · exact ⟨succ_pos levels, fun index only => absurd ⟨index, only⟩ empty, .inr none⟩
        · rintro ⟨_, only, _⟩
          refine .inr ⟨?_, rfl⟩
          rintro ⟨index, lone⟩
          exact absurd (only index lone).1 (Nat.ne_of_lt shallow)
    · rcases searches with ⟨index, lone, result⟩ | ⟨none, result⟩
      · rw [result]
        constructor
        · rintro (⟨found, only, same⟩ | ⟨empty, _⟩)
          · refine ⟨succ_pos levels, fun place alone => ⟨rfl, ?_⟩, .inl rfl⟩
            rw [lone.alone place alone.below alone.solid]
            exact (loneLeafFrom_zero_eq_ok.mp same).1
          · exact absurd ⟨index, lone⟩ empty
        · rintro ⟨_, only, _⟩
          exact .inl ⟨index, lone, loneLeafFrom_zero_eq_ok.mpr ⟨(only index lone).2, rfl⟩⟩
      · rw [result]
        exact iff_of_true (.inr ⟨none, rfl⟩)
          ⟨succ_pos levels, fun index only => absurd ⟨index, only⟩ none, .inl rfl⟩

omit [DecidableEq D] loads free in
/-- A tree of depth 64 whose only leaf is at position 5. -/
theorem findLoneLeaf_answers_lone_leaf :
    let leaf := Function.update (fun _ => freeHasher.emptyWord) 5 (.entry ⟨0, 0, 0, 5⟩ ⟨7, 0, 0, 0⟩)
    let node := node freeHasher.merge leaf
    let path := (List.range 64).map (fun height =>
      let above := 5 / 2 ^ (height + 1)
      (node (height + 1) above, StoreNode.mk (node height (2 * above)) (node height (2 * above + 1))))
    Lone freeHasher.emptyWord leaf 64 0 5 ∧
      Answers freeHasher.emptyWord leaf 64 64 0
        (findLoneLeaf freeHasher ((new freeHasher).extend path) (node 64 0) ⟨0, 0⟩ 64) := by
  intro leaf node path
  have free := freeHasher_collisionFree
  have stored (entry : FreeDigest × StoreNode FreeDigest)
      (member : entry ∈ ((new freeHasher).extend path).nodes) :
      freeHasher.merge entry.2.left entry.2.right = entry.1 := by
    rcases List.mem_append.mp member with listed | empty
    · rcases List.mem_map.mp (List.mem_reverse.mp listed) with ⟨_, _, rfl⟩
      rfl
    · rcases List.mem_map.mp empty with ⟨_, _, rfl⟩
      rfl
  have loads : Loads freeHasher ((new freeHasher).extend path) leaf 64 := by
    refine ⟨stored, fun height index inside => ?_⟩
    have low : height + 1 ≤ 64 := (Nat.pow_le_pow_iff_right (by decide)).mp
      (le_trans (Nat.le_mul_of_pos_left _ (succ_pos index)) inside)
    by_cases onPath : 5 / 2 ^ (height + 1) = index
    · rw [← onPath]
      exact ⟨_, List.mem_append_left _ (List.mem_reverse.mpr
        (List.mem_map_of_mem (List.mem_range.mpr low))), rfl⟩
    · refine ⟨_, List.mem_append_right _
        (List.mem_map_of_mem (List.mem_range.mpr (show height < 255 by omega))), ?_⟩
      exact ((node_update_apart freeHasher.merge _ onPath).trans (node_empty _ _ _ index)).symm
  have lone : Lone freeHasher.emptyWord leaf 64 0 5 := by
    refine ⟨by decide, by decide, fun place _ solid => ?_⟩
    exact not_not.mp (fun other => solid (Function.update_of_ne other _ _))
  refine ⟨lone, (findLoneLeaf_answers_iff loads free.merge (fun a b => free.merge_ne a b [])
    rfl (le_refl _) (by decide)).mpr ⟨by decide, fun index only => ⟨rfl, ?_⟩, .inl rfl⟩⟩
  rw [lone.alone index only.below only.solid]
  refine List.lookup_eq_none_iff.mpr (fun entry member => bne_iff_ne.mpr ?_)
  rw [← stored entry member]
  exact (free.merge_ne _ _ [(⟨0, 0, 0, 5⟩, ⟨7, 0, 0, 0⟩)]).symm

omit [DecidableEq D] loads free in
/-- In a tree of depth 1 the only leaf is not found. -/
theorem findLoneLeaf_misses_leaf :
    let leaf : FreeDigest := .entry Word.zero ⟨7, 0, 0, 0⟩
    findLoneLeaf freeHasher
        ((new freeHasher).extend [(.node leaf (.empty 0), ⟨leaf, .empty 0⟩)])
        (.node leaf (.empty 0)) ⟨0, 0⟩ 1 = .ok none ∧
      Lone freeHasher.emptyWord (fun place => if place = 0 then leaf else .empty 0) 1 0 0 := by
  refine ⟨rfl, rfl, by decide, fun place below solid => ?_⟩
  exact not_not.mp (fun other => solid (if_neg other))

end MerkleStore

end MidenVm.Crypto
