import MidenVm.Stark.Lmcs

namespace MidenVm.Stark

open Foundation List Outcome Nat Heap

/-!
# The walk over queried nodes

The iterator of the prover and the walk of the verifier divide every layer of
queried nodes in the same way, so the digests are read in the order in which
they were streamed.  Read upwards, a walk over the digests of a tree gives the
digests of the layer above; read downwards, a layer of digests of the tree can
only have come from digests of the tree below it.
-/

/-! ## The missing siblings -/

variable {node : NodeId} {rest : List NodeId} {depth : Nat}

namespace MissingSiblingsIter

/-- What the two parts of the buffer hold: the nodes still to process, and the
parents found so far. -/
structure Holds (iter : MissingSiblingsIter) (current parents : List NodeId) : Prop where
  slice : (iter.nodes.take iter.stop).drop iter.start = current
  done : iter.nodes.take iter.nextLen = parents
  apart : iter.nextLen ≤ iter.start
  room : iter.nextLen ≤ iter.nodes.length

variable {iter : MissingSiblingsIter} {current parents : List NodeId}

/-- Writing a parent into the buffer while nodes are consumed. -/
theorem Holds.promote (holds : Holds iter (node :: rest) parents) (above : NodeId) {count : Nat}
    (positive : 0 < count) :
    Holds { iter with nodes := iter.nodes.set iter.nextLen above, nextLen := iter.nextLen + 1,
                      start :=
                        iter.start + count } ((node :: rest).drop count) (parents ++ [above]) := by
  have before : iter.start < (iter.nodes.take iter.stop).length := by
    by_contra outside
    have empty := drop_eq_nil_of_le (Nat.le_of_not_lt outside)
    rw [holds.slice] at empty
    exact absurd empty (cons_ne_nil _ _)
  have room : iter.nextLen < iter.nodes.length :=
    lt_of_le_of_lt holds.apart (lt_of_lt_of_le before (length_take_le' _ _))
  refine ⟨?_, ?_, ?_, ?_⟩
  · change ((iter.nodes.set iter.nextLen above).take iter.stop).drop (iter.start + count) = _
    have beyond : iter.nextLen < iter.start + count :=
      lt_of_le_of_lt holds.apart (Nat.lt_add_of_pos_right positive)
    rw [take_set, drop_set_of_lt beyond, ← holds.slice, drop_drop]
  · change (iter.nodes.set iter.nextLen above).take (iter.nextLen + 1) = _
    rw [take_add_one, getElem?_set_self room, take_set_of_le (le_refl _), holds.done]
    rfl
  · exact Nat.add_le_add holds.apart positive
  · change iter.nextLen + 1 ≤ (iter.nodes.set iter.nextLen above).length
    rw [length_set]
    exact room

/-- The last parent differs from those of later nodes. -/
theorem Holds.last_ne (holds : Holds iter current parents) {above : NodeId}
    (fresh : forall parent, parent ∈ parents -> parent < above) :
    iter.nextLen = 0 ∨ iter.nodes[iter.nextLen - 1]? ≠ some above := by
  rcases Nat.eq_zero_or_pos iter.nextLen with zero | positive
  · exact .inl zero
  · refine .inr (fun same => ?_)
    have member : above ∈ iter.nodes.take iter.nextLen := by
      refine mem_of_getElem? (i := iter.nextLen - 1) ?_
      rw [getElem?_take_of_lt (sub_lt positive one_pos), same]
    rw [holds.done] at member
    exact absurd (fresh above member) (lt_irrefl _)

/-- A node whose sibling does not follow yields the sibling. -/
theorem step_single (holds : Holds iter (node :: rest) parents)
    (later : forall other, other ∈ rest -> parent node < parent other)
    (fresh : forall parent, parent ∈ parents -> parent < Heap.parent node) :
    ∃ next, iter.step = .yields (Heap.sibling node) next ∧
      Holds next rest (parents ++ [Heap.parent node]) := by
  have absent : ¬ rest.head? = some (sibling node) := by
    intro first
    exact ne_sibling (later _ (mem_of_mem_head? first)) rfl
  have promoted := holds.promote (parent node) one_pos
  refine ⟨_, ?_, promoted⟩
  rw [step, holds.slice]
  dsimp only [NodeId.sibling, NodeId.parent]
  rw [if_neg absent, if_neg absent, if_pos (holds.last_ne fresh), if_pos (holds.last_ne fresh)]

/-- Two siblings are consumed together. -/
theorem step_pair {left : NodeId} (holds : Holds iter (left :: sibling left :: rest) parents)
    (fresh : forall parent, parent ∈ parents -> parent < Heap.parent left) :
    ∃ next, iter.step = .continues next ∧ Holds next rest (parents ++ [Heap.parent left]) := by
  have promoted := holds.promote (parent left) two_pos
  refine ⟨_, ?_, promoted⟩
  have present : (sibling left :: rest).head? = some (sibling left) := rfl
  rw [step, holds.slice]
  dsimp only [NodeId.sibling, NodeId.parent]
  rw [if_pos present, if_pos present, if_pos (holds.last_ne fresh), if_pos (holds.last_ne fresh)]

/-- A promoted parent is before the parents of what is left. -/
theorem fresh_promoted {current rest parents : List NodeId} {node : NodeId}
    (fresh : forall parent, parent ∈ parents -> forall node, node ∈ current -> parent < Heap.parent node)
    (inside : rest ⊆ current) (later : forall other, other ∈ rest -> parent node < parent other) :
    forall parent, parent ∈ parents ++ [Heap.parent node] -> forall other, other ∈ rest ->
      parent < Heap.parent other := by
  intro parent member other inRest
  rcases mem_append.mp member with old | new
  · exact fresh parent old other (inside inRest)
  · rw [mem_singleton.mp new]
    exact later other inRest

/-- The rounds of one layer. -/
theorem collect_layer (current : List NodeId) (sorted : current.Pairwise (· < ·)) :
    forall (iter : MissingSiblingsIter) (parents : List NodeId) (fuel : Nat) (result : List NodeId),
      Holds iter current parents ->
      (forall parent, parent ∈ parents -> forall node, node ∈ current -> parent < Heap.parent node) ->
      (forall next, Holds next [] (parents ++ parentLayer current) ->
        forall more, fuel ≤ more -> collect more next = some result) ->
      forall more, current.length + fuel ≤ more ->
        collect more iter = some (missingLayer current ++ result) := by
  refine layer_induction (fun node => node) current (by rwa [map_id']) ?_ ?_ ?_
  · intro iter parents fuel result holds _ ends more enough
    rw [parentLayer, append_nil] at ends
    exact ends iter holds more (zero_add fuel ▸ enough)
  · intro node rest later ih iter parents fuel result holds fresh ends more enough
    rcases step_single holds later (fun parent member => fresh parent member node mem_cons_self) with
      ⟨next, stepped, held⟩
    rcases more with _ | more
    · rw [length_cons] at enough
      omega
    have rest := ih next (parents ++ [parent node]) fuel result held
      (fresh_promoted fresh (subset_cons_self _ _) later) (by
        rw [append_assoc, singleton_append, ← parentLayer_single later]
        exact ends) more (by rw [length_cons] at enough; omega)
    rw [collect, stepped]
    dsimp only
    rw [rest, missingLayer_single later]
    rfl
  · intro left right rest siblings _ later ih iter parents fuel result holds fresh ends more enough
    rw [siblings] at holds
    rcases step_pair holds (fun parent member => fresh parent member left mem_cons_self) with
      ⟨next, stepped, held⟩
    rcases more with _ | more
    · rw [length_cons] at enough
      omega
    have rest := ih next (parents ++ [parent left]) fuel result held (fresh_promoted fresh
      (subset_cons_of_subset _ (subset_cons_self _ _)) later) (by
        rw [siblings, parentLayer_pair] at ends
        rw [append_assoc, singleton_append]
        exact ends) more (by rw [length_cons, length_cons] at enough; omega)
    rw [collect, stepped]
    dsimp only
    rw [rest, siblings, missingLayer_pair]

theorem depth_of_bounds {id : Nat} (bounds : 2 ^ depth ≤ id ∧ id < 2 ^ (depth + 1)) :
    NodeId.depth id = depth :=
  (log2_eq_iff (ne_of_gt (lt_of_lt_of_le (Nat.two_pow_pos depth) bounds.1))).mpr bounds

/-- The iterator yields the missing siblings layer by layer. -/
theorem collect_layers (depth : Nat) : forall (current : List NodeId) (iter : MissingSiblingsIter),
    current.Pairwise (· < ·) -> current ≠ [] -> Heap.AtDepth (depth + 1) current ->
      Holds iter current [] -> forall more, (current.length + 1) * (depth + 1) ≤ more ->
        collect more iter = some (missingFrom (depth + 1) current) := by
  induction depth with
  | zero =>
    intro current iter sorted held level holds more enough
    refine collect_layer current sorted iter [] 1 [] holds (forall_mem_nil _)
      (fun next ends more enough => ?_) more (by omega)
    rcases more with _ | more
    · omega
    have top :=
      Heap.AtDepth.root (sorted_parentLayer sorted) (parentLayer_ne_nil held) level.parents
    rw [nil_append, top] at ends
    have ended : next.step = .ends := by
      rw [step, ends.slice]
      dsimp only
      rw [ends.done]
      rfl
    rw [collect, ended]
  | succ depth ih =>
    intro current iter sorted held level holds more enough
    have shorter := length_parentLayer_le current
    have budget : current.length + (((parentLayer current).length + 1) * (depth + 1) + 1) ≤ more := by
      have scaled := Nat.mul_le_mul_right (depth + 1) (Nat.add_le_add_right shorter 1)
      rw [mul_succ (current.length + 1) (depth + 1)] at enough
      omega
    refine collect_layer current sorted iter [] _ (missingFrom (depth + 1) (parentLayer current)) holds
      (forall_mem_nil _) (fun next ends more enough => ?_) more budget
    rcases more with _ | more
    · omega
    rw [nil_append] at ends
    have upper := parentLayer_ne_nil held
    have parents := level.parents
    have continued : next.step = .continues ⟨next.nodes, 0, next.nextLen, 0⟩ := by
      rw [step, ends.slice]
      dsimp only
      rw [ends.done]
      rcases exists_cons_of_ne_nil upper with ⟨first, others, shape⟩
      have bounds := parents first (shape ▸ mem_cons_self)
      rw [shape, head?_cons]
      dsimp only
      rw [depth_of_bounds bounds, if_neg (succ_ne_zero depth)]
    have restarted : Holds ⟨next.nodes, 0, next.nextLen, 0⟩ (parentLayer current) [] :=
      ⟨ends.done, rfl, Nat.le_refl 0, Nat.zero_le _⟩
    rw [collect, continued]
    exact ih _ _ (sorted_parentLayer sorted) upper parents restarted more (by omega)

end MissingSiblingsIter

theorem TreeIndices.missingSiblings_eq (set : TreeIndices) (held : set.indices ≠ []) :
    set.missingSiblings = some (missingFrom set.depth (set.indices.map (NodeId.new set.depth))) := by
  rw [missingSiblings, MissingSiblingsIter.new]
  generalize hdepth : set.depth = depth
  cases depth with
  | zero =>
    rw [if_neg (Nat.lt_irrefl 0)]
    rfl
  | succ depth =>
    have layer : Heap.AtDepth (depth + 1) (set.indices.map (NodeId.new (depth + 1))) := by
      intro id member
      rcases mem_map.mp member with ⟨position, there, rfl⟩
      have bound := set.bound position there
      rw [hdepth] at bound
      rw [NodeId.new, Nat.pow_succ 2 (depth + 1)]
      omega
    have sorted : (set.indices.map (NodeId.new (depth + 1))).Pairwise (· < ·) :=
      pairwise_map.mpr (set.sorted.imp (fun below => Nat.add_lt_add_left below _))
    have size : (set.indices.map (NodeId.new (depth + 1))).length = set.indices.length :=
      length_map _
    refine MissingSiblingsIter.collect_layers depth _ _ sorted (by simpa using held) layer ?_ _ ?_
    · refine ⟨?_, rfl, Nat.le_refl 0, Nat.zero_le _⟩
      rw [if_pos (succ_pos depth), drop_zero, ← size, take_length]
    · rw [size]
      exact Nat.mul_le_mul_left _ (le_succ _)

/-! ## The walk of the verifier -/

namespace MerkleWitness

variable {F D : Type} {compress : D -> D -> D}

/-- The parent of a node from its digest and the digest of its sibling. -/
def joined (compress : D -> D -> D) (node : NodeId) (hash sibHash : D) : D :=
  compress (ordered node hash sibHash).1.2 (ordered node hash sibHash).2.2

theorem buildLayer_single {hash : D} {rest : List (NodeId × D)} (hints : Hints F D)
    (later : forall other, other ∈ rest -> parent node < parent other.1) :
    buildLayer compress ((node, hash) :: rest) hints = (do
      let fetched ← hints.receiveCommitment
      let above ← buildLayer compress rest fetched.2
      .ok ((parent node, joined compress node hash fetched.1) :: above.1,
        (ordered node hash fetched.1).1 :: (ordered node hash fetched.1).2 :: above.2.1,
        above.2.2)) := by
  rcases rest with _ | ⟨⟨id, known⟩, rest⟩
  · rfl
  · have apart : ¬ id = NodeId.sibling node := by
      intro same
      have below := later (id, known) mem_cons_self
      rw [same, NodeId.sibling] at below
      rcases left_or_right node with even | odd
      · rw [even, sibling_left, parent_left, parent_right] at below
        omega
      · rw [odd, sibling_right, parent_left, parent_right] at below
        omega
    rw [buildLayer, if_neg apart]
    rfl

theorem buildLayer_pair {hash known : D} {rest : List (NodeId × D)} (hints : Hints F D) :
    buildLayer compress ((node, hash) :: (sibling node, known) :: rest) hints = (do
      let above ← buildLayer compress rest hints
      .ok ((parent node, joined compress node hash known) :: above.1,
        (ordered node hash known).1 :: (ordered node hash known).2 :: above.2.1, above.2.2)) := by
  have same : sibling node = NodeId.sibling node := rfl
  rw [buildLayer, if_pos same]
  rfl

theorem ordered_left (id : NodeId) (hash sibHash : D) :
    ordered (2 * id) hash sibHash = ((2 * id, hash), (2 * id + 1, sibHash)) := by
  rw [ordered, NodeId.sibling, sibling_left, if_pos (lt_succ_self _)]

theorem ordered_right (id : NodeId) (hash sibHash : D) :
    ordered (2 * id + 1) hash sibHash = ((2 * id, sibHash), (2 * id + 1, hash)) := by
  rw [ordered, NodeId.sibling, sibling_right, if_neg (Nat.not_lt_of_lt (lt_succ_self _))]

theorem one_le_parent {node : Nat} (bounds : 2 ^ (depth + 1) ≤ node ∧ node < 2 ^ (depth + 2)) :
    1 ≤ parent node := by
  have power := Nat.two_pow_pos depth
  rw [pow_succ] at bounds
  rw [parent]
  omega

theorem parent_lt {treeDepth node : Nat} (below : depth < treeDepth)
    (bounds : 2 ^ (depth + 1) ≤ node ∧ node < 2 ^ (depth + 2)) : parent node < 2 ^ treeDepth := by
  have power := Nat.pow_le_pow_right two_pos (succ_le_of_lt below)
  have upper := bounds.2
  rw [pow_succ] at upper
  rw [parent]
  omega

/-- The children found in a layer are not the root. -/
theorem forall_mem_ordered (positive : 1 ≤ parent node) (hash sibHash : D)
    {nodes : List (NodeId × D)} (keys : forall entry, entry ∈ nodes -> entry.1 ≠ 1) :
    forall entry, entry ∈ (ordered node hash sibHash).1 :: (ordered node hash sibHash).2 :: nodes ->
      entry.1 ≠ 1 := by
  intro entry member
  rcases mem_cons.mp member with rfl | further
  · rcases left_or_right node with even | odd
    · rw [even, ordered_left]
      change 2 * parent node ≠ 1
      omega
    · rw [odd, ordered_right]
      change 2 * parent node ≠ 1
      omega
  · rcases mem_cons.mp further with rfl | old
    · rcases left_or_right node with even | odd
      · rw [even, ordered_left]
        change 2 * parent node + 1 ≠ 1
        omega
      · rw [odd, ordered_right]
        change 2 * parent node + 1 ≠ 1
        omega
    · exact keys entry old

theorem lookup_append_of_ne {nodes others : List (NodeId × D)} {id : NodeId}
    (keys : forall entry, entry ∈ nodes -> entry.1 ≠ id) :
    (nodes ++ others).lookup id = others.lookup id := by
  induction nodes with
  | nil => rfl
  | cons head tail ih =>
    have apart : (id == head.1) = false := beq_false_of_ne (keys head mem_cons_self).symm
    rw [cons_append, lookup_cons, apart]
    exact ih (fun entry member => keys entry (mem_cons_of_mem _ member))

/-- The digests of a tree with leaves at a depth. -/
def Digests (compress : D -> D -> D) (treeDepth : Nat) (value : NodeId -> D) : Prop :=
  forall id : Nat, 1 ≤ id -> id < 2 ^ treeDepth ->
    value id = compress (value (2 * id)) (value (2 * id + 1))

section Walk

variable {treeDepth : Nat} {value : NodeId -> D} (digests : Digests compress treeDepth value)
include digests

/-- The digest of a parent. -/
theorem joined_eq (below : depth < treeDepth) {node : Nat}
    (bounds : 2 ^ (depth + 1) ≤ node ∧ node < 2 ^ (depth + 2)) :
    joined compress node (value node) (value (sibling node)) = value (parent node) := by
  have split := digests (parent node) (one_le_parent bounds) (parent_lt below bounds)
  rcases left_or_right node with even | odd
  · rw [even, parent_left] at split
    rw [even, sibling_left, parent_left, split, joined, ordered_left]
  · rw [odd, parent_right] at split
    rw [odd, sibling_right, parent_right, split, joined, ordered_right]

section Injective

variable (injective : forall a b c d, compress a b = compress c d -> a = c ∧ b = d)
include injective

/-- A digest of the tree was compressed from digests of the tree. -/
theorem eq_of_joined (below : depth < treeDepth) {node : Nat}
    (bounds : 2 ^ (depth + 1) ≤ node ∧ node < 2 ^ (depth + 2)) {hash sibHash : D}
    (same : joined compress node hash sibHash = value (parent node)) :
    hash = value node ∧ sibHash = value (sibling node) := by
  have split := digests (parent node) (one_le_parent bounds) (parent_lt below bounds)
  rw [split] at same
  rcases left_or_right node with even | odd
  · rw [even, parent_left, joined, ordered_left] at same
    rw [even, sibling_left]
    exact injective _ _ _ _ same
  · rw [odd, parent_right, joined, ordered_right] at same
    rw [odd, sibling_right]
    exact (injective _ _ _ _ same).symm

omit injective in
/-- A layer of digests of the tree is compressed to the layer above. -/
theorem buildLayer_complete (below : depth < treeDepth) (ids : List Nat)
    (sorted : ids.Pairwise (· < ·)) :
    Heap.AtDepth (depth + 1) ids -> forall (fields : List F) (rest : List D),
      ∃ nodes, buildLayer compress (ids.map (fun id => (id, value id)))
          ⟨fields, (missingLayer ids).map value ++ rest⟩ =
        .ok ((parentLayer ids).map (fun id => (id, value id)), nodes, ⟨fields, rest⟩) ∧
          forall entry, entry ∈ nodes -> entry.1 ≠ 1 := by
  refine layer_induction (fun id => id) ids (by rwa [map_id']) ?_ ?_ ?_
  · exact fun _ fields rest => ⟨[], rfl, forall_mem_nil _⟩
  · intro node others later ih level fields rest
    have bounds := level node mem_cons_self
    rcases ih (fun id member => level id (mem_cons_of_mem _ member)) fields rest with
      ⟨nodes, built, keys⟩
    have apart : forall other, other ∈ others.map (fun id => (id, value id)) ->
        parent node < parent other.1 := by
      intro other member
      rcases mem_map.mp member with ⟨id, there, rfl⟩
      exact later id there
    refine ⟨_, ?_, forall_mem_ordered (one_le_parent bounds) (value node) (value (sibling node)) keys⟩
    rw [map_cons, buildLayer_single _ apart, missingLayer_single later, parentLayer_single later,
      map_cons, map_cons, cons_append, Hints.receiveCommitment, ok_bind, built,
      ok_bind, joined_eq digests below bounds]
  · intro left right others siblings _ later ih level fields rest
    have bounds := level left mem_cons_self
    rcases ih (fun id member => level id (mem_cons_of_mem _ (mem_cons_of_mem _ member))) fields rest with
      ⟨nodes, built, keys⟩
    refine ⟨_, ?_, forall_mem_ordered (one_le_parent bounds) (value left) (value (sibling left)) keys⟩
    rw [siblings, map_cons, map_cons, buildLayer_pair, missingLayer_pair, parentLayer_pair,
      built, ok_bind, map_cons, joined_eq digests below bounds]

/-- The layer above holds the parents, and is one of the tree only if the layer is. -/
theorem buildLayer_sound (below : depth < treeDepth) (current : List (NodeId × D))
    (sorted : (current.map Prod.fst).Pairwise (· < ·)) :
    Heap.AtDepth (depth + 1) (current.map Prod.fst) -> forall (hints : Hints F D) result,
      buildLayer compress current hints = .ok result ->
        result.1.map Prod.fst = parentLayer (current.map Prod.fst) ∧
          (forall entry, entry ∈ result.2.1 -> entry.1 ≠ 1) ∧
          ((forall entry, entry ∈ result.1 -> entry.2 = value entry.1) ->
            forall entry, entry ∈ current -> entry.2 = value entry.1) := by
  refine layer_induction Prod.fst current sorted ?_ ?_ ?_
  · intro _ hints result built
    cases built
    exact ⟨rfl, forall_mem_nil _, fun _ entry member => absurd member not_mem_nil⟩
  · rintro ⟨node, hash⟩ others later ih level hints result built
    have bounds := level node mem_cons_self
    rw [buildLayer_single hints later] at built
    rcases bind_eq_ok.mp built with ⟨fetched, _, continued⟩
    rcases bind_eq_ok.mp continued with ⟨above, rest, done⟩
    cases done
    rcases ih (fun id member => level id (mem_cons_of_mem _ member)) _ _ rest with
      ⟨parents, keys, descends⟩
    have apart : forall other, other ∈ others.map Prod.fst -> parent node < parent other := by
      intro other member
      rcases mem_map.mp member with ⟨entry, there, rfl⟩
      exact later entry there
    refine ⟨?_, forall_mem_ordered (one_le_parent bounds) _ _ keys, fun correct entry member => ?_⟩
    · rw [map_cons, map_cons, parentLayer_single apart, parents]
    · rcases mem_cons.mp member with rfl | further
      · exact (eq_of_joined digests injective below bounds (correct _ mem_cons_self)).1
      · exact descends (fun other there => correct other (mem_cons_of_mem _ there)) entry further
  · rintro ⟨left, hash⟩ ⟨right, known⟩ others siblings _ later ih level hints result built
    have bounds := level left mem_cons_self
    have same : right = sibling left := siblings
    subst same
    rw [buildLayer_pair] at built
    rcases bind_eq_ok.mp built with ⟨above, rest, done⟩
    cases done
    rcases ih (fun id member => level id (mem_cons_of_mem _ (mem_cons_of_mem _ member))) _ _ rest with
      ⟨parents, keys, descends⟩
    refine ⟨?_, forall_mem_ordered (one_le_parent bounds) _ _ keys, fun correct entry member => ?_⟩
    · rw [map_cons, map_cons, map_cons, parentLayer_pair, parents]
    · have both := eq_of_joined digests injective below bounds (correct _ mem_cons_self)
      rcases mem_cons.mp member with rfl | further
      · exact both.1
      · rcases mem_cons.mp further with rfl | beyond
        · exact both.2
        · exact descends (fun other there => correct other (mem_cons_of_mem _ there)) entry beyond

omit injective in
/-- The whole walk over digests of the tree ends in the root. -/
theorem buildLayers_complete (depth : Nat) : depth ≤ treeDepth -> forall ids : List Nat,
    ids.Pairwise (· < ·) -> ids ≠ [] -> Heap.AtDepth depth ids ->
      forall (fields : List F) (rest : List D),
      ∃ nodes, buildLayers compress depth (ids.map (fun id => (id, value id)))
          ⟨fields, (missingFrom depth ids).map value ++ rest⟩ = .ok (nodes, ⟨fields, rest⟩) ∧
        nodes.lookup 1 = some (value 1) := by
  induction depth with
  | zero =>
    intro _ ids sorted held level fields rest
    rw [Heap.AtDepth.root sorted held level]
    exact ⟨_, rfl, rfl⟩
  | succ depth ih =>
    intro below ids sorted held level fields rest
    rcases buildLayer_complete digests below ids sorted level fields
      ((missingFrom depth (parentLayer ids)).map value ++ rest) with ⟨children, built, keys⟩
    rcases ih (le_of_succ_le below) _ (sorted_parentLayer sorted) (parentLayer_ne_nil held)
      level.parents fields rest with ⟨nodes, above, found⟩
    refine ⟨children ++ nodes, ?_, ?_⟩
    · rw [buildLayers, missingFrom, map_append, append_assoc, built, ok_bind, above, ok_bind]
    · rw [lookup_append_of_ne keys, found]

/-- A walk that ends in the root of the tree started from digests of the tree. -/
theorem buildLayers_sound (depth : Nat) :
    depth ≤ treeDepth -> forall (current : List (NodeId × D)) (hints : Hints F D) nodes rest,
      (current.map Prod.fst).Pairwise (· < ·) -> current ≠ [] ->
        Heap.AtDepth depth (current.map Prod.fst) ->
      buildLayers compress depth current hints = .ok (nodes, rest) ->
        nodes.lookup 1 = some (value 1) ->
      forall entry, entry ∈ current -> entry.2 = value entry.1 := by
  induction depth with
  | zero =>
    intro _ current hints nodes rest sorted held level built found
    have root := Heap.AtDepth.root sorted (by simpa using held) level
    cases built
    match current with
    | [] => exact absurd rfl held
    | [(node, hash)] =>
      have one : node = 1 := head_eq_of_cons_eq root
      subst one
      intro entry member
      rw [mem_singleton.mp member]
      exact Option.some.inj found
    | first :: second :: others => exact absurd (tail_eq_of_cons_eq root) (cons_ne_nil _ _)
  | succ depth ih =>
    intro below current hints nodes rest sorted held level built found
    rcases bind_eq_ok.mp built with ⟨layer, first, continued⟩
    rcases bind_eq_ok.mp continued with ⟨above, others, done⟩
    cases done
    rcases buildLayer_sound digests injective below current sorted level hints layer first with
      ⟨parents, keys, descends⟩
    refine descends (ih (le_of_succ_le below) layer.1 layer.2.2 above.1 above.2 ?_ ?_ ?_ others ?_)
    · rw [parents]
      exact sorted_parentLayer sorted
    · intro none
      have nodes : current.map Prod.fst ≠ [] := by simpa using held
      have upper := parentLayer_ne_nil nodes
      rw [← parents, none] at upper
      exact upper rfl
    · rw [parents]
      exact level.parents
    · rwa [lookup_append_of_ne keys] at found

end Injective

end Walk

end MerkleWitness

end MidenVm.Stark
