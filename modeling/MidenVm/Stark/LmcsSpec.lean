import MidenVm.Stark.LmcsTreeSpec

namespace MidenVm.Stark

open Foundation List Outcome LeafOpening LmcsConfig MerkleWitness RowList Heap

/-!
# Openings of a commitment

The hints of the prover are read back as they were written, and the walk over
the leaf digests ends in the root.  With a hash and a compression without
collisions, any hints that lead to the root hold the committed rows.
-/

variable {S F D : Type} [Zero F] {ε : Type}

/-! ## Reading the hints -/

variable {widths : List Nat} {saltElems alignment : Nat} {lmcs : LmcsConfig S F D} {matrices : List (Matrix F)}
  {last : Matrix F} {salt : Option (Matrix F)}

namespace LmcsConfig

omit [Zero F] in
theorem readFromChannel_eq (opening : LeafOpening F) (rows : opening.rows.widths = widths)
    (salt : opening.salt.length = saltElems) (fields : List F) (commitments : List D) :
    readFromChannel widths saltElems ⟨opening.writeToChannel ++ fields, commitments⟩ =
      .ok (opening, ⟨fields, commitments⟩) := by
  have flat : opening.rows.iterRows.flatten = opening.rows.elems :=
    (flatten_splitWidths opening.rows.widths opening.rows.elems opening.rows.size).1
  have size : widths.sum = opening.rows.elems.length := rows ▸ opening.rows.size
  have stream : opening.writeToChannel ++ fields =
      opening.rows.elems ++ (opening.salt ++ fields) := by
    rw [writeToChannel, flat, append_assoc]
  have enough : widths.sum ≤ (opening.rows.elems ++ (opening.salt ++ fields)).length := by
    rw [size, length_append]
    exact Nat.le_add_right _ _
  have more : saltElems ≤ (opening.salt ++ fields).length := by
    rw [← salt, length_append]
    exact Nat.le_add_right _ _
  rw [stream, readFromChannel, Hints.receiveFieldSlice]
  dsimp only
  rw [if_pos enough, ok_bind, size, take_left, drop_left]
  dsimp only
  rw [new, dif_pos size, ok_bind, Hints.receiveFieldSlice]
  dsimp only
  rw [if_pos more, ok_bind, ← salt, take_left, drop_left]
  cases opening with
  | mk held salt =>
    cases held
    subst rows
    rfl

omit [Zero F] in
/-- The openings are read as they were written. -/
theorem readOpenings_eq (opening : Nat -> LeafOpening F)
    (rows : forall index, (opening index).rows.widths = widths)
    (salt : forall index, (opening index).salt.length = saltElems) (indices : List Nat)
    (fields : List F) (commitments : List D) :
    readOpenings widths saltElems indices
        ⟨(indices.map (fun index => (opening index).writeToChannel)).flatten ++ fields,
          commitments⟩ =
      .ok (indices.map (fun index => (index, opening index)), ⟨fields, commitments⟩) := by
  induction indices with
  | nil => rfl
  | cons index rest ih =>
    rw [readOpenings, map_cons, flatten_cons, append_assoc,
      readFromChannel_eq (opening index) (rows index) (salt index), ok_bind, ih, ok_bind,
      map_cons]

omit [Zero F] in
/-- Whatever is read has the widths that were asked for. -/
theorem readOpenings_sound (indices : List Nat) : forall (hints : Hints F D) result,
    readOpenings widths saltElems indices hints = .ok result ->
      result.1.map Prod.fst = indices ∧ forall entry, entry ∈ result.1 ->
        entry.2.rows.widths = widths ∧ entry.2.salt.length = saltElems := by
  induction indices with
  | nil =>
    intro hints result read
    cases read
    exact ⟨rfl, forall_mem_nil _⟩
  | cons index rest ih =>
    intro hints result read
    rcases bind_eq_ok.mp read with ⟨⟨opening, after⟩, first, continued⟩
    rcases bind_eq_ok.mp continued with ⟨others, readRest, done⟩
    cases done
    rcases ih after others readRest with ⟨keys, shapes⟩
    rcases bind_eq_ok.mp first with ⟨elems, _, made⟩
    rcases bind_eq_ok.mp made with ⟨held, listed, salted⟩
    rcases bind_eq_ok.mp salted with ⟨salt, received, done⟩
    cases done
    refine ⟨by rw [map_cons, keys], fun entry member => ?_⟩
    rcases mem_cons.mp member with rfl | further
    · constructor
      · unfold new at listed
        split at listed
        · cases listed
          rfl
        · cases listed
      · unfold Hints.receiveFieldSlice at received
        split at received
        · rename_i enough
          cases received
          change (List.take saltElems elems.2.fields).length = saltElems
          rw [length_take]
          exact Nat.min_eq_left enough
        · cases received
    · exact shapes entry further

end LmcsConfig

/-! ## The prover -/

variable {set : TreeIndices}

namespace LiftedMerkleTree

variable {tree : LiftedMerkleTree F D}

/-- The nodes of the leaves in a set. -/
def leafNodes (set : TreeIndices) : List Nat := set.indices.map (NodeId.new set.depth)

theorem sorted_leafNodes (set : TreeIndices) : (leafNodes set).Pairwise (· < ·) :=
  pairwise_map.mpr (set.sorted.imp (fun below => Nat.add_lt_add_left below _))

theorem atDepth_leafNodes (set : TreeIndices) : Heap.AtDepth set.depth (leafNodes set) := by
  intro id member
  rcases mem_map.mp member with ⟨position, there, rfl⟩
  have bound := set.bound position there
  rw [NodeId.new, pow_succ]
  omega

theorem leafNodes_ne_nil (held : set.indices ≠ []) : leafNodes set ≠ [] := by
  simpa [leafNodes] using held

/-- The hints that the prover streams. -/
theorem BuiltFrom.proveBatch_eq (built : BuiltFrom lmcs matrices last.logHeight salt alignment tree)
    (found : matrices.getLast? = some last)
    (below : forall matrix, matrix ∈ matrices -> matrix.logHeight ≤ last.logHeight)
    (fits : SaltFits saltElems last.logHeight salt) (depth : set.depth = last.logHeight)
    (held : set.indices ≠ []) :
    tree.proveBatch (ε := ε) saltElems set =
      .ok ⟨(set.indices.map (fun index =>
          (leafOpening alignment matrices last.logHeight salt index).writeToChannel)).flatten,
        (missingFrom last.logHeight (leafNodes set)).map
          (nodeValue lmcs.compress (leafDigest lmcs matrices last.logHeight salt) last.logHeight)⟩ := by
  have openings : Outcome.collect (ε := ε) set.indices (fun index => do
      let rows ← tree.alignedRows index
      let salt ← tree.saltAt saltElems index
      .ok (writeToChannel ⟨rows, salt⟩)) =
      .ok (set.indices.map (fun index =>
        (leafOpening alignment matrices last.logHeight salt index).writeToChannel)) := by
    refine collect_eq_ok_map _ (fun index _ => ?_)
    rw [built.alignedRows_eq found below, ok_bind, built.saltAt_eq fits, ok_bind]
    rfl
  have digests : Outcome.collect (ε := ε) (missingFrom last.logHeight (leafNodes set))
      (fun sibling => tree.digestAt (NodeId.depth sibling) (NodeId.position sibling)) =
      .ok ((missingFrom last.logHeight (leafNodes set)).map
        (nodeValue lmcs.compress (leafDigest lmcs matrices last.logHeight salt) last.logHeight)) := by
    refine collect_eq_ok_map _ (fun id member => ?_)
    have level := atDepth_leafNodes set
    rw [depth] at level
    rcases mem_missingFrom level member with ⟨shallower, above, bounds⟩
    exact built.digestAt_node above bounds
  have missing := set.missingSiblings_eq held
  rw [depth, ← depth] at missing
  rw [proveBatch, built.height_eq found, ok_bind, log2Strict_two_pow, ok_bind, require_of depth,
    ok_bind, openings, ok_bind, missing, expect_some, ok_bind]
  rw [← leafNodes, depth]
  refine Eq.trans (congrArg (· >>= _) digests) ?_
  rfl

end LiftedMerkleTree

/-! ## The verifier -/

/-- No two lists of rows of the same widths have one hash, and no two pairs of
digests one compression. -/
structure LmcsConfig.CollisionFree (lmcs : LmcsConfig S F D) : Prop where
  hash : forall rows others : List (List F), rows.map List.length = others.map List.length ->
    lmcs.hash rows = lmcs.hash others -> rows = others
  compress : forall a b c d, lmcs.compress a b = lmcs.compress c d -> a = c ∧ b = d

section Verifier

variable [DecidableEq D] {log : Nat}

open LiftedMerkleTree

/-- The rows of a set of leaves. -/
def openedSet (alignment : Nat) (matrices : List (Matrix F)) (indices : List Nat) : OrderedMap Nat (RowList F) :=
  OrderedMap.empty.insertAll (indices.map (fun index => (index, leafRows alignment matrices index)))

omit [DecidableEq D] in
/-- The leaves of a set, as digests of the tree. -/
theorem leafNodes_digests (compress : D -> D -> D) (depth : set.depth = log) (leaf : Nat -> D) :
    (set.indices.map (fun index => (index, leaf index))).map (fun held => (NodeId.new set.depth held.1, held.2)) =
      (leafNodes set).map (fun id => (id, nodeValue compress leaf log id)) := by
  rw [leafNodes, map_map, map_map]
  refine map_congr_left (fun index member => ?_)
  have inside := set.bound index member
  rw [Function.comp_apply, Function.comp_apply, nodeValue_new _ _ inside, depth, Nat.sub_self]
  rfl

variable (matrices) in
/-- The verifier accepts the hints of the prover and leaves all that follows. -/
theorem openBatch_complete (padding : lmcs.sponge.AbsorbsPadding alignment)
    (fits : SaltFits saltElems log salt) (depth : set.depth = log) (held : set.indices ≠ [])
    (fields : List F) (commitments : List D) :
    lmcs.openBatch saltElems (nodeAt lmcs.compress (leafDigest lmcs matrices log salt) log 0)
        (matrices.map (fun matrix => alignedLen matrix.width alignment)) set
        ⟨(set.indices.map (fun index => (leafOpening alignment matrices log salt index).writeToChannel)).flatten ++
            fields,
          (missingFrom log (leafNodes set)).map
            (nodeValue lmcs.compress (leafDigest lmcs matrices log salt) log) ++ commitments⟩ =
      .ok (openedSet alignment matrices set.indices, ⟨fields, commitments⟩) := by
  have read := readOpenings_eq (leafOpening alignment matrices log salt) (fun _ => rfl)
    (fun index => fits.length index) set.indices fields ((missingFrom log (leafNodes set)).map
      (nodeValue lmcs.compress (leafDigest lmcs matrices log salt) log) ++ commitments)
  have hashes : (set.indices.map (fun index => (index, leafOpening alignment matrices log salt index))).map
      (fun opening => (opening.1, opening.2.leafHash lmcs saltElems)) =
        set.indices.map (fun index => (index, leafDigest lmcs matrices log salt index)) := by
    rw [map_map]
    refine map_congr_left (fun index _ => ?_)
    rw [Function.comp_apply, leafHash_leafOpening lmcs padding matrices fits]
  have level := atDepth_leafNodes set
  rw [depth] at level
  set digest := leafDigest lmcs matrices log salt
  rcases buildLayers_complete (digests_nodeValue lmcs.compress digest log) log (le_refl log) (leafNodes set) (sorted_leafNodes set) (leafNodes_ne_nil held) level fields commitments with
    ⟨nodes, walked, root⟩
  have top := nodeValue_root lmcs.compress digest log
  rw [openBatch, ensure_of held, ok_bind, read, ok_bind]
  dsimp only
  rw [hashes, build, leafNodes_digests lmcs.compress depth, depth, walked, ok_bind, ok_bind]
  dsimp only
  have computed : MerkleWitness.root ⟨nodes, log⟩ = some (nodeAt lmcs.compress digest log 0) :=
    root.trans (congrArg some top)
  rw [computed, okOr_some, ok_bind, ensure_of rfl, ok_bind, map_map]
  rfl

/-- Hints that lead to the root of a tree hold its rows. -/
theorem openBatch_sound (free : lmcs.CollisionFree) (padding : lmcs.sponge.AbsorbsPadding alignment)
    (fits : SaltFits saltElems log salt) (depth : set.depth = log) {hints rest : Hints F D}
    {opened : OrderedMap Nat (RowList F)}
    (accepted : lmcs.openBatch saltElems (nodeAt lmcs.compress (leafDigest lmcs matrices log salt) log 0)
        (matrices.map (fun matrix => alignedLen matrix.width alignment)) set hints =
          .ok (opened, rest)) :
    opened = openedSet alignment matrices set.indices := by
  rcases bind_unit_eq_ok.mp accepted with ⟨nonempty, continued⟩
  have held := ensure_eq_ok.mp nonempty
  rcases bind_eq_ok.mp continued with ⟨openings, read, continued⟩
  rcases bind_eq_ok.mp continued with ⟨⟨witness, after⟩, walked, continued⟩
  rcases bind_eq_ok.mp continued with ⟨computed, rooted, continued⟩
  rcases bind_unit_eq_ok.mp continued with ⟨same, done⟩
  have root := ensure_eq_ok.mp same
  subst root
  cases done
  rcases bind_eq_ok.mp walked with ⟨⟨nodes, left⟩, layers, done⟩
  cases done
  rcases readOpenings_sound set.indices hints openings read with ⟨keys, shapes⟩
  have ids : ((openings.1.map (fun opening => (opening.1, opening.2.leafHash lmcs saltElems))).map
      (fun leaf => (NodeId.new set.depth leaf.1, leaf.2))).map Prod.fst = leafNodes set := by
    rw [map_map, map_map, leafNodes, ← keys, map_map]
    rfl
  have top := nodeValue_root lmcs.compress (leafDigest lmcs matrices log salt) log
  have level := atDepth_leafNodes set
  rw [depth] at level layers ids
  have digests := buildLayers_sound
    (digests_nodeValue lmcs.compress (leafDigest lmcs matrices log salt) log) free.compress log (le_refl log)
    _ openings.2 nodes left (by rw [ids]; exact sorted_leafNodes set)
    (fun none => leafNodes_ne_nil held (by rw [← ids, none]; rfl)) (by rw [ids]; exact level) layers
    ((okOr_eq_ok.mp rooted).trans (congrArg some top.symm))
  -- Every opening hashes to the digest of its leaf, so it holds the committed rows.
  have rows : openings.1.map (fun opening => (opening.1, opening.2.rows)) =
      set.indices.map (fun index => (index, leafRows alignment matrices index)) := by
    rw [← keys, map_map]
    refine map_congr_left (fun entry member => ?_)
    have inside : entry.1 < 2 ^ log := by
      have listed : entry.1 ∈ set.indices := keys ▸ mem_map_of_mem member
      exact depth ▸ set.bound entry.1 listed
    have digest := digests (NodeId.new log entry.1, entry.2.leafHash lmcs saltElems)
      (mem_map.mpr ⟨_, mem_map_of_mem member, rfl⟩)
    have leaf : entry.2.leafHash lmcs saltElems = leafDigest lmcs matrices log salt entry.1 := by
      refine digest.trans ?_
      rw [nodeValue_new _ _ inside, Nat.sub_self]
      rfl
    rcases shapes entry member with ⟨widths, salted⟩
    rw [← leafHash_leafOpening lmcs padding matrices fits, leafHash_eq, leafHash_eq] at leaf
    have equal := free.hash _ _ (by
      have mine := (flatten_splitWidths _ _ entry.2.rows.size).2
      have theirs := (flatten_splitWidths _ _ (leafRows alignment matrices entry.1).size).2
      rw [map_append, map_append]
      refine congrArg₂ _ (mine.trans (widths.trans theirs.symm)) ?_
      split
      · rw [map_singleton, map_singleton, salted]
        exact congrArg (fun size => [size]) (fits.length entry.1).symm
      · rfl) leaf
    have lists : entry.2.rows.iterRows = (leafRows alignment matrices entry.1).iterRows := by
      refine (append_inj equal ?_).1
      have mine := congrArg List.length (flatten_splitWidths _ _ entry.2.rows.size).2
      have theirs := congrArg List.length
        (flatten_splitWidths _ _ (leafRows alignment matrices entry.1).size).2
      rw [length_map] at mine theirs
      exact mine.trans ((congrArg List.length widths).trans theirs.symm)
    rw [Function.comp_apply, eq_of_iterRows lists]
  rw [rows]
  rfl

end Verifier

/-! ## Lifted openings -/

section Lifted

variable [DecidableEq D] {lmcs : LmcsConfig S F D} {matrices : List (Matrix F)} {last : Matrix F}
  {salt : Option (Matrix F)} {alignment saltElems : Nat}

open LiftedMerkleTree

/-- The rows of the leaves under the queries are the rows at the queries. -/
theorem expandLeafValues_eq (below : forall matrix, matrix ∈ matrices -> matrix.logHeight ≤ last.logHeight)
    (queries : TreeIndices) :
    queries.expandLeafValues last.logHeight
        (openedSet alignment matrices (queries.fold last.logHeight).indices) =
      .ok (openedSet alignment matrices queries.indices) := by
  have keys : (((queries.fold last.logHeight).indices.map (fun index =>
      (index, leafRows alignment matrices index))).map Prod.fst).Nodup := by
    rw [map_map]
    refine List.Nodup.map (fun left right same => same) ?_
    exact (queries.fold last.logHeight).sorted.imp (fun before => ne_of_lt before)
  have values : Outcome.collect queries.indices (fun query => do
      let value ← Outcome.okOr ((openedSet alignment matrices (queries.fold last.logHeight).indices).get?
        (query % 2 ^ last.logHeight)) LmcsError.invalidProof
      .ok (query, value)) =
      .ok (queries.indices.map (fun query => (query, leafRows alignment matrices query))) := by
    refine collect_eq_ok_map _ (fun query member => ?_)
    have folded : query % 2 ^ last.logHeight ∈ (queries.fold last.logHeight).indices :=
      TreeIndices.mem_fold.mpr ⟨query, member, rfl⟩
    have present : ((queries.fold last.logHeight).indices.map (fun index =>
        (index, leafRows alignment matrices index))).lookup (query % 2 ^ last.logHeight) =
          some (leafRows alignment matrices (query % 2 ^ last.logHeight)) :=
      (mem_iff_lookup_of_nodup keys).mpr (mem_map.mpr ⟨_, folded, rfl⟩)
    have same : leafRows alignment matrices (query % 2 ^ last.logHeight) =
        leafRows alignment matrices query :=
      eq_of_iterRows (by
        rw [iterRows_leafRows, iterRows_leafRows, paddedRows, paddedRows,
          committedRows_mod matrices below])
    rw [openedSet, OrderedMap.get?_insertAll keys, present, Option.some_or, okOr_some,
      ok_bind, same]
  rw [TreeIndices.expandLeafValues, values]
  rfl

/-- A commitment to matrices of powers of two as heights, in increasing order,
with an alignment whose padding the hasher ignores: the hints streamed for any
non-empty set of queries open to the rows at the queries, padded with zeros,
and nothing else opens against the root. -/
theorem lmcs_opens_committed_rows (found : matrices.getLast? = some last)
    (sorted : (matrices.map Matrix.logHeight).Pairwise (· ≤ ·))
    (fits : SaltFits saltElems last.logHeight salt)
    (padding : lmcs.sponge.AbsorbsPadding alignment) (queries : TreeIndices)
    (deep : last.logHeight ≤ queries.depth) (held : queries.indices ≠ []) :
    ∃ tree root hints, buildWithAlignment (ε := ε) lmcs matrices salt alignment = .ok tree ∧
      tree.root (ε := ε) = .ok root ∧ tree.proveLiftedBatch (ε := ε) saltElems queries = .ok hints ∧
      (forall rest : Hints F D, lmcs.openLiftedBatch saltElems root tree.alignedWidths queries last.logHeight
          (hints.append rest) = .ok (openedSet alignment matrices queries.indices, rest)) ∧
      (lmcs.CollisionFree -> forall (stream rest : Hints F D) (opened : OrderedMap Nat (RowList F)),
        lmcs.openLiftedBatch saltElems root tree.alignedWidths queries last.logHeight stream =
          .ok (opened, rest) -> opened = openedSet alignment matrices queries.indices) := by
  have below (matrix : Matrix F) (member : matrix ∈ matrices) : matrix.logHeight ≤ last.logHeight :=
    (ascends_of_sorted found sorted (fun _ _ => Nat.zero_le _)).mem_le member
  have folded : queries.foldToDepth last.logHeight = .ok (queries.fold last.logHeight) :=
    if_neg (Nat.not_lt.mpr deep)
  have leaves : (queries.fold last.logHeight).indices ≠ [] := by
    rcases exists_mem_of_ne_nil _ held with ⟨index, member⟩
    exact ne_nil_of_mem (TreeIndices.mem_fold.mpr ⟨index, member, rfl⟩)
  have depth : (queries.fold last.logHeight).depth = last.logHeight := rfl
  rcases buildWithAlignment_returns (ε := ε) lmcs found sorted fits alignment with
    ⟨tree, made, built⟩
  have lifted : tree.proveLiftedBatch (ε := ε) saltElems queries =
      tree.proveBatch saltElems (queries.fold last.logHeight) := by
    rw [proveLiftedBatch, built.height_eq found, ok_bind, log2Strict_two_pow, ok_bind, folded,
      unwrap_ok, ok_bind]
  refine ⟨tree, _, _, made, built.digestAt_eq (Nat.zero_le _) Nat.one_pos,
    lifted.trans (built.proveBatch_eq found below fits depth leaves), ?_, ?_⟩
  · intro rest
    have opens := openBatch_complete matrices padding fits depth leaves rest.fields rest.commitments
    rw [openLiftedBatch, folded, ok_bind, built.alignedWidths_eq]
    refine Eq.trans (congrArg (· >>= _) opens) ?_
    rw [ok_bind, expandLeafValues_eq below]
    rfl
  · intro free stream rest opened accepted
    rw [openLiftedBatch, folded, ok_bind, built.alignedWidths_eq] at accepted
    rcases bind_eq_ok.mp accepted with ⟨⟨rows, left⟩, opens, continued⟩
    rw [openBatch_sound free padding fits depth opens, expandLeafValues_eq below] at continued
    cases continued
    rfl

end Lifted

/-! ## A sponge without collisions -/

/-- Elements that remember the states they were made of. -/
inductive FreeElem where
  | num (value : Nat)
  | mix (first rest : FreeElem)
  deriving DecidableEq

namespace FreeElem

instance : Zero FreeElem := ⟨num 0⟩

/-- A whole state in one element. -/
def pack (state : List FreeElem) : FreeElem := state.foldr mix 0

theorem pack_injective : Function.Injective pack := by
  intro state
  induction state with
  | nil =>
    rintro (_ | ⟨first, rest⟩) same
    · rfl
    · cases same
  | cons first rest ih =>
    rintro (_ | ⟨other, others⟩) same
    · cases same
    · rcases mix.inj same with ⟨rfl, tail⟩
      rw [ih tail]

/-- A map of states without collisions: every element of the next state holds
the whole state before. -/
def permute (state : List FreeElem) : List FreeElem := List.replicate 12 (pack state)

end FreeElem

/-- A `StatefulSponge` of width 12 and rate 8 with digests of four elements. -/
def spongeLmcs : LmcsConfig (List FreeElem) FreeElem (List FreeElem) where
  sponge := StatefulSponge.hasher FreeElem.permute 12 8 4
  compress left right := List.replicate 4 (.mix (FreeElem.pack left) (FreeElem.pack right))

namespace FreeElem

open StatefulSponge

/-- An input leads to a state of one element, to which no other input of its
length leads and no other such state before it. -/
theorem absorbInto_inj (fuel : Nat) : forall (elem : FreeElem) (input : List FreeElem),
    input.length ≤ fuel ->
    ∃ next, absorbInto permute 8 fuel (List.replicate 12 elem) input = List.replicate 12 next ∧
      forall other more, more.length = input.length ->
        absorbInto permute 8 fuel (List.replicate 12 other) more = List.replicate 12 next ->
        other = elem ∧ more = input := by
  induction fuel with
  | zero =>
    intro elem input short
    refine ⟨elem, rfl, fun other more lengths same => ⟨(cons.inj same).1, ?_⟩⟩
    rw [eq_nil_of_length_eq_zero (Nat.le_zero.mp short)] at lengths ⊢
    exact eq_nil_of_length_eq_zero lengths
  | succ fuel ih =>
    intro elem input short
    by_cases none : input = []
    · subst none
      refine ⟨elem, rfl, fun other more lengths same => ?_⟩
      cases eq_nil_of_length_eq_zero lengths
      exact ⟨(cons.inj same).1, rfl⟩
    have held := length_pos_of_ne_nil none
    rcases ih _ (input.drop 8) (by rw [length_drop]; omega) with ⟨next, absorbed, unique⟩
    refine ⟨next, by rw [absorbInto, if_neg none]; exact absorbed, fun other more lengths same => ?_⟩
    rw [absorbInto, if_neg (ne_nil_of_length_pos (lengths ▸ held))] at same
    rcases unique _ _ (by rw [length_drop, length_drop, lengths]) same with ⟨packed, rest⟩
    have blocks : (more.take 8).length = (input.take 8).length := by
      rw [length_take, length_take, lengths]
    -- the packed states are equal: their blocks, and behind the rate what was there before
    have parts := append_inj (pack_injective packed) (by rw [length_append, length_append,
      length_replicate, length_replicate, blocks])
    refine ⟨(cons.inj parts.2).1, ?_⟩
    rw [← take_append_drop 8 more, (append_inj parts.1 blocks).1, rest, take_append_drop]

theorem foldl_inj (rows : List (List FreeElem)) : forall elem, ∃ next,
    rows.foldl spongeLmcs.sponge.absorbInto (List.replicate 12 elem) = List.replicate 12 next ∧
      forall other others, others.map List.length = rows.map List.length ->
        others.foldl spongeLmcs.sponge.absorbInto (List.replicate 12 other) =
          List.replicate 12 next ->
        other = elem ∧ others = rows := by
  induction rows with
  | nil =>
    refine fun elem => ⟨elem, rfl, fun other others lengths same => ?_⟩
    cases map_eq_nil_iff.mp lengths
    exact ⟨(cons.inj same).1, rfl⟩
  | cons row rows ih =>
    intro elem
    rcases absorbInto_inj row.length elem row (le_refl _) with ⟨next, absorbed, unique⟩
    rcases ih next with ⟨last, followed, before⟩
    refine ⟨last, (congrArg (rows.foldl _) absorbed).trans followed, ?_⟩
    rintro other (_ | ⟨more, others⟩) lengths same
    · cases lengths
    have widths := cons.inj lengths
    rcases absorbInto_inj more.length other more (le_refl _) with ⟨after, ran, _⟩
    rcases before after others widths.2 ((congrArg (others.foldl _) ran).symm.trans same) with
      ⟨rfl, rfl⟩
    rw [widths.1] at ran
    rcases unique other more widths.1 ran with ⟨rfl, rfl⟩
    exact ⟨rfl, rfl⟩

end FreeElem

theorem spongeLmcs_collisionFree : spongeLmcs.CollisionFree := by
  constructor
  · intro rows others lengths same
    rcases FreeElem.foldl_inj rows 0 with ⟨state, absorbed, unique⟩
    rcases FreeElem.foldl_inj others 0 with ⟨other, followed, _⟩
    have digests : (List.replicate 12 state).take 4 = (List.replicate 12 other).take 4 := by
      rw [← absorbed, ← followed]
      exact same
    rw [← (cons.inj digests).1] at followed
    exact (unique 0 others lengths.symm followed).2.symm
  · intro a b c d same
    rcases FreeElem.mix.inj (cons.inj same).1 with ⟨left, right⟩
    exact ⟨FreeElem.pack_injective left, FreeElem.pack_injective right⟩

/-- Queries of a larger domain against matrices of one and two rows. -/
theorem lmcs_opens_committed_rows_two_heights :
    let matrices : List (Matrix FreeElem) :=
      [⟨0, 1, fun _ _ => .num 7⟩, ⟨1, 3, fun row column => .num (10 * row + column)⟩]
    let queries : TreeIndices := ⟨[1, 2], 2, by decide, by decide⟩
    (∃ tree root hints,
      LiftedMerkleTree.buildWithAlignment (ε := Unit) spongeLmcs matrices none 8 = .ok tree ∧
      tree.root (ε := Unit) = .ok root ∧ tree.proveLiftedBatch (ε := Unit) 0 queries = .ok hints ∧
      spongeLmcs.openLiftedBatch 0 root tree.alignedWidths queries 1 (hints.append ⟨[], []⟩) =
        .ok (openedSet 8 matrices [1, 2], ⟨[], []⟩) ∧
      forall (stream rest : Hints FreeElem (List FreeElem)) (opened : OrderedMap Nat (RowList FreeElem)),
        spongeLmcs.openLiftedBatch 0 root tree.alignedWidths queries 1 stream =
          .ok (opened, rest) -> opened = openedSet 8 matrices [1, 2]) ∧
    (openedSet 8 matrices [1, 2]).entries.map (fun entry => (entry.1, entry.2.elems)) =
      [(1, [7, 0, 0, 0, 0, 0, 0, 0, 10, 11, 12, 0, 0, 0, 0, 0].map .num),
        (2, [7, 0, 0, 0, 0, 0, 0, 0, 0, 1, 2, 0, 0, 0, 0, 0].map .num)] := by
  intro matrices queries
  have found : matrices.getLast? = some ⟨1, 3, fun row column => .num (10 * row + column)⟩ := rfl
  have sorted : (matrices.map Matrix.logHeight).Pairwise (· ≤ ·) := by decide
  have fits : SaltFits (F := FreeElem) 0 1 none := rfl
  have padding : spongeLmcs.sponge.AbsorbsPadding 8 :=
    StatefulSponge.absorbsPadding _ (by decide) 12 4
  rcases lmcs_opens_committed_rows (ε := Unit) found sorted fits padding queries (by decide)
    (by decide) with ⟨tree, root, hints, made, rooted, proved, opens, only⟩
  exact ⟨⟨tree, root, hints, made, rooted, proved, opens ⟨[], []⟩, only spongeLmcs_collisionFree⟩, rfl⟩

/-- A row that fills the rate, padded to an alignment of nine, is absorbed in two
blocks instead of one, and an empty set of queries is not opened. -/
theorem lmcs_padding_and_queries_needed :
    spongeLmcs.CollisionFree ∧
    (∃ tree root hints,
      LiftedMerkleTree.buildWithAlignment (ε := Unit) spongeLmcs [⟨0, 8, fun _ _ => .num 5⟩] none 9 =
        .ok tree ∧ tree.root (ε := Unit) = .ok root ∧
      tree.proveBatch (ε := Unit) 0 ⟨[0], 0, by decide, by decide⟩ = .ok hints ∧
      spongeLmcs.openBatch 0 root tree.alignedWidths ⟨[0], 0, by decide, by decide⟩ hints =
        .err .rootMismatch) ∧
    ∃ tree root hints,
      LiftedMerkleTree.buildWithAlignment (ε := Unit) spongeLmcs [⟨0, 8, fun _ _ => .num 5⟩] none 8 =
        .ok tree ∧ tree.root (ε := Unit) = .ok root ∧
      tree.proveBatch (ε := Unit) 0 ⟨[], 0, by decide, by decide⟩ = .ok hints ∧
      spongeLmcs.openBatch 0 root tree.alignedWidths ⟨[], 0, by decide, by decide⟩ hints =
        .err .invalidProof :=
  ⟨spongeLmcs_collisionFree, ⟨_, _, _, rfl, rfl, rfl, rfl⟩, ⟨_, _, _, rfl, rfl, rfl, rfl⟩⟩

end MidenVm.Stark
