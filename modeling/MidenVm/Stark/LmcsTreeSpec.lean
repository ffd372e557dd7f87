import MidenVm.Stark.LmcsWalk

namespace MidenVm.Stark

open Foundation List Outcome Nat Stark.Matrix NodeId DeepPoly

/-!
# What a commitment opens to

The states of a tree absorb, for every leaf in domain order, the rows of all
matrices at the residue of the leaf index by their height.  An opening streams
these rows, padded with zeros, so the leaf digests that the verifier computes
are those of the tree.
-/

variable {S F D ε : Type}

/-! ## The states -/

variable {start final log saltElems : Nat} {matrices : List (Matrix F)} {last : Matrix F}
  {salt : Option (Matrix F)}

/-- Heights that do not decrease, from one to another. -/
def Ascends : Nat -> List (Matrix F) -> Nat -> Prop
  | start, [], final => start = final
  | start, matrix :: rest, final => start ≤ matrix.logHeight ∧ Ascends matrix.logHeight rest final

theorem Ascends.le (ascends : Ascends start matrices final) : start ≤ final := by
  induction matrices generalizing start with
  | nil => exact le_of_eq ascends
  | cons matrix rest ih => exact ascends.1.trans (ih ascends.2)

theorem Ascends.mem_le (ascends : Ascends start matrices final) {matrix : Matrix F}
    (member : matrix ∈ matrices) : matrix.logHeight ≤ final := by
  induction matrices generalizing start with
  | nil => exact absurd member not_mem_nil
  | cons first rest ih =>
    rcases mem_cons.mp member with rfl | further
    · exact ascends.2.le
    · exact ih ascends.2 further

theorem ascends_of_sorted (found : matrices.getLast? = some last)
    (sorted : (matrices.map logHeight).Pairwise (· ≤ ·))
    (first : forall matrix, matrix ∈ matrices -> start ≤ matrix.logHeight) :
    Ascends start matrices last.logHeight := by
  induction matrices generalizing start with
  | nil => cases found
  | cons matrix rest ih =>
    rw [map_cons, pairwise_cons] at sorted
    refine ⟨first matrix mem_cons_self, ?_⟩
    cases rest with
    | nil =>
      cases found
      rfl
    | cons second others =>
      exact ih (by rwa [getLast?_cons_cons] at found) sorted.2
        (fun other member => sorted.1 _ (mem_map_of_mem member))

theorem Ascends.bitReverseRows (ascends : Ascends start matrices final) :
    Ascends start (matrices.map bitReverseRows) final := by
  induction matrices generalizing start with
  | nil => exact ascends
  | cons matrix rest ih => exact ⟨ascends.1, ih ascends.2⟩

/-- The state of a leaf after the rows of all matrices, each repeated up to the
height of the tree. -/
def absorbed (sponge : StatefulHasher S F D) (matrices : List (Matrix F)) (log index : Nat) (state : S) : S :=
  matrices.foldl (fun state matrix =>
    sponge.absorbInto state (matrix.row (index / 2 ^ (log - matrix.logHeight)))) state

namespace LiftedMerkleTree

variable (sponge : StatefulHasher S F D)

theorem absorbMatrix_eq {matrix : Matrix F} (height : matrix.logHeight = log) (state : Nat -> S) :
    absorbMatrix (ε := ε) sponge (table (2 ^ log) state) matrix =
      .ok (table (2 ^ log) (fun index => sponge.absorbInto (state index) (matrix.row index))) := by
  subst height
  have size : matrix.height = (table (2 ^ matrix.logHeight) state).length := (length_table _ _).symm
  rw [absorbMatrix, require_of size, ok_bind]
  exact congrArg Outcome.ok (zipWith_table _ _ _ _)

theorem absorbMatrices_eq (matrices : List (Matrix F)) :
    forall (start final : Nat) (state : Nat -> S), Ascends start matrices final ->
      absorbMatrices (ε := ε) sponge matrices (2 ^ start) (table (2 ^ start) state) =
        .ok (table (2 ^ final) (fun index =>
          absorbed sponge matrices final index (state (index / 2 ^ (final - start))))) := by
  induction matrices with
  | nil =>
    intro start final state ascends
    have same : start = final := ascends
    subst same
    rw [absorbMatrices, Nat.sub_self, pow_zero]
    simp only [Nat.div_one]
    rfl
  | cons matrix rest ih =>
    intro start final state ascends
    rcases ascends with ⟨grows, ascends⟩
    have above := ascends.le
    have lifted : (if matrix.height > 2 ^ start then
        (table (2 ^ start) state).flatMap (List.replicate (matrix.height / 2 ^ start))
        else table (2 ^ start) state) =
        table (2 ^ matrix.logHeight) (fun index => state (index / 2 ^ (matrix.logHeight - start))) := by
      split
      · rw [Matrix.height, Nat.pow_div grows two_pos, flatMap_replicate_table _ (Nat.two_pow_pos _),
          ← pow_add, Nat.add_sub_cancel' grows]
      · rename_i small
        have same : matrix.logHeight = start :=
          le_antisymm ((Nat.pow_le_pow_iff_right one_lt_two).mp (Nat.le_of_not_lt small)) grows
        rw [same, Nat.sub_self, pow_zero]
        simp only [Nat.div_one]
    rw [absorbMatrices, lifted, absorbMatrix_eq sponge rfl, ok_bind]
    refine Eq.trans (ih matrix.logHeight final _ ascends) (congrArg Outcome.ok (table_congr (fun index _ => ?_)))
    rw [Nat.div_div_eq_div_mul, ← pow_add, Nat.sub_add_sub_cancel above grows]
    rfl

theorem validateHeights_returns (held : matrices ≠ []) (ascends : Ascends start matrices final) :
    ∃ height, validateHeights (ε := ε) matrices = .ok height := by
  have loop : forall (matrices : List (Matrix F)) (start active : Nat),
      Ascends start matrices final ->
      active ≤ 2 ^ start -> matrices.foldlM (m := Outcome ε) (fun active matrix => do
        Outcome.require (matrix.height ≥ active)
        .ok matrix.height) active = .ok (if matrices = [] then active else 2 ^ final) := by
    intro matrices
    induction matrices with
    | nil => exact fun _ _ _ _ => rfl
    | cons matrix rest ih =>
      intro start active ascends below
      have enough : matrix.height ≥ active :=
        below.trans (Nat.pow_le_pow_right Nat.two_pos ascends.1)
      rw [foldlM_cons, require_of enough]
      refine Eq.trans (ih matrix.logHeight matrix.height ascends.2 (Nat.le_refl _)) ?_
      rw [if_neg (cons_ne_nil matrix rest)]
      split
      · rename_i none
        subst none
        have same : matrix.logHeight = final := ascends.2
        rw [Matrix.height, same]
      · rfl
  have positive : 2 ^ final ≠ 0 := (Nat.two_pow_pos final).ne'
  rw [validateHeights, loop matrices start 0 ascends (Nat.zero_le _), if_neg held, ok_bind,
    require_of positive, ok_bind]
  exact ⟨_, rfl⟩

theorem buildLeafStatesUpsampled_eq {first : Matrix F}
    {rest : List (Matrix F)} (ascends : Ascends first.logHeight (first :: rest) final) :
    buildLeafStatesUpsampled (ε := ε) sponge (first :: rest) =
      .ok (table (2 ^ final) (fun index => absorbed sponge (first :: rest) final index sponge.initial)) := by
  rcases validateHeights_returns (ε := ε) (cons_ne_nil first rest) ascends with ⟨height, valid⟩
  have start : List.replicate first.height sponge.initial =
      table (2 ^ first.logHeight) (fun _ => sponge.initial) := by
    rw [table, map_const', length_range, Matrix.height]
  rw [buildLeafStatesUpsampled, valid, ok_bind, head?_cons, expect_some, ok_bind, start]
  exact absorbMatrices_eq sponge (first :: rest) first.logHeight final _ ascends

/-! ## The layers of digests -/

/-- The digest of a position some layers above the leaves. -/
def nodeAt (compress : D -> D -> D) (leaf : Nat -> D) : Nat -> Nat -> D
  | 0, position => leaf position
  | above + 1, position =>
    compress (nodeAt compress leaf above (2 * position)) (nodeAt compress leaf above (2 * position + 1))

section Compress

variable (compress : D -> D -> D) (leaf : Nat -> D)

theorem compressUniform_table (size : Nat) (entry : Nat -> D) :
    compressUniform compress (table (2 * size) entry) =
      table size (fun index => compress (entry (2 * index)) (entry (2 * index + 1))) := by
  induction size generalizing entry with
  | zero => rfl
  | succ size ih =>
    have shift (count : Nat) (f : Nat -> D) :
        table (count + 1) f = f 0 :: table count (fun index => f (index + 1)) := by
      rw [table, range_succ_eq_map, map_cons, map_map]
      rfl
    rw [mul_succ, shift, shift, compressUniform, shift size, ih]
    rfl

theorem compressLayers_eq (log : Nat) : forall done : Nat,
    compressLayers (ε := ε) compress (log + 1) (table (2 ^ log) (nodeAt compress leaf done)) =
      .ok ((List.range (log + 1)).map (fun above => table (2 ^ (log - above)) (nodeAt compress leaf (done + above)))) := by
  induction log with
  | zero =>
    intro done
    rw [compressLayers, length_table, pow_zero, if_pos rfl]
    rfl
  | succ log ih =>
    intro done
    have large : ¬ 2 ^ (log + 1) = 1 := by
      have power := Nat.two_pow_pos log
      rw [pow_succ]
      omega
    have layer : compressUniform compress (table (2 ^ (log + 1)) (nodeAt compress leaf done)) =
        table (2 ^ log) (nodeAt compress leaf (done + 1)) := by
      rw [pow_succ, mul_comm, compressUniform_table]
      rfl
    rw [compressLayers, length_table, if_neg large, layer, ih (done + 1), ok_bind,
      range_succ_eq_map (n := log + 1), map_cons, map_map]
    refine congrArg (fun rest => Outcome.ok (_ :: rest)) (map_congr_left (fun above _ => ?_))
    rw [Function.comp_apply, succ_sub_succ, add_right_comm, add_assoc]

/-- The digest of a node, by its number. -/
def nodeValue (compress : D -> D -> D) (leaf : Nat -> D) (log : Nat) (id : NodeId) : D :=
  nodeAt compress leaf (log - NodeId.depth id) (NodeId.position id)

theorem nodeValue_new {log depth position : Nat} (inside : position < 2 ^ depth) :
    nodeValue compress leaf log (new depth position) =
      nodeAt compress leaf (log - depth) position := by
  have bounds : 2 ^ depth ≤ 2 ^ depth + position ∧ 2 ^ depth + position < 2 ^ (depth + 1) := by
    rw [pow_succ]
    omega
  rw [nodeValue, NodeId.position, NodeId.new, MissingSiblingsIter.depth_of_bounds bounds,
    Nat.add_sub_cancel_left]

theorem nodeValue_root (log : Nat) :
    nodeValue compress leaf log 1 = nodeAt compress leaf log 0 := by
  have root : nodeValue compress leaf log (new 0 0) = nodeAt compress leaf (log - 0) 0 :=
    nodeValue_new compress leaf one_pos
  exact root

theorem digests_nodeValue (log : Nat) :
    MerkleWitness.Digests compress log (nodeValue compress leaf log) := by
  intro id positive below
  have bounds : 2 ^ depth id ≤ id ∧ id < 2 ^ (depth id + 1) :=
    (log2_eq_iff (ne_of_gt positive)).mp rfl
  generalize depth id = depth at bounds
  have deep : depth < log :=
    (Nat.pow_lt_pow_iff_right one_lt_two).mp (lt_of_le_of_lt bounds.1 below)
  rcases Nat.exists_eq_add_of_le bounds.1 with ⟨position, rfl⟩
  have inside : position < 2 ^ depth := by
    have upper := bounds.2
    rw [pow_succ] at upper
    omega
  have left : 2 * (2 ^ depth + position) = new (depth + 1) (2 * position) := by
    rw [new, pow_succ]
    ring
  have right : 2 * (2 ^ depth + position) + 1 = new (depth + 1) (2 * position + 1) := by
    rw [new, pow_succ]
    ring
  have doubled : 2 * position + 1 < 2 ^ (depth + 1) := by
    rw [pow_succ]
    omega
  have whole : nodeValue compress leaf log (new depth position) =
      nodeAt compress leaf (log - depth) position := nodeValue_new compress leaf inside
  have layers : log - depth = log - (depth + 1) + 1 := by omega
  rw [right, left, nodeValue_new compress leaf (lt_of_succ_lt doubled),
    nodeValue_new compress leaf doubled]
  rw [layers] at whole
  exact whole

end Compress

end LiftedMerkleTree

/-! ## The rows of a leaf -/

theorem alignedLen_max (len alignment : Nat) : alignedLen len (max alignment 1) =
    alignedLen len alignment := by
  rcases Nat.eq_zero_or_pos alignment with zero | positive
  · subst zero
    rfl
  · rw [Nat.max_eq_left positive]

/-- The rows at an index: of every matrix the row at the residue by its height. -/
def committedRows (matrices : List (Matrix F)) (index : Nat) : List (List F) :=
  matrices.map (fun matrix => matrix.row (index % matrix.height))

/-- The stored row that an index selects. -/
theorem bitReverseRows_row (matrix : Matrix F) (below : matrix.logHeight ≤ log) (index : Nat) :
    matrix.bitReverseRows.row (reverseBits log index / 2 ^ (log - matrix.logHeight)) =
      matrix.row (index % matrix.height) := by
  have shifted := reverseBits_div (log - matrix.logHeight) matrix.logHeight index
  rw [Nat.sub_add_cancel below] at shifted
  have restored := reverseBits_reverseBits (mod_lt index (Nat.two_pow_pos matrix.logHeight))
  rw [reverseBits_mod] at restored
  rw [shifted]
  change table matrix.width (matrix.entry (reverseBits matrix.logHeight (reverseBits matrix.logHeight index))) = _
  rw [restored]
  rfl

theorem absorbed_stored (sponge : StatefulHasher S F D) (index : Nat) (state : S)
    (matrices : List (Matrix F))
    (below : forall matrix, matrix ∈ matrices -> matrix.logHeight ≤ log) :
    absorbed sponge (matrices.map bitReverseRows) log (reverseBits log index) state =
      (committedRows matrices index).foldl sponge.absorbInto state := by
  induction matrices generalizing state with
  | nil => rfl
  | cons matrix rest ih =>
    have row := bitReverseRows_row matrix (below matrix mem_cons_self) index
    change absorbed sponge (rest.map bitReverseRows) log (reverseBits log index)
      (sponge.absorbInto state (matrix.bitReverseRows.row (reverseBits log index / 2 ^ (log - matrix.logHeight)))) =
        (committedRows rest index).foldl sponge.absorbInto
          (sponge.absorbInto state (matrix.row (index % matrix.height)))
    rw [row, ih _ (fun other member => below other (mem_cons_of_mem _ member))]

/-- The salt belongs to the configuration and the height of the tree. -/
def SaltFits (saltElems log : Nat) : Option (Matrix F) -> Prop
  | none => saltElems = 0
  | some saltMatrix => 0 < saltElems ∧ saltMatrix.width = saltElems ∧ saltMatrix.logHeight = log

/-- The salt of a leaf, as a row if there is one. -/
def saltRows (log : Nat) (salt : Option (Matrix F)) (index : Nat) : List (List F) :=
  match salt with
  | none => []
  | some saltMatrix => [saltMatrix.row (reverseBits log index)]

/-- The digest of a leaf. -/
def leafDigest (lmcs : LmcsConfig S F D) (matrices : List (Matrix F)) (log : Nat)
    (salt : Option (Matrix F))
    (index : Nat) : D := lmcs.hash (committedRows matrices index ++ saltRows log salt index)

namespace LiftedMerkleTree

theorem log2Strict_two_pow (log : Nat) : (log2Strict (2 ^ log) : Outcome ε Nat) = .ok log := by
  rw [log2Strict, log2_two_pow, if_pos rfl]

variable {lmcs : LmcsConfig S F D} {alignment : Nat} {tree : LiftedMerkleTree F D}

/-- A tree as it is built. -/
structure BuiltFrom (lmcs : LmcsConfig S F D) (matrices : List (Matrix F)) (log : Nat)
    (salt : Option (Matrix F)) (alignment : Nat) (tree : LiftedMerkleTree F D) : Prop where
  leaves : tree.leaves = matrices.map Matrix.bitReverseRows
  layers : tree.digestLayers = ((List.range (log + 1)).map (fun above => table (2 ^ (log - above))
    (nodeAt lmcs.compress (leafDigest lmcs matrices log salt) above))).reverse
  salt : tree.salt = salt
  alignment : tree.alignment = max alignment 1

/-- The tree that is built: its digests are those of the leaves in domain order. -/
theorem buildWithAlignment_returns (lmcs : LmcsConfig S F D) (found : matrices.getLast? = some last)
    (sorted : (matrices.map logHeight).Pairwise (· ≤ ·))
    (fits : SaltFits saltElems last.logHeight salt) (alignment : Nat) :
    ∃ tree, buildWithAlignment (ε := ε) lmcs matrices salt alignment = .ok tree ∧
      BuiltFrom lmcs matrices last.logHeight salt alignment tree := by
  have ascends := ascends_of_sorted found sorted (fun _ _ => Nat.zero_le _)
  have below (matrix : Matrix F) (member : matrix ∈ matrices) := ascends.mem_le member
  set log := last.logHeight
  set digest := leafDigest lmcs matrices log salt
  have layers := compressLayers_eq (ε := ε) lmcs.compress digest log 0
  simp only [zero_add] at layers
  have leaves : table (2 ^ log) (fun index => lmcs.sponge.squeeze ((table (2 ^ log) (fun stored =>
      let state := absorbed lmcs.sponge (matrices.map bitReverseRows) log stored lmcs.sponge.initial
      salt.elim state (fun saltMatrix => lmcs.sponge.absorbInto state (saltMatrix.row stored)))).getD
        (reverseBits log index) lmcs.sponge.initial)) =
          table (2 ^ log) (nodeAt lmcs.compress digest 0) := by
    refine table_congr (fun index _ => ?_)
    dsimp only
    rw [getD_table (reverseBits_lt _ _), absorbed_stored _ _ _ _ below]
    change _ = lmcs.hash _
    rw [LmcsConfig.hash, foldl_append]
    cases salt <;> rfl
  rw [← leaves] at layers
  cases matrices with
  | nil => cases found
  | cons first rest =>
    have stored : Ascends first.bitReverseRows.logHeight ((first :: rest).map bitReverseRows) log :=
      ⟨le_rfl, (Ascends.bitReverseRows ascends).2⟩
    rw [buildWithAlignment, require_of (cons_ne_nil first rest), ok_bind]
    dsimp only
    rw [map_cons] at stored ⊢
    rw [buildLeafStatesUpsampled_eq lmcs.sponge stored, ok_bind]
    cases salt with
    | none =>
      dsimp only
      rw [ok_bind, length_table, log2Strict_two_pow, ok_bind]
      exact ⟨_, (congrArg (· >>= _) layers).trans (ok_bind _ _), rfl, rfl, rfl, rfl⟩
    | some saltMatrix =>
      dsimp only
      rw [absorbMatrix_eq lmcs.sponge fits.2.2, ok_bind, length_table, log2Strict_two_pow, ok_bind]
      exact ⟨_, (congrArg (· >>= _) layers).trans (ok_bind _ _), rfl, rfl, rfl, rfl⟩

section Built

variable (built : BuiltFrom lmcs matrices log salt alignment tree)
include built

theorem BuiltFrom.height_eq (found : matrices.getLast? = some last) :
    tree.height (ε := ε) = .ok (2 ^ last.logHeight) := by
  rw [height, built.leaves, getLast?_map, found, Option.map_some, expect_some]
  rfl

theorem BuiltFrom.alignedWidths_eq :
    tree.alignedWidths = matrices.map (fun matrix => alignedLen matrix.width alignment) := by
  rw [alignedWidths, built.leaves, built.alignment, map_map]
  exact map_congr_left (fun matrix _ => alignedLen_max _ _)

theorem BuiltFrom.digestAt_eq {depth position : Nat} (above : depth ≤ log)
    (inside : position < 2 ^ depth) : tree.digestAt (ε := ε) depth position =
      .ok (nodeAt lmcs.compress (leafDigest lmcs matrices log salt) (log - depth) position) := by
  have layer : tree.digestLayers[depth]? = some (table (2 ^ depth)
      (nodeAt lmcs.compress (leafDigest lmcs matrices log salt) (log - depth))) := by
    rw [built.layers, getElem?_reverse (by simpa using lt_succ_of_le above), getElem?_map,
      length_map, length_range, getElem?_range (by omega), Option.map_some]
    have back : log + 1 - 1 - depth = log - depth := rfl
    rw [back, Nat.sub_sub_self above]
  rw [digestAt, layer, expect_some, ok_bind, table, getElem?_map, getElem?_range inside]
  rfl

/-- The digest that the prover sends for a node. -/
theorem BuiltFrom.digestAt_node {depth : Nat} {id : Nat} (above : depth ≤ log)
    (bounds : 2 ^ depth ≤ id ∧ id < 2 ^ (depth + 1)) :
    tree.digestAt (ε := ε) (NodeId.depth id) (NodeId.position id) =
      .ok (nodeValue lmcs.compress (leafDigest lmcs matrices log salt) log id) := by
  have upper := bounds.2
  rw [pow_succ] at upper
  rw [nodeValue, position, MissingSiblingsIter.depth_of_bounds bounds]
  exact built.digestAt_eq above (by omega)

end Built

end LiftedMerkleTree

/-! ## Rows in a list -/

namespace RowList

theorem splitWidths_flatten (rows : List (List F)) :
    splitWidths (rows.map List.length) rows.flatten = rows := by
  induction rows with
  | nil => rfl
  | cons row rest ih =>
    rw [map_cons, flatten_cons, splitWidths, take_left, drop_left, ih]

theorem flatten_splitWidths (widths : List Nat) (elems : List F)
    (size : widths.sum = elems.length) : (splitWidths widths elems).flatten = elems ∧
      (splitWidths widths elems).map List.length = widths := by
  induction widths generalizing elems with
  | nil =>
    rw [eq_nil_of_length_eq_zero size.symm]
    exact ⟨rfl, rfl⟩
  | cons width rest ih =>
    rw [sum_cons] at size
    have others := ih (elems.drop width) (by rw [length_drop, ← size, Nat.add_sub_cancel_left])
    have held : (elems.take width).length = width := by
      rw [length_take, ← size]
      exact Nat.min_eq_left (Nat.le_add_right _ _)
    rw [splitWidths, flatten_cons, others.1, take_append_drop, map_cons, others.2, held]
    exact ⟨rfl, rfl⟩

/-- A list of rows is known by its rows. -/
theorem eq_of_iterRows {left right : RowList F}
    (same : left.iterRows = right.iterRows) : left = right := by
  have leftParts := flatten_splitWidths left.widths left.elems left.size
  have rightParts := flatten_splitWidths right.widths right.elems right.size
  have elems : left.elems = right.elems := by
    rw [← leftParts.1, ← rightParts.1]
    exact congrArg List.flatten same
  have widths : left.widths = right.widths := by
    rw [← leftParts.2, ← rightParts.2]
    exact congrArg (List.map List.length) same
  cases left
  cases right
  simp only at elems widths
  subst elems widths
  rfl

end RowList

theorem length_row (matrix : Matrix F) (index : Nat) : (matrix.row index).length = matrix.width :=
  length_table _ _

theorem committedRows_mod (matrices : List (Matrix F))
    (below : forall matrix, matrix ∈ matrices -> matrix.logHeight ≤ log) (index : Nat) :
    committedRows matrices (index % 2 ^ log) = committedRows matrices index :=
  map_congr_left (fun matrix member => by
    rw [height, mod_mod_of_dvd _ (pow_dvd_pow 2 (below matrix member))])

theorem LeafOpening.leafHash_eq (lmcs : LmcsConfig S F D) (opening : LeafOpening F)
    (saltElems : Nat) : opening.leafHash lmcs saltElems =
      lmcs.hash (opening.rows.iterRows ++ (if saltElems > 0 then [opening.salt] else [])) := by
  rw [leafHash]
  split
  · rfl
  · rw [append_nil]

section Salt

variable (fits : SaltFits saltElems log salt)
include fits

theorem SaltFits.length (index : Nat) : (saltRows log salt index).flatten.length = saltElems := by
  cases salt with
  | none => exact fits.symm
  | some saltMatrix =>
    rcases fits with ⟨_, width, _⟩
    rw [saltRows, flatten_singleton, length_row, width]

theorem SaltFits.rows (index : Nat) :
    (if saltElems > 0 then [(saltRows log salt index).flatten] else []) =
      saltRows log salt index := by
  cases salt with
  | none =>
    have zero : saltElems = 0 := fits
    rw [zero, if_neg (lt_irrefl 0)]
    rfl
  | some saltMatrix => rw [if_pos fits.1, saltRows, flatten_singleton]

end Salt

/-! ## Padding -/

variable [Zero F] (alignment : Nat)

/-- A row with its padding. -/
def padRow (row : List F) : List F :=
  row ++ List.replicate (alignedLen row.length alignment - row.length) 0

theorem length_padRow (row : List F) : (padRow alignment row).length =
    alignedLen row.length alignment := by
  rw [padRow, length_append, length_replicate, Nat.add_sub_cancel' (le_alignedLen _ _)]

/-- The rows of a leaf as they are opened. -/
def paddedRows (matrices : List (Matrix F)) (index : Nat) : List (List F) :=
  (committedRows matrices index).map (padRow alignment)

theorem length_paddedRows (matrices : List (Matrix F)) (index : Nat) :
    (paddedRows alignment matrices index).map List.length =
      matrices.map (fun matrix => alignedLen matrix.width alignment) := by
  rw [paddedRows, committedRows, map_map, map_map]
  refine map_congr_left (fun matrix _ => ?_)
  rw [Function.comp_apply, Function.comp_apply, length_padRow, length_row]

/-- The opened rows of a leaf. -/
def leafRows (matrices : List (Matrix F)) (index : Nat) : RowList F where
  elems := (paddedRows alignment matrices index).flatten
  widths := matrices.map (fun matrix => alignedLen matrix.width alignment)
  size := by rw [List.length_flatten, length_paddedRows]

theorem iterRows_leafRows (matrices : List (Matrix F)) (index : Nat) :
    (leafRows alignment matrices index).iterRows = paddedRows alignment matrices index := by
  have split := RowList.splitWidths_flatten (paddedRows alignment matrices index)
  rw [length_paddedRows] at split
  exact split

/-- The opening of a leaf that the prover streams. -/
def leafOpening (matrices : List (Matrix F)) (log : Nat) (salt : Option (Matrix F)) (index : Nat) :
    LeafOpening F := ⟨leafRows alignment matrices index, (saltRows log salt index).flatten⟩

/-- The hasher absorbs the zeros of an alignment without a change. -/
def StatefulHasher.AbsorbsPadding (sponge : StatefulHasher S F D) (alignment : Nat) : Prop :=
  forall state row, sponge.absorbInto state (padRow alignment row) = sponge.absorbInto state row

/-- Rows without padding are absorbed as they are. -/
theorem StatefulHasher.absorbsPadding_one (sponge : StatefulHasher S F D) :
    sponge.AbsorbsPadding 1 := by
  intro state row
  rw [padRow, alignedLen, if_pos (le_refl 1), Nat.sub_self, replicate_zero, append_nil]

/-! ## Hashers that pad their input -/

namespace StatefulSponge

theorem alignedLen_of_le {len rate : Nat} (positive : 0 < len)
    (short : len ≤ rate) : alignedLen len rate = rate := by
  unfold alignedLen
  split
  · omega
  · have once : (len + rate - 1) / rate = 1 := Nat.div_eq_of_lt_le (by omega) (by omega)
    rw [once, one_mul]

theorem alignedLen_add (len : Nat) {rate : Nat} (positive : 0 < rate) :
    alignedLen (rate + len) rate = rate + alignedLen len rate := by
  unfold alignedLen
  split
  · rfl
  · have shift : rate + len + rate - 1 = rate + (len + rate - 1) := by omega
    rw [shift, add_div_left _ positive, succ_mul, add_comm]

variable (permute : List F -> List F) {rate : Nat}

theorem absorbInto_padRow (positive : 0 < rate)
    (fuel : Nat) : forall (more : Nat) (state row : List F),
    row.length ≤ fuel -> (padRow rate row).length ≤ more ->
      absorbInto permute rate more state (padRow rate row) =
        absorbInto permute rate fuel state row := by
  have empty : padRow rate ([] : List F) = [] := by
    rw [padRow, length_nil, alignedLen]
    split
    · rfl
    · rw [zero_add, div_eq_of_lt (sub_lt positive one_pos), zero_mul]
      rfl
  have stops (fuel : Nat) (state : List F) : absorbInto permute rate fuel state [] = state := by
    cases fuel with
    | zero => rfl
    | succ fuel => rw [absorbInto, if_pos rfl]
  induction fuel with
  | zero =>
    intro more state row short _
    rw [eq_nil_of_length_eq_zero (le_zero.mp short), empty, stops, stops]
  | succ fuel ih =>
    intro more state row short enough
    by_cases none : row = []
    · rw [none, empty, stops, stops]
    have held : 0 < row.length := length_pos_of_ne_nil none
    have padded : padRow rate row ≠ [] := append_ne_nil_of_left_ne_nil none _
    rcases more with _ | more
    · exact absurd (eq_nil_of_length_eq_zero (le_zero.mp enough)) padded
    rw [absorbInto, absorbInto, if_neg padded, if_neg none]
    dsimp only
    rcases lt_or_ge rate row.length with long | last
    · -- A full block is absorbed, and the padding belongs to the rest.
      have split : padRow rate row = row.take rate ++ padRow rate (row.drop rate) := by
        have count := alignedLen_add (row.length - rate) positive
        rw [Nat.add_sub_cancel' long.le] at count
        rw [padRow, padRow, length_drop, ← append_assoc, take_append_drop, count]
        congr 2
        omega
      have block : (row.take rate).length = rate := by
        rw [length_take]
        exact Nat.min_eq_left long.le
      have rest := ih more (permute (row.take rate ++
        List.replicate (rate - (row.take rate).length) 0 ++ state.drop rate)) (row.drop rate)
        (by rw [length_drop]; omega) (by
          rw [split, length_append, block] at enough
          omega)
      rw [split]
      have first : (row.take rate ++ padRow rate (row.drop rate)).take rate = row.take rate :=
        take_left' block
      have second : (row.take rate ++ padRow rate (row.drop rate)).drop rate =
          padRow rate (row.drop rate) :=
        drop_left' block
      rw [first, second]
      exact rest
    · have size : (padRow rate row).length = rate := by
        rw [length_padRow, alignedLen_of_le held last]
      rw [take_of_length_le size.le, drop_of_length_le size.le, take_of_length_le last,
        drop_of_length_le last, stops, stops, size, Nat.sub_self, padRow,
        alignedLen_of_le held last,
        replicate_zero, append_nil]

/-- The sponge ignores zeros up to its rate. -/
theorem absorbsPadding (positive : 0 < rate) (width out : Nat) :
    (hasher permute width rate out).AbsorbsPadding rate :=
  fun state row => absorbInto_padRow permute positive _ _ state row (le_refl _) (le_refl _)

end StatefulSponge

theorem hash_paddedRows (lmcs : LmcsConfig S F D) {alignment : Nat}
    (padding : lmcs.sponge.AbsorbsPadding alignment)
    (rows more : List (List F)) : lmcs.hash (rows.map (padRow alignment) ++ more) =
      lmcs.hash (rows ++ more) := by
  have states (state : S) : (rows.map (padRow alignment)).foldl lmcs.sponge.absorbInto state =
      rows.foldl lmcs.sponge.absorbInto state := by
    induction rows generalizing state with
    | nil => rfl
    | cons row rest ih => rw [map_cons, foldl_cons, foldl_cons, padding, ih]
  rw [LmcsConfig.hash, LmcsConfig.hash, foldl_append, foldl_append, states]

/-- The digest that the verifier computes for an honest opening. -/
theorem leafHash_leafOpening (lmcs : LmcsConfig S F D) {alignment : Nat}
    (padding : lmcs.sponge.AbsorbsPadding alignment) (matrices : List (Matrix F))
    (fits : SaltFits saltElems log salt) (index : Nat) :
    (leafOpening alignment matrices log salt index).leafHash lmcs saltElems =
      leafDigest lmcs matrices log salt index := by
  rw [LeafOpening.leafHash_eq]
  change lmcs.hash ((leafRows alignment matrices index).iterRows ++
    (if saltElems > 0 then [(saltRows log salt index).flatten] else [])) = _
  rw [iterRows_leafRows, fits.rows, paddedRows, hash_paddedRows lmcs padding, leafDigest]

namespace LiftedMerkleTree

variable {lmcs : LmcsConfig S F D} {alignment : Nat} {tree : LiftedMerkleTree F D}

/-- The rows that the prover collects for an index. -/
theorem BuiltFrom.alignedRows_eq
    (built : BuiltFrom lmcs matrices last.logHeight salt alignment tree)
    (found : matrices.getLast? = some last)
    (below : forall matrix, matrix ∈ matrices -> matrix.logHeight ≤ last.logHeight) (index : Nat) :
    tree.alignedRows (ε := ε) index = .ok (leafRows alignment matrices index) := by
  have lastStored : tree.leaves.getLast? = some last.bitReverseRows := by
    rw [built.leaves, getLast?_map, found, Option.map_some]
  have widths := built.alignedWidths_eq
  have rows : Outcome.collect (ε := ε) (tree.leaves.zip tree.alignedWidths) (fun held => do
      let logScaling ← log2Strict (last.bitReverseRows.height / held.1.height)
      let index := reverseBits last.bitReverseRows.logHeight index / 2 ^ logScaling
      Outcome.require (index < held.1.height)
      .ok (held.1.row index ++ List.replicate (held.2 - held.1.width) 0)) =
      .ok (paddedRows alignment matrices index) := by
    rw [widths, built.leaves, zip_map']
    refine Eq.trans (collect_eq_ok_map (fun held : Matrix F × Nat =>
      held.1.row (reverseBits last.logHeight index / 2 ^ (last.logHeight - held.1.logHeight)) ++
        List.replicate (held.2 - held.1.width) 0) ?_) ?_
    · intro held member
      rcases mem_map.mp member with ⟨matrix, there, rfl⟩
      have scale : last.bitReverseRows.height / matrix.bitReverseRows.height =
          2 ^ (last.logHeight - matrix.logHeight) := Nat.pow_div (below matrix there) two_pos
      have inside : reverseBits last.bitReverseRows.logHeight index / 2 ^ (last.logHeight - matrix.logHeight) <
          matrix.bitReverseRows.height := by
        have shifted := reverseBits_div (last.logHeight - matrix.logHeight) matrix.logHeight index
        rw [Nat.sub_add_cancel (below matrix there)] at shifted
        exact shifted ▸ reverseBits_lt _ _
      dsimp only
      rw [scale, log2Strict_two_pow, ok_bind, require_of inside, ok_bind]
      rfl
    · rw [map_map]
      refine congrArg Outcome.ok ?_
      rw [paddedRows, committedRows, map_map]
      refine map_congr_left (fun matrix there => ?_)
      have row := bitReverseRows_row matrix (below matrix there) index
      change matrix.bitReverseRows.row (reverseBits last.logHeight index / 2 ^ (last.logHeight - matrix.logHeight)) ++
        List.replicate (alignedLen matrix.width alignment - matrix.width) 0 = padRow alignment _
      rw [row, padRow, length_row]
  rw [alignedRows, collectRows, lastStored, expect_some, ok_bind]
  refine Eq.trans (congrArg (· >>= _) rows) ?_
  rw [ok_bind, widths]
  exact dif_pos (leafRows alignment matrices index).size

theorem BuiltFrom.saltAt_eq (built : BuiltFrom lmcs matrices log salt alignment tree)
    (fits : SaltFits saltElems log salt) (index : Nat) :
    tree.saltAt (ε := ε) saltElems index = .ok (saltRows log salt index).flatten := by
  rw [saltAt, built.salt]
  cases salt with
  | none =>
    have zero : saltElems = 0 := fits
    rw [zero]
    rfl
  | some saltMatrix =>
    rcases fits with ⟨_, width, height⟩
    rw [saltRows, flatten_singleton, row, width, ← height]

end LiftedMerkleTree

end MidenVm.Stark
