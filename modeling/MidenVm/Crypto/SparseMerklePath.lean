import MidenVm.Core.Encoding
import MidenVm.Crypto.MerklePath
import MidenVm.Foundation.SparseTree

namespace MidenVm.Crypto

open Foundation List Outcome Nat MerklePath

/-!
# Sparse Merkle paths

A path in a sparse tree consists mostly of roots of empty subtrees.  A sparse
path keeps the other nodes and a mask with one digit for each depth, and gives
the missing nodes back when it is read.

The digests of a tree are words.  Here they have a type of their own: the tree
only compares and hashes them, and a hash of words that is free of collisions
can only be an idealisation.
-/

variable {treeDepth bit : Nat}

/-- The hash functions of a sparse Merkle tree, with the empty word as a
digest. -/
structure SmtHasher (D : Type) where
  emptyWord : D
  merge : D -> D -> D
  mergeInDomain : Word -> Word -> D
  hashElementsInDomain : List Felt -> D

variable {D : Type}
variable {rest nodes : List D}

/-- `EmptySubtreeRoots::entry`. -/
def EmptySubtreeRoots.entry (hasher : SmtHasher D) (treeDepth nodeDepth : Nat) : D :=
  SparseTree.emptyRoot hasher.merge hasher.emptyWord (treeDepth - nodeDepth)

/-- `SMT_MAX_DEPTH`. -/
def smtMaxDepth : Nat := 64

/-- `SparseMerklePath`. -/
@[ext] structure SparseMerklePath (D : Type) where
  emptyNodesMask : Nat
  nodes : List D

namespace SparseMerklePath

/-- `path_depth_iter`. -/
def pathDepthIter : Nat -> List Nat
  | 0 => []
  | depth + 1 => (depth + 1) :: pathDepthIter depth

/-- `SparseMerklePath::bitmask_for_depth`. -/
def bitmaskForDepth (nodeDepth : Nat) : Nat := 1 <<< (nodeDepth - 1)

/-- `SparseMerklePath::is_depth_empty`. -/
def isDepthEmpty (path : SparseMerklePath D) (nodeDepth : Nat) : Bool :=
  path.emptyNodesMask &&& bitmaskForDepth nodeDepth != 0

/-- `SparseMerklePath::depth`. -/
def depth (path : SparseMerklePath D) : Nat := path.nodes.length + popcount path.emptyNodesMask

/-- `SparseMerklePath::from_parts`. -/
def fromParts (emptyNodesMask : Nat) (nodes : List D) :
    Outcome (MerkleError D) (SparseMerklePath D) := do
  let minPathLen := NodeIndex.bitLength emptyNodesMask
  let emptyNodesCount := popcount emptyNodesMask
  let minNonEmptyNodes ← .checkedSub minPathLen emptyNodesCount
  if nodes.length < minNonEmptyNodes then .err (.invalidPathLength minNonEmptyNodes)
  else
    let path : SparseMerklePath D := ⟨emptyNodesMask, nodes⟩
    if path.depth > smtMaxDepth then .err (.depthTooBig path.depth) else .ok path

/-- `SparseMerklePath::get_nonempty_index`. -/
def getNonemptyIndex {ε : Type} (path : SparseMerklePath D) (nodeDepth : Nat) : Outcome ε (Option Nat) :=
  if path.isDepthEmpty nodeDepth then .ok none
  else do
    let emptyDeeper := popcount (path.emptyNodesMask >>> (nodeDepth - 1))
    let normalIndex ← .checkedSub path.depth nodeDepth
    let index ← .checkedSub normalIndex emptyDeeper
    pure (some index)

variable (hasher : SmtHasher D)

/-- `SparseMerklePath::at_depth`. -/
def atDepth (path : SparseMerklePath D) (nodeDepth : Nat) : Outcome (MerkleError D) D :=
  if nodeDepth > path.depth then .err (.depthTooBig nodeDepth)
  else do
    match ← path.getNonemptyIndex nodeDepth with
    | some index => .expect path.nodes[index]?
    | none => pure (EmptySubtreeRoots.entry hasher path.depth nodeDepth)

/-- `SparseMerklePathIter`, from the leaf up. -/
def iter {ε : Type} (path : SparseMerklePath D) : Outcome ε (List D) :=
  Outcome.collect (pathDepthIter path.depth) (fun depth => (path.atDepth hasher depth).unwrap)

/-- `From<SparseMerklePath> for MerklePath`. -/
def toMerklePath {ε : Type} (path : SparseMerklePath D) : Outcome ε (MerklePath D) := do
  MerklePath.fromIter (← path.iter hasher)

/-- `SparseMerklePath::compute_root`. -/
def computeRoot (path : SparseMerklePath D) (index : Nat) (nodeToProve : D) :
    Outcome (MerkleError D) D := do
  let index ← NodeIndex.new path.depth index
  let siblings ← path.iter hasher
  pure (siblings.foldl (MerklePath.climbStep hasher.merge) (index, nodeToProve)).2

section Build

variable [DecidableEq D]

/-- The body of the loop of `from_sized_iter`. -/
def absorb (treeDepth : Nat) (path : SparseMerklePath D) (item : Nat × D) : SparseMerklePath D :=
  if item.2 = EmptySubtreeRoots.entry hasher treeDepth item.1 then
    { path with emptyNodesMask := path.emptyNodesMask ||| bitmaskForDepth item.1 }
  else { path with nodes := path.nodes ++ [item.2] }

/-- `SparseMerklePath::from_sized_iter`. -/
def fromSizedIter (nodes : List D) : Outcome (MerkleError D) (SparseMerklePath D) :=
  let treeDepth := nodes.length
  if treeDepth > smtMaxDepth then .err (.depthTooBig treeDepth)
  else .ok (((pathDepthIter treeDepth).zip nodes).foldl (absorb hasher treeDepth) ⟨0, []⟩)

/-! ## What is stored of a path -/

/-- A node that is not stored: the root of an empty subtree at its depth. -/
def Omitted (treeDepth : Nat) (rest : List D) (node : D) : Prop :=
  node = EmptySubtreeRoots.entry hasher treeDepth (rest.length + 1)

instance (treeDepth : Nat) (rest : List D) (node : D) : Decidable (Omitted hasher treeDepth rest node) :=
  inferInstanceAs (Decidable (_ = _))

/-- The mask of a path, from the leaf up. -/
def maskOf (treeDepth : Nat) : List D -> Nat
  | [] => 0
  | node :: rest =>
    (if Omitted hasher treeDepth rest node then 1 else 0) * 2 ^ rest.length + maskOf treeDepth rest

/-- The stored nodes of a path, from the leaf up. -/
def stored (treeDepth : Nat) : List D -> List D
  | [] => []
  | node :: rest =>
    if Omitted hasher treeDepth rest node then stored treeDepth rest
    else node :: stored treeDepth rest

theorem maskOf_lt (treeDepth : Nat) (nodes : List D) :
    maskOf hasher treeDepth nodes < 2 ^ nodes.length := by
  induction nodes with
  | nil => exact one_pos
  | cons node rest ih =>
    rw [maskOf, length_cons, pow_succ]
    split <;> omega

theorem absorb_omitted {node : D} (path : SparseMerklePath D)
    (omitted : Omitted hasher treeDepth rest node) :
    absorb hasher treeDepth path (rest.length + 1, node) =
      ⟨path.emptyNodesMask ||| bitmaskForDepth (rest.length + 1), path.nodes⟩ := if_pos omitted

theorem absorb_kept {node : D} (path : SparseMerklePath D)
    (kept : ¬ Omitted hasher treeDepth rest node) :
    absorb hasher treeDepth path (rest.length + 1, node) =
      ⟨path.emptyNodesMask, path.nodes ++ [node]⟩ := if_neg kept

section TreeDepth

variable (treeDepth : Nat)

theorem foldl_absorb (nodes : List D) (path : SparseMerklePath D) :
    ((pathDepthIter nodes.length).zip nodes).foldl (absorb hasher treeDepth) path =
      ⟨path.emptyNodesMask ||| maskOf hasher treeDepth nodes,
        path.nodes ++ stored hasher treeDepth nodes⟩ := by
  induction nodes generalizing path with
  | nil => simp [pathDepthIter, maskOf, stored]
  | cons node rest ih =>
    rw [length_cons, pathDepthIter, zip_cons_cons, foldl_cons, ih, maskOf, stored]
    by_cases omitted : Omitted hasher treeDepth rest node
    · have digit : 1 * 2 ^ rest.length + maskOf hasher treeDepth rest =
          bitmaskForDepth (rest.length + 1) ||| maskOf hasher treeDepth rest := by
        have sum := two_pow_add_eq_or_of_lt (maskOf_lt hasher treeDepth rest) 1
        rw [mul_one] at sum
        rw [one_mul, bitmaskForDepth, Nat.add_sub_cancel, one_shiftLeft, sum]
      rw [absorb_omitted hasher path omitted, if_pos omitted, if_pos omitted, digit, Nat.or_assoc]
    · rw [absorb_kept hasher path omitted, if_neg omitted, if_neg omitted, zero_mul,
        zero_add, append_assoc, singleton_append]

/-- The digits above a depth, with one more node below it. -/
theorem maskOf_shift (node : D) (below : bit ≤ rest.length) :
    popcount (maskOf hasher treeDepth (node :: rest) >>> bit) =
      (if Omitted hasher treeDepth rest node then 1 else 0) +
        popcount (maskOf hasher treeDepth rest >>> bit) := by
  have small := maskOf_lt hasher treeDepth rest
  rcases Nat.exists_eq_add_of_le below with ⟨more, same⟩
  rw [maskOf, shiftRight_eq_div_pow, shiftRight_eq_div_pow]
  have quotient (digit : Nat) :
      (digit * 2 ^ rest.length + maskOf hasher treeDepth rest) / 2 ^ bit =
        digit * 2 ^ more + maskOf hasher treeDepth rest / 2 ^ bit := by
    rw [same, pow_add, mul_left_comm, mul_add_div (Nat.two_pow_pos bit)]
  have high : maskOf hasher treeDepth rest / 2 ^ bit < 2 ^ more := by
    rw [Nat.div_lt_iff_lt_mul (Nat.two_pow_pos bit), ← pow_add, add_comm more, ← same]
    exact small
  rw [quotient, popcount_add _ high]
  split <;> rfl

theorem length_stored (nodes : List D) :
    (stored hasher treeDepth nodes).length + popcount (maskOf hasher treeDepth nodes) =
      nodes.length := by
  induction nodes with
  | nil => rfl
  | cons node rest ih =>
    have count := maskOf_shift hasher treeDepth node (Nat.zero_le rest.length)
    rw [shiftRight_zero, shiftRight_zero] at count
    rw [count, stored, length_cons]
    split
    · omega
    · rw [length_cons]
      omega

theorem testBit_maskOf_self (node : D) (rest : List D) :
    (maskOf hasher treeDepth (node :: rest)).testBit rest.length =
      decide (Omitted hasher treeDepth rest node) := by
  have small := maskOf_lt hasher treeDepth rest
  rw [maskOf, mul_comm, testBit_two_pow_mul_add _ small, if_neg (lt_irrefl _), Nat.sub_self]
  by_cases omitted : Omitted hasher treeDepth rest node
  · rw [if_pos omitted, decide_eq_true omitted]
    rfl
  · rw [if_neg omitted, decide_eq_false omitted]
    rfl

theorem testBit_maskOf_below (node : D) (below : bit < rest.length) :
    (maskOf hasher treeDepth (node :: rest)).testBit bit =
      (maskOf hasher treeDepth rest).testBit bit := by
  have small := maskOf_lt hasher treeDepth rest
  rw [maskOf, mul_comm, testBit_two_pow_mul_add _ small, if_pos below]

/-- Above the whole path the mask has no digit. -/
theorem popcount_maskOf_above (nodes : List D) :
    popcount (maskOf hasher treeDepth nodes >>> nodes.length) = 0 := by
  rw [shiftRight_eq_div_pow, div_eq_of_lt (maskOf_lt hasher treeDepth nodes), popcount_zero]

/-- Where a node of the path that is stored is found, and which nodes are not
stored. -/
theorem stored_getElem? (below : bit < nodes.length) :
    ((maskOf hasher treeDepth nodes).testBit bit = false ->
      popcount (maskOf hasher treeDepth nodes >>> bit) ≤ nodes.length - (bit + 1) ∧
        (stored hasher treeDepth nodes)[nodes.length - (bit + 1) -
          popcount (maskOf hasher treeDepth nodes >>> bit)]? = nodes[nodes.length - (bit + 1)]?) ∧
    ((maskOf hasher treeDepth nodes).testBit bit = true ->
      nodes[nodes.length - (bit + 1)]? = some (EmptySubtreeRoots.entry hasher treeDepth (bit + 1))) := by
  induction nodes with
  | nil => exact absurd below (Nat.not_lt_zero bit)
  | cons node rest ih =>
    rw [length_cons] at below
    rw [length_cons, Nat.add_sub_add_right, stored]
    rcases Nat.lt_succ_iff_lt_or_eq.mp below with less | rfl
    · have position : rest.length - bit = rest.length - (bit + 1) + 1 := by omega
      rw [testBit_maskOf_below hasher treeDepth node less, position, getElem?_cons_succ]
      refine ⟨fun kept => ?_, (ih less).2⟩
      rcases (ih less).1 kept with ⟨bound, found⟩
      rw [maskOf_shift hasher treeDepth node (Nat.le_of_lt less), ← found]
      split
      · rw [Nat.add_comm 1, Nat.add_sub_add_right]
        exact ⟨succ_le_succ bound, rfl⟩
      · rw [Nat.zero_add, succ_sub bound, getElem?_cons_succ]
        exact ⟨le_succ_of_le bound, rfl⟩
    · rw [testBit_maskOf_self, decide_eq_false_iff_not, decide_eq_true_eq, Nat.sub_self]
      refine ⟨fun kept => ?_, fun omitted => congrArg some omitted⟩
      rw [maskOf_shift hasher treeDepth node (Nat.le_refl _), popcount_maskOf_above,
        if_neg kept, if_neg kept]
      exact ⟨Nat.le_refl 0, rfl⟩

end TreeDepth

/-! ## Reading a path back -/

/-- The sparse form of a list of nodes. -/
def ofNodes (nodes : List D) : SparseMerklePath D :=
  ⟨maskOf hasher nodes.length nodes, stored hasher nodes.length nodes⟩

theorem fromSizedIter_eq_ok (short : nodes.length ≤ smtMaxDepth) :
    fromSizedIter hasher nodes = .ok (ofNodes hasher nodes) := by
  rw [fromSizedIter, if_neg (not_lt.mpr short), foldl_absorb, zero_or, nil_append]
  rfl

@[simp] theorem depth_ofNodes (nodes : List D) : (ofNodes hasher nodes).depth = nodes.length :=
  length_stored hasher nodes.length nodes

omit [DecidableEq D] in
theorem isDepthEmpty_eq (path : SparseMerklePath D) (bit : Nat) :
    path.isDepthEmpty (bit + 1) = path.emptyNodesMask.testBit bit := by
  rw [isDepthEmpty, bitmaskForDepth, Nat.add_sub_cancel, one_shiftLeft, and_two_pow]
  cases path.emptyNodesMask.testBit bit with
  | true => simp
  | false => simp

theorem getNonemptyIndex_ofNodes {ε : Type} (below : bit < nodes.length)
    (kept : (maskOf hasher nodes.length nodes).testBit bit = false) :
    ((ofNodes hasher nodes).getNonemptyIndex (bit + 1) : Outcome ε (Option Nat)) =
      .ok (some (nodes.length - (bit + 1) - popcount (maskOf hasher nodes.length nodes >>> bit))) := by
  have bound := ((stored_getElem? hasher nodes.length below).1 kept).1
  have test : (ofNodes hasher nodes).isDepthEmpty (bit + 1) = false :=
    (isDepthEmpty_eq _ bit).trans kept
  have mask : (ofNodes hasher nodes).emptyNodesMask = maskOf hasher nodes.length nodes := rfl
  simp only [getNonemptyIndex, test, Bool.false_eq_true, if_false, depth_ofNodes,
    checkedSub_of_le (succ_le_of_lt below), ok_bind, mask, Nat.add_sub_cancel,
    checkedSub_of_le bound, pure_eq_ok, succ_eq_add_one]

theorem atDepth_ofNodes (below : bit < nodes.length) :
    (ofNodes hasher nodes).atDepth hasher (bit + 1) = .expect nodes[nodes.length - (bit + 1)]? := by
  have inPath : ¬ bit + 1 > (ofNodes hasher nodes).depth := by
    rw [depth_ofNodes]
    exact not_lt.mpr below
  rw [atDepth, if_neg inPath]
  cases digit : (maskOf hasher nodes.length nodes).testBit bit with
  | true =>
    have test : (ofNodes hasher nodes).isDepthEmpty (bit + 1) = true :=
      (isDepthEmpty_eq _ bit).trans digit
    rw [getNonemptyIndex, if_pos test, ok_bind, depth_ofNodes,
      (stored_getElem? hasher nodes.length below).2 digit]
    rfl
  | false =>
    rw [getNonemptyIndex_ofNodes hasher below digit, ok_bind,
      ← ((stored_getElem? hasher nodes.length below).1 digit).2]
    rfl

omit [DecidableEq D] in
theorem forall₂_pathDepthIter {related : Nat -> D -> Prop} (nodes : List D)
    (each : forall bit node, bit < nodes.length ->
      nodes[nodes.length - (bit + 1)]? = some node -> related (bit + 1) node) :
    List.Forall₂ related (pathDepthIter nodes.length) nodes := by
  induction nodes with
  | nil => exact List.Forall₂.nil
  | cons node rest ih =>
    refine List.Forall₂.cons (each rest.length node (lt_succ_self _) ?_) (ih ?_)
    · rw [length_cons, Nat.sub_self]
      rfl
    · intro bit other below found
      refine each bit other (lt_succ_of_lt below) ?_
      have position : (node :: rest).length - (bit + 1) = rest.length - (bit + 1) + 1 := by
        rw [length_cons]
        omega
      rw [position, getElem?_cons_succ, found]

/-- Reading a sparse path gives the nodes it was built from. -/
theorem iter_ofNodes {ε : Type} (nodes : List D) :
    ((ofNodes hasher nodes).iter hasher : Outcome ε (List D)) = .ok nodes := by
  rw [iter, depth_ofNodes, collect_eq_ok]
  refine forall₂_pathDepthIter nodes (fun bit node below found => ?_)
  rw [atDepth_ofNodes hasher below, found, expect_some, unwrap_ok]

theorem atDepth_eq (path : MerklePath D) (bit : Nat) :
    (ofNodes hasher path.nodes).atDepth hasher (bit + 1) =
      .okOr (path.atDepth (bit + 1)) (.depthTooBig (bit + 1)) := by
  by_cases below : bit + 1 ≤ path.nodes.length
  · have within : path.nodes.length - (bit + 1) < path.nodes.length :=
      sub_lt (zero_lt_of_lt below) (succ_pos bit)
    rw [atDepth_ofNodes hasher below, MerklePath.atDepth, MerklePath.depth, if_pos below,
      getElem?_eq_getElem within, expect_some, okOr_some]
  · rw [atDepth, depth_ofNodes, if_pos (lt_succ_of_le (not_lt.mp below)), MerklePath.atDepth,
      MerklePath.depth, if_neg below, okOr_none]

/-- The root of a sparse path is the root of the path it was built from. -/
theorem computeRoot_eq (path : MerklePath D) (index : Nat) (node : D) :
    (ofNodes hasher path.nodes).computeRoot hasher index node =
      path.computeRoot hasher.merge index node := by
  rw [computeRoot, depth_ofNodes]
  refine congrArg (NodeIndex.new path.depth index >>= ·) (funext fun start => ?_)
  rw [iter_ofNodes, ok_bind]

theorem computeRoot_ofNodes {index : Nat} (short : nodes.length ≤ 64)
    (inside : index < 2 ^ nodes.length) (value : D) :
    (ofNodes hasher nodes).computeRoot hasher index value =
      .ok (Mountain.climb hasher.merge index value nodes) :=
  (computeRoot_eq hasher ⟨nodes, le_trans short (by decide)⟩ index value).trans
    ((computeRoot_eq_ok hasher.merge).mpr ⟨short, inside, rfl⟩)

end Build

/-! ## Masks that fit their nodes -/

/-- The mask has no digit beyond the depth, so that every depth has its node. -/
structure Fits (path : SparseMerklePath D) : Prop where
  depth_le : path.depth ≤ smtMaxDepth
  mask_lt : path.emptyNodesMask < 2 ^ path.depth

theorem fits_ofNodes [DecidableEq D] (short : nodes.length ≤ smtMaxDepth) :
    (ofNodes hasher nodes).Fits := by
  refine ⟨(depth_ofNodes hasher nodes).trans_le short, ?_⟩
  rw [depth_ofNodes]
  exact maskOf_lt hasher nodes.length nodes

theorem fromParts_eq_ok {mask : Nat} {path : SparseMerklePath D} :
    fromParts mask nodes = .ok path ↔ path = ⟨mask, nodes⟩ ∧ path.Fits := by
  have count : popcount mask ≤ NodeIndex.bitLength mask :=
    popcount_le_of_lt (bitLength_le_iff.mp (Nat.le_refl _))
  have short : nodes.length < NodeIndex.bitLength mask - popcount mask ↔
      ¬ mask < 2 ^ depth ⟨mask, nodes⟩ := by
    rw [← bitLength_le_iff, ← not_le, Nat.sub_le_iff_le_add]
    rfl
  simp only [fromParts, checkedSub_of_le count, ok_bind, short]
  split_ifs with narrow deep
  · refine iff_of_false nofun ?_
    rintro ⟨rfl, fits⟩
    exact not_le.mpr deep fits.depth_le
  · constructor
    · rintro ⟨⟩
      exact ⟨rfl, not_lt.mp deep, narrow⟩
    · exact fun both => congrArg Outcome.ok both.1.symm
  · refine iff_of_false nofun ?_
    rintro ⟨rfl, fits⟩
    exact narrow fits.mask_lt

/-- Every depth of a path that fits has a node. -/
theorem Fits.exists_node {path : SparseMerklePath D} (fits : path.Fits) (below : bit < path.depth) :
    ∃ node, path.atDepth hasher (bit + 1) = .ok node := by
  rw [atDepth, if_neg (not_lt.mpr below), getNonemptyIndex, isDepthEmpty_eq]
  cases digit : path.emptyNodesMask.testBit bit with
  | true => exact ⟨_, rfl⟩
  | false =>
    -- the digits from this depth on, without the one of this depth, and those before it
    rw [testBit_eq_decide_div_mod_eq, decide_eq_false_iff_not] at digit
    have even := (mod_two_eq_zero_or_one _).resolve_right digit
    have deeper : popcount (path.emptyNodesMask >>> bit) ≤ path.depth - (bit + 1) := by
      rw [shiftRight_eq_div_pow, popcount_div_two, even, zero_add,
        Nat.div_div_eq_div_mul, ← pow_succ]
      refine popcount_le_of_lt ((Nat.div_lt_iff_lt_mul (Nat.two_pow_pos _)).mpr ?_)
      rw [← pow_add, Nat.sub_add_cancel below]
      exact fits.mask_lt
    have shallower := popcount_le_of_lt (mod_lt path.emptyNodesMask (Nat.two_pow_pos bit))
    have total := popcount_add (path.emptyNodesMask / 2 ^ bit) (mod_lt path.emptyNodesMask (Nat.two_pow_pos bit))
    rw [div_add_mod', ← shiftRight_eq_div_pow] at total
    have stored : path.depth - (bit + 1) - popcount (path.emptyNodesMask >>> bit) < path.nodes.length := by
      have all : path.depth = path.nodes.length + popcount path.emptyNodesMask := rfl
      omega
    refine ⟨path.nodes.get ⟨_, stored⟩, ?_⟩
    simp only [Bool.false_eq_true, if_false, Nat.add_sub_cancel,
      checkedSub_of_le (succ_le_of_lt below), ok_bind,
      checkedSub_of_le deeper, succ_eq_add_one, pure_eq_ok, getElem?_eq_getElem stored, expect_some]
    rfl

theorem exists_of_mem_pathDepthIter {depth item : Nat} (member : item ∈ pathDepthIter depth) :
    ∃ bit, bit < depth ∧ item = bit + 1 := by
  induction depth with
  | zero => cases member
  | succ depth ih =>
    rcases mem_cons.mp member with rfl | later
    · exact ⟨depth, lt_succ_self depth, rfl⟩
    · rcases ih later with ⟨bit, below, same⟩
      exact ⟨bit, lt_succ_of_lt below, same⟩

theorem Fits.iter {ε : Type} {path : SparseMerklePath D} (fits : path.Fits) :
    ∃ nodes, (path.iter hasher : Outcome ε (List D)) = .ok nodes := by
  refine collect_returns (fun item member => ?_)
  rcases exists_of_mem_pathDepthIter member with ⟨bit, below, rfl⟩
  rcases fits.exists_node hasher below with ⟨node, found⟩
  exact ⟨node, by rw [found, unwrap_ok]⟩

/-! ## The encoding -/

section Encoding

open Serde
open Foundation.Parser (lift Reads seq_eq_ok lift_eq_ok)

/-- The text of the errors of `from_parts`. -/
def partsMessage : MerkleError D -> String
  | .depthTooBig depth => s!"provided merkle tree depth {depth} is too big"
  | .invalidPathLength length => s!"provided node list should have a minimum length of {length}"
  | _ => ""

/-- `SparseMerklePath::write_into`. -/
def writeInto (path : SparseMerklePath Word) : List UInt8 :=
  [UInt8.ofNat path.depth] ++ (writeU64 path.emptyNodesMask ++ path.nodes.flatMap Word.writeInto)

/-- `SparseMerklePath::read_from`. -/
def readFrom : Reader (SparseMerklePath Word) := do
  let byte ← readU8
  let depth := byte.toNat
  lift (ensure (depth ≤ smtMaxDepth)
    (.invalidValue s!"SparseMerklePath max depth exceeded ({depth} > {smtMaxDepth})"))
  let emptyNodesMask ← readU64
  let emptyNodesCount := popcount emptyNodesMask
  lift (ensure (emptyNodesCount ≤ depth) (.invalidValue
    s!"SparseMerklePath has more empty nodes ({emptyNodesCount}) than its full length ({depth})"))
  let nodes ← readMany Word.readFrom Word.serializedSize (depth - emptyNodesCount)
  lift ((fromParts emptyNodesMask nodes).mapErr
    (fun error => .invalidValue s!"invalid SparseMerklePath: {partsMessage error}"))

theorem Fits.of_readFrom {path : SparseMerklePath Word} {source after : ByteReader}
    (read : readFrom source = .ok (path, after)) : path.Fits := by
  rcases seq_eq_ok.mp read with ⟨byte, _, _, read⟩
  rcases seq_eq_ok.mp read with ⟨_, _, _, read⟩
  rcases seq_eq_ok.mp read with ⟨mask, _, _, read⟩
  rcases seq_eq_ok.mp read with ⟨_, _, _, read⟩
  rcases seq_eq_ok.mp read with ⟨nodes, _, _, built⟩
  exact (fromParts_eq_ok.mp (mapErr_eq_ok.mp (lift_eq_ok.mp built).1)).2

/-- A path that fits is read back. -/
theorem Fits.reads {path : SparseMerklePath Word} (fits : path.Fits) (start reserve : Nat) :
    Reads readFrom start reserve path.writeInto path := by
  have depth : (UInt8.ofNat path.depth).toNat = path.depth :=
    UInt8.toNat_ofNat_of_lt' (lt_of_le_of_lt fits.depth_le (by decide))
  have mask : path.emptyNodesMask < 2 ^ 64 :=
    lt_of_lt_of_le fits.mask_lt (Nat.pow_le_pow_right (by decide) fits.depth_le)
  apply Reads.bind (readU8_reads _)
  rw [depth]
  apply Reads.bind_nil (.ensure fits.depth_le _)
  apply Reads.bind (readU64_reads mask)
  apply Reads.bind_nil (.ensure (Nat.le_add_left _ _) _)
  rw [SparseMerklePath.depth, Nat.add_sub_cancel]
  apply Reads.bind_lift (readMany_reads Word.writeInto path.nodes (by decide)
    (fun word _ => le_of_eq word.length_writeInto.symm) (fun word _ _ _ => Word.readFrom_reads word))
  rw [fromParts_eq_ok.mpr ⟨rfl, fits⟩, mapErr_ok]

/-- A sparse path stands for the path it is built from, and every encoding that
is accepted is one of a path. -/
theorem sparse_path_stands_for_path (hasher : SmtHasher Word) :
    (forall path : MerklePath Word, path.depth ≤ smtMaxDepth ->
      ∃ sparse, fromSizedIter hasher path.nodes = .ok sparse ∧
        (sparse.toMerklePath hasher : Outcome (MerkleError Word) _) = .ok path ∧
        (sparse.iter hasher : Outcome (MerkleError Word) _) = .ok path.nodes ∧
        (forall depth, 0 < depth ->
          sparse.atDepth hasher depth = .okOr (path.atDepth depth) (.depthTooBig depth)) ∧
        (forall index node, sparse.computeRoot hasher index node = path.computeRoot hasher.merge index node) ∧
        forall start reserve, Reads readFrom start reserve sparse.writeInto sparse) ∧
    forall source path after, readFrom source = .ok (path, after) ->
      path.Fits ∧ ∃ nodes, (path.iter hasher : Outcome (MerkleError Word) _) = .ok nodes := by
  refine ⟨fun path short => ?_, fun source path after read => ?_⟩
  · refine ⟨ofNodes hasher path.nodes, fromSizedIter_eq_ok hasher short, ?_, iter_ofNodes hasher _,
      ?_, computeRoot_eq hasher path, (fits_ofNodes hasher short).reads⟩
    · have few : path.nodes.length ≤ 256 := le_trans path.bounded (by decide)
      rw [toMerklePath, iter_ofNodes, ok_bind, fromIter, take_of_length_le few, new,
        dif_pos path.bounded]
    · intro depth positive
      rcases exists_eq_succ_of_ne_zero positive.ne' with ⟨bit, rfl⟩
      exact atDepth_eq hasher path bit
  · have fits := Fits.of_readFrom read
    exact ⟨fits, fits.iter hasher⟩

theorem sparse_path_stands_for_path_of_two : let hasher : SmtHasher Word :=
      ⟨Word.zero, fun left _ => left, fun _ value => value, fun _ => Word.zero⟩
    ∃ sparse, fromSizedIter hasher [Word.zero, ⟨1, 0, 0, 0⟩] = .ok sparse ∧
      (sparse.iter hasher : Outcome (MerkleError Word) _) = .ok [Word.zero, ⟨1, 0, 0, 0⟩] ∧
        sparse.Fits := by
  intro hasher
  have stands := sparse_path_stands_for_path hasher
  rcases stands.1 ⟨[Word.zero, ⟨1, 0, 0, 0⟩], by decide⟩ (by decide) with
    ⟨sparse, built, _, read, _, _, encoded⟩
  have decoded := encoded 0 0 (.new sparse.writeInto none) [] rfl (append_nil _).symm nofun
  exact ⟨sparse, built, read, (stands.2 _ _ _ decoded).1⟩

end Encoding

end SparseMerklePath

end MidenVm.Crypto
