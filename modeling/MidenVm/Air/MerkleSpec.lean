import MidenVm.Air.HasherControl

namespace MidenVm.Air

open Foundation Foundation.Air Nat

/-!
# Merkle paths in the hasher controller

A Merkle operation is a run of pairs of rows, one pair for each level.  The
index loses its lowest bit at each level and is zero at the end, so it is the
field element of the integer whose binary digits are the direction bits.  For
a path of 64 levels that integer may pass the modulus.  The slack of the first
level excludes this: it bounds the integer by the modulus, and the digits are
those of the canonical index.
-/

/-! ## Paths -/

variable {index : Nat} {cols : ControllerCols Felt}

/-- A word as the controller holds it. -/
abbrev Lanes := Vector Felt 4

/-- The root over a node with the siblings of a path, lowest level first; the
digits of the position say on which side the node stands. -/
def merkleRoot (merge : Lanes -> Lanes -> Lanes) : Nat -> Lanes -> List Lanes -> Lanes
  | _, node, [] => node
  | position, node, sibling :: rest =>
    merkleRoot merge (position / 2)
      (if position % 2 = 1 then merge sibling node else merge node sibling) rest

/-- One level: an input row and the output row behind it. -/
abbrev Level := ControllerCols Felt × ControllerCols Felt

namespace Level

variable (level : Level)

def bit : Nat := level.1.directionBit.val

/-- The node of the path, and the word beside it. -/
def node : Lanes := if level.bit = 1 then level.1.rate1 else level.1.rate0

def sibling : Lanes := if level.bit = 1 then level.1.rate0 else level.1.rate1

/-- What the constraints say within a level. -/
structure Shifts (level : Level) : Prop where
  index : level.1.nodeIndex = 2 * level.2.nodeIndex + level.1.directionBit
  boolean : level.1.directionBit = 0 ∨ level.1.directionBit = 1

/-- What the constraints say between two levels. -/
structure Feeds (lower upper : Level) : Prop where
  index : upper.1.nodeIndex = lower.2.nodeIndex
  bit : lower.2.directionBit = upper.1.directionBit
  digest : forall lane : Fin 4, lower.2.rate0.get lane =
    upper.1.rate0.get lane + lower.2.directionBit * (upper.1.rate1.get lane - upper.1.rate0.get lane)

end Level

/-- The integer whose digits are the direction bits, lowest level first. -/
def pathIndex : List Level -> Nat
  | [] => 0
  | level :: rest => level.bit + 2 * pathIndex rest

/-- The levels of a path up to the root. -/
inductive MerklePath : List Level -> Prop where
  | top {level : Level} (shifts : level.Shifts) (root : level.2.nodeIndex = 0) : MerklePath [level]
  | step {level upper : Level} {rest : List Level} (shifts : level.Shifts)
      (feeds : level.Feeds upper) (more : MerklePath (upper :: rest)) :
      MerklePath (level :: upper :: rest)

theorem Level.Shifts.bit_le {level : Level} (shifts : level.Shifts) : level.bit ≤ 1 := by
  unfold Level.bit
  rcases shifts.boolean with zero | one
  · rw [zero, ZMod.val_zero]
    exact Nat.zero_le 1
  · rw [one]
    exact Nat.le_of_eq rfl

/-- A digest goes to the side its direction bit says. -/
theorem Level.Feeds.digest_eq {lower upper : Level} (feeds : lower.Feeds upper)
    (shifts : upper.Shifts) : lower.2.rate0 = upper.node := by
  apply Vector.ext
  intro lane inside
  have routed := feeds.digest ⟨lane, inside⟩
  rw [feeds.bit] at routed
  unfold Level.node Level.bit
  rcases shifts.boolean with zero | one
  · rw [zero] at routed ⊢
    rw [if_neg (by rw [ZMod.val_zero]; decide)]
    simpa [Vector.get_eq_getElem] using routed
  · rw [one] at routed ⊢
    rw [if_pos (ZMod.val_one modulus)]
    simpa [Vector.get_eq_getElem] using routed

theorem pathIndex_mod {level : Level} (shifts : level.Shifts) (rest : List Level) :
    pathIndex (level :: rest) % 2 = level.bit := by
  have small := shifts.bit_le
  rw [pathIndex]
  omega

theorem pathIndex_div {level : Level} (shifts : level.Shifts) (rest : List Level) :
    pathIndex (level :: rest) / 2 = pathIndex rest := by
  have small := shifts.bit_le
  rw [pathIndex]
  omega

/-- Both orders of node and sibling hash the two halves of the input row. -/
theorem Level.merge_node (merge : Lanes -> Lanes -> Lanes) (level : Level) :
    (if level.bit = 1 then merge level.sibling level.node else merge level.node level.sibling) =
      merge level.1.rate0 level.1.rate1 := by
  unfold Level.node Level.sibling
  split <;> rfl

variable {rest : List Level}

namespace MerklePath

variable {levels : List Level}

theorem shifts (path : MerklePath levels) : forall level, level ∈ levels -> level.Shifts := by
  induction path with
  | top shifts _ =>
    intro level member
    rcases List.mem_singleton.mp member with rfl
    exact shifts
  | step shifts _ _ ih =>
    intro level member
    rcases List.mem_cons.mp member with rfl | later
    · exact shifts
    · exact ih level later

theorem pathIndex_lt (path : MerklePath levels) : pathIndex levels < 2 ^ levels.length := by
  have small : forall level, level ∈ levels -> level.bit ≤ 1 :=
    fun level member => (path.shifts level member).bit_le
  clear path
  induction levels with
  | nil => exact one_pos
  | cons level rest ih =>
    have here := small level List.mem_cons_self
    have later := ih (fun other member => small other (List.mem_cons_of_mem level member))
    rw [pathIndex, List.length_cons, pow_succ]
    omega

/-- The index of the first level is the integer of the path, in the field. -/
theorem nodeIndex_eq {level : Level} (path : MerklePath (level :: rest)) :
    level.1.nodeIndex = ((pathIndex (level :: rest) : Nat) : Felt) ∧
      level.2.nodeIndex = ((pathIndex rest : Nat) : Felt) := by
  have whole {level : Level} {rest : List Level} (shifts : level.Shifts)
      (above : level.2.nodeIndex = ((pathIndex rest : Nat) : Felt)) :
      level.1.nodeIndex = ((pathIndex (level :: rest) : Nat) : Felt) := by
    rw [shifts.index, above, pathIndex, Level.bit, cast_add, cast_mul, cast_ofNat,
      Felt.natCast_val, add_comm]
  induction rest generalizing level with
  | nil =>
    cases path with
    | top shifts root =>
      have above : level.2.nodeIndex = ((pathIndex [] : Nat) : Felt) := by
        rw [root, pathIndex, cast_zero]
      exact ⟨whole shifts above, above⟩
  | cons upper rest ih =>
    cases path with
    | step shifts feeds more =>
      have above := feeds.index.symm.trans (ih more).1
      exact ⟨whole shifts above, above⟩

theorem bit_eq (path : MerklePath levels) {level : Level} (found : levels[index]? = some level) :
    level.bit = pathIndex levels / 2 ^ index % 2 := by
  have shifts := path.shifts
  clear path
  induction levels generalizing index with
  | nil => cases found
  | cons first rest ih =>
    have here := shifts first List.mem_cons_self
    cases index with
    | zero =>
      cases found
      rw [pow_zero, Nat.div_one, pathIndex_mod here]
    | succ index =>
      have later := ih found (fun other member => shifts other (List.mem_cons_of_mem first member))
      rw [later, pow_succ', ← Nat.div_div_eq_div_mul, pathIndex_div here]

/-- The digest at the end is the root of the path. -/
theorem root_eq {merge : Lanes -> Lanes -> Lanes} {level last : Level}
    (path : MerklePath (level :: rest))
    (merges : forall other, other ∈ level :: rest -> other.2.rate0 = merge other.1.rate0 other.1.rate1)
    (isLast : (level :: rest).getLast? = some last) :
    last.2.rate0 = merkleRoot merge (pathIndex (level :: rest)) level.node
      ((level :: rest).map Level.sibling) := by
  have here := path.shifts level List.mem_cons_self
  rw [List.map_cons, merkleRoot, pathIndex_mod here, pathIndex_div here, Level.merge_node,
    ← merges level List.mem_cons_self]
  induction rest generalizing level with
  | nil =>
    cases isLast
    rfl
  | cons upper rest ih =>
    cases path with
    | step shifts feeds more =>
      rw [List.getLast?_cons_cons] at isLast
      have above := more.shifts upper List.mem_cons_self
      have later : forall other, other ∈ upper :: rest ->
          other.2.rate0 = merge other.1.rate0 other.1.rate1 :=
        fun other member => merges other (List.mem_cons_of_mem level member)
      rw [feeds.digest_eq above, List.map_cons, merkleRoot, pathIndex_mod above,
        pathIndex_div above, Level.merge_node, ← later upper List.mem_cons_self]
      exact ih more later isLast above

end MerklePath

/-! ## The canonical index -/

/-- The limbs of the slack, and twice the highest one, are below `2^16`. -/
structure SlackRanges (cols : ControllerCols Felt) : Prop where
  limbs : forall lane : Fin 4, (cols.capacity.get lane).val < 2 ^ 16
  double : (2 * cols.capacity.get 3).val < 2 ^ 16

/-- The slack is the field element of an integer below `2^63`. -/
theorem SlackRanges.slack (ranges : SlackRanges cols) :
    ∃ slack : Nat, slack < 2 ^ 63 ∧ indexSlack cols = (slack : Felt) := by
  have limb0 : (cols.capacity.get 0).val < 2 ^ 16 := ranges.limbs 0
  have limb1 : (cols.capacity.get 1).val < 2 ^ 16 := ranges.limbs 1
  have limb2 : (cols.capacity.get 2).val < 2 ^ 16 := ranges.limbs 2
  have limb3 : (cols.capacity.get 3).val < 2 ^ 16 := ranges.limbs 3
  have top : (cols.capacity.get 3).val < 2 ^ 15 := by
    have product : 2 * cols.capacity.get 3 = ((2 * (cols.capacity.get 3).val : Nat) : Felt) := by
      rw [cast_mul, cast_ofNat, Felt.natCast_val]
    have value : (2 * cols.capacity.get 3).val = 2 * (cols.capacity.get 3).val := by
      rw [product, Felt.val_natCast_of_lt (by omega)]
    have bound := ranges.double
    omega
  refine ⟨(cols.capacity.get 0).val + (cols.capacity.get 1).val * 2 ^ 16 + (cols.capacity.get 2).val * 2 ^ 32 +
    (cols.capacity.get 3).val * 2 ^ 48, by omega, ?_⟩
  rw [indexSlack]
  simp only [cast_add, cast_mul, cast_pow, cast_ofNat, Felt.natCast_val]

/-- With the slack equation the integer of a path of at most 64 levels stays
below the modulus, so it is the canonical form of the index. -/
theorem MerklePath.val_nodeIndex {level : Level} (path : MerklePath (level :: rest))
    (depth : (level :: rest).length ≤ 64) (ranges : SlackRanges level.1)
    (slack : level.2.nodeIndex + indexSlack level.1 + level.1.directionBit =
        ((maxMerkleIndexHalf : Nat) : Felt)) :
    level.1.nodeIndex.val = pathIndex (level :: rest) := by
  rcases ranges.slack with ⟨amount, amountSmall, amountEq⟩
  have bitSmall := (path.shifts level List.mem_cons_self).bit_le
  have above : pathIndex rest < 2 ^ 63 := by
    have total := path.pathIndex_lt
    have deep : 2 ^ (level :: rest).length ≤ 2 ^ 64 := Nat.pow_le_pow_right (by decide) depth
    rw [pathIndex] at total
    omega
  rw [amountEq, path.nodeIndex_eq.2, ← Felt.natCast_val level.1.directionBit, ← cast_add,
    ← cast_add] at slack
  change ((pathIndex rest + amount + level.bit : Nat) : Felt) = _ at slack
  have half : maxMerkleIndexHalf = 9223372034707292160 := by decide +kernel
  rw [half] at slack
  -- the sum is below the half plus the modulus, so the equation holds for integers
  have congruent := (ZMod.natCast_eq_natCast_iff' _ _ _).mp slack
  have integers : pathIndex rest + amount + level.bit = 9223372034707292160 := by
    unfold modulus at congruent
    omega
  rw [path.nodeIndex_eq.1, Felt.val_natCast_of_lt]
  rw [pathIndex]
  omega

/-! ## Segments of a trace -/

/-- The constraints that concern the controller. -/
def controllerTraceConstraints (frame : AirFrame Felt (ChipletCols Felt)) : List Felt :=
  enforceControllerConstraints frame (buildChipletSelectors frame).controller

/-- The row asks for a step of a Merkle operation. -/
structure IsMerkleInput (cols : ControllerCols Felt) : Prop where
  input : cols.s0 = 1
  kind : cols.s1 = 1 ∨ cols.s2 = 1

theorem IsMerkleInput.flag (asks : IsMerkleInput cols) :
    cols.s1 + cols.s2 - cols.s1 * cols.s2 = 1 := by
  rcases asks.kind with one | one
  · rw [one]
    ring
  · rw [one]
    ring

/-- A level as two rows of the trace. -/
abbrev RowPair := ChipletCols Felt × ChipletCols Felt

def RowPair.level (pair : RowPair) : Level := (pair.1.controller, pair.2.controller)

/-- The rows of a level belong to the controller and hold a Merkle step. -/
structure RowPair.IsMerkle (pair : RowPair) : Prop where
  ownsInput : Owns pair.1 .controller
  ownsOutput : Owns pair.2 .controller
  asks : IsMerkleInput pair.1.controller

variable {pair : RowPair}

section Trace

variable {rows : List (ChipletCols Felt)}

section Holds

variable (holds : Satisfies controllerTraceConstraints rows)
include holds

/-- What the constraints say at an input row, given the output row behind it. -/
theorem input_of_trace (atInput : rows[index]? = some pair.1)
    (atOutput : rows[index + 1]? = some pair.2) (isMerkle : pair.IsMerkle) :
    pair.level.Shifts ∧ (1 - pair.2.controller.s0) * (1 - pair.2.controller.s1) = 1 ∧
      (pair.1.controller.isBoundary = 1 ->
        pair.level.2.nodeIndex + indexSlack pair.level.1 + pair.level.1.directionBit =
          ((maxMerkleIndexHalf : Nat) : Felt)) := by
  have vanish := holds index _ (frameAt_of_next (F := Felt) atInput atOutput)
  have isInput := isMerkle.asks.input
  have merkle := isMerkle.asks.flag
  have zero0 : pair.1.chiplets[0] = 0 := isMerkle.ownsInput
  have nextZero0 : pair.2.chiplets[0] = 0 := isMerkle.ownsOutput
  simp only [controllerTraceConstraints, enforceControllerConstraints, controllerSkeleton,
    controllerMerkle, ControllerFlags.new, buildChipletSelectors, vanish_append, vanish_when,
    vanish_assertEq, vanish_assertBool, vanish_assertOne, merkle, isInput, zero0, nextZero0,
    sub_zero, mul_one, one_mul, ne_eq, one_ne_zero, not_false_eq_true, forall_const] at vanish
  rcases vanish with ⟨⟨⟨⟨⟨_, follows⟩, _⟩, _⟩, ⟨⟨⟨⟨⟨shift, slack⟩, _⟩, _⟩, _⟩, _⟩⟩, _⟩
  refine ⟨⟨shift.1, shift.2⟩, follows, fun boundary => slack ?_⟩
  rw [boundary]
  exact one_ne_zero

/-- What the constraints say from an output row to the input row of the next
level. -/
theorem output_of_trace {upper : RowPair} (atOutput : rows[index]? = some pair.2)
    (atUpper : rows[index + 1]? = some upper.1) (isMerkle : pair.IsMerkle)
    (isOutput : (1 - pair.2.controller.s0) * (1 - pair.2.controller.s1) = 1)
    (inner : pair.2.controller.isBoundary = 0) (upperMerkle : upper.IsMerkle) :
    pair.level.Feeds upper.level := by
  have vanish := holds index _ (frameAt_of_next (F := Felt) atOutput atUpper)
  have isInput := upperMerkle.asks.input
  have merkle := upperMerkle.asks.flag
  have zero0 : pair.2.chiplets[0] = 0 := isMerkle.ownsOutput
  simp only [controllerTraceConstraints, enforceControllerConstraints, controllerMerkle,
    ControllerFlags.new, buildChipletSelectors, forWord, vanish_append, vanish_when,
    vanish_assertEq, vanish_flatMap, merkle, isInput, isOutput, inner, zero0, sub_zero, mul_one,
    ne_eq, one_ne_zero, not_false_eq_true, forall_const] at vanish
  rcases vanish with ⟨⟨_, ⟨⟨⟨_, carried⟩, routed⟩, _⟩⟩, _⟩
  exact ⟨carried, routed.1, fun lane => routed.2 lane (List.mem_finRange lane)⟩

/-- The last row of a segment returns a digest, so its index is zero. -/
theorem root_of_trace (atOutput : rows[index]? = some pair.2) (isMerkle : pair.IsMerkle)
    (isOutput : (1 - pair.2.controller.s0) * (1 - pair.2.controller.s1) = 1)
    (isHout : pair.2.controller.s2 = 0) : pair.level.2.nodeIndex = 0 := by
  rcases exists_frame atOutput with ⟨frame, atFrame, same, _⟩
  have vanish := holds index frame atFrame
  have zero0 : pair.2.chiplets[0] = 0 := isMerkle.ownsOutput
  simp only [controllerTraceConstraints, enforceControllerConstraints, controllerEnd,
    ControllerFlags.new, buildChipletSelectors, same, vanish_append, vanish_when,
    vanish_assertZero, isOutput, isHout, zero0, sub_zero, mul_one, ne_eq, one_ne_zero,
    not_false_eq_true, forall_const] at vanish
  exact vanish.2.1.1

/-- The pairs of a Merkle operation up to its last one: the boundary column is
set on the last output row only, and that row returns a digest. -/
inductive MerkleRun : List RowPair -> Prop where
  | last {pair : RowPair} (isMerkle : pair.IsMerkle) (boundary : pair.2.controller.isBoundary = 1)
      (isHout : pair.2.controller.s2 = 0) : MerkleRun [pair]
  | more {pair upper : RowPair} {rest : List RowPair} (isMerkle : pair.IsMerkle)
      (inner : pair.2.controller.isBoundary = 0) (later : upper.1.controller.isBoundary = 0)
      (run : MerkleRun (upper :: rest)) : MerkleRun (pair :: upper :: rest)

/-- A whole Merkle operation, whose first row is marked. -/
structure MerkleSegment (first : RowPair) (rest : List RowPair) : Prop where
  starts : first.1.controller.isBoundary = 1
  run : MerkleRun (first :: rest)

omit holds in
theorem MerkleRun.head {rest : List RowPair} (run : MerkleRun (pair :: rest)) : pair.IsMerkle := by
  cases run with
  | last isMerkle _ _ => exact isMerkle
  | more isMerkle _ _ _ => exact isMerkle

/-- The rows of a segment, pair by pair. -/
def segmentRows (pairs : List RowPair) : List (ChipletCols Felt) :=
  pairs.flatMap (fun pair => [pair.1, pair.2])

/-- A run in a trace that satisfies the constraints is a path. -/
theorem merklePath_of_trace {pairs : List RowPair} (run : MerkleRun pairs)
    {before after : List (ChipletCols Felt)} (split : rows = before ++ segmentRows pairs ++ after) :
    MerklePath (pairs.map RowPair.level) := by
  induction run generalizing before with
  | @last pair isMerkle _ isHout =>
    have atInput : rows[before.length]? = some pair.1 := by simp [split, segmentRows]
    have atOutput : rows[before.length + 1]? = some pair.2 := by simp [split, segmentRows]
    rcases input_of_trace holds atInput atOutput isMerkle with ⟨shifts, isOutput, _⟩
    exact .top shifts (root_of_trace holds atOutput isMerkle isOutput isHout)
  | @more pair upper rest isMerkle inner _ run ih =>
    have atInput : rows[before.length]? = some pair.1 := by simp [split, segmentRows]
    have atOutput : rows[before.length + 1]? = some pair.2 := by simp [split, segmentRows]
    have atUpper : rows[before.length + 2]? = some upper.1 := by simp [split, segmentRows]
    rcases input_of_trace holds atInput atOutput isMerkle with ⟨shifts, isOutput, _⟩
    have shifted : rows = before ++ [pair.1, pair.2] ++ segmentRows (upper :: rest) ++ after := by
      simp [split, segmentRows]
    have above : MerklePath ((upper :: rest).map RowPair.level) := ih shifted
    exact .step shifts (output_of_trace holds atOutput atUpper isMerkle isOutput inner run.head)
      above

end Holds

end Trace

/-! ## Soundness -/

/-- The state of the permutation: two words of rate and one of capacity. -/
abbrev SpongeState := Lanes × Lanes × Lanes

/-- The capacity a Merkle step hashes with; its columns hold the slack. -/
def merkleCapacity : Lanes := Vector.replicate 4 0

/-- The digest of two words under the permutation. -/
def mergeWith (permute : SpongeState -> SpongeState) (left right : Lanes) : Lanes :=
  (permute (left, right, merkleCapacity)).1

/-- The output row of a level holds the permutation of its input. -/
def Level.Permutes (permute : SpongeState -> SpongeState) (level : Level) : Prop :=
  (level.2.rate0, level.2.rate1, level.2.capacity) =
    permute (level.1.rate0, level.1.rate1, merkleCapacity)

/-- In a Merkle segment the direction bits are the digits of the canonical
index, which is below the number of leaves, and the last digest is the root
over the initial one. -/
theorem merkle_segment_sound (permute : SpongeState -> SpongeState)
    {rows before after : List (ChipletCols Felt)} {first : RowPair} {rest : List RowPair}
    (holds : Satisfies controllerTraceConstraints rows)
    (split : rows = before ++ segmentRows (first :: rest) ++ after)
    (segment : MerkleSegment first rest) (depth : (first :: rest).length ≤ 64)
    (permutes : forall pair, pair ∈ first :: rest -> pair.level.Permutes permute)
    (ranges : SlackRanges first.1.controller) :
    let position := first.1.controller.nodeIndex.val
    position < 2 ^ (first :: rest).length ∧
      (forall (index : Nat) pair, (first :: rest)[index]? = some pair ->
        pair.1.controller.directionBit.val = position / 2 ^ index % 2) ∧
      (forall last, (first :: rest).getLast? = some last ->
        last.2.controller.rate0 = merkleRoot (mergeWith permute) position first.level.node
          ((first :: rest).map (fun pair => pair.level.sibling))) := by
  have path := merklePath_of_trace holds segment.run split
  have atInput : rows[before.length]? = some first.1 := by simp [split, segmentRows]
  have atOutput : rows[before.length + 1]? = some first.2 := by simp [split, segmentRows]
  rcases input_of_trace holds atInput atOutput segment.run.head with ⟨_, _, slack⟩
  have value : first.1.controller.nodeIndex.val =
      pathIndex (first.level :: rest.map RowPair.level) :=
    path.val_nodeIndex (by simpa using depth) ranges (slack segment.starts)
  simp only [value]
  refine ⟨?_, ?_, ?_⟩
  · simpa using path.pathIndex_lt
  · intro index pair found
    have atLevel : ((first :: rest).map RowPair.level)[index]? = some pair.level := by
      rw [List.getElem?_map, found]
      rfl
    exact path.bit_eq atLevel
  · intro last isLast
    have merges : forall other, other ∈ first.level :: rest.map RowPair.level ->
        other.2.rate0 = mergeWith permute other.1.rate0 other.1.rate1 := by
      intro other member
      rcases List.mem_map.mp (show other ∈ (first :: rest).map RowPair.level from member)
        with ⟨pair, inside, rfl⟩
      exact congrArg Prod.fst (permutes pair inside)
    have lastLevel : ((first :: rest).map RowPair.level).getLast? = some last.level := by
      rw [List.getLast?_map, isLast]
      rfl
    have root := path.root_eq merges lastLevel
    rw [← List.map_cons (f := RowPair.level), List.map_map] at root
    exact root

/-- A row of the controller, for a path to the leaf at position 2. -/
def pathRow (s0 s2 boundary bit index : Felt) (rate0 rate1 capacity : Lanes) :
    ChipletCols Felt where
  chiplets :=
    #v[0, s0, 0, s2, rate0.get 0, rate0.get 1, rate0.get 2, rate0.get 3, rate1.get 0, rate1.get 1,
    rate1.get 2, rate1.get 3, capacity.get 0, capacity.get 1, capacity.get 2, capacity.get 3,
    index, 0, boundary,
    bit, 0]
  chipClk := 0

def pathFirst : RowPair :=
  (pathRow 1 1 1 0 2 #v[1, 2, 3, 4] #v[5, 6, 7, 8] #v[65535, 32767, 65535, 32767],
    pathRow 0 1 0 1 1 #v[6, 8, 10, 12] #v[5, 6, 7, 8] merkleCapacity)

def pathSecond : RowPair :=
  (pathRow 1 1 0 1 1 #v[1, 1, 1, 1] #v[6, 8, 10, 12] merkleCapacity,
    pathRow 0 0 1 0 0 #v[7, 9, 11, 13] #v[6, 8, 10, 12] merkleCapacity)

def pathEnd : ChipletCols Felt where
  chiplets := Vector.replicate 21 1
  chipClk := 0

/-- A stand-in for the permutation that adds the two words of rate. -/
def addRates (state : SpongeState) : SpongeState :=
  (Vector.zipWith (· + ·) state.1 state.2.1, state.2.1, state.2.2)

theorem merkle_segment_sound_two_levels :
    Satisfies controllerTraceConstraints (segmentRows [pathFirst, pathSecond] ++ [pathEnd]) ∧
      pathSecond.2.controller.rate0 = merkleRoot (mergeWith addRates) 2 #v[1, 2, 3, 4]
        [#v[5, 6, 7, 8], #v[1, 1, 1, 1]] := by
  have holds : Satisfies controllerTraceConstraints
      (segmentRows [pathFirst, pathSecond] ++ [pathEnd]) :=
    satisfies_of_check (by decide +kernel)
  have steps : forall pair, pair ∈ [pathFirst, pathSecond] ->
      pair.1.chiplets[0] = 0 ∧ pair.2.chiplets[0] = 0 ∧ pair.1.controller.s0 = 1 ∧
        pair.1.controller.s2 = 1 := by decide +kernel
  have isMerkle : forall pair, pair ∈ [pathFirst, pathSecond] -> RowPair.IsMerkle pair := by
    intro pair member
    rcases steps pair member with ⟨input, output, asks, kind⟩
    exact ⟨input, output, ⟨asks, .inr kind⟩⟩
  have run : MerkleRun [pathFirst, pathSecond] :=
    .more (isMerkle pathFirst (by simp)) (by decide +kernel) (by decide +kernel)
      (.last (isMerkle pathSecond (by simp)) (by decide +kernel) (by decide +kernel))
  have permutes : forall pair, pair ∈ [pathFirst, pathSecond] ->
      Level.Permutes addRates (RowPair.level pair) := by
    unfold Level.Permutes
    decide +kernel
  have split : segmentRows [pathFirst, pathSecond] ++ [pathEnd] =
      [] ++ segmentRows [pathFirst, pathSecond] ++ [pathEnd] := rfl
  have sound := merkle_segment_sound addRates holds split ⟨by decide +kernel, run⟩ (by decide)
    permutes ⟨by decide +kernel, by decide +kernel⟩
  exact ⟨holds, sound.2.2 pathSecond rfl⟩

end MidenVm.Air
