import MidenVm.Core.Goldilocks
import MidenVm.Foundation.Air
import MidenVm.Foundation.Sections

namespace MidenVm.Air

open Foundation Foundation.Air

/-!
# Columns of the chiplets trace

All chiplets share the same columns.  The first ones select the chiplet that
owns a row, one column more for each later chiplet, and each chiplet reads the
columns behind its own selectors under its own names.
-/

/-- `ChipletCols`: the shared columns and the row counter. -/
structure ChipletCols (F : Type) where
  chiplets : Vector F 21
  chipClk : F

/-- `ControllerCols`, with the state split as `rate0`, `rate1` and `capacity`
split it. -/
structure ControllerCols (F : Type) where
  s0 : F
  s1 : F
  s2 : F
  rate0 : Vector F 4
  rate1 : Vector F 4
  capacity : Vector F 4
  nodeIndex : F
  mrupdateId : F
  isBoundary : F
  directionBit : F
  permId : F

/-- `BitwiseCols`. -/
structure BitwiseCols (F : Type) where
  opFlag : F
  a : F
  b : F
  aBits : Vector F 4
  bBits : Vector F 4
  prevOutput : F
  output : F

/-- `MemoryCols`. -/
structure MemoryCols (F : Type) where
  isRead : F
  isWord : F
  ctx : F
  wordAddr : F
  idx0 : F
  idx1 : F
  clk : F
  values : Vector F 4
  d0 : F
  d1 : F
  dInv : F
  isSameCtxAndAddr : F

namespace ChipletCols

variable {F : Type} (cols : ChipletCols F)

/-- `controller()`, the columns `1..21`. -/
def controller : ControllerCols F where
  s0 := cols.chiplets[1]
  s1 := cols.chiplets[2]
  s2 := cols.chiplets[3]
  rate0 := #v[cols.chiplets[4], cols.chiplets[5], cols.chiplets[6], cols.chiplets[7]]
  rate1 := #v[cols.chiplets[8], cols.chiplets[9], cols.chiplets[10], cols.chiplets[11]]
  capacity := #v[cols.chiplets[12], cols.chiplets[13], cols.chiplets[14], cols.chiplets[15]]
  nodeIndex := cols.chiplets[16]
  mrupdateId := cols.chiplets[17]
  isBoundary := cols.chiplets[18]
  directionBit := cols.chiplets[19]
  permId := cols.chiplets[20]

/-- `bitwise()`, the columns `2..15`. -/
def bitwise : BitwiseCols F where
  opFlag := cols.chiplets[2]
  a := cols.chiplets[3]
  b := cols.chiplets[4]
  aBits := #v[cols.chiplets[5], cols.chiplets[6], cols.chiplets[7], cols.chiplets[8]]
  bBits := #v[cols.chiplets[9], cols.chiplets[10], cols.chiplets[11], cols.chiplets[12]]
  prevOutput := cols.chiplets[13]
  output := cols.chiplets[14]

/-- `memory()`, the columns `3..18`. -/
def memory : MemoryCols F where
  isRead := cols.chiplets[3]
  isWord := cols.chiplets[4]
  ctx := cols.chiplets[5]
  wordAddr := cols.chiplets[6]
  idx0 := cols.chiplets[7]
  idx1 := cols.chiplets[8]
  clk := cols.chiplets[9]
  values := #v[cols.chiplets[10], cols.chiplets[11], cols.chiplets[12], cols.chiplets[13]]
  d0 := cols.chiplets[14]
  d1 := cols.chiplets[15]
  dInv := cols.chiplets[16]
  isSameCtxAndAddr := cols.chiplets[17]

/-- `memory_word_addr_lo()`. -/
def memoryWordAddrLo : F := cols.chiplets[18]

/-- `memory_word_addr_hi()`. -/
def memoryWordAddrHi : F := cols.chiplets[19]

end ChipletCols

/-!
# Chiplet selectors

A row belongs to the chiplet whose selector is the first zero among the five
selector columns, and to the padding when there is none.  The flags that gate
the constraints of a chiplet are products of selectors of a row and the next.
-/

variable {F : Type} [Field F]

/-- `ChipletFlags`. -/
structure ChipletFlags (F : Type) where
  isActive : F
  isTransition : F
  isLast : F
  nextIsFirst : F

/-- `ChipletSelectors`. -/
structure ChipletSelectors (F : Type) where
  controller : ChipletFlags F
  bitwise : ChipletFlags F
  memory : ChipletFlags F
  ace : ChipletFlags F

/-- The constraints `build_chiplet_selectors` enforces. -/
def selectorConstraints (frame : AirFrame F (ChipletCols F)) : List F :=
  let s0 := frame.current.chiplets[0]
  let s1 := frame.current.chiplets[1]
  let s2 := frame.current.chiplets[2]
  let s3 := frame.current.chiplets[3]
  let s4 := frame.current.chiplets[4]
  let s0Next := frame.next.chiplets[0]
  let s1Next := frame.next.chiplets[1]
  let s2Next := frame.next.chiplets[2]
  let s3Next := frame.next.chiplets[3]
  let s4Next := frame.next.chiplets[4]
  let s01 := s0 * s1
  let s012 := s01 * s2
  let s0123 := s012 * s3
  let s01234 := s0123 * s4
  assertBool s0 ++
    when frame.isTransition (when s0 (assertOne s0Next)) ++
    when s0 (assertBool s1) ++ when s01 (assertBool s2) ++ when s012 (assertBool s3) ++
    when s0123 (assertBool s4) ++
    when frame.isTransition (
      when s01 (assertEq s1Next s1) ++ when s012 (assertEq s2Next s2) ++
      when s0123 (assertEq s3Next s3) ++ when s01234 (assertEq s4Next s4)) ++
    when frame.isLastRow (assertOne s0 ++ assertOne s1 ++ assertOne s2 ++ assertOne s3 ++ assertOne s4)

/-- The flags `build_chiplet_selectors` returns. -/
def buildChipletSelectors (frame : AirFrame F (ChipletCols F)) : ChipletSelectors F :=
  let s0 := frame.current.chiplets[0]
  let s1 := frame.current.chiplets[1]
  let s2 := frame.current.chiplets[2]
  let s3 := frame.current.chiplets[3]
  let s0Next := frame.next.chiplets[0]
  let s1Next := frame.next.chiplets[1]
  let s2Next := frame.next.chiplets[2]
  let s3Next := frame.next.chiplets[3]
  let s01 := s0 * s1
  let s012 := s01 * s2
  let s0123 := s012 * s3
  let ctrlIsLast := (1 - s0) * s0Next
  let isBitwise := s0 - s01
  let isMemory := s01 - s012
  let isAce := s012 - s0123
  {
    controller := {
      isActive := 1 - s0
      isTransition := frame.isTransition * (1 - s0) * (1 - s0Next)
      isLast := ctrlIsLast
      nextIsFirst := 0 }
    bitwise := {
      isActive := isBitwise
      isTransition := frame.isTransition * s0 * (1 - s1Next)
      isLast := isBitwise * s1Next
      nextIsFirst := ctrlIsLast * (1 - s1Next) }
    memory := {
      isActive := isMemory
      isTransition := frame.isTransition * s01 * (1 - s2Next)
      isLast := isMemory * s2Next
      nextIsFirst := (isBitwise + ctrlIsLast) * s1Next * (1 - s2Next) }
    ace := {
      isActive := isAce
      isTransition := frame.isTransition * s012 * (1 - s3Next)
      isLast := isAce * s3Next
      nextIsFirst := s0Next * s1Next * s2Next * (1 - s3Next) * (1 - s012) } }

/-- `ChipletActiveFlags::kernel_rom`, the one flag of the kernel ROM. -/
def kernelRomIsActive (cols : ChipletCols F) : F :=
  let s0123 := cols.chiplets[0] * cols.chiplets[1] * cols.chiplets[2] * cols.chiplets[3]
  s0123 - s0123 * cols.chiplets[4]

/-!
# Sections of the chiplets trace

The selector constraints hold row by row.  What they say about the whole
trace is that the chiplet of a row never moves back, so that the rows fall
into consecutive sections, and that the flags of a chiplet are the indicators
of its section: of its rows, of its rows but the last, of its last row and of
the row before its first.
-/

/-! ## The owner of a row -/

variable {cols : ChipletCols F} {frame : AirFrame F (ChipletCols F)} {rows : List (ChipletCols F)}
  {index : Nat}

inductive Chiplet where
  | controller | bitwise | memory | ace | kernelRom | padding
  deriving DecidableEq

/-- The place of a chiplet in the trace. -/
def Chiplet.rank : Chiplet -> Nat
  | controller => 0
  | bitwise => 1
  | memory => 2
  | ace => 3
  | kernelRom => 4
  | padding => 5

theorem Chiplet.rank_injective {left right : Chiplet}
    (same : left.rank = right.rank) : left = right := by
  cases left <;> cases right <;> first | rfl | cases same

/-- The selectors of a row are ones up to the first zero, which names the
owner.  Columns behind the first zero belong to the owner and are free. -/
def Owns (cols : ChipletCols F) : Chiplet -> Prop
  | .controller => cols.chiplets[0] = 0
  | .bitwise => cols.chiplets[0] = 1 ∧ cols.chiplets[1] = 0
  | .memory => cols.chiplets[0] = 1 ∧ cols.chiplets[1] = 1 ∧ cols.chiplets[2] = 0
  | .ace => cols.chiplets[0] = 1 ∧ cols.chiplets[1] = 1 ∧ cols.chiplets[2] = 1 ∧
    cols.chiplets[3] = 0
  | .kernelRom => cols.chiplets[0] = 1 ∧ cols.chiplets[1] = 1 ∧ cols.chiplets[2] = 1 ∧
      cols.chiplets[3] = 1 ∧ cols.chiplets[4] = 0
  | .padding => cols.chiplets[0] = 1 ∧ cols.chiplets[1] = 1 ∧ cols.chiplets[2] = 1 ∧
      cols.chiplets[3] = 1 ∧ cols.chiplets[4] = 1

instance [DecidableEq F] (cols : ChipletCols F) : forall owner, Decidable (Owns cols owner)
  | .controller => inferInstanceAs (Decidable (_ = _))
  | .bitwise | .memory | .ace | .kernelRom | .padding => inferInstanceAs (Decidable (_ ∧ _))

theorem Owns.unique {left right : Chiplet} (first : Owns cols left) (second : Owns cols right) :
    left = right := by
  cases left <;> cases right <;> simp_all [Owns]

/-- What the constraints say at one row: it has an owner, the last row is
padding, and the next row is not owned by an earlier chiplet. -/
theorem owner_of_vanish (holds : Vanish (selectorConstraints frame)) :
    ∃ owner, Owns frame.current owner ∧ (frame.isLastRow ≠ 0 -> owner = .padding) ∧
      forall next, Owns frame.next next -> frame.isTransition ≠ 0 -> owner.rank ≤ next.rank := by
  simp only [selectorConstraints, vanish_append, vanish_when, vanish_assertBool, vanish_assertOne,
    vanish_assertEq] at holds
  rcases holds with ⟨⟨⟨⟨⟨⟨⟨bool0, stays0⟩, bool1⟩, bool2⟩, bool3⟩, bool4⟩, stays⟩, last⟩
  rcases bool0 with zero0 | one0
  · refine ⟨.controller, zero0, fun isLast => ?_, fun _ _ _ => Nat.zero_le _⟩
    exact absurd ((last isLast).1.1.1.1.symm.trans zero0) one_ne_zero
  rcases bool1 (by simp [one0]) with zero1 | one1
  · refine ⟨.bitwise, ⟨one0, zero1⟩, fun isLast => ?_, fun next owns moves => ?_⟩
    · exact absurd ((last isLast).1.1.1.2.symm.trans zero1) one_ne_zero
    · have next0 := stays0 moves (by simp [one0])
      cases next <;> simp_all [Owns, Chiplet.rank]
  rcases bool2 (by simp [one0, one1]) with zero2 | one2
  · refine ⟨.memory, ⟨one0, one1, zero2⟩, fun isLast => ?_, fun next owns moves => ?_⟩
    · exact absurd ((last isLast).1.1.2.symm.trans zero2) one_ne_zero
    · have next0 := stays0 moves (by simp [one0])
      have next1 := (stays moves).1.1.1 (by simp [one0, one1])
      cases next <;> simp_all [Owns, Chiplet.rank]
  rcases bool3 (by simp [one0, one1, one2]) with zero3 | one3
  · refine ⟨.ace, ⟨one0, one1, one2, zero3⟩, fun isLast => ?_, fun next owns moves => ?_⟩
    · exact absurd ((last isLast).1.2.symm.trans zero3) one_ne_zero
    · have next0 := stays0 moves (by simp [one0])
      have next1 := (stays moves).1.1.1 (by simp [one0, one1])
      have next2 := (stays moves).1.1.2 (by simp [one0, one1, one2])
      cases next <;> simp_all [Owns, Chiplet.rank]
  have moved : frame.isTransition ≠ 0 -> frame.next.chiplets[0] = 1 ∧ frame.next.chiplets[1] = 1 ∧
      frame.next.chiplets[2] = 1 ∧ frame.next.chiplets[3] = 1 := by
    intro moves
    refine ⟨stays0 moves (by simp [one0]), ?_, ?_, ?_⟩
    · exact ((stays moves).1.1.1 (by simp [one0, one1])).trans one1
    · exact ((stays moves).1.1.2 (by simp [one0, one1, one2])).trans one2
    · exact ((stays moves).1.2 (by simp [one0, one1, one2, one3])).trans one3
  rcases bool4 (by simp [one0, one1, one2, one3]) with zero4 | one4
  · refine ⟨.kernelRom, ⟨one0, one1, one2, one3, zero4⟩, fun isLast => ?_,
      fun next owns moves => ?_⟩
    · exact absurd ((last isLast).2.symm.trans zero4) one_ne_zero
    · rcases moved moves with ⟨next0, next1, next2, next3⟩
      cases next <;> simp_all [Owns, Chiplet.rank]
  · refine ⟨.padding, ⟨one0, one1, one2, one3, one4⟩, fun _ => rfl, fun next owns moves => ?_⟩
    rcases moved moves with ⟨next0, next1, next2, next3⟩
    have next4 := ((stays moves).2 (by simp [one0, one1, one2, one3, one4])).trans one4
    cases next <;> simp_all [Owns, Chiplet.rank]

/-! ## Flags of one row -/

/-- An indicator. -/
def mark (condition : Prop) [Decidable condition] : F := if condition then 1 else 0

/-- The flags of a chiplet, from the owners of a row and of the next. -/
def flagsOf (chiplet owner next : Chiplet) : ChipletFlags F where
  isActive := mark (owner = chiplet)
  isTransition := mark (owner = chiplet ∧ next = chiplet)
  isLast := mark (owner = chiplet ∧ next ≠ chiplet)
  nextIsFirst := mark (owner ≠ chiplet ∧ next = chiplet)

/-- Behind the last row nothing follows, and the last row is padding. -/
def noFlags : ChipletFlags F := ⟨0, 0, 0, 0⟩

theorem flags_of_owners {owner next : Chiplet} (owns : Owns frame.current owner)
    (ownsNext : Owns frame.next next) (forward : owner.rank ≤ next.rank)
    (moves : frame.isTransition = 1) : buildChipletSelectors frame = {
      controller := flagsOf .controller owner next
      bitwise := flagsOf .bitwise owner next
      memory := flagsOf .memory owner next
      ace := flagsOf .ace owner next } := by
  cases owner <;> cases next <;>
    simp_all [Owns, Chiplet.rank, buildChipletSelectors, flagsOf, mark]

theorem flags_of_padding (owns : Owns frame.current .padding) (stops : frame.isTransition = 0) :
    buildChipletSelectors frame = ⟨noFlags, noFlags, noFlags, noFlags⟩ := by
  rcases owns with ⟨one0, one1, one2, one3, _⟩
  simp [buildChipletSelectors, noFlags, one0, one1, one2, one3, stops]

theorem kernelRomIsActive_eq {owner : Chiplet} (owns : Owns cols owner) :
    kernelRomIsActive cols = mark (owner = .kernelRom) := by
  cases owner <;> simp_all [Owns, kernelRomIsActive, mark]

/-! ## Sections of the trace -/

/-- The owners of all rows, in the order of the trace. -/
structure Owners (rows : List (ChipletCols F)) (owners : List Chiplet) : Prop where
  owns : List.Forall₂ Owns rows owners
  forward : (owners.map Chiplet.rank).Pairwise (· ≤ ·)
  last : forall index owner, owners[index]? = some owner -> index + 1 = rows.length ->
    owner = .padding

/-- A row of the trace with its owner. -/
theorem owner_at {owners : List Chiplet} (owns : List.Forall₂ Owns rows owners)
    (found : rows[index]? = some cols) : ∃ owner, owners[index]? = some owner ∧
      Owns cols owner := by
  have inside := (List.getElem?_eq_some_iff.mp found).1
  have inOwners : index < owners.length := owns.length_eq ▸ inside
  refine ⟨owners[index], List.getElem?_eq_getElem inOwners, ?_⟩
  have pair := (List.forall₂_iff_get.mp owns).2 index inside inOwners
  rw [List.getElem?_eq_getElem inside] at found
  cases found
  exact pair

/-- Every row has a frame. -/
theorem exists_frame (found : rows[index]? = some cols) :
    ∃ frame : AirFrame F (ChipletCols F), frameAt rows index = some frame ∧
      frame.current = cols ∧ (index + 1 = rows.length -> frame.isLastRow ≠ 0) := by
  have inside := (List.getElem?_eq_some_iff.mp found).1
  by_cases last : index + 1 = rows.length
  · have first : rows[0]? = some rows[0] := List.getElem?_eq_getElem (by omega)
    exact ⟨_, frameAt_last found last first, rfl, fun _ => one_ne_zero⟩
  · have next : rows[index + 1]? = some rows[index + 1] := List.getElem?_eq_getElem (by omega)
    exact ⟨_, frameAt_of_next found next, rfl, fun isLast => absurd isLast last⟩

theorem exists_owners (holds : Satisfies selectorConstraints rows) :
    ∃ owners, Owners rows owners := by
  have each : forall cols, cols ∈ rows -> ∃ owner, Owns cols owner := by
    intro cols member
    rcases List.mem_iff_getElem?.mp member with ⟨index, found⟩
    rcases exists_frame found with ⟨frame, atFrame, rfl, _⟩
    rcases owner_of_vanish (holds index frame atFrame) with ⟨owner, owns, _⟩
    exact ⟨owner, owns⟩
  rcases exists_forall₂ each with ⟨owners, owns⟩
  refine ⟨owners, owns, pairwise_of_neighbours ?_, ?_⟩
  · intro index left right atLeft atRight
    rw [List.getElem?_map] at atLeft atRight
    rcases Option.map_eq_some_iff.mp atLeft with ⟨owner, atOwner, rfl⟩
    rcases Option.map_eq_some_iff.mp atRight with ⟨next, atNext, rfl⟩
    have inside : index + 1 < rows.length :=
      owns.length_eq ▸ (List.getElem?_eq_some_iff.mp atNext).1
    have current : rows[index]? = some rows[index] := List.getElem?_eq_getElem (by omega)
    have behind : rows[index + 1]? = some rows[index + 1] := List.getElem?_eq_getElem inside
    rcases owner_at owns current with ⟨_, sameOwner, ownsCurrent⟩
    rcases owner_at owns behind with ⟨_, sameNext, ownsNext⟩
    rw [atOwner] at sameOwner
    rw [atNext] at sameNext
    cases sameOwner
    cases sameNext
    have frame := frameAt_of_next (F := F) current behind
    rcases owner_of_vanish (holds index _ frame) with ⟨found, ownsFound, _, step⟩
    rw [ownsCurrent.unique ownsFound]
    exact step next ownsNext one_ne_zero
  · intro index owner atOwner last
    have inside : index < rows.length := by omega
    have current : rows[index]? = some rows[index] := List.getElem?_eq_getElem inside
    rcases exists_frame current with ⟨frame, atFrame, same, isLast⟩
    rcases owner_at owns current with ⟨_, sameOwner, ownsCurrent⟩
    rw [atOwner] at sameOwner
    cases sameOwner
    rcases owner_of_vanish (holds index frame atFrame) with ⟨found, ownsFound, padded, _⟩
    rw [same] at ownsFound
    rw [ownsCurrent.unique ownsFound]
    exact padded (isLast last)

/-- The flags of the section between two starts, as indicators. -/
def sectionFlags (start : Nat -> Nat) (chiplet : Chiplet) (index : Nat) : ChipletFlags F where
  isActive := mark (start chiplet.rank ≤ index ∧ index < start (chiplet.rank + 1))
  isTransition := mark (start chiplet.rank ≤ index ∧ index + 1 < start (chiplet.rank + 1))
  isLast := mark (start chiplet.rank ≤ index ∧ index + 1 = start (chiplet.rank + 1))
  nextIsFirst :=
    mark (index + 1 = start chiplet.rank ∧ start chiplet.rank < start (chiplet.rank + 1))

theorem mark_congr {left right : Prop} [Decidable left] [Decidable right] (same : left ↔ right) :
    (mark left : F) = mark right := by
  unfold mark
  exact if_congr same rfl rfl

/-- Owners of neighbouring rows give the indicators of the section. -/
theorem flagsOf_eq_sectionFlags {start : Nat -> Nat} {chiplet owner next : Chiplet}
    (here : owner = chiplet ↔ start chiplet.rank ≤ index ∧ index < start (chiplet.rank + 1))
    (there : next = chiplet ↔ start chiplet.rank ≤ index + 1 ∧ index + 1 < start (chiplet.rank + 1)) :
    (flagsOf chiplet owner next : ChipletFlags F) = sectionFlags start chiplet index := by
  unfold flagsOf sectionFlags
  rw [mark_congr here, mark_congr (F := F) (and_congr here there),
    mark_congr (F := F) (and_congr here (not_congr there)),
    mark_congr (F := F) (and_congr (not_congr here) there)]
  congr 1 <;> apply mark_congr <;> omega

/-- A trace that satisfies the selector constraints falls into consecutive
sections, one for each chiplet and the padding, and the flags of a chiplet mark
its section.  A section whose start is that of the next one is empty. -/
theorem chiplet_sections {rows : List (ChipletCols F)}
    (holds : Satisfies selectorConstraints rows) :
    ∃ start : Nat -> Nat, start 0 = 0 ∧ Monotone start ∧ start 6 = rows.length ∧
      forall index frame, frameAt rows index = some frame ->
        (forall chiplet, Owns frame.current chiplet ↔
          start chiplet.rank ≤ index ∧ index < start (chiplet.rank + 1)) ∧
        buildChipletSelectors frame = {
          controller := sectionFlags start .controller index
          bitwise := sectionFlags start .bitwise index
          memory := sectionFlags start .memory index
          ace := sectionFlags start .ace index } ∧
        kernelRomIsActive frame.current = (sectionFlags start .kernelRom index).isActive := by
  rcases exists_owners holds with ⟨owners, owned⟩
  have count : owners.length = rows.length := owned.owns.length_eq.symm
  set start := sectionStart (owners.map Chiplet.rank)
  have place : forall {index owner}, owners[index]? = some owner -> forall chiplet,
      owner = chiplet ↔ start chiplet.rank ≤ index ∧ index < start (chiplet.rank + 1) := by
    intro index owner found chiplet
    have ranked : (owners.map Chiplet.rank)[index]? = some owner.rank := by
      rw [List.getElem?_map, found, Option.map_some]
    rw [← rank_eq_iff owned.forward ranked chiplet.rank]
    exact ⟨fun same => same ▸ rfl, Chiplet.rank_injective⟩
  have total : start 6 = rows.length := by
    rw [show start = sectionStart _ from rfl, sectionStart_of_bounded, List.length_map, count]
    intro rank member
    rcases List.mem_map.mp member with ⟨owner, _, rfl⟩
    cases owner <;> decide
  refine ⟨start, sectionStart_zero _, sectionStart_mono _, total, fun index frame atFrame => ?_⟩
  have inside := lt_of_frameAt atFrame
  have current : rows[index]? = some rows[index] := List.getElem?_eq_getElem inside
  rcases owner_at owned.owns current with ⟨owner, atOwner, owns⟩
  have ownsIff : forall chiplet, Owns rows[index] chiplet ↔
      start chiplet.rank ≤ index ∧ index < start (chiplet.rank + 1) := by
    intro chiplet
    rw [← place atOwner chiplet]
    exact ⟨owns.unique, fun same => same ▸ owns⟩
  by_cases last : index + 1 = rows.length
  · have first : rows[0]? = some rows[0] := List.getElem?_eq_getElem (by omega)
    rw [frameAt_last current last first] at atFrame
    cases atFrame
    have padded := owned.last index owner atOwner last
    subst padded
    -- nothing but padding reaches the end, so no section but the padding does
    have outside : forall chiplet : Chiplet, chiplet ≠ .padding ->
        (sectionFlags start chiplet index : ChipletFlags F) = noFlags := by
      intro chiplet other
      have elsewhere := (not_congr (place atOwner chiplet)).mp (Ne.symm other)
      have bound := sectionStart_mono (owners.map Chiplet.rank)
        (show chiplet.rank + 1 ≤ 5 by cases chiplet <;> first | decide | exact absurd rfl other)
      have paddedStart := ((place atOwner .padding).mp rfl).1
      have early : start (chiplet.rank + 1) ≤ index := le_trans bound paddedStart
      unfold sectionFlags noFlags mark
      congr 1 <;> apply if_neg <;> omega
    refine ⟨ownsIff, ?_, ?_⟩
    · rw [flags_of_padding owns rfl, outside _ (by decide), outside _ (by decide),
        outside _ (by decide), outside _ (by decide)]
    · rw [kernelRomIsActive_eq owns, outside _ (by decide)]
      rfl
  · have behind : rows[index + 1]? = some rows[index + 1] := List.getElem?_eq_getElem (by omega)
    rw [frameAt_of_next current behind] at atFrame
    cases atFrame
    rcases owner_at owned.owns behind with ⟨next, atNext, ownsNext⟩
    have ranks := List.pairwise_iff_getElem.mp owned.forward index (index + 1)
      (by rw [List.length_map]; omega) (by rw [List.length_map]; omega) (Nat.lt_succ_self index)
    rw [List.getElem_map, List.getElem_map] at ranks
    have ownerHere := (List.getElem?_eq_some_iff.mp atOwner).2
    have ownerThere := (List.getElem?_eq_some_iff.mp atNext).2
    rw [ownerHere, ownerThere] at ranks
    refine ⟨ownsIff, ?_, ?_⟩
    · rw [flags_of_owners owns ownsNext ranks rfl,
        flagsOf_eq_sectionFlags (place atOwner _) (place atNext _),
        flagsOf_eq_sectionFlags (place atOwner _) (place atNext _),
        flagsOf_eq_sectionFlags (place atOwner _) (place atNext _),
        flagsOf_eq_sectionFlags (place atOwner _) (place atNext _)]
    · rw [kernelRomIsActive_eq owns]
      exact mark_congr (place atOwner .kernelRom)

/-- A row with given selectors and zeros behind them. -/
def selectorRow (selectors : Vector Felt 5) : ChipletCols Felt where
  chiplets := selectors ++ Vector.replicate 16 (0 : Felt)
  chipClk := 0

/-- A controller row, a memory row and a padding row; there is no bitwise
section between the first two. -/
def sampleRows : List (ChipletCols Felt) :=
  [selectorRow #v[0, 0, 0, 0, 0], selectorRow #v[1, 1, 0, 0, 0], selectorRow #v[1, 1, 1, 1, 1]]

/-- The memory flags at the row before the memory section of the sample. -/
theorem chiplet_sections_sample : Satisfies selectorConstraints sampleRows ∧
    ∃ start : Nat -> Nat, start 6 = 3 ∧ forall frame, frameAt sampleRows 0 = some frame ->
      (buildChipletSelectors frame).memory = sectionFlags start .memory 0 := by
  have holds : Satisfies selectorConstraints sampleRows := satisfies_of_check (by decide +kernel)
  rcases chiplet_sections holds with ⟨start, _, _, total, each⟩
  refine ⟨holds, start, total, fun frame atFrame => ?_⟩
  rw [(each 0 frame atFrame).2.1]

end MidenVm.Air
