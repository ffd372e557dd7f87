import MidenVm.Air.Memory

namespace MidenVm.Air

open Foundation Foundation.Air List Nat Felt

/-!
# What the memory constraints mean

Between two memory rows the constraints say which of context, address and
clock moves, over the field.  The limbs of the difference are small, and so
are contexts, addresses and clocks, so the difference is one of integers and
the rows are sorted.  Along a sorted section the values of a row are the
content of its word, which is what an ordinary memory holds after the accesses
so far.
-/

/-! ## Rows -/

variable {row : ChipletCols Felt} {last : MemoryCols Felt} {rows : List (ChipletCols Felt)}

/-- An access that stores a value in an element of the word. -/
def Writes (cols : MemoryCols Felt) (lane : Fin 4) : Prop :=
  cols.isRead = 0 ∧ (cols.isWord = 1 ∨
    (cols.idx0 = ((lane.val % 2 : Nat) : Felt) ∧ cols.idx1 = ((lane.val / 2 : Nat) : Felt)))

instance (cols : MemoryCols Felt) (lane : Fin 4) : Decidable (Writes cols lane) :=
  inferInstanceAs (Decidable (_ ∧ _))

/-- The columns that are checked by lookups: limbs below `2^16`, and contexts
and clocks below `2^32`. -/
structure MemoryRanges (row : ChipletCols Felt) : Prop where
  d0 : row.memory.d0.val < 2 ^ 16
  d1 : row.memory.d1.val < 2 ^ 16
  w0 : row.memoryWordAddrLo.val < 2 ^ 16
  w1 : row.memoryWordAddrHi.val < 2 ^ 16
  fourTimesW1 : (4 * row.memoryWordAddrHi).val < 2 ^ 16
  ctx : row.memory.ctx.val < 2 ^ 32
  clk : row.memory.clk.val < 2 ^ 32

/-- The flag of an element is not zero exactly when the access leaves it. -/
theorem computeNotWrittenFlags_ne_zero (holds : Vanish (memoryRowConstraints row)) (lane : Fin 4) :
    (computeNotWrittenFlags row.memory).get lane ≠ 0 ↔ ¬ Writes row.memory lane := by
  simp only [memoryRowConstraints, vanish_append, vanish_when, vanish_assertBool, vanish_assertEq,
    vanish_assertZero] at holds
  rcases holds with ⟨⟨⟨⟨⟨read, word⟩, low⟩, high⟩, _⟩, _⟩
  rcases read with read | read <;> rcases word with word | word <;> rcases low with low | low <;>
    rcases high with high | high <;> fin_cases lane <;>
    simp [computeNotWrittenFlags, Writes, read, word, low, high]

/-- Word addresses are multiples of four below `2^32`. -/
theorem wordAddr_of_row (holds : Vanish (memoryRowConstraints row)) (ranges : MemoryRanges row) :
    row.memory.wordAddr.val < 2 ^ 32 ∧ 4 ∣ row.memory.wordAddr.val := by
  simp only [memoryRowConstraints, vanish_append, vanish_when, vanish_assertBool, vanish_assertEq,
    vanish_assertZero] at holds
  have address := holds.1.2
  have low := ranges.w0
  have high := ranges.w1
  have small : row.memoryWordAddrHi.val < 2 ^ 14 := by
    have product : 4 * row.memoryWordAddrHi = ((4 * row.memoryWordAddrHi.val : Nat) : Felt) := by
      push_cast
      rw [natCast_val]
    have value : (4 * row.memoryWordAddrHi).val = 4 * row.memoryWordAddrHi.val := by
      rw [product, val_natCast_of_lt (by omega)]
    have bound := ranges.fourTimesW1
    omega
  have recombined : row.memory.wordAddr =
      (((row.memoryWordAddrHi.val * 2 ^ 16 + row.memoryWordAddrLo.val) * 4 : Nat) : Felt) := by
    rw [address]
    simp only [cast_add, cast_mul, cast_pow, cast_ofNat, natCast_val]
  rw [recombined, val_natCast_of_lt (by omega)]
  exact ⟨by omega, ⟨_, mul_comm _ _⟩⟩

/-! ## Neighbouring rows -/

/-- A difference that equals a small integer is a difference of integers. -/
theorem val_eq_add_of_sub {left right : Felt} {delta : Nat} (leftSmall : left.val < 2 ^ 32)
    (deltaSmall : delta < 2 ^ 32) (difference : right - left = (delta : Felt)) :
    right.val = left.val + delta := by
  have sum : right = ((left.val + delta : Nat) : Felt) := by
    push_cast
    rw [natCast_val, ← difference]
    ring
  rw [sum, val_natCast_of_lt (by omega)]

/-- What the constraints say about two neighbouring rows. -/
structure MemoryStep (cols next : MemoryCols Felt) : Prop where
  order : (cols.ctx.val < next.ctx.val) ∨
    (cols.ctx = next.ctx ∧ cols.wordAddr.val < next.wordAddr.val) ∨
    (cols.ctx = next.ctx ∧ cols.wordAddr = next.wordAddr ∧ cols.clk.val ≤ next.clk.val)
  reads : cols.ctx = next.ctx -> cols.wordAddr = next.wordAddr -> cols.clk = next.clk ->
    cols.isRead = 1 ∧ next.isRead = 1
  kept : forall lane : Fin 4, ¬ Writes next lane -> next.values.get lane =
    if cols.ctx = next.ctx ∧ cols.wordAddr = next.wordAddr then cols.values.get lane else 0

/-- The shared inverse column separates the three cases. -/
theorem memoryStep_cases {cols next : MemoryCols Felt}
    (holds : Vanish (memoryTransitionConstraints cols next)) :
    (cols.ctx ≠ next.ctx ∧ next.isSameCtxAndAddr = 0 ∧ next.ctx - cols.ctx = next.d1 * 2 ^ 16 + next.d0) ∨
    (cols.ctx = next.ctx ∧ cols.wordAddr ≠ next.wordAddr ∧ next.isSameCtxAndAddr = 0 ∧
      next.wordAddr - cols.wordAddr = next.d1 * 2 ^ 16 + next.d0) ∨
    (cols.ctx = next.ctx ∧ cols.wordAddr = next.wordAddr ∧ next.isSameCtxAndAddr = 1 ∧
      next.clk - cols.clk = next.d1 * 2 ^ 16 + next.d0) := by
  simp only [memoryTransitionConstraints, vanish_append, vanish_when, vanish_assertBool,
    vanish_assertEq, vanish_assertZero] at holds
  rcases holds with ⟨⟨⟨⟨⟨ctxBool, sameCtx⟩, flag⟩, delta⟩, _⟩, _⟩
  rcases ctxBool with unchanged | changed
  · rcases sameCtx (by rw [unchanged]; simp) with ⟨⟨ctxZero, addrBool⟩, sameAddr⟩
    have ctxSame : cols.ctx = next.ctx := (sub_eq_zero.mp ctxZero).symm
    rw [unchanged] at flag delta
    rcases addrBool with addrUnchanged | addrChanged
    · have addrZero := sameAddr (by rw [addrUnchanged]; simp)
      rw [addrUnchanged] at flag delta
      refine .inr (.inr ⟨ctxSame, (sub_eq_zero.mp addrZero).symm, ?_, ?_⟩)
      · rw [flag]
        ring
      · rw [← delta]
        ring
    · rw [addrChanged] at flag delta
      refine .inr (.inl ⟨ctxSame, ?_, ?_, ?_⟩)
      · intro addrSame
        rw [addrSame, sub_self, zero_mul] at addrChanged
        exact zero_ne_one addrChanged
      · rw [flag]
        ring
      · rw [← delta]
        ring
  · rw [changed] at flag delta
    refine .inl ⟨?_, ?_, ?_⟩
    · intro ctxSame
      rw [ctxSame, sub_self, zero_mul] at changed
      exact zero_ne_one changed
    · rw [flag]
      ring
    · rw [← delta]
      ring

theorem memoryStep_of_vanish {nextRow : ChipletCols Felt}
    (holds : Vanish (memoryTransitionConstraints row.memory nextRow.memory))
    (rowHolds : Vanish (memoryRowConstraints row))
    (nextHolds : Vanish (memoryRowConstraints nextRow))
    (ranges : MemoryRanges row) (nextRanges : MemoryRanges nextRow) :
    MemoryStep row.memory nextRow.memory := by
  have shape := memoryStep_cases holds
  have addr := (wordAddr_of_row rowHolds ranges).1
  have limbs : nextRow.memory.d1 * 2 ^ 16 + nextRow.memory.d0 =
      ((nextRow.memory.d1.val * 2 ^ 16 + nextRow.memory.d0.val : Nat) : Felt) := by
    simp only [cast_add, cast_mul, cast_pow, cast_ofNat, natCast_val]
  have limbsSmall : nextRow.memory.d1.val * 2 ^ 16 + nextRow.memory.d0.val < 2 ^ 32 := by
    have first := nextRanges.d0
    have second := nextRanges.d1
    omega
  have flagged : nextRow.memory.isSameCtxAndAddr =
      if row.memory.ctx = nextRow.memory.ctx ∧ row.memory.wordAddr = nextRow.memory.wordAddr
        then 1 else 0 := by
    rcases shape with ⟨moved, flag, _⟩ | ⟨_, moved, flag, _⟩ | ⟨same, sameAddr, flag, _⟩
    · rw [flag, if_neg (fun both => moved both.1)]
    · rw [flag, if_neg (fun both => moved both.2)]
    · rw [flag, if_pos ⟨same, sameAddr⟩]
  rw [limbs] at shape
  simp only [memoryTransitionConstraints, vanish_append, vanish_when, vanish_assertEq,
    vanish_assertZero, forWord, vanish_flatMap] at holds
  rcases holds with ⟨⟨_, readOnly⟩, values⟩
  refine ⟨?_, ?_, ?_⟩
  · rcases shape with ⟨moved, _, delta⟩ | ⟨same, moved, _, delta⟩ | ⟨same, sameAddr, _, delta⟩
    · have value := val_eq_add_of_sub ranges.ctx limbsSmall delta
      have different : row.memory.ctx.val ≠ nextRow.memory.ctx.val :=
        fun equal => moved (val_injective equal)
      exact .inl (by omega)
    · have value := val_eq_add_of_sub addr limbsSmall delta
      have different : row.memory.wordAddr.val ≠ nextRow.memory.wordAddr.val :=
        fun equal => moved (val_injective equal)
      exact .inr (.inl ⟨same, by omega⟩)
    · have value := val_eq_add_of_sub ranges.clk limbsSmall delta
      exact .inr (.inr ⟨same, sameAddr, by omega⟩)
  · intro same sameAddr sameClk
    rw [if_pos ⟨same, sameAddr⟩] at flagged
    have noWrite := readOnly (by rw [flagged]; exact one_ne_zero) (by rw [sameClk]; simp)
    simp only [memoryRowConstraints, vanish_append, vanish_assertBool] at rowHolds nextHolds
    rcases rowHolds.1.1.1.1.1 with zero | one <;>
      rcases nextHolds.1.1.1.1.1 with nextZero | nextOne
    · rw [zero, nextZero] at noWrite
      exact absurd noWrite (by decide +kernel)
    · rw [zero, nextOne] at noWrite
      exact absurd noWrite (by decide +kernel)
    · rw [one, nextZero] at noWrite
      exact absurd noWrite (by decide +kernel)
    · exact ⟨one, nextOne⟩
  · intro lane left
    have kept := values lane (mem_finRange lane)
      ((computeNotWrittenFlags_ne_zero nextHolds lane).mpr left)
    rw [kept, flagged]
    split <;> ring

/-! ## Sections -/

/-- The order of accesses: by context, then word address, then clock. -/
def NotLater (left right : MemoryCols Felt) : Prop :=
  left.ctx.val < right.ctx.val ∨ (left.ctx = right.ctx ∧
    (left.wordAddr.val < right.wordAddr.val ∨ (left.wordAddr = right.wordAddr ∧
      left.clk.val ≤ right.clk.val)))

/-- One component of a lexicographic comparison. -/
theorem lex_trans {first second third : Felt} {left right both : Prop}
    (before : first.val < second.val ∨ (first = second ∧ left))
    (after : second.val < third.val ∨ (second = third ∧ right)) (rest : left -> right -> both) :
    first.val < third.val ∨ (first = third ∧ both) := by
  rcases before with below | ⟨rfl, here⟩
  · rcases after with above | ⟨rfl, _⟩
    · exact .inl (below.trans above)
    · exact .inl below
  · exact after.imp_right (And.imp_right (rest here))

theorem NotLater.trans {first second third : MemoryCols Felt} (left : NotLater first second)
    (right : NotLater second third) : NotLater first third :=
  lex_trans left right (fun before after => lex_trans before after le_trans)

theorem lex_squeeze {first second third : Felt} {left right : Prop}
    (before : first.val < second.val ∨ (first = second ∧ left))
    (after : second.val < third.val ∨ (second = third ∧ right)) (same : first = third) :
    first = second ∧ left ∧ right := by
  rcases before with below | ⟨rfl, here⟩
  · rcases after with above | ⟨rfl, _⟩
    · exact absurd (below.trans above) (same ▸ lt_irrefl _)
    · exact absurd below (same ▸ lt_irrefl _)
  · rcases after with above | ⟨_, there⟩
    · exact absurd above (same ▸ lt_irrefl _)
    · exact ⟨rfl, here, there⟩

/-- Accesses between two accesses of one word are accesses of that word. -/
theorem NotLater.squeeze {first second third : MemoryCols Felt} (left : NotLater first second)
    (right : NotLater second third) (sameCtx : first.ctx = third.ctx)
    (sameAddr : first.wordAddr = third.wordAddr) :
    first.ctx = second.ctx ∧ first.wordAddr = second.wordAddr ∧
      (first.clk = third.clk -> first.clk = second.clk) := by
  rcases lex_squeeze left right sameCtx with ⟨ctx, here, there⟩
  rcases lex_squeeze here there sameAddr with ⟨addr, before, after⟩
  exact ⟨ctx, addr, fun sameClk => val_injective (le_antisymm before (sameClk ▸ after))⟩

/-- The element of a word that an ordinary memory holds after some accesses. -/
def content (accesses : List (MemoryCols Felt)) (ctx wordAddr : Felt) (lane : Fin 4) : Felt :=
  accesses.foldl (fun value access =>
    if access.ctx = ctx ∧ access.wordAddr = wordAddr ∧
      Writes access lane then access.values.get lane
    else value) 0

theorem content_append (accesses : List (MemoryCols Felt)) (access : MemoryCols Felt)
    (ctx wordAddr : Felt) (lane : Fin 4) :
    content (accesses ++ [access]) ctx wordAddr lane =
      if access.ctx = ctx ∧ access.wordAddr = wordAddr ∧ Writes access lane
        then access.values.get lane else content accesses ctx wordAddr lane := by
  rw [content, foldl_append]
  rfl

theorem content_elsewhere {accesses : List (MemoryCols Felt)} {ctx wordAddr : Felt}
    (elsewhere : forall access, access ∈ accesses ->
      ¬ (access.ctx = ctx ∧ access.wordAddr = wordAddr)) (lane : Fin 4) :
    content accesses ctx wordAddr lane = 0 := by
  induction accesses using List.reverseRecOn with
  | nil => rfl
  | append_singleton front last ih =>
    have other := elsewhere last (mem_append_right front mem_cons_self)
    rw [content_append, if_neg (fun written => other ⟨written.1, written.2.1⟩)]
    exact ih (fun access member => elsewhere access (mem_append_left _ member))

/-- A section: steps between neighbours, and a first access that finds zeros. -/
structure MemorySection (accesses : List (MemoryCols Felt)) : Prop where
  steps : forall index left right, accesses[index]? = some left ->
    accesses[index + 1]? = some right -> MemoryStep left right
  first : forall access, accesses[0]? = some access -> forall lane : Fin 4,
    ¬ Writes access lane -> access.values.get lane = 0

theorem MemoryStep.notLater {left right : MemoryCols Felt} (step : MemoryStep left right) :
    NotLater left right := by
  rcases step.order with ctx | ⟨sameCtx, addr⟩ | ⟨sameCtx, sameAddr, clk⟩
  · exact .inl ctx
  · exact .inr ⟨sameCtx, .inl addr⟩
  · exact .inr ⟨sameCtx, .inr ⟨sameAddr, clk⟩⟩

namespace MemorySection

variable {accesses : List (MemoryCols Felt)}

/-- Leaving out the last access keeps a section. -/
theorem init (whole : MemorySection (accesses ++ [last])) : MemorySection accesses := by
  have kept : forall {index : Nat} {access : MemoryCols Felt}, accesses[index]? = some access ->
      (accesses ++ [last])[index]? = some access := by
    intro index access found
    rw [getElem?_append_left (List.getElem?_eq_some_iff.mp found).1, found]
  exact ⟨fun index left right atLeft atRight => whole.steps index left right (kept atLeft)
    (kept atRight), fun access found => whole.first access (kept found)⟩

/-- The step to the last access. -/
theorem last_step {previous : MemoryCols Felt}
    (whole : MemorySection (accesses ++ [previous] ++ [last])) : MemoryStep previous last := by
  apply whole.steps accesses.length
  · simp
  · simp

/-- Accesses are sorted, and two of one word at one clock are reads. -/
theorem ordered (whole : MemorySection accesses) : accesses.Pairwise (fun left right =>
    NotLater left right ∧ (left.ctx = right.ctx -> left.wordAddr = right.wordAddr ->
      left.clk = right.clk -> left.isRead = 1 ∧ right.isRead = 1)) := by
  -- An access between two accesses of one word at one clock is a third one.
  have between : IsTrans (MemoryCols Felt) (fun left right => NotLater left right ∧
      (left.ctx = right.ctx -> left.wordAddr = right.wordAddr -> left.clk = right.clk ->
        left.isRead = 1 ∧ right.isRead = 1)) := by
    refine ⟨fun first second third before after => ⟨before.1.trans after.1, fun ctx addr clk => ?_⟩⟩
    rcases before.1.squeeze after.1 ctx addr with ⟨sameCtx, sameAddr, sameClk⟩
    exact ⟨(before.2 sameCtx sameAddr (sameClk clk)).1,
      (after.2 (sameCtx ▸ ctx) (sameAddr ▸ addr) (sameClk clk ▸ clk)).2⟩
  refine isChain_iff_pairwise.mp (isChain_iff_getElem.mpr (fun index inside => ?_))
  have step := whole.steps index _ _ (getElem?_eq_getElem (by omega)) (getElem?_eq_getElem inside)
  exact ⟨step.notLater, step.reads⟩

/-- The values of an access are the content of its word behind it. -/
theorem values_eq_content (whole : MemorySection (accesses ++ [last])) (lane : Fin 4) :
    last.values.get lane = content (accesses ++ [last]) last.ctx last.wordAddr lane := by
  induction accesses using List.reverseRecOn generalizing last with
  | nil =>
    rw [content_append]
    split
    · rfl
    · rename_i left
      exact whole.first last rfl lane (fun writes => left ⟨rfl, rfl, writes⟩)
  | append_singleton earlier previous ih =>
    rw [content_append]
    split
    · rfl
    · rename_i left
      have step := whole.last_step
      rw [step.kept lane (fun writes => left ⟨rfl, rfl, writes⟩)]
      split
      · rename_i same
        rw [ih whole.init, same.1, same.2]
      · rename_i moved
        symm
        apply content_elsewhere
        rintro access member ⟨sameCtx, sameAddr⟩
        rcases mem_append.mp member with old | isPrevious
        · have ordered := (pairwise_append.mp whole.init.ordered).2.2 access old previous
            mem_cons_self
          rcases ordered.1.squeeze step.notLater sameCtx sameAddr with ⟨ctx, addr, _⟩
          exact moved ⟨ctx ▸ sameCtx, addr ▸ sameAddr⟩
        · rcases mem_singleton.mp isPrevious with rfl
          exact moved ⟨sameCtx, sameAddr⟩

/-- An access finds what was written last, or zero. -/
theorem unwritten_eq_content {front back : List (MemoryCols Felt)} {access : MemoryCols Felt}
    (whole : MemorySection (front ++ access :: back)) (lane : Fin 4)
    (left : ¬ Writes access lane) :
    access.values.get lane = content front access.ctx access.wordAddr lane := by
  have upTo : MemorySection (front ++ [access]) := by
    induction back using List.reverseRecOn with
    | nil => exact whole
    | append_singleton rest last ih =>
      apply ih
      have longer : MemorySection (front ++ access :: rest ++ [last]) := by
        rw [append_assoc, cons_append]
        exact whole
      exact longer.init
  rw [upTo.values_eq_content lane, content_append, if_neg (fun writes => left writes.2.2)]

end MemorySection

/-! ## The section of a trace -/

/-- The constraints that concern the memory section: the selectors and the
memory chiplet. -/
def memoryTraceConstraints (frame : AirFrame Felt (ChipletCols Felt)) : List Felt :=
  selectorConstraints frame ++
    enforceMemoryConstraints frame (buildChipletSelectors frame).memory

/-- The controller owns the first row of a trace, so memory does not start it. -/
theorem first_row_owner (holds : Satisfies (fun frame =>
      enforceControllerConstraints frame (buildChipletSelectors frame).controller) rows)
    (found : rows[0]? = some row) : ¬ Owns row .memory := by
  intro owns
  have inside := (List.getElem?_eq_some_iff.mp found).1
  have first : forall frame : AirFrame Felt (ChipletCols Felt), frameAt rows 0 = some frame ->
      frame.current = row -> frame.isFirstRow = 1 -> False := by
    rintro frame atFrame rfl isFirst
    have vanish := holds 0 frame atFrame
    simp only [enforceControllerConstraints, controllerSkeleton, vanish_append, vanish_when,
      vanish_assertOne] at vanish
    have active := vanish.1.1.1.1.1.1.1.1.1.1.1.1 (by rw [isFirst]; exact one_ne_zero)
    rw [show (buildChipletSelectors frame).controller.isActive = 1 - frame.current.chiplets[0]
      from rfl, owns.1] at active
    simp at active
  by_cases single : 0 + 1 = rows.length
  · exact first _ (frameAt_last found single found) rfl rfl
  · have next : rows[0 + 1]? = some rows[0 + 1] := getElem?_eq_getElem (by omega)
    exact first _ (frameAt_of_next found next) rfl rfl

section Holds

variable (holds : Satisfies memoryTraceConstraints rows)
include holds

/-- The constraints of a memory row. -/
theorem memoryRow_of_trace {index : Nat} (found : rows[index]? = some row)
    (owns : Owns row .memory) : Vanish (memoryRowConstraints row) := by
  rcases exists_frame found with ⟨frame, atFrame, rfl, _⟩
  have vanish := holds index frame atFrame
  simp only [memoryTraceConstraints, enforceMemoryConstraints, vanish_append, vanish_when] at vanish
  apply vanish.2.1.1
  rcases owns with ⟨one0, one1, zero2⟩
  simp [buildChipletSelectors, one0, one1, zero2]

/-- The memory rows of a trace are a section in the sense above. -/
theorem memorySection_of_trace {before accesses after : List (ChipletCols Felt)}
    (first : forall row, rows[0]? = some row -> ¬ Owns row .memory)
    (split : rows = before ++ accesses ++ after)
    (owned : forall row, row ∈ accesses -> Owns row .memory)
    (others : forall row, row ∈ before -> ¬ Owns row .memory)
    (ranges : forall row, row ∈ accesses -> MemoryRanges row) :
    MemorySection (accesses.map ChipletCols.memory) := by
  have place {index : Nat} {row : ChipletCols Felt} (found : accesses[index]? = some row) :=
    getElem?_of_split split found
  constructor
  · intro index left right atLeft atRight
    rw [getElem?_map] at atLeft atRight
    rcases Option.map_eq_some_iff.mp atLeft with ⟨row, atRow, rfl⟩
    rcases Option.map_eq_some_iff.mp atRight with ⟨next, atNext, rfl⟩
    have inRow := mem_of_getElem? atRow
    have inNext := mem_of_getElem? atNext
    have vanish := holds _ _ (frameAt_of_next (F := Felt) (place atRow) (place atNext))
    simp only [memoryTraceConstraints, enforceMemoryConstraints, vanish_append, vanish_when]
      at vanish
    apply memoryStep_of_vanish ?_ (memoryRow_of_trace holds (place atRow) (owned row inRow))
      (memoryRow_of_trace holds (place atNext) (owned next inNext)) (ranges row inRow)
      (ranges next inNext)
    apply vanish.2.2
    rcases owned row inRow with ⟨one0, one1, _⟩
    rcases owned next inNext with ⟨_, _, zero2⟩
    simp [buildChipletSelectors, one0, one1, zero2]
  · intro access atAccess lane left
    rw [getElem?_map] at atAccess
    rcases Option.map_eq_some_iff.mp atAccess with ⟨row, atRow, rfl⟩
    have atPlace := place atRow
    have owns := owned row (mem_of_getElem? atRow)
    -- the section does not start the trace, so there is a row before it
    cases before using List.reverseRecOn with
    | nil => exact absurd owns (first row atPlace)
    | append_singleton earlier previous =>
      have atPrevious : rows[earlier.length]? = some previous := by
        rw [split]
        simp
      have atNext : rows[earlier.length + 1]? = some row := by
        rw [length_append, length_singleton, add_zero] at atPlace
        exact atPlace
      have frame := frameAt_of_next (F := Felt) atPrevious atNext
      have vanish := holds _ _ frame
      simp only [memoryTraceConstraints, enforceMemoryConstraints, vanish_append, vanish_when]
        at vanish
      rcases owner_of_vanish vanish.1 with ⟨owner, ownsPrevious, _, forward⟩
      have rank := forward .memory owns one_ne_zero
      have notMemory : owner ≠ .memory := by
        rintro rfl
        exact others previous (mem_append_right earlier mem_cons_self) ownsPrevious
      have flags := flags_of_owners ownsPrevious owns rank rfl
      have written := vanish.2.1.2 (by
        rw [flags]
        simp [flagsOf, mark, notMemory])
      simp only [memoryFirstConstraints, forWord, vanish_flatMap, vanish_when, vanish_assertZero]
        at written
      exact written lane (mem_finRange lane) ((computeNotWrittenFlags_ne_zero
        (memoryRow_of_trace holds atPlace owns) lane).mpr left)

end Holds

/-- The memory section of a trace is an ordinary memory: addresses are aligned
32-bit integers, accesses are sorted, accesses of one word at one clock are
reads, and what an access does not write is what was written last. -/
theorem memory_section_sound {rows before accesses after : List (ChipletCols Felt)}
    (holds : Satisfies memoryTraceConstraints rows)
    (first : forall row, rows[0]? = some row -> ¬ Owns row .memory)
    (split : rows = before ++ accesses ++ after)
    (owned : forall row, row ∈ accesses -> Owns row .memory)
    (others : forall row, row ∈ before -> ¬ Owns row .memory)
    (ranges : forall row, row ∈ accesses -> MemoryRanges row) :
    (forall row, row ∈ accesses -> row.memory.wordAddr.val < 2 ^ 32 ∧ 4 ∣ row.memory.wordAddr.val) ∧
    (accesses.map ChipletCols.memory).Pairwise NotLater ∧
    (accesses.map ChipletCols.memory).Pairwise (fun left right =>
      left.ctx = right.ctx -> left.wordAddr = right.wordAddr -> left.clk = right.clk ->
        left.isRead = 1 ∧ right.isRead = 1) ∧
    forall front access back (lane : Fin 4),
      accesses.map ChipletCols.memory = front ++ access :: back -> ¬ Writes access lane ->
        access.values.get lane = content front access.ctx access.wordAddr lane := by
  have whole := memorySection_of_trace holds first split owned others ranges
  refine ⟨?_, whole.ordered.imp And.left, whole.ordered.imp And.right, ?_⟩
  · intro row member
    rcases mem_iff_getElem?.mp member with ⟨index, found⟩
    exact wordAddr_of_row (memoryRow_of_trace holds (getElem?_of_split split found)
      (owned row member)) (ranges row member)
  · intro front access back lane parts left
    rw [parts] at whole
    exact whole.unwritten_eq_content lane left

/-- A hash without children in two rows of the controller. -/
def sampleController : List (ChipletCols Felt) :=
  [⟨#v[0, 1, 0, 0, 0, 0, 0, 0, 0, 0, 0, 0, 0, 0, 0, 0, 0, 0, 1, 0, 0], 1⟩,
    ⟨#v[0, 0, 0, 0, 0, 0, 0, 0, 0, 0, 0, 0, 0, 0, 0, 0, 0, 0, 1, 0, 0], 2⟩]

/-- Seven is written to the first element of a word, and the word is read. -/
def sampleAccesses : List (ChipletCols Felt) :=
  [⟨#v[1, 1, 0, 0, 0, 0, 8, 0, 0, 1, 7, 0, 0, 0, 0, 0, 0, 0, 2, 0, 0], 3⟩,
    ⟨#v[1, 1, 0, 1, 1, 0, 8, 0, 0, 2, 7, 0, 0, 0, 1, 0, 1, 1, 2, 0, 0], 4⟩]

/-- Padding behind all chiplets. -/
def samplePadding : List (ChipletCols Felt) :=
  [⟨#v[1, 1, 1, 1, 1, 0, 0, 0, 0, 0, 0, 0, 0, 0, 0, 0, 0, 0, 0, 0, 0], 5⟩]

/-- The read of the sample finds what the write left. -/
theorem memory_section_sound_sample :
    Satisfies memoryTraceConstraints (sampleController ++ sampleAccesses ++ samplePadding) ∧
      forall front access back (lane : Fin 4),
        sampleAccesses.map ChipletCols.memory = front ++ access :: back -> ¬ Writes access lane ->
          access.values.get lane = content front access.ctx access.wordAddr lane := by
  have holds : Satisfies memoryTraceConstraints
      (sampleController ++ sampleAccesses ++ samplePadding) :=
    satisfies_of_check (by decide +kernel)
  have first (row : ChipletCols Felt)
      (found : (sampleController ++ sampleAccesses ++ samplePadding)[0]? = some row) :
      ¬ Owns row .memory :=
    first_row_owner (satisfies_of_check (by decide +kernel)) found
  refine ⟨holds, (memory_section_sound holds first rfl ?_ ?_ ?_).2.2.2⟩
  · unfold Owns
    decide +kernel
  · unfold Owns
    decide +kernel
  · intro row member
    have small : forall row, row ∈ sampleAccesses ->
        row.memory.d0.val < 2 ^ 16 ∧ row.memory.d1.val < 2 ^ 16 ∧
        row.memoryWordAddrLo.val < 2 ^ 16 ∧ row.memoryWordAddrHi.val < 2 ^ 16 ∧
        (4 * row.memoryWordAddrHi).val < 2 ^ 16 ∧ row.memory.ctx.val < 2 ^ 32 ∧
        row.memory.clk.val < 2 ^ 32 := by decide +kernel
    rcases small row member with ⟨d0, d1, w0, w1, fourTimesW1, ctx, clk⟩
    exact ⟨d0, d1, w0, w1, fourTimesW1, ctx, clk⟩

end MidenVm.Air
