import MidenVm.Air.HasherControl

namespace MidenVm.Air

open Foundation Foundation.Air

/-!
# Memory chiplet

The memory rows are sorted by context, word address and clock.  One column
holds the inverse of whichever of the three differences is the first that is
not zero, and the difference itself is split into two limbs.
-/

variable {F : Type} [Field F]

/-- `compute_not_written_flags`. -/
def computeNotWrittenFlags (cols : MemoryCols F) : Vector F 4 :=
  let isElementWrite := (1 - cols.isRead) * (1 - cols.isWord)
  let selected := #v[(1 - cols.idx1) * (1 - cols.idx0), (1 - cols.idx1) * cols.idx0,
    cols.idx1 * (1 - cols.idx0), cols.idx1 * cols.idx0]
  selected.map (fun chosen => cols.isRead + isElementWrite * (1 - chosen))

/-- The constraints on a single memory row. -/
def memoryRowConstraints (row : ChipletCols F) : List F :=
  let cols := row.memory
  assertBool cols.isRead ++ assertBool cols.isWord ++ assertBool cols.idx0 ++
    assertBool cols.idx1 ++
    assertEq cols.wordAddr ((row.memoryWordAddrHi * 2 ^ 16 + row.memoryWordAddrLo) * 4) ++
    when cols.isWord (assertZero cols.idx0 ++ assertZero cols.idx1)

/-- The constraints on the first row of the section. -/
def memoryFirstConstraints (next : MemoryCols F) : List F :=
  forWord (fun lane => when ((computeNotWrittenFlags next).get lane) (assertZero (next.values.get lane)))

/-- The constraints on two rows of the section. -/
def memoryTransitionConstraints (cols next : MemoryCols F) : List F :=
  let ctxDelta := next.ctx - cols.ctx
  let ctxChanged := ctxDelta * next.dInv
  let sameCtx := 1 - ctxChanged
  let addrDelta := next.wordAddr - cols.wordAddr
  let addrChanged := addrDelta * next.dInv
  let sameAddr := 1 - addrChanged
  let clkDelta := next.clk - cols.clk
  assertBool ctxChanged ++
    when sameCtx (assertZero ctxDelta ++ assertBool addrChanged ++ when sameAddr (assertZero addrDelta)) ++
    assertEq next.isSameCtxAndAddr (sameCtx * sameAddr) ++
    assertEq
      (ctxChanged * ctxDelta + sameCtx * (addrChanged * addrDelta + sameAddr * clkDelta))
      (next.d1 * 2 ^ 16 + next.d0) ++
    when next.isSameCtxAndAddr (when (1 - clkDelta * next.dInv)
      (assertZero ((1 - cols.isRead) + (1 - next.isRead)))) ++
    forWord (fun lane => when ((computeNotWrittenFlags next).get lane)
      (assertEq (next.values.get lane) (next.isSameCtxAndAddr * cols.values.get lane)))

/-- `enforce_memory_constraints`. -/
def enforceMemoryConstraints (frame : AirFrame F (ChipletCols F)) (flags : ChipletFlags F) : List F :=
  when flags.isActive (memoryRowConstraints frame.current) ++
    when flags.nextIsFirst (memoryFirstConstraints frame.next.memory) ++
    when flags.isTransition (memoryTransitionConstraints frame.current.memory frame.next.memory)

end MidenVm.Air
