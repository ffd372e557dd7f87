import MidenVm.Crypto.Mmr.AddSpec
import MidenVm.Crypto.Mmr.ApplySpec

namespace MidenVm.Crypto.Mmr

open Foundation Mountain List Outcome Full PartialMmr System

/-!
# A partial range that follows a full one

The full range grows by leaves.  The partial range starts from its peaks at
some forest and follows it: it adds the next leaf, tracks a leaf with an opening
of the full range, stops to track one, or catches up with an update of the full
range.  A history says what this means: the leaves, how many of them the partial
range has seen, and which of them it tracks.

A position that is beyond every in-order index cannot be untracked: its index is
computed before the forest is asked for it, and the computation overflows.
-/

variable {D : Type}
variable {pos : Nat}

/-- What happens to a full range and to the partial range that follows it. -/
inductive Event (D : Type) where
  | grow (leaf : D)
  | add (track : Bool)
  | track (pos : Nat)
  | untrack (pos : Nat)
  | apply (later : Forest)

/-- A position that is untracked has an in-order index. -/
def Event.Indexed : Event D -> Prop
  | .untrack pos => pos < (2 ^ usizeBits - 1) / 2
  | _ => True

instance : (event : Event D) -> Decidable event.Indexed
  | .untrack _ => inferInstanceAs (Decidable (_ < _))
  | .grow _ | .add _ | .track _ | .apply _ => inferInstanceAs (Decidable True)

/-! ## Histories -/

/-- The meaning of a sequence of events. -/
structure History (D : Type) where
  leaves : List D
  seen : Nat
  tracked : Finset Nat

namespace History

/-- The partial range adds a leaf that the full one has, tracks a leaf it has
seen, and catches up with a forest between its own and that of the full range. -/
def Allows (history : History D) : Event D -> Prop
  | .grow _ => history.leaves.length < maxLeaves
  | .add _ => history.seen < history.leaves.length
  | .track pos => pos < history.seen
  | .untrack _ => True
  | .apply later => history.seen ≤ later.numLeaves ∧ later.numLeaves ≤ history.leaves.length

def next (history : History D) : Event D -> History D
  | .grow leaf => { history with leaves := history.leaves ++ [leaf] }
  | .add track =>
    { history with
      seen := history.seen + 1
      tracked := if track then insert history.seen history.tracked else history.tracked }
  | .track pos => { history with tracked := insert pos history.tracked }
  | .untrack pos => { history with tracked := history.tracked.erase pos }
  | .apply later => { history with seen := later.numLeaves }

/-- Every event is allowed when it happens. -/
def AllowsAll : History D -> List (Event D) -> Prop
  | _, [] => True
  | history, event :: rest => history.Allows event ∧ (history.next event).AllowsAll rest

def after (history : History D) (events : List (Event D)) : History D := events.foldl next history

instance (history : History D) : (event : Event D) -> Decidable (history.Allows event)
  | .grow _ => inferInstanceAs (Decidable (_ < _))
  | .add _ => inferInstanceAs (Decidable (_ < _))
  | .track _ => inferInstanceAs (Decidable (_ < _))
  | .untrack _ => inferInstanceAs (Decidable True)
  | .apply _ => inferInstanceAs (Decidable (_ ∧ _))

instance decidableAllowsAll : (events : List (Event D)) -> (history : History D) ->
    Decidable (history.AllowsAll events)
  | [], _ => inferInstanceAs (Decidable True)
  | event :: rest, history =>
    have := decidableAllowsAll rest (history.next event)
    inferInstanceAs (Decidable (_ ∧ _))

/-- Leaves are only ever added. -/
theorem leaves_next (history : History D) (event : Event D) :
    history.leaves <+: (history.next event).leaves := by
  cases event with
  | grow leaf => exact prefix_append _ _
  | add track | track pos | untrack pos | apply later => exact prefix_refl _

theorem leaves_after (history : History D) (events : List (Event D)) :
    history.leaves <+: (history.after events).leaves := by
  induction events generalizing history with
  | nil => exact prefix_refl _
  | cons event rest ih => exact (history.leaves_next event).trans (ih (history.next event))

end History

/-! ## The two ranges -/

/-- A full range and the partial range that follows it. -/
structure System (D : Type) where
  full : Full D
  follower : PartialMmr D

namespace System

section Operations

variable [DecidableEq D] (merge : D -> D -> D)

/-- A partial range starts from the peaks of the full one. -/
def start (leaves : List D) (forest : Forest) : Outcome (MmrError D) (System D) := do
  let full ← Full.new.addAll merge leaves
  let peaks ← full.peaksAt forest
  pure ⟨full, .fromPeaks peaks⟩

def step (system : System D) : Event D -> Outcome (MmrError D) (System D)
  | .grow leaf => do
      let full ← system.full.add merge leaf
      pure { system with full := full }
  | .add track => do
      let leaf ← system.full.get system.follower.forest.numLeaves
      let (follower, _) ← system.follower.add merge leaf track
      pure { system with follower := follower }
  | .track pos => do
      let opening ← system.full.openAt pos system.follower.forest
      let follower ← (PartialMmr.track merge pos opening.leaf opening.path.merklePath).exec system.follower
      pure { system with follower := follower }
  | .untrack pos => do
      let (follower, _) ← system.follower.untrack pos
      pure { system with follower := follower }
  | .apply later => do
      let delta ← system.full.getDelta system.follower.forest later
      let (follower, _) ← system.follower.apply merge delta
      pure { system with follower := follower }

def run (system : System D) : List (Event D) -> Outcome (MmrError D) (System D)
  | [] => .ok system
  | event :: rest => do
      let next ← system.step merge event
      next.run rest

end Operations

/-! ## What the ranges have in common -/

/-- The ranges are as the history says, over the leaves of any continuation. -/
structure Agrees (merge : D -> D -> D) (leaf : Nat -> D) (history : History D)
    (system : System D) : Prop where
  built : Full.new.addAll merge history.leaves = .ok system.full
  holds : system.full.Holds merge leaf
  seen : system.follower.forest.numLeaves = history.seen
  inside : history.seen ≤ history.leaves.length
  tracked : system.follower.trackedLeaves = history.tracked
  follows : system.follower.Follows merge leaf

variable {merge : D -> D -> D} {leaf : Nat -> D} {history : History D} {system : System D}

section Agrees

variable (agrees : system.Agrees merge leaf history)
include agrees

theorem Agrees.size :
    system.full.forest.numLeaves = history.leaves.length :=
  (numLeaves_of_addAll agrees.built).trans (zero_add _)

theorem Agrees.earlier :
    system.follower.forest.numLeaves ≤ system.full.forest.numLeaves := by
  rw [agrees.seen, agrees.size]
  exact agrees.inside

/-- A stored node is a node of the full range. -/
theorem Agrees.stored {idx : InOrderIndex} {value : D}
    (found : system.follower.nodes idx = some value) :
    ∃ height index, idx = .ofNode height index ∧ (index + 1) * 2 ^ height ≤ history.seen ∧
      system.full.nodes[place height index]? = some value := by
  rcases (agrees.follows.keeps idx value).mp found with ⟨height, index, here, needed, made⟩
  have complete := needed.complete agrees.follows.tracked
  refine ⟨height, index, here, agrees.seen ▸ complete, ?_⟩
  rw [made]
  exact agrees.holds.stored height index (le_trans complete agrees.earlier)

theorem Agrees.opens (member : pos ∈ history.tracked) :
    ∃ opening, system.full.openAt pos system.follower.forest = .ok opening ∧
      system.follower.openLeaf pos = .ok (some opening) := by
  rw [← agrees.tracked] at member
  rcases openLeaf_tracked agrees.follows member with
    ⟨height, merklePath, owns, path, opened⟩
  rcases openAt_spec agrees.holds agrees.earlier owns.lt with
    ⟨other, fullPath, found, _, fullNodes, full⟩
  rw [owns.leafToCorrespondingTree, Option.some.injEq] at found
  have same : fullPath = merklePath := MerklePath.ext (by rw [fullNodes, path, found])
  exact ⟨_, full, same ▸ opened⟩

theorem Agrees.closed (free : pos ∉ history.tracked) :
    system.follower.openLeaf pos =
      if pos < history.seen then .ok none else .err (.positionNotFound pos) := by
  rw [← agrees.tracked] at free
  rw [← agrees.seen]
  split
  · rename_i inside
    exact openLeaf_untracked inside free
  · rename_i outside
    exact openLeaf_outside (not_lt.mp outside)

end Agrees

/-! ## Runs -/

theorem start_agrees {leaves : List D} (bounded : leaves.length ≤ maxLeaves) {forest : Forest}
    (inside : forest.numLeaves ≤ leaves.length)
    (agree : forall place value, leaves[place]? = some value -> value = leaf place) :
    ∃ system, start merge leaves forest = .ok system ∧
      system.Agrees merge leaf ⟨leaves, forest.numLeaves, ∅⟩ := by
  rcases new_addAll merge leaf bounded agree with ⟨full, built, size, holds⟩
  refine ⟨⟨full, .fromPeaks ⟨forest, peakNodes merge leaf forest.numLeaves⟩⟩, ?_, built, holds,
    rfl, inside, rfl, fromPeaks_follows forest⟩
  rw [start, built, ok_bind, peaksAt_spec holds (size ▸ inside)]
  rfl

variable [DecidableEq D]

section Agrees

variable (agrees : system.Agrees merge leaf history)
include agrees

theorem step_grow (room : history.leaves.length < maxLeaves) {value : D}
    (same : value = leaf history.leaves.length) :
    ∃ after, system.step merge (.grow value) = .ok after ∧
      after.Agrees merge leaf (history.next (.grow value)) := by
  rcases add_spec agrees.holds (agrees.size ▸ room) with ⟨full, added, _, holds⟩
  rw [agrees.size, ← same] at added
  refine ⟨⟨full, system.follower⟩, ?_, ?_, holds, agrees.seen, ?_, agrees.tracked, agrees.follows⟩
  · rw [step, added]
    rfl
  · change addAll merge new (history.leaves ++ [value]) = _
    rw [addAll, foldlM_append]
    change (addAll merge new history.leaves >>= _) = _
    rw [agrees.built, ok_bind, foldlM_cons, added]
    rfl
  · change _ ≤ (history.leaves ++ [value]).length
    rw [length_append]
    exact Nat.le_add_right_of_le agrees.inside

theorem step_add (more : history.seen < history.leaves.length) (track : Bool) :
    ∃ after, system.step merge (.add track) = .ok after ∧
      after.Agrees merge leaf (history.next (.add track)) := by
  have inside : system.follower.forest.numLeaves < system.full.forest.numLeaves := by
    rw [agrees.seen, agrees.size]
    exact more
  rcases add_spec agrees.follows
      (lt_of_lt_of_le inside system.full.forest.bounded) track with
    ⟨follower, newNodes, added, count, tracked, follows⟩
  refine ⟨⟨system.full, follower⟩, ?_, agrees.built, agrees.holds, ?_, more, ?_, follows⟩
  · rw [step, get_spec agrees.holds inside, ok_bind, added]
    rfl
  · rw [count, agrees.seen]
    rfl
  · rw [tracked, agrees.seen, agrees.tracked]
    rfl

theorem step_track (below : pos < history.seen) :
    ∃ after, system.step merge (.track pos) = .ok after ∧
      after.Agrees merge leaf (history.next (.track pos)) := by
  rcases openAt_spec agrees.holds agrees.earlier (agrees.seen ▸ below) with
    ⟨height, merklePath, _, owns, path, opened⟩
  rcases track_spec agrees.follows owns path with
    ⟨follower, added, forest, tracked, follows⟩
  refine ⟨⟨system.full, follower⟩, ?_, agrees.built, agrees.holds, ?_, agrees.inside, ?_, follows⟩
  · rw [step, opened, ok_bind, added]
    rfl
  · rw [forest, agrees.seen]
    rfl
  · rw [tracked, agrees.tracked]
    rfl

theorem step_untrack (small : pos < (2 ^ usizeBits - 1) / 2) :
    ∃ after, system.step merge (.untrack pos) = .ok after ∧
      after.Agrees merge leaf (history.next (.untrack pos)) := by
  rcases untrack_spec agrees.follows small with
    ⟨follower, removed, pruned, forest, tracked, follows⟩
  refine ⟨⟨system.full, follower⟩, ?_, agrees.built, agrees.holds, ?_, agrees.inside, ?_, follows⟩
  · rw [step, pruned]
    rfl
  · rw [forest, agrees.seen]
    rfl
  · rw [tracked, agrees.tracked]
    rfl

theorem step_apply {later : Forest} (grown : history.seen ≤ later.numLeaves)
    (inside : later.numLeaves ≤ history.leaves.length) :
    ∃ after, system.step merge (.apply later) = .ok after ∧
      after.Agrees merge leaf (history.next (.apply later)) := by
  rcases apply_getDelta agrees.follows agrees.holds (agrees.seen ▸ grown)
      (agrees.size ▸ inside) with
        ⟨delta, follower, inserted, brought, applied, forest, tracked, follows⟩
  refine ⟨⟨system.full, follower⟩, ?_, agrees.built, agrees.holds, ?_, inside, ?_, follows⟩
  · rw [step, brought, ok_bind, applied]
    rfl
  · rw [forest]
    rfl
  · rw [tracked, agrees.tracked]
    rfl

theorem step_agrees {event : Event D} (allows : history.Allows event) (indexed : event.Indexed)
    (agree : forall place value, (history.next event).leaves[place]? = some value -> value = leaf place) :
    ∃ after, system.step merge event = .ok after ∧
      after.Agrees merge leaf (history.next event) := by
  cases event with
  | grow value => exact step_grow agrees allows (agree _ value getElem?_concat_length)
  | add track => exact step_add agrees allows track
  | track pos => exact step_track agrees allows
  | untrack pos => exact step_untrack agrees indexed
  | apply later => exact step_apply agrees allows.1 allows.2

theorem run_agrees {events : List (Event D)} (allows : history.AllowsAll events)
    (indexed : forall event, event ∈ events -> event.Indexed)
    (agree : forall place value, (history.after events).leaves[place]? = some value -> value = leaf place) :
    ∃ after, system.run merge events = .ok after ∧
      after.Agrees merge leaf (history.after events) := by
  induction events generalizing history system with
  | nil => exact ⟨system, rfl, agrees⟩
  | cons event rest ih =>
    -- the leaves so far are leaves of the end
    have front (place : Nat) (value : D)
        (found : (history.next event).leaves[place]? = some value) : value = leaf place := by
      rcases (history.next event).leaves_after rest with ⟨more, all⟩
      refine agree place value ?_
      change ((history.next event).after rest).leaves[place]? = some value
      rw [← all, getElem?_append_left (List.getElem?_eq_some_iff.mp found).1, found]
    rcases forall_mem_cons.mp indexed with ⟨first, others⟩
    rcases step_agrees agrees allows.1 first front with ⟨next, done, kept⟩
    rcases ih kept allows.2 others agree with ⟨last, ran, final⟩
    refine ⟨last, ?_, final⟩
    rw [run, done, ok_bind, ran]

end Agrees

/-- A partial range that follows a full one and untracks positions with an index
only: no operation fails, and peaks, stored nodes and openings are those of the
full range. -/
theorem start_run_follows [Inhabited D] (merge : D -> D -> D) (leaves : List D) (forest : Forest)
    (events : List (Event D)) (bounded : leaves.length ≤ maxLeaves)
    (inside : forest.numLeaves ≤ leaves.length)
    (allows : (History.mk leaves forest.numLeaves ∅).AllowsAll events)
    (indexed : forall event, event ∈ events -> event.Indexed) :
    ∃ system history, history = (History.mk leaves forest.numLeaves ∅).after events ∧
      (do let system ← start merge leaves forest
          system.run merge events) = .ok system ∧
      Full.new.addAll merge history.leaves = .ok system.full ∧
      system.follower.forest.numLeaves = history.seen ∧
      system.full.peaksAt system.follower.forest =
        .ok ⟨system.follower.forest, system.follower.peaks⟩ ∧
      (forall idx value, system.follower.nodes idx = some value ->
        ∃ height index, idx = .ofNode height index ∧ (index + 1) * 2 ^ height ≤ history.seen ∧
          system.full.nodes[place height index]? = some value) ∧
      (forall pos, pos ∈ history.tracked ->
        ∃ opening, system.full.openAt pos system.follower.forest = .ok opening ∧
          system.follower.openLeaf pos = .ok (some opening)) ∧
      (forall pos, pos ∉ history.tracked -> system.follower.openLeaf pos =
        if pos < history.seen then .ok none else .err (.positionNotFound pos)) := by
  let history := (History.mk leaves forest.numLeaves ∅).after events
  have front (place : Nat) (value : D) (found : leaves[place]? = some value) :
      value = history.leaves.getD place default := by
    rcases (History.mk leaves forest.numLeaves ∅).leaves_after events with ⟨more, all⟩
    refine eq_getD _ place value ?_
    rw [← all, getElem?_append_left (List.getElem?_eq_some_iff.mp found).1, found]
  rcases start_agrees bounded inside front with ⟨first, started, starts⟩
  rcases run_agrees starts allows indexed (eq_getD _) with ⟨system, ran, agrees⟩
  refine ⟨system, history, rfl, ?_, agrees.built, agrees.seen, ?_, fun idx value => agrees.stored,
    fun pos => agrees.opens, fun pos => agrees.closed⟩
  · rw [started, ok_bind, ran]
  · rw [peaksAt_spec agrees.holds agrees.earlier, agrees.follows.peaks]

theorem start_run_follows_six_events :
    ∃ (system : System Nat) (opening : MmrProof Nat),
      (do let system ← start (fun left right => 10 * left + right) [1, 2, 3] ⟨3, by decide⟩
          system.run (fun left right => 10 * left + right)
            [.track 0, .grow 4, .add true, .untrack 0, .grow 5, .apply ⟨5, by decide⟩]) =
              .ok system ∧
      system.follower.forest.numLeaves = 5 ∧
      system.full.openAt 3 system.follower.forest = .ok opening ∧
      system.follower.openLeaf 3 = .ok (some opening) ∧ system.follower.openLeaf 0 = .ok none := by
  rcases start_run_follows (fun left right => 10 * left + right) [1, 2, 3] ⟨3, by decide⟩
      [.track 0, .grow 4, .add true, .untrack 0, .grow 5, .apply ⟨5, by decide⟩]
      (by decide) (by decide) (by decide) (by decide) with
    ⟨system, history, rfl, ran, _, seen, _, _, opens, closed⟩
  rcases opens 3 (by decide) with ⟨opening, full, opened⟩
  exact ⟨system, opening, ran, seen, full, opened, closed 0 (by decide)⟩

/-- The last position of the machine is untracked: its index overflows. -/
theorem untrack_without_index_aborts :
    (History.mk [1, 2, 3] 3 ∅).AllowsAll [.untrack (2 ^ 64 - 1)] ∧
      (do let system ← start (fun left right => 10 * left + right) [1, 2, 3] ⟨3, by decide⟩
          system.run (fun left right => 10 * left + right) [.untrack (2 ^ 64 - 1)]) = .panic :=
  ⟨⟨trivial, trivial⟩, rfl⟩

end System

end MidenVm.Crypto.Mmr
