import MidenVm.Foundation.Outcome

namespace Foundation

/-!
# Computations on a state that may fail

A method that takes its object by mutable reference can change it and then
report an error, and the change stays.  `Effect` keeps the state of a failed
computation, so that "a failed call changes nothing" is a statement about the
program and not a property of the translation.
-/

/-- A computation on a state.  What it did to the state stays when it fails. -/
def Effect (σ ε α : Type) : Type := σ -> Outcome ε α × σ

namespace Effect

variable {σ ε α β : Type}
variable {first : Effect σ ε α}

protected def bind (first : Effect σ ε α) (next : α -> Effect σ ε β) : Effect σ ε β := fun state =>
  match first state with
  | (.ok value, after) => next value after
  | (.err error, after) => (.err error, after)
  | (.panic, after) => (.panic, after)

instance : Monad (Effect σ ε) where
  pure value := fun state => (.ok value, state)
  bind := Effect.bind

/-- Compute a value from the state. -/
def check (read : σ -> Outcome ε α) : Effect σ ε α := fun state => (read state, state)

/-- Replace the state. -/
def update (change : σ -> σ) : Effect σ ε Unit := fun state => (.ok (), change state)

/-- Replace the state and return a value. -/
def modifyGet (run : σ -> α × σ) : Effect σ ε α := fun state => (.ok (run state).1, (run state).2)

/-- `Iterator::try_for_each`. -/
def forEach (body : α -> Effect σ ε Unit) : List α -> Effect σ ε Unit
  | [] => pure ()
  | item :: rest => do
      body item
      forEach body rest

/-- Forget what a call returns. -/
def done (effect : Effect σ ε α) : Effect σ ε Unit := do
  let _ ← effect
  pure ()

/-- The state after a call that returns. -/
def exec (effect : Effect σ ε α) (state : σ) : Outcome ε σ := do
  let _ ← (effect state).1
  pure (effect state).2

/-! ## Runs -/

variable {state after : σ}

@[simp] theorem run_pure (value : α) (state : σ) : (pure value : Effect σ ε α) state = (.ok value, state) :=
  rfl

theorem run_bind_ok {value : α} (ran : first state = (.ok value, after))
    (next : α -> Effect σ ε β) : (first >>= next) state = next value after := by
  change Effect.bind first next state = _
  rw [Effect.bind, ran]

theorem run_bind_err {error : ε} (ran : first state = (.err error, after))
    (next : α -> Effect σ ε β) : (first >>= next) state = (.err error, after) := by
  change Effect.bind first next state = _
  rw [Effect.bind, ran]

theorem run_bind_panic (ran : first state = (.panic, after)) (next : α -> Effect σ ε β) :
    (first >>= next) state = (.panic, after) := by
  change Effect.bind first next state = _
  rw [Effect.bind, ran]

theorem run_check_bind {read : σ -> Outcome ε α} {value : α} (found : read state = .ok value)
    (next : α -> Effect σ ε β) : (check read >>= next) state = next value state :=
  run_bind_ok (congrArg (fun outcome => (outcome, state)) found) next

theorem run_read_bind (read : σ -> α) (next : α -> Effect σ ε β) (state : σ) :
    (check (fun state => .ok (read state)) >>= next) state = next (read state) state := rfl

theorem run_update_bind (change : σ -> σ) (next : Unit -> Effect σ ε β) (state : σ) :
    (update change >>= next) state = next () (change state) := rfl

end Effect

end Foundation
