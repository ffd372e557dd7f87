import Mathlib

namespace Foundation

open List hiding Vector

/-!
# Computations that return, fail or abort

A fallible program has three ways to end: it returns a value, it reports an
error to its caller, or it aborts (an index out of range, an `unwrap` of a
missing value, an unsigned subtraction below zero).  Keeping the third case
apart from the second makes "this never aborts" a statement one can prove,
instead of a convention of the translation.

`Outcome ε α` is the monad of such computations.  Reading and writing arrays,
taking slices and subtracting are given once, with their abort conditions,
and the inversion lemmas let a proof peel a computation apart without
unfolding it.
-/

variable {condition : Prop} {value : Unit} {index : Nat}

inductive Outcome (ε α : Type) where
  | ok (value : α)
  | err (error : ε)
  | panic
  deriving DecidableEq, Repr

namespace Outcome

variable {ε φ α β γ : Type}
variable {first x : Outcome ε α} {next body : α -> Outcome ε β} {result : β} {f : ε -> φ} {items : List α}
  {results : List β}

protected def bind (first : Outcome ε α) (next : α -> Outcome ε β) : Outcome ε β :=
  match first with
  | ok value => next value
  | err error => err error
  | panic => panic

instance : Monad (Outcome ε) where
  pure := ok
  bind := Outcome.bind

@[simp] theorem pure_eq_ok (value : α) : (pure value : Outcome ε α) = ok value := rfl

@[simp] theorem ok_bind (value : α) (next : α -> Outcome ε β) :
    (ok value >>= next) = next value := rfl

@[simp] theorem err_bind (error : ε) (next : α -> Outcome ε β) :
    (err error >>= next) = err error := rfl

@[simp] theorem panic_bind (next : α -> Outcome ε β) :
    ((panic : Outcome ε α) >>= next) = panic := rfl

@[simp] theorem map_ok (f : α -> β) (value : α) : (f <$> (ok value : Outcome ε α)) =
    ok (f value) := rfl

@[simp] theorem map_err (f : α -> β) (error : ε) : (f <$> (err error : Outcome ε α)) =
    err error := rfl

instance : LawfulMonad (Outcome ε) := LawfulMonad.mk' (Outcome ε)
  (by intro _ x; cases x <;> rfl)
  (by intros; rfl)
  (by intro _ _ _ x _ _; cases x <;> rfl)

/-- A computation that can be run decides what it returns. -/
instance (outcome : Outcome ε α) (post : α -> Prop) [DecidablePred post] :
    Decidable (∃ value, outcome = ok value ∧ post value) :=
  match outcome with
  | ok value => decidable_of_iff (post value) (by simp)
  | err _ => isFalse (by simp)
  | panic => isFalse (by simp)

instance (outcome : Outcome ε α) : Decidable (∃ value, outcome = ok value) :=
  decidable_of_iff (∃ value, outcome = ok value ∧ True) (by simp)

/-- Peel the first step off a computation that returned. -/
theorem bind_eq_ok : (first >>= next) = ok result ↔ ∃ value, first = ok value ∧
    next value = ok result := by
  cases first <;> simp

/-- A first step that only checks returns no information. -/
theorem bind_unit_eq_ok {first : Outcome ε Unit} {next : Unit -> Outcome ε β} :
    (first >>= next) = ok result ↔ first = ok () ∧ next () = ok result := by
  cases first <;> simp

/-- A computation never aborts when neither its first step nor any
continuation it can reach does. -/
theorem bind_ne_panic (firstSafe : first ≠ panic)
    (nextSafe : forall value, first = ok value -> next value ≠ panic) :
    (first >>= next) ≠ panic := by
  cases first with
  | ok value => exact nextSafe value rfl
  | err error => intro impossible; cases impossible
  | panic => exact absurd rfl firstSafe

theorem bind_ok_ne_panic (safe : first ≠ panic) (f : α -> β) : (first >>= fun value => ok (f value)) ≠ panic :=
  bind_ne_panic safe (fun _ _ aborted => by cases aborted)

/-! ## Conditions, options and error contexts -/

/-- Continue when the condition holds, report the error otherwise. -/
def ensure (condition : Prop) [Decidable condition] (error : ε) : Outcome ε Unit :=
  if condition then ok () else err error

@[simp] theorem ensure_eq_ok [Decidable condition] {error : ε} :
    ensure condition error = ok value ↔ condition := by
  unfold ensure
  split <;> simp_all

@[simp] theorem ensure_ne_panic (condition : Prop) [Decidable condition] (error : ε) :
    ensure condition error ≠ panic := by
  unfold ensure
  split <;> simp

theorem ensure_of [Decidable condition] (holds : condition) (error : ε) :
    ensure condition error = ok () := if_pos holds

theorem ensure_bind_ne_panic [Decidable condition] {error : ε} {next : Unit -> Outcome ε β}
    (safe : condition -> next () ≠ panic) : (ensure condition error >>= next) ≠ panic :=
  bind_ne_panic (ensure_ne_panic _ _) (fun _ ensured => safe (ensure_eq_ok.mp ensured))

/-- Abort unless the condition holds. -/
def require (condition : Prop) [Decidable condition] : Outcome ε Unit :=
  if condition then ok () else panic

@[simp] theorem require_eq_ok [Decidable condition] :
    (require condition : Outcome ε Unit) = ok value ↔ condition := by
  unfold require
  split <;> simp_all

theorem require_of [Decidable condition] (holds : condition) :
    (require condition : Outcome ε Unit) = ok () := if_pos holds

/-- A missing value is an error. -/
def okOr (value : Option α) (error : ε) : Outcome ε α :=
  match value with
  | some present => ok present
  | none => err error

@[simp] theorem okOr_some (value : α) (error : ε) : okOr (some value) error = ok value := rfl

@[simp] theorem okOr_none (error : ε) : (okOr none error : Outcome ε α) = err error := rfl

@[simp] theorem okOr_eq_ok {value : Option α} {error : ε} {result : α} :
    okOr value error = ok result ↔ value = some result := by
  cases value <;> simp

@[simp] theorem okOr_ne_panic (value : Option α) (error : ε) : okOr value error ≠ panic := by
  cases value <;> simp

/-- A missing value aborts. -/
def expect (value : Option α) : Outcome ε α :=
  match value with
  | some present => ok present
  | none => panic

@[simp] theorem expect_some (value : α) : (expect (some value) : Outcome ε α) = ok value := rfl

@[simp] theorem expect_eq_ok {value : Option α} {result : α} :
    (expect value : Outcome ε α) = ok result ↔ value = some result := by
  cases value <;> simp [expect]

/-- `Result::unwrap`: an error aborts. -/
def unwrap : Outcome ε α -> Outcome φ α
  | ok value => ok value
  | err _ => panic
  | panic => panic

@[simp] theorem unwrap_ok (value : α) : (unwrap (ok value : Outcome ε α) : Outcome φ α) = ok value :=
  rfl

/-- Rewrite the error, keep the other two endings. -/
def mapErr (f : ε -> φ) : Outcome ε α -> Outcome φ α
  | ok value => ok value
  | err error => err (f error)
  | panic => panic

@[simp] theorem mapErr_ok (f : ε -> φ) (value : α) : mapErr f (ok value) = ok value := rfl

@[simp] theorem mapErr_eq_ok {value : α} : mapErr f x = ok value ↔ x = ok value := by
  cases x <;> simp [mapErr]

@[simp] theorem mapErr_eq_panic : mapErr f x = panic ↔ x = panic := by
  cases x <;> simp [mapErr]

/-! ## Loops whose body only checks -/

/-- Run a check on every element, in order, stopping at the first one that
does not return. -/
def forEach : List α -> (α -> Outcome ε Unit) -> Outcome ε Unit
  | [], _ => ok ()
  | head :: tail, body => do
      body head
      forEach tail body

/-- A checking loop returns exactly when every check returns. -/
theorem forEach_eq_ok {body : α -> Outcome ε Unit} :
    forEach items body = ok value ↔ forall item, item ∈ items -> body item = ok () := by
  induction items with
  | nil => simp [forEach]
  | cons head tail ih => simp [forEach, bind_unit_eq_ok, ih]

/-- An element paired with its position. -/
theorem getElem?_zipIdx_eq_some {entry : α × Nat} :
    items.zipIdx[index]? = some entry ↔ items[index]? = some entry.1 ∧ entry.2 = index := by
  rcases entry with ⟨item, position⟩
  rw [getElem?_zipIdx]
  cases items[index]? <;> simp [eq_comm]

theorem getElem?_range_eq_some {count item : Nat} :
    (List.range count)[index]? = some item ↔ index < count ∧ index = item := by
  rw [List.getElem?_eq_some_iff]
  simp

/-- A checking loop over the elements with their positions. -/
theorem forEach_zipIdx_eq_ok {body : α × Nat -> Outcome ε Unit} :
    forEach items.zipIdx body = ok value ↔
      forall index item, items[index]? = some item -> body (item, index) = ok () := by
  rw [forEach_eq_ok]
  constructor
  · intro every index item found
    exact every (item, index) (mk_mem_zipIdx_iff_getElem?.mpr found)
  · rintro every ⟨item, index⟩ member
    exact every index item (mk_mem_zipIdx_iff_getElem?.mp member)

theorem forEach_ne_panic {body : α -> Outcome ε Unit}
    (safe : forall item, item ∈ items -> body item ≠ panic) : forEach items body ≠ panic := by
  induction items with
  | nil => simp [forEach]
  | cons head tail ih =>
    exact bind_ne_panic (safe head mem_cons_self)
      (fun _ _ => ih (fun item member => safe item (mem_cons_of_mem head member)))

/-- Collect what a body returns for each element. -/
def collect : List α -> (α -> Outcome ε β) -> Outcome ε (List β)
  | [], _ => ok []
  | head :: tail, body => do
      let first ← body head
      let rest ← collect tail body
      ok (first :: rest)

/-- Collecting returns exactly when the body returns on every element. -/
theorem collect_eq_ok :
    collect items body = ok results ↔
      List.Forall₂ (fun item result => body item = ok result) items results := by
  induction items generalizing results with
  | nil => simp [collect, eq_comm, forall₂_nil_left_iff]
  | cons head tail ih =>
    rw [collect, bind_eq_ok]
    constructor
    · rintro ⟨first, ran, continued⟩
      rcases bind_eq_ok.mp continued with ⟨rest, collected, done⟩
      cases done
      exact List.Forall₂.cons ran (ih.mp collected)
    · intro each
      cases each with
      | cons ran others =>
        refine ⟨_, ran, ?_⟩
        rw [ih.mpr others, ok_bind]

/-- Collecting over a range is a list of results by position. -/
theorem collect_range_eq_ok {count : Nat} {body : Nat -> Outcome ε β} :
    collect (List.range count) body = ok results ↔
      results.length = count ∧
        forall index result, results[index]? = some result -> body index = ok result := by
  rw [collect_eq_ok, forall₂_iff_get]
  simp only [length_range, get_eq_getElem, getElem_range]
  constructor
  · rintro ⟨size, each⟩
    refine ⟨size.symm, fun index result found => ?_⟩
    rcases List.getElem?_eq_some_iff.mp found with ⟨inRange, rfl⟩
    exact each index (by omega) inRange
  · rintro ⟨size, each⟩
    exact ⟨size.symm, fun index _ inRange => each index _ (getElem?_eq_getElem inRange)⟩

/-- What holds of every result holds along the list of them. -/
theorem collect_returns_with {relation : α -> β -> Prop}
    (each : forall item, item ∈ items -> ∃ result, body item = ok result ∧ relation item result) :
    ∃ results, collect items body = ok results ∧ List.Forall₂ relation items results := by
  induction items with
  | nil => exact ⟨[], rfl, List.Forall₂.nil⟩
  | cons head tail ih =>
    rcases each head mem_cons_self with ⟨first, ran, related⟩
    rcases ih (fun item member => each item (mem_cons_of_mem head member)) with
      ⟨rest, collected, others⟩
    exact ⟨first :: rest, by rw [collect, ran, ok_bind, collected, ok_bind], List.Forall₂.cons related others⟩

theorem collect_returns (each : forall item, item ∈ items -> ∃ result, body item = ok result) :
    ∃ results, collect items body = ok results := by
  have related (item : α) (member : item ∈ items) : ∃ result, body item = ok result ∧ True :=
    (each item member).imp (fun _ ran => ⟨ran, trivial⟩)
  rcases collect_returns_with related with ⟨results, collected, _⟩
  exact ⟨results, collected⟩

/-- When every result is known, so is the list of them. -/
theorem collect_eq_ok_map (f : α -> β)
    (known : forall item, item ∈ items -> body item = ok (f item)) :
    collect items body = ok (items.map f) := by
  rw [collect_eq_ok, forall₂_map_right_iff, forall₂_same]
  exact known

/-- A body that returns a known value where a condition holds. -/
theorem collect_eq_ok_iff {good : α -> Prop} (f : α -> β) (known : forall item, item ∈ items ->
      forall result, body item = ok result ↔ good item ∧ result = f item) :
    collect items body = ok results ↔ (forall item, item ∈ items -> good item) ∧
      results = items.map f := by
  rw [collect_eq_ok]
  induction items generalizing results with
  | nil => simp
  | cons head tail ih =>
    cases results with
    | nil => simp
    | cons first rest =>
      rw [forall₂_cons, known head mem_cons_self, forall_mem_cons, map_cons,
        List.cons.injEq, ih (fun item member => known item (mem_cons_of_mem head member))]
      exact and_and_and_comm

theorem collect_ne_panic (safe : forall item, item ∈ items -> body item ≠ panic) :
    collect items body ≠ panic := by
  induction items with
  | nil => simp [collect]
  | cons head tail ih =>
    apply bind_ne_panic (safe head mem_cons_self)
    intro first _
    exact bind_ok_ne_panic (ih (forall_mem_cons.mp safe).2) _

/-! ## Loops that carry a state -/

section Fold

variable {σ : Type} {step : σ -> α -> Outcome ε σ} {items : List α} (inv : Nat -> σ -> Prop)

/-- What every step preserves holds at the end of a fold that returned. -/
theorem foldlM_invariant
    (keeps : forall index item state next, items[index]? = some item -> inv index state ->
      step state item = ok next -> inv (index + 1) next)
    {initial final : σ} (start : inv 0 initial)
    (returned : items.foldlM step initial = ok final) : inv items.length final := by
  induction items generalizing initial inv with
  | nil =>
    cases returned
    exact start
  | cons head tail ih =>
    rcases bind_eq_ok.mp (show (step initial head >>= fun next => tail.foldlM step next) = _
      from returned) with ⟨next, ran, continued⟩
    exact ih (fun index state => inv (index + 1) state)
      (fun index item state next found => keeps (index + 1) item state next found)
      (keeps 0 head initial next rfl start ran) continued

/-- A fold returns when every step it reaches returns. -/
theorem foldlM_returns
    (runs : forall index item state, items[index]? = some item -> inv index state ->
      ∃ next, step state item = ok next ∧ inv (index + 1) next)
    {initial : σ} (start : inv 0 initial) :
    ∃ final, items.foldlM step initial = ok final ∧ inv items.length final := by
  induction items generalizing initial inv with
  | nil => exact ⟨initial, rfl, start⟩
  | cons head tail ih =>
    rcases runs 0 head initial rfl start with ⟨next, ran, held⟩
    rcases ih (fun index state => inv (index + 1) state)
      (fun index item state found => runs (index + 1) item state found) held with
      ⟨final, returned, ended⟩
    refine ⟨final, ?_, ended⟩
    rw [foldlM_cons, ran, ok_bind, returned]

theorem foldlM_ne_panic
    (keeps : forall index item state next, items[index]? = some item -> inv index state ->
      step state item = ok next -> inv (index + 1) next)
    (safe : forall index item state, items[index]? = some item -> inv index state -> step state item ≠ panic)
    {initial : σ} (start : inv 0 initial) : items.foldlM step initial ≠ panic := by
  induction items generalizing initial inv with
  | nil => simp
  | cons head tail ih =>
    rw [foldlM_cons]
    apply bind_ne_panic (safe 0 head initial rfl start)
    intro next ran
    exact ih (fun index state => inv (index + 1) state)
      (fun index item state next found => keeps (index + 1) item state next found)
      (fun index item state found => safe (index + 1) item state found)
      (keeps 0 head initial next rfl start ran)

end Fold

/-- Concatenate the lists a body returns for each element. -/
def concatMap : List α -> (α -> Outcome ε (List β)) -> Outcome ε (List β)
  | [], _ => ok []
  | head :: tail, body => do
      let first ← body head
      let rest ← concatMap tail body
      ok (first ++ rest)

/-- When every element's list is known, so is the concatenation. -/
theorem concatMap_eq_ok_flatMap {body : α -> Outcome ε (List β)} (f : α -> List β)
    (known : forall item, item ∈ items -> body item = ok (f item)) :
    concatMap items body = ok (items.flatMap f) := by
  induction items with
  | nil => rfl
  | cons head tail ih =>
    have restKnown := ih (fun item member => known item (mem_cons_of_mem head member))
    simp [concatMap, known head mem_cons_self, restKnown]

theorem concatMap_map (items : List γ) (f : γ -> α) (body : α -> Outcome ε (List β)) :
    concatMap (items.map f) body = concatMap items (fun item => body (f item)) := by
  induction items with
  | nil => rfl
  | cons head tail ih => simp [concatMap, ih]

/-! ## Arrays, slices and unsigned subtraction -/

/-- Read a fixed-size array; an index out of range aborts. -/
def readAt {n : Nat} (array : Vector α n) (index : Nat) : Outcome ε α :=
  if inRange : index < n then ok array[index] else panic

/-- Write a fixed-size array; an index out of range aborts. -/
def writeAt {n : Nat} (array : Vector α n) (index : Nat) (value : α) : Outcome ε (Vector α n) :=
  if inRange : index < n then ok (array.set index value) else panic

/-- The slice `items[start..stop]`; bounds out of order or out of range abort. -/
def slice (items : List α) (start stop : Nat) : Outcome ε (List α) :=
  if start ≤ stop ∧ stop ≤ items.length then ok ((items.take stop).drop start) else panic

/-- Unsigned subtraction; a negative result aborts. -/
def checkedSub (left right : Nat) : Outcome ε Nat :=
  if right ≤ left then ok (left - right) else panic

theorem readAt_of_lt {n : Nat} (array : Vector α n) (inRange : index < n) :
    (readAt array index : Outcome ε α) = ok array[index] := dif_pos inRange

theorem writeAt_of_lt {n : Nat} (array : Vector α n) (value : α) (inRange : index < n) :
    (writeAt array index value : Outcome ε (Vector α n)) = ok (array.set index value) :=
  dif_pos inRange

theorem slice_of_le (items : List α) {start stop : Nat} (ordered : start ≤ stop)
    (inRange : stop ≤ items.length) :
    (slice items start stop : Outcome ε (List α)) = ok ((items.take stop).drop start) :=
  if_pos ⟨ordered, inRange⟩

theorem checkedSub_of_le {left right : Nat} (ordered : right ≤ left) :
    (checkedSub left right : Outcome ε Nat) = ok (left - right) := if_pos ordered

end Outcome

end Foundation
