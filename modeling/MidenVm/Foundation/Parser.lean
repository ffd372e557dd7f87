import MidenVm.Foundation.Outcome

namespace Foundation

/-!
# Parsers over a source with a budget

A `Source` is a sequence of tokens with a reading position: what has been
consumed, what is left, and how much of it may still be consumed.  A missing
budget is no limit.  A parser takes a source to a value and a later source.

Two judgements carry every later proof.  `WellBehaved parser` is what holds
of any input: success consumes a prefix of what is left, does not depend on
the budget being tight, and nothing aborts.  `Reads parser start reserve
tokens value` is completeness: in front of these tokens, at position `start`
and with a budget that also covers `reserve` tokens to come, the parser
returns the value and stands behind the tokens.  Both are closed under the
monad operations, so a format is handled one field at a time.
-/

variable {count width : Nat}

structure Source (τ : Type) where
  consumed : List τ
  rest : List τ
  budget : Option Nat
  deriving DecidableEq

namespace Source

variable {τ : Type}
variable {source : Source τ}

/-- A source that nothing has been read from. -/
def new (tokens : List τ) (budget : Option Nat) : Source τ := ⟨[], tokens, budget⟩

/-- The budget allows for `count` more tokens. -/
def Covers (source : Source τ) (count : Nat) : Prop :=
  forall limit, source.budget = some limit -> count ≤ limit

/-- The source after `count` more tokens. -/
def advance (source : Source τ) (count : Nat) : Source τ where
  consumed := source.consumed ++ source.rest.take count
  rest := source.rest.drop count
  budget := source.budget.map (· - count)

/-- The same source with the position counted from here. -/
def restart (source : Source τ) : Source τ := { source with consumed := [] }

/-- The same source without a limit. -/
def unlimited (source : Source τ) : Source τ := { source with budget := none }

section Source

variable (source : Source τ)

@[simp] theorem rest_advance (count : Nat) : (source.advance count).rest =
    source.rest.drop count := rfl

@[simp] theorem unlimited_advance (count : Nat) :
    (source.advance count).unlimited = source.unlimited.advance count := rfl

@[simp] theorem rest_unlimited : source.unlimited.rest = source.rest := rfl

@[simp] theorem consumed_unlimited : source.unlimited.consumed = source.consumed := rfl

@[simp] theorem budget_unlimited : source.unlimited.budget = none := rfl

@[simp] theorem advance_zero : source.advance 0 = source := by
  cases source with
  | mk consumed rest budget => cases budget <;> simp [advance]

theorem advance_advance (first second : Nat) :
    (source.advance first).advance second = source.advance (first + second) := by
  cases source with
  | mk consumed rest budget =>
    cases budget <;> simp [advance, List.take_add, Nat.sub_sub]

end Source

theorem length_consumed_advance (within : count ≤ source.rest.length) :
    (source.advance count).consumed.length = source.consumed.length + count := by
  simp [advance, Nat.min_eq_left within]

theorem Covers.mono {less more : Nat} (covers : source.Covers more) (ordered : less ≤ more) :
    source.Covers less :=
  fun limit present => Nat.le_trans ordered (covers limit present)

theorem Covers.advance {more : Nat} (covers : source.Covers (count + more)) :
    (source.advance count).Covers more := by
  intro limit present
  rcases Option.map_eq_some_iff.mp present with ⟨before, found, rfl⟩
  have bound := covers before found
  omega

theorem covers_unlimited (source : Source τ) (count : Nat) : source.unlimited.Covers count := by
  intro limit present
  cases present

end Source

/-- A parser may return, report an error or abort. -/
def Parser (τ ε α : Type) : Type := Source τ -> Outcome ε (α × Source τ)

namespace Parser

open Outcome List Source

variable {τ ε α β : Type}
variable {parser : Parser τ ε α} {next : α -> Parser τ ε β} {source after : Source τ} {value : α} {result : β}
  {outcome : Outcome ε α} {exhausted : Nat -> ε} {ended : ε} {values : List α} {tokens : List τ}

instance : Monad (Parser τ ε) where
  pure value := fun source => ok (value, source)
  bind parser next := fun source => parser source >>= fun result => next result.1 result.2

theorem pure_apply (value : α) (source : Source τ) :
    (pure value : Parser τ ε α) source = ok (value, source) := rfl

theorem bind_apply (parser : Parser τ ε α) (next : α -> Parser τ ε β) (source : Source τ) :
    (parser >>= next) source = (parser source >>= fun result => next result.1 result.2) := rfl

theorem bind_of_ok (first : parser source = ok (value, after)) :
    (parser >>= next) source = next value after := by
  rw [bind_apply, first, ok_bind]

/-- Peel the first step off a parser that returned. -/
theorem seq_eq_ok {result : β × Source τ} :
    (parser >>= next) source = ok result ↔
      ∃ value after, parser source = ok (value, after) ∧ next value after = ok result := by
  rw [bind_apply, bind_eq_ok]
  constructor
  · rintro ⟨⟨value, after⟩, first, second⟩
    exact ⟨value, after, first, second⟩
  · rintro ⟨value, after, first, second⟩
    exact ⟨(value, after), first, second⟩

/-! ## Primitive parsers -/

/-- A computation that reads nothing. -/
def lift (outcome : Outcome ε α) : Parser τ ε α := fun source =>
  outcome >>= fun value => ok (value, source)

/-- Stop with an error. -/
def fail (error : ε) : Parser τ ε α := lift (err error)

/-- The number of tokens consumed so far. -/
def position : Parser τ ε Nat := fun source => ok (source.consumed.length, source)

/-- The next token, left in place. -/
def peek (ended : ε) : Parser τ ε τ := fun source =>
  okOr source.rest.head? ended >>= fun token => ok (token, source)

/-- Charge the budget for `count` tokens. -/
def charge (exhausted : Nat -> ε) (count : Nat) (budget : Option Nat) : Outcome ε Unit :=
  match budget with
  | none => ok ()
  | some limit => ensure (count ≤ limit) (exhausted limit)

/-- The next `count` tokens.  The budget is charged before the end of the
tokens can be noticed. -/
def take (exhausted : Nat -> ε) (ended : ε) (count : Nat) : Parser τ ε (List τ) := fun source => do
  charge exhausted count source.budget
  ensure (count ≤ source.rest.length) ended
  ok (source.rest.take count, source.advance count)

/-- Refuse to prepare for more elements than the budget can pay for. -/
def checkAlloc (tooMany : Nat -> ε) (count size : Nat) : Parser τ ε Unit := fun source =>
  match source.budget with
  | none => ok ((), source)
  | some limit => ensure (count ≤ limit / size) (tooMany (limit / size)) >>= fun _ =>
    ok ((), source)

/-- A parser that counts positions from where it starts. -/
def tracked (parser : Parser τ ε α) : Parser τ ε α := fun source => do
  let (value, after) ← parser source.restart
  ok (value, { after with consumed := source.consumed ++ after.consumed })

/-- A parser repeated a number of times. -/
def many (parser : Parser τ ε α) : Nat -> Parser τ ε (List α)
  | 0 => pure []
  | count + 1 => do
      let head ← parser
      let tail ← many parser count
      pure (head :: tail)

theorem lift_eq_ok :
    (lift outcome : Parser τ ε α) source = ok (value, after) ↔ outcome = ok value ∧
      after = source := by
  cases outcome with
  | ok found => simp [lift, eq_comm]
  | err error => simp [lift]
  | panic => simp [lift]

theorem lift_apply (value : α) (source : Source τ) :
    (lift (ok value) : Parser τ ε α) source = ok (value, source) := rfl

theorem tracked_eq_ok :
    tracked parser source = ok (value, after) ↔
      ∃ inner, parser source.restart = ok (value, inner) ∧
        after = { inner with consumed := source.consumed ++ inner.consumed } := by
  rw [tracked, bind_eq_ok]
  constructor
  · rintro ⟨⟨found, inner⟩, ran, same⟩
    cases same
    exact ⟨inner, ran, rfl⟩
  · rintro ⟨inner, ran, rfl⟩
    exact ⟨(value, inner), ran, rfl⟩

theorem charge_eq_ok : charge exhausted count source.budget = ok () ↔ source.Covers count := by
  unfold charge Source.Covers
  cases source.budget <;> simp

theorem take_eq_ok {result : List τ × Source τ} :
    take exhausted ended count source = ok result ↔
      source.Covers count ∧ count ≤ source.rest.length ∧
        result = (source.rest.take count, source.advance count) := by
  rw [take, bind_unit_eq_ok, charge_eq_ok, bind_unit_eq_ok, ensure_eq_ok, ok.injEq,
    eq_comm (b := result)]

theorem checkAlloc_eq_ok {tooMany : Nat -> ε} {size : Nat} :
    checkAlloc tooMany count size source = ok ((), after) ↔
      (forall limit, source.budget = some limit -> count ≤ limit / size) ∧ after = source := by
  unfold checkAlloc
  cases source.budget with
  | none => simp [eq_comm]
  | some limit =>
    rw [bind_unit_eq_ok, ensure_eq_ok]
    simp [eq_comm]

/-! ## What holds of every input -/

structure WellBehaved (parser : Parser τ ε α) : Prop where
  advances : forall {source after : Source τ} {value : α}, parser source = ok (value, after) ->
    ∃ count, count ≤ source.rest.length ∧ after = source.advance count
  unlimited : forall {source after : Source τ} {value : α}, parser source = ok (value, after) ->
    parser source.unlimited = ok (value, after.unlimited)
  neverPanics : forall source, parser source ≠ panic

/-- Some source makes the parser return the value. -/
def Returns (parser : Parser τ ε α) (value : α) : Prop :=
  ∃ source after, parser source = ok (value, after)

namespace WellBehaved

theorem lift (safe : outcome ≠ panic) :
    WellBehaved (Parser.lift outcome : Parser τ ε α) where
  advances returned := by
    rcases lift_eq_ok.mp returned with ⟨_, rfl⟩
    exact ⟨0, Nat.zero_le _, by simp⟩
  unlimited returned := by
    rcases lift_eq_ok.mp returned with ⟨found, rfl⟩
    exact lift_eq_ok.mpr ⟨found, rfl⟩
  neverPanics source := by
    exact bind_ok_ne_panic safe _

theorem pure (value : α) : WellBehaved (Pure.pure value : Parser τ ε α) :=
  lift (show ok value ≠ panic by simp)

/-- The continuation only has to behave for values the first parser returns. -/
theorem bind_of (first : WellBehaved parser)
    (second : forall value, Returns parser value -> WellBehaved (next value)) :
    WellBehaved (parser >>= next) where
  advances returned := by
    rcases seq_eq_ok.mp returned with ⟨value, middle, ran, continued⟩
    rcases first.advances ran with ⟨firstCount, firstWithin, rfl⟩
    rcases (second value ⟨_, _, ran⟩).advances continued with ⟨secondCount, secondWithin, rfl⟩
    rw [rest_advance, length_drop] at secondWithin
    exact ⟨firstCount + secondCount, by omega, advance_advance _ _ _⟩
  unlimited returned := by
    rcases seq_eq_ok.mp returned with ⟨value, middle, ran, continued⟩
    exact seq_eq_ok.mpr
      ⟨value, middle.unlimited, first.unlimited ran, (second value ⟨_, _, ran⟩).unlimited continued⟩
  neverPanics source := by
    rw [bind_apply]
    apply bind_ne_panic (first.neverPanics source)
    rintro ⟨value, after⟩ ran
    exact (second value ⟨_, _, ran⟩).neverPanics after

theorem bind (first : WellBehaved parser)
    (second : forall value, WellBehaved (next value)) : WellBehaved (parser >>= next) :=
  first.bind_of (fun value _ => second value)

theorem ensure (condition : Prop) [Decidable condition] (error : ε) :
    WellBehaved (Parser.lift (Outcome.ensure condition error) : Parser τ ε Unit) :=
  lift (ensure_ne_panic condition error)

/-- Looking at what the budget does not change. -/
theorem look {view : Source τ -> α} (same : forall source, view source.unlimited = view source) :
    WellBehaved (fun source => ok (view source, source) : Parser τ ε α) where
  advances returned := by
    cases returned
    exact ⟨0, Nat.zero_le _, by simp⟩
  unlimited returned := by
    cases returned
    rw [same]
  neverPanics source := by
    intro aborted
    cases aborted

theorem position : WellBehaved (Parser.position : Parser τ ε Nat) := look (fun _ => rfl)

theorem peek (ended : ε) : WellBehaved (Parser.peek ended : Parser τ ε τ) where
  advances returned := by
    rcases bind_eq_ok.mp returned with ⟨token, _, same⟩
    cases same
    exact ⟨0, Nat.zero_le _, by simp⟩
  unlimited returned := by
    rcases bind_eq_ok.mp returned with ⟨token, found, same⟩
    cases same
    exact bind_eq_ok.mpr ⟨_, found, rfl⟩
  neverPanics source := by
    exact bind_ok_ne_panic (okOr_ne_panic _ _) _

theorem take (exhausted : Nat -> ε) (ended : ε) (count : Nat) :
    WellBehaved (Parser.take exhausted ended count : Parser τ ε (List τ)) where
  advances returned := by
    rcases take_eq_ok.mp returned with ⟨_, within, same⟩
    cases same
    exact ⟨count, within, rfl⟩
  unlimited returned := by
    rcases take_eq_ok.mp returned with ⟨_, within, same⟩
    cases same
    exact take_eq_ok.mpr ⟨covers_unlimited _ _, within, rfl⟩
  neverPanics source := by
    have charged : charge exhausted count source.budget ≠ panic := by
      unfold charge
      cases source.budget <;> simp
    exact bind_ne_panic charged
      (fun _ _ => bind_ne_panic (ensure_ne_panic _ _) (fun _ _ => by simp))

theorem checkAlloc (tooMany : Nat -> ε) (count size : Nat) :
    WellBehaved (Parser.checkAlloc tooMany count size : Parser τ ε Unit) where
  advances returned := by
    rcases checkAlloc_eq_ok.mp returned with ⟨_, rfl⟩
    exact ⟨0, Nat.zero_le _, by simp⟩
  unlimited returned := by
    rcases checkAlloc_eq_ok.mp returned with ⟨_, rfl⟩
    exact checkAlloc_eq_ok.mpr ⟨fun limit present => absurd present (by simp), rfl⟩
  neverPanics source := by
    unfold Parser.checkAlloc
    cases source.budget with
    | none => simp
    | some limit => exact bind_ne_panic (ensure_ne_panic _ _) (fun _ _ => by simp)

theorem tracked (behaved : WellBehaved parser) :
    WellBehaved parser.tracked where
  advances returned := by
    rcases tracked_eq_ok.mp returned with ⟨inner, ran, rfl⟩
    rcases behaved.advances ran with ⟨count, within, rfl⟩
    exact ⟨count, within, rfl⟩
  unlimited returned := by
    rcases tracked_eq_ok.mp returned with ⟨inner, ran, rfl⟩
    exact tracked_eq_ok.mpr ⟨inner.unlimited, behaved.unlimited ran, rfl⟩
  neverPanics source := by
    apply bind_ne_panic (behaved.neverPanics source.restart)
    rintro ⟨value, after⟩ _ aborted
    cases aborted

theorem many (each : WellBehaved parser) (count : Nat) :
    WellBehaved (parser.many count) := by
  induction count with
  | zero => exact pure []
  | succ count ih => exact each.bind (fun head => ih.bind (fun tail => pure (head :: tail)))

end WellBehaved

/-- What holds at the end of a repetition and is kept by one more value in front
holds of a repetition that returned. -/
theorem many_induction {motive : Nat -> Source τ -> List α -> Prop}
    (returned : parser.many count source = ok (values, after)) (done : motive 0 after [])
    (step : forall {count source middle head tail}, parser source = ok (head, middle) ->
      motive count middle tail -> motive (count + 1) source (head :: tail)) :
    motive count source values := by
  induction count generalizing source values with
  | zero =>
    cases returned
    exact done
  | succ count ih =>
    rcases seq_eq_ok.mp returned with ⟨head, middle, first, others⟩
    rcases seq_eq_ok.mp others with ⟨tail, last, more, same⟩
    cases same
    exact step first (ih more)

section Many

variable (returned : parser.many count source = ok (values, after))
include returned

theorem length_of_many : values.length = count := by
  refine many_induction (motive := fun count _ values => values.length = count) returned rfl ?_
  exact fun _ size => congrArg Nat.succ size

/-- Every value of a repetition is one the parser returns. -/
theorem returns_of_many : forall value, value ∈ values -> Returns parser value := by
  refine many_induction (motive := fun _ _ values => forall value,
    value ∈ values -> Returns parser value) returned (forall_mem_nil _) ?_
  exact fun first more => forall_mem_cons.mpr ⟨⟨_, _, first⟩, more⟩

/-- A parser that reads the same tokens reads those of a repetition. -/
theorem many_related {other : Parser τ ε β} {related : α -> β -> Prop}
    (each : forall {source after : Source τ} {value : α}, parser source = ok (value, after) ->
        ∃ found, other source = ok (found, after) ∧ related value found) :
    ∃ found, other.many count source = ok (found, after) ∧ Forall₂ related values found := by
  refine many_induction (motive := fun count source values =>
    ∃ found, other.many count source = ok (found, after) ∧ Forall₂ related values found)
    returned ⟨[], rfl, .nil⟩ ?_
  rintro count source middle head tail first ⟨rest, again, sameRest⟩
  rcases each first with ⟨found, read, same⟩
  refine ⟨found :: rest, ?_, .cons same sameRest⟩
  rw [many, bind_of_ok read, bind_of_ok again, pure_apply]

/-- Elements of one width take that width each. -/
theorem length_rest_of_many
    (each : forall {source after : Source τ} {value : α}, parser source = ok (value, after) ->
        after.rest.length + width = source.rest.length) :
    after.rest.length + count * width = source.rest.length := by
  refine many_induction (motive := fun count source _ =>
    after.rest.length + count * width = source.rest.length) returned (by simp) ?_
  intro count source middle head tail first rest
  rw [Nat.succ_mul, ← each first, ← rest, Nat.add_assoc]

end Many

/-! ## Records of a fixed width -/

/-- A record: a fixed number of tokens and a decoding of them. -/
def fixed (exhausted : Nat -> ε) (ended : ε) (width : Nat) (decode : List τ -> Outcome ε α) :
    Parser τ ε α := do
  let raw ← take exhausted ended width
  lift (decode raw)

/-- The tokens of the record at an index of a section. -/
def record (section_ : List τ) (width index : Nat) : List τ :=
  (section_.drop (index * width)).take width

/-- Records written one after the other stand at the multiples of their width. -/
theorem record_flatMap {σ : Type} {encode : σ -> List τ} {items : List σ}
    (sized : forall item, item ∈ items -> (encode item).length = width) {index : Nat} {item : σ}
    (found : items[index]? = some item) (back : List τ) :
    record (items.flatMap encode ++ back) width index = encode item := by
  induction items generalizing index with
  | nil => cases found
  | cons head tail ih =>
    have headSize := sized head mem_cons_self
    rw [record, flatMap_cons, append_assoc]
    cases index with
    | zero =>
      cases found
      rw [Nat.zero_mul, drop_zero, ← headSize, take_left]
    | succ index =>
      rw [Nat.succ_mul, Nat.add_comm, ← drop_drop, ← headSize, drop_left, headSize]
      exact ih (fun item member => sized item (mem_cons_of_mem head member)) found

/-- Reading records one after the other decodes each of them in place. -/
theorem many_fixed {decode : List τ -> Outcome ε α}
    (returned : (fixed exhausted ended width decode).many count source = ok (values, after)) :
    count * width ≤ source.rest.length ∧
      forall index value, values[index]? = some value ->
        decode (record source.rest width index) = ok value := by
  refine many_induction (motive := fun count source values => count * width ≤ source.rest.length ∧
    forall index value, values[index]? = some value ->
      decode (record source.rest width index) = ok value) returned (by simp) ?_
  rintro count source middle head tail first ⟨room, each⟩
  rcases seq_eq_ok.mp first with ⟨raw, behind, taken, decoded⟩
  rcases take_eq_ok.mp taken with ⟨_, within, same⟩
  cases same
  rcases lift_eq_ok.mp decoded with ⟨found, rfl⟩
  rw [rest_advance, length_drop] at room
  refine ⟨by rw [Nat.succ_mul]; omega, fun index value present => ?_⟩
  cases index with
  | zero =>
    cases present
    simpa [record] using found
  | succ index =>
    have inner := each index value present
    rw [record, rest_advance, drop_drop] at inner
    rwa [record, Nat.succ_mul, Nat.add_comm]

/-! ## Locality -/

/-- The tokens that were consumed decide the result: in front of the same
tokens, wherever they stand, an unlimited source gives the same. -/
structure Local (parser : Parser τ ε α) : Prop where
  again : forall {source after : Source τ} {value : α}, parser source = ok (value, after) ->
    ∃ count, count ≤ source.rest.length ∧ after = source.advance count ∧
      forall other : Source τ, other.budget = none -> source.rest.take count <+: other.rest ->
        parser other = ok (value, other.advance count)

namespace Local

theorem lift (outcome : Outcome ε α) : Local (Parser.lift outcome : Parser τ ε α) where
  again {source after value} returned := by
    rcases lift_eq_ok.mp returned with ⟨found, rfl⟩
    refine ⟨0, Nat.zero_le _, by simp, fun other _ _ => ?_⟩
    rw [advance_zero]
    exact lift_eq_ok.mpr ⟨found, rfl⟩

theorem pure (value : α) : Local (Pure.pure value : Parser τ ε α) := lift (ok value)

theorem bind (first : Local parser)
    (second : forall value, Local (next value)) : Local (parser >>= next) where
  again {source after result} returned := by
    rcases seq_eq_ok.mp returned with ⟨value, middle, ran, continued⟩
    rcases first.again ran with ⟨front, frontWithin, rfl, frontAgain⟩
    rcases (second value).again continued with ⟨back, backWithin, rfl, backAgain⟩
    rw [rest_advance, length_drop] at backWithin
    refine ⟨front + back, by omega, advance_advance _ _ _, fun other unlimited ahead => ?_⟩
    rw [take_add] at ahead
    have frontAhead := (prefix_append _ _).trans ahead
    have ran := frontAgain other unlimited frontAhead
    have backAhead : (source.advance front).rest.take back <+: (other.advance front).rest := by
      rcases ahead with ⟨tail, shape⟩
      have size : (source.rest.take front).length = front := length_take_of_le frontWithin
      rw [rest_advance, rest_advance, ← shape, append_assoc]
      nth_rewrite 2 [← size]
      rw [drop_left]
      exact prefix_append _ _
    have continued := backAgain (other.advance front) (by rw [advance, unlimited]; rfl)
      backAhead
    rw [advance_advance] at continued
    exact seq_eq_ok.mpr ⟨value, _, ran, continued⟩

theorem take (exhausted : Nat -> ε) (ended : ε) (count : Nat) :
    Local (Parser.take exhausted ended count : Parser τ ε (List τ)) where
  again {source after value} returned := by
    rcases take_eq_ok.mp returned with ⟨_, within, same⟩
    cases same
    refine ⟨count, within, rfl, fun other unlimited ahead => take_eq_ok.mpr ⟨?_, ?_, ?_⟩⟩
    · intro limit present
      rw [unlimited] at present
      cases present
    · have bound := ahead.length_le
      rwa [length_take_of_le within] at bound
    · have same := prefix_iff_eq_take.mp ahead
      rw [length_take_of_le within] at same
      rw [same]

/-- A token may be looked at when it is consumed afterwards. -/
theorem peek {next : τ -> Parser τ ε α} (each : forall token, Local (next token))
    (moves : forall {token source after value}, next token source = ok (value, after) ->
        after.rest.length < source.rest.length) :
    Local (Parser.peek ended >>= next) where
  again {source after value} returned := by
    rcases seq_eq_ok.mp returned with ⟨token, middle, peeked, continued⟩
    rcases bind_eq_ok.mp peeked with ⟨_, present, same⟩
    cases same
    have moved := moves continued
    rcases (each token).again continued with ⟨count, within, rfl, again⟩
    refine ⟨count, within, rfl, fun other unlimited ahead => ?_⟩
    have positive : count ≠ 0 := by
      rintro rfl
      rw [advance_zero] at moved
      exact Nat.lt_irrefl _ moved
    have head : other.rest.head? = some token := by
      rcases ahead with ⟨tail, shape⟩
      cases rest : source.rest with
      | nil =>
        rw [rest] at present
        cases present
      | cons first others =>
        rw [rest] at present shape
        cases present
        cases count with
        | zero => exact absurd rfl positive
        | succ count =>
          rw [← shape]
          rfl
    exact seq_eq_ok.mpr ⟨token, other, by rw [Parser.peek, head, okOr_some, ok_bind],
      again other unlimited ahead⟩

theorem many (each : Local parser) (count : Nat) : Local (parser.many count) := by
  induction count with
  | zero => exact pure []
  | succ count ih => exact each.bind (fun _ => ih.bind (fun _ => pure _))

end Local

/-! ## Completeness -/

/-- In front of the tokens, the parser returns the value and stands behind them. -/
def Reads (parser : Parser τ ε α) (start reserve : Nat) (tokens : List τ) (value : α) : Prop :=
  forall (source : Source τ) (tail : List τ), source.consumed.length = start ->
    source.rest = tokens ++ tail -> source.Covers (tokens.length + reserve) ->
      parser source = ok (value, source.advance tokens.length)

namespace Reads

variable {start reserve : Nat}

theorem lift (found : outcome = ok value) :
    Reads (Parser.lift outcome : Parser τ ε α) start reserve [] value := by
  intro source tail _ _ _
  rw [found, lift_apply, length_nil, advance_zero]

theorem pure (value : α) : Reads (Pure.pure value : Parser τ ε α) start reserve [] value := lift rfl

/-- The first parser may count on the tokens of the second as reserve. -/
theorem bind {front back : List τ} (first : Reads parser start (back.length + reserve) front value)
    (second : Reads (next value) (start + front.length) reserve back result) :
    Reads (parser >>= next) start reserve (front ++ back) result := by
  intro source tail atStart shape covers
  rw [append_assoc] at shape
  rw [length_append, Nat.add_assoc] at covers
  have within : front.length ≤ source.rest.length := by simp [shape]
  rw [bind_of_ok (first source _ atStart shape covers), length_append, ← advance_advance]
  apply second (source.advance front.length) tail
  · rw [length_consumed_advance within, atStart]
  · rw [rest_advance, shape, drop_left]
  · exact covers.advance

/-- A first step that reads nothing. -/
theorem bind_nil (first : Reads parser start (tokens.length + reserve) [] value)
    (second : Reads (next value) start reserve tokens result) :
    Reads (parser >>= next) start reserve tokens result := by
  simpa using bind first second

/-- A last step that reads nothing. -/
theorem bind_last (first : Reads parser start reserve tokens value)
    (second : Reads (next value) (start + tokens.length) reserve [] result) :
    Reads (parser >>= next) start reserve tokens result := by
  have both := @bind _ _ _ _ parser next value result start reserve tokens []
    (by rwa [length_nil, Nat.zero_add]) second
  rwa [append_nil] at both

/-- A last step that only converts the value. -/
theorem bind_pure (convert : α -> β) (first : Reads parser start reserve tokens value) :
    Reads (parser >>= fun found => Pure.pure (convert found)) start reserve tokens
      (convert value) := by
  intro source tail atStart shape covers
  rw [bind_of_ok (first source tail atStart shape covers), pure_apply]

/-- A last step that decodes the value. -/
theorem bind_lift {decode : α -> Outcome ε β} (first : Reads parser start reserve tokens value)
    (decoded : decode value = ok result) :
    Reads (parser >>= fun found => Parser.lift (decode found)) start reserve tokens result := by
  intro source tail atStart shape covers
  rw [bind_of_ok (first source tail atStart shape covers), decoded, lift_apply]

theorem ensure {condition : Prop} [Decidable condition] (holds : condition) (error : ε) :
    Reads (Parser.lift (Outcome.ensure condition error) : Parser τ ε Unit) start reserve [] () :=
  lift (ensure_of holds error)

theorem position : Reads (Parser.position : Parser τ ε Nat) start reserve [] start := by
  intro source tail atStart _ _
  rw [Parser.position, atStart, length_nil, advance_zero]

/-- Looking at the first token before reading on. -/
theorem bind_peek (ended : ε) {next : τ -> Parser τ ε α} {token : τ} {result : α}
    (continued : Reads (next token) start reserve (token :: tokens) result) :
    Reads (Parser.peek ended >>= next) start reserve (token :: tokens) result := by
  intro source tail atStart shape covers
  have seen : Parser.peek ended source = (ok (token, source) : Outcome ε _) := by
    simp [Parser.peek, shape]
  rw [bind_of_ok seen]
  exact continued source tail atStart shape covers

theorem take (exhausted : Nat -> ε) (ended : ε) {count : Nat} (width : tokens.length = count) :
    Reads (Parser.take exhausted ended count) start reserve tokens tokens := by
  intro source tail _ shape covers
  subst width
  refine take_eq_ok.mpr ⟨covers.mono (Nat.le_add_right _ _), by simp [shape], ?_⟩
  rw [shape, take_left]

theorem checkAlloc (tooMany : Nat -> ε) {count size : Nat} (positive : 0 < size)
    (affordable : count * size ≤ reserve) :
    Reads (Parser.checkAlloc tooMany count size : Parser τ ε Unit) start reserve [] () := by
  intro source tail _ _ covers
  refine checkAlloc_eq_ok.mpr ⟨fun limit present => ?_, by simp⟩
  have enough := covers limit present
  rw [length_nil, Nat.zero_add] at enough
  exact (Nat.le_div_iff_mul_le positive).mpr (Nat.le_trans affordable enough)

/-- A list is read element by element. -/
theorem many (encode : α -> List τ) (values : List α)
    (each : forall value, value ∈ values -> forall start reserve,
      Reads parser start reserve (encode value) value) :
    Reads (parser.many values.length) start reserve (values.flatMap encode) values := by
  induction values generalizing start with
  | nil => exact pure []
  | cons head tail ih =>
    have others := fun start => @ih start
      (fun value member => each value (mem_cons_of_mem head member))
    rw [flatMap_cons]
    apply bind (each head mem_cons_self start _)
    exact bind_pure (head :: ·) (others (start + (encode head).length))

end Reads

end Parser

end Foundation
