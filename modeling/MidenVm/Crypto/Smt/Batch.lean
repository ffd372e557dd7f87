import MidenVm.Crypto.Smt.History
import MidenVm.Crypto.Smt.Mutations

namespace MidenVm.Crypto

open Foundation List

/-!
# Batches of writes

A batch with different keys leaves the same map in whatever order it is
written.  On the way the leaves may be fuller than at the end: a batch that
takes a key from a full leaf and brings another one is refused when the new key
comes first.  `Room` says that every leaf could take all the keys that the
batch brings before any key leaves, which makes the order irrelevant.
-/

namespace SmtMap

variable {pair : Word × Word} {rest writes others : List (Word × Word)} {index : Nat}

/-- The keys of a batch are different. -/
def Distinct (writes : List (Word × Word)) : Prop := (writes.map Prod.fst).Nodup

instance (writes : List (Word × Word)) : Decidable (Distinct writes) :=
  inferInstanceAs (Decidable (List.Nodup _))

theorem distinct_cons :
    Distinct (pair :: rest) ↔ (forall other, other ∈ rest -> other.1 ≠ pair.1) ∧ Distinct rest := by
  rw [Distinct, map_cons, nodup_cons, mem_map]
  push Not
  rfl

theorem Distinct.perm (distinct : Distinct writes) (same : writes.Perm others) : Distinct others :=
  ((same.map Prod.fst).nodup_iff).mp distinct

theorem Distinct.sublist (distinct : Distinct writes) (inside : others.Sublist writes) : Distinct others :=
  List.Nodup.sublist (inside.map Prod.fst) distinct

/-! ## Values after a batch -/

theorem value_writeAll_apart {key : Word} (apart : forall pair, pair ∈ writes -> pair.1 ≠ key)
    (content : SmtMap) : (content.writeAll writes).value key = content.value key := by
  induction writes generalizing content with
  | nil => rfl
  | cons pair rest ih =>
    have later := ih (fun other member => apart other (mem_cons_of_mem _ member))
      (content.write pair.1 pair.2)
    rw [value_write, if_neg (Ne.symm (apart pair mem_cons_self))] at later
    exact later

theorem value_writeAll_of_mem (distinct : Distinct writes) (member : pair ∈ writes)
    (content : SmtMap) : (content.writeAll writes).value pair.1 = pair.2 := by
  induction writes generalizing content with
  | nil => exact absurd member not_mem_nil
  | cons head rest ih =>
    rcases distinct_cons.mp distinct with ⟨apart, others⟩
    rcases mem_cons.mp member with same | later
    · rw [same]
      have kept := value_writeAll_apart apart (content.write head.1 head.2)
      rw [value_write, if_pos rfl] at kept
      exact kept
    · exact ih others later (content.write head.1 head.2)

/-- The entries of a leaf are determined by the values of its keys. -/
theorem entriesAt_congr {left right : SmtMap}
    (same : forall key, leafIndex key = index -> left.value key = right.value key) :
    left.entriesAt index = right.entriesAt index := by
  refine sorted_ext (left.holds_entriesAt index).sorted (right.holds_entriesAt index).sorted
    (fun key => ?_)
  by_cases here : leafIndex key = index
  · rw [← here, lookup_entriesAt, lookup_entriesAt, get?_eq, get?_eq, same key here]
  · have absent (content : SmtMap) : (content.entriesAt index).lookup key = none :=
      lookup_eq_none.mpr (fun entry member same =>
        here (same ▸ (content.holds_entriesAt index).here entry member))
    rw [absent, absent]

/-! ## Keys that come and go -/

/-- A write brings a new key to a leaf. -/
def Brings (content : SmtMap) (index : Nat) (pair : Word × Word) : Prop :=
  leafIndex pair.1 = index ∧ pair.2 ≠ Word.zero ∧ content.value pair.1 = Word.zero

/-- A write takes a key from a leaf. -/
def Takes (content : SmtMap) (index : Nat) (pair : Word × Word) : Prop :=
  leafIndex pair.1 = index ∧ pair.2 = Word.zero ∧ content.value pair.1 ≠ Word.zero

instance (content : SmtMap) (index : Nat) (pair : Word × Word) :
    Decidable (Brings content index pair) := inferInstanceAs (Decidable (_ ∧ _))

instance (content : SmtMap) (index : Nat) (pair : Word × Word) :
    Decidable (Takes content index pair) := inferInstanceAs (Decidable (_ ∧ _))

/-- The number of keys that a batch brings to a leaf. -/
def brought (content : SmtMap) (index : Nat) (writes : List (Word × Word)) : Nat :=
  writes.countP (fun pair => decide (Brings content index pair))

/-- The number of keys that a batch takes from a leaf. -/
def taken (content : SmtMap) (index : Nat) (writes : List (Word × Word)) : Nat :=
  writes.countP (fun pair => decide (Takes content index pair))

theorem length_entriesAt_write (content : SmtMap) (pair : Word × Word) (index : Nat) :
    ((content.write pair.1 pair.2).entriesAt index).length +
        (if Takes content index pair then 1 else 0) =
      (content.entriesAt index).length + (if Brings content index pair then 1 else 0) := by
  rw [entriesAt_write]
  by_cases here : leafIndex pair.1 = index
  · subst here
    have lookup : (content.entriesAt (leafIndex pair.1)).lookup pair.1 = _ :=
      (content.lookup_entriesAt pair.1).trans (content.get?_eq pair.1)
    have sorted := (content.holds_entriesAt (leafIndex pair.1)).sorted
    by_cases zero : pair.2 = Word.zero
    · by_cases absent : content.value pair.1 = Word.zero
      · rw [if_pos absent] at lookup
        simp [Takes, Brings, zero, absent, eraseEntry_of_none lookup]
      · rw [if_neg absent] at lookup
        simp [Takes, Brings, zero, absent, length_eraseEntry_of_some sorted lookup]
    · by_cases absent : content.value pair.1 = Word.zero
      · rw [if_pos absent] at lookup
        simp [Takes, Brings, zero, absent, length_insertEntry_of_none lookup]
      · rw [if_neg absent] at lookup
        simp [Takes, Brings, zero, length_insertEntry_of_some sorted lookup, absent]
  · simp [Takes, Brings, here]

theorem brought_cons (content : SmtMap) (index : Nat) (pair : Word × Word)
    (rest : List (Word × Word)) :
    content.brought index (pair :: rest) =
      content.brought index rest + if Brings content index pair then 1 else 0 := by
  simp [brought, countP_cons]

theorem taken_cons (content : SmtMap) (index : Nat) (pair : Word × Word)
    (rest : List (Word × Word)) :
    content.taken index (pair :: rest) =
      content.taken index rest + if Takes content index pair then 1 else 0 := by
  simp [taken, countP_cons]

section Count

variable {content : SmtMap} {pair : Word × Word} {rest : List (Word × Word)} {index : Nat}
  (apart : forall other, other ∈ rest -> other.1 ≠ pair.1)
include apart

/-- A write does not change what writes of other keys bring and take. -/
theorem brought_write : (content.write pair.1 pair.2).brought index rest =
    content.brought index rest := by
  refine countP_congr (fun other member => ?_)
  rw [decide_eq_true_eq, decide_eq_true_eq, Brings, value_write,
    if_neg (apart other member), Brings]

theorem taken_write : (content.write pair.1 pair.2).taken index rest =
    content.taken index rest := by
  refine countP_congr (fun other member => ?_)
  rw [decide_eq_true_eq, decide_eq_true_eq, Takes, value_write, if_neg (apart other member), Takes]

end Count

theorem length_entriesAt_writeAll (distinct : Distinct writes) (content : SmtMap) (index : Nat) :
    ((content.writeAll writes).entriesAt index).length + content.taken index writes =
      (content.entriesAt index).length + content.brought index writes := by
  induction writes generalizing content with
  | nil => rfl
  | cons pair rest ih =>
    rcases distinct_cons.mp distinct with ⟨apart, others⟩
    have head := length_entriesAt_write content pair index
    have tail := ih others (content.write pair.1 pair.2)
    rw [taken_write apart, brought_write apart] at tail
    rw [taken_cons, brought_cons]
    change (((content.write pair.1 pair.2).writeAll rest).entriesAt index).length + _ = _
    omega

/-! ## Batches that fit in every order -/

/-- No leaf is above the maximum. -/
def Fits (content : SmtMap) : Prop :=
  forall index, (content.entriesAt index).length ≤ maxLeafEntries

/-- Every leaf has room for all the keys that a batch brings. -/
def Room (content : SmtMap) (writes : List (Word × Word)) : Prop :=
  forall index, (content.entriesAt index).length + content.brought index writes ≤ maxLeafEntries

/-- No write of a batch overflows its leaf, in the order given. -/
def Fitting : SmtMap -> List (Word × Word) -> Prop
  | _, [] => True
  | content, pair :: rest =>
    ¬ Smt.Overflows content pair.1 pair.2 ∧ Fitting (content.write pair.1 pair.2) rest

variable {content : SmtMap}

theorem brings_of_overflows (overflows : Smt.Overflows content pair.1 pair.2) :
    Brings content (leafIndex pair.1) pair := by
  refine ⟨rfl, overflows.1, ?_⟩
  rw [value, ← lookup_entriesAt, overflows.2.1]
  rfl

theorem overflows_of_brings (brings : Brings content index pair)
    (full : maxLeafEntries ≤ (content.entriesAt index).length) :
    Smt.Overflows content pair.1 pair.2 := by
  rcases brings with ⟨rfl, filled, absent⟩
  refine ⟨filled, ?_, full⟩
  rw [lookup_entriesAt, get?_eq, if_pos absent]

theorem Room.perm (room : content.Room writes) (same : writes.Perm others) :
    content.Room others := fun index => by
  rw [brought, ← same.countP_eq]
  exact room index

theorem Room.sublist (room : content.Room writes) (inside : others.Sublist writes) : content.Room others :=
  fun index => le_trans (Nat.add_le_add_left inside.countP_le _) (room index)

theorem Room.cons (distinct : Distinct (pair :: rest)) (room : content.Room (pair :: rest)) :
    ¬ Smt.Overflows content pair.1 pair.2 ∧ (content.write pair.1 pair.2).Room rest := by
  refine ⟨fun overflows => ?_, fun index => ?_⟩
  · have brings := brings_of_overflows overflows
    have enough := room (leafIndex pair.1)
    rw [brought_cons, if_pos brings] at enough
    have full := overflows.2.2
    omega
  · have before := room index
    have head := length_entriesAt_write content pair index
    rw [brought_write (distinct_cons.mp distinct).1]
    rw [brought_cons] at before
    omega

theorem Room.fitting (distinct : Distinct writes)
    (room : content.Room writes) : content.Fitting writes := by
  induction writes generalizing content with
  | nil => trivial
  | cons pair rest ih =>
    rcases room.cons distinct with ⟨fits, later⟩
    exact ⟨fits, ih (distinct_cons.mp distinct).2 later⟩

theorem fitting_append {first second : List (Word × Word)} :
    content.Fitting (first ++ second) ↔ content.Fitting first ∧
      (content.writeAll first).Fitting second := by
  induction first generalizing content with
  | nil => exact (iff_of_eq (true_and _)).symm
  | cons pair rest ih =>
    rw [cons_append, Fitting, Fitting, ih, and_assoc]
    rfl

/-- What a batch brings, the batch that undoes it takes, and the other way
round. -/
theorem Room.undo (distinct : Distinct writes) (room : content.Room writes) :
    (content.writeAll writes).Room (writes.map (fun pair => (pair.1, content.value pair.1))) := by
  intro index
  have balance := length_entriesAt_writeAll distinct content index
  have back : (content.writeAll writes).brought index
      (writes.map (fun pair => (pair.1, content.value pair.1))) = content.taken index writes := by
    rw [brought, countP_map]
    refine countP_congr (fun pair member => ?_)
    rw [Function.comp_apply, decide_eq_true_eq, decide_eq_true_eq, Brings, Takes,
      value_writeAll_of_mem distinct member]
    exact and_congr_right (fun _ => and_comm)
  rw [back, balance]
  exact room index

end SmtMap

end MidenVm.Crypto
