import Mathlib

namespace Foundation

open List

/-!
# Arranging items behind what they need

Items are given in a fixed order, and each names the items it needs.  The
arrangement always takes the first item that is not placed yet and whose needs
are.  It places nothing twice and nothing before its needs, it places
everything when no item needs itself through others, and it leaves a list alone
that already has this order.
-/

variable {fuel : Nat}

section Arrange

variable {α : Type} [DecidableEq α] {items : List α} {needs : α -> List α}
variable {placed : List α} {item : α}

/-- An item that can be placed next. -/
def Ready (needs : α -> List α) (placed : List α) (item : α) : Prop :=
  item ∉ placed ∧ forall need, need ∈ needs item -> need ∈ placed

instance (placed : List α) : DecidablePred (Ready needs placed) :=
  fun _ => inferInstanceAs (Decidable (_ ∧ _))

/-- Take the first item that is ready, again and again. -/
def arrange (items : List α) (needs : α -> List α) : Nat -> List α -> List α
  | 0, _ => []
  | fuel + 1, placed =>
    match items.find? (fun item => Ready needs placed item) with
    | none => []
    | some item => item :: arrange items needs fuel (item :: placed)

theorem arrange_cons (first : items.find? (fun item => Ready needs placed item) = some item) :
    arrange items needs (fuel + 1) placed = item :: arrange items needs fuel (item :: placed) := by
  rw [arrange, first]

theorem ready_of_find (first : items.find? (fun item => Ready needs placed item) = some item) :
    item ∈ items ∧ Ready needs placed item :=
  ⟨mem_of_find?_eq_some first, by simpa using find?_some first⟩

theorem mem_arrange (member : item ∈ arrange items needs fuel placed) : item ∈ items ∧
    item ∉ placed := by
  fun_induction arrange items needs fuel placed with
  | case1 | case2 => cases member
  | case3 placed fuel taken first ih =>
    rcases ready_of_find first with ⟨inside, fresh, _⟩
    rcases mem_cons.mp member with rfl | later
    · exact ⟨inside, fresh⟩
    · rcases ih later with ⟨inside, outside⟩
      exact ⟨inside, fun old => outside (mem_cons_of_mem taken old)⟩

theorem nodup_arrange (fuel : Nat) (placed : List α) : (arrange items needs fuel placed).Nodup := by
  fun_induction arrange items needs fuel placed with
  | case1 | case2 => exact nodup_nil
  | case3 placed fuel taken first ih =>
    exact nodup_cons.mpr ⟨fun again => (mem_arrange again).2 mem_cons_self, ih⟩

/-- What an item needs is placed before it. -/
theorem needs_before {before after : List α} {need : α}
    (split : arrange items needs fuel placed = before ++ item :: after)
    (needed : need ∈ needs item) : need ∈ before ∨ need ∈ placed := by
  fun_induction arrange items needs fuel placed generalizing before with
  | case1 | case2 =>
    exact absurd split.symm (append_ne_nil_of_right_ne_nil before (cons_ne_nil _ _))
  | case3 placed fuel taken first ih =>
    cases before with
    | nil =>
      rcases List.cons.inj split with ⟨rfl, _⟩
      exact .inr ((ready_of_find first).2.2 need needed)
    | cons head before =>
      rcases List.cons.inj split with ⟨rfl, rest⟩
      rcases ih rest with earlier | old
      · exact .inl (mem_cons_of_mem taken earlier)
      · rcases mem_cons.mp old with rfl | old
        · exact .inl mem_cons_self
        · exact .inr old

/-- With enough fuel the arrangement ends when nothing is ready. -/
theorem arrange_exhausted (inside : placed ⊆ items) (distinct : placed.Nodup)
    (enough : items.length ≤ fuel + placed.length) (member : item ∈ items) :
    ¬ Ready needs (arrange items needs fuel placed ++ placed) item := by
  fun_induction arrange items needs fuel placed with
  | case1 placed =>
    -- everything is placed already
    rintro ⟨fresh, _⟩
    have wider : (item :: placed).length ≤ items.length :=
      (nodup_cons.mpr ⟨fresh, distinct⟩).length_le_of_subset
        (cons_subset.mpr ⟨member, inside⟩)
    rw [length_cons] at wider
    omega
  | case2 placed fuel first =>
    have stuck := find?_eq_none.mp first item member
    rwa [decide_eq_true_eq] at stuck
  | case3 placed fuel taken first ih =>
    rcases ready_of_find first with ⟨known, fresh, _⟩
    have next := ih (cons_subset.mpr ⟨known, inside⟩) (nodup_cons.mpr ⟨fresh, distinct⟩)
      (by rw [length_cons]; omega)
    rintro ⟨outside, needed⟩
    refine next ⟨fun again => outside ?_, fun need wanted => ?_⟩
    · exact perm_middle.mem_iff.mp again
    · exact perm_middle.mem_iff.mpr (needed need wanted)

/-- Without cycles everything is placed. -/
theorem arrange_complete (closed : forall item, item ∈ items -> needs item ⊆ items)
    (founded : WellFounded (fun need item => need ∈ needs item)) (member : item ∈ items) :
    item ∈ arrange items needs items.length [] := by
  induction item using founded.induction with
  | _ item ih =>
    have stuck : ¬ Ready needs (arrange items needs items.length [] ++ []) item :=
      arrange_exhausted (nil_subset items) nodup_nil (le_refl items.length) member
    rw [append_nil] at stuck
    by_contra outside
    exact stuck ⟨outside, fun need needed => ih need needed (closed item member needed)⟩

/-- A list with its needs first stays as it is. -/
theorem arrange_of_ordered {before rest : List α} (distinct : (before ++ rest).Nodup)
    (same : forall item, item ∈ placed ↔ item ∈ before)
    (ordered : forall first item last, before ++ rest = first ++ item :: last -> needs item ⊆ first) :
    arrange (before ++ rest) needs rest.length placed = rest := by
  induction rest generalizing before placed with
  | nil => rfl
  | cons item rest ih =>
    have fresh : item ∉ before := fun old =>
      (disjoint_of_nodup_append distinct) old mem_cons_self
    have ready : Ready needs placed item :=
      ⟨fun old => fresh ((same item).mp old),
        fun need needed => (same need).mpr (ordered before item rest rfl needed)⟩
    have passed : before.find? (fun item => Ready needs placed item) = none := by
      refine find?_eq_none.mpr (fun old member => ?_)
      rw [decide_eq_true_eq]
      exact fun waiting => waiting.1 ((same old).mpr member)
    have first : (before ++ item :: rest).find? (fun item => Ready needs placed item) =
        some item := by
      rw [find?_append, passed, Option.none_or, find?_cons, decide_eq_true ready]
    rw [length_cons, arrange_cons first]
    have shifted : before ++ item :: rest = (before ++ [item]) ++ rest := by
      rw [append_assoc, singleton_append]
    rw [shifted] at distinct ordered ⊢
    rw [ih distinct (fun other => ?_) ordered]
    rw [mem_cons, same, mem_append, mem_singleton]
    exact or_comm

end Arrange

/-- A finite graph without cycles is well founded. -/
theorem wellFounded_of_acyclic {size : Nat} {edge : Nat -> Nat -> Prop}
    (bounded : forall source target, edge source target -> source < size ∧ target < size)
    (acyclic : forall node, ¬ Relation.TransGen edge node node) : WellFounded edge := by
  have finite : WellFounded (fun first second : Fin size => Relation.TransGen edge first second) := by
    have trans : IsTrans (Fin size) (fun first second => Relation.TransGen edge first second) :=
      ⟨fun _ _ _ first second => first.trans second⟩
    have irrefl : Std.Irrefl (fun first second : Fin size => Relation.TransGen edge first second) :=
      ⟨fun node => acyclic node⟩
    exact Finite.wellFounded_of_trans_of_irrefl _
  refine ⟨fun node => ?_⟩
  have inside (index : Fin size) : Acc edge index := by
    induction index using finite.induction with
    | _ index ih =>
      exact ⟨_, fun source step => ih ⟨source, (bounded source index step).1⟩ (.single step)⟩
  exact ⟨_, fun source step => inside ⟨source, (bounded source node step).1⟩⟩

end Foundation
