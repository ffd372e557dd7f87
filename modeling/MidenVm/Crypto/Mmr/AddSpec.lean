import MidenVm.Crypto.Mmr.PartialSpec

namespace MidenVm.Crypto.Mmr

open Foundation Mountain Outcome Nat Finset Full

/-!
# Adding a leaf to the partial range

A new leaf merges with the smallest trees while they have its size.  Each
merge gives two nodes a parent, and stores each of them when a tracked leaf
stands under the other one.
-/

namespace PartialMmr

variable {D : Type} {merge : D -> D -> D} {leaf : Nat -> D}
variable {count level : Nat} {tracked : Finset Nat} {state : AddState D} {mmr : PartialMmr D}

/-- After the last merge the parents are those over one more leaf. -/
theorem merged_iff_complete {half height index : Nat}
    (shape : count + 1 = (2 * half + 1) * 2 ^ level)
    (positive : 0 < height) : Merged count level height index ↔
      Complete (count + 1) height index := by
  rw [Merged, Complete, Complete, le_succ_iff, succ_eq_add_one, ends_iff shape]
  constructor
  · rintro (complete | ⟨_, le, here⟩)
    · exact .inl complete
    · exact .inr ⟨le, here⟩
  · rintro (complete | ⟨le, here⟩)
    · exact .inl complete
    · exact .inr ⟨positive, le, here⟩

/-- An insertion that depends on a flag. -/
theorem insertIf_spec [DecidableEq D] {needed : Nat -> Nat -> Prop} {stored : Stored D}
    (keeps : Keeps merge leaf needed stored.nodes) {flag : Bool} {condition : Prop}
    (means : flag = true ↔ condition) (height index : Nat) :
    ∃ after, stored.insertIf flag (.ofNode height index) (node merge leaf height index) =
      .ok after ∧ Keeps merge leaf
        (fun level place => needed level place ∨ (level = height ∧ place = index ∧ condition))
        after.nodes := by
  have after := keeps.insertIf means height index
  by_cases set : flag = true
  · have agrees : stored.nodes (.ofNode height index) = none ∨
        stored.nodes (.ofNode height index) = some (node merge leaf height index) := by
      cases found : stored.nodes (.ofNode height index) with
      | none => exact .inl rfl
      | some value => exact .inr (congrArg some (keeps.get_eq_some.mp found).2)
    rw [if_pos set] at after
    rw [Stored.insertIf, if_pos set, Stored.insert, require_of agrees, ok_bind]
    exact ⟨_, rfl, after⟩
  · rw [if_neg set] at after
    exact ⟨stored, if_neg set, after⟩

/-- The loop of `add`, by the number of merges done. -/
structure Merging (merge : D -> D -> D) (leaf : Nat -> D) (tracked : Finset Nat)
    (count level : Nat) (state : AddState D) : Prop where
  peaks : state.peaks = Full.peakNodes merge leaf (count / 2 ^ level * 2 ^ level)
  right : state.right = node merge leaf level (count / 2 ^ level)
  rightIdx : state.rightIdx = .ofNode level (count / 2 ^ level)
  trackRight : state.trackRight = true ↔ Under tracked level (count / 2 ^ level)
  trackLeft : count / 2 ^ level % 2 = 1 ->
    (state.trackLeft = true ↔ Under tracked level (count / 2 ^ level - 1))
  keeps : Keeps merge leaf (Needed tracked (Merged count level)) state.stored.nodes

theorem addMerge_spec [DecidableEq D] (low : level < 32)
    (merging : Merging merge leaf tracked count level state) (odd : count / 2 ^ level % 2 = 1) :
    ∃ next, addMerge merge tracked state = .ok next ∧
      Merging merge leaf tracked count (level + 1) next := by
  have wide : level + 2 < usizeBits := by unfold usizeBits; omega
  have half := div_two_pow_succ count level
  generalize parent : count / 2 ^ (level + 1) = above at half
  have own : count / 2 ^ level = 2 * above + 1 := by omega
  have set : count.testBit level = true := by
    rw [testBit_eq_decide_div_mod_eq, decide_eq_true_iff]
    exact odd
  have peaks := Full.peakNodes_last merge leaf low set
  rw [rootIndex, parent] at peaks
  have trackRight := merging.trackRight
  have trackLeft := merging.trackLeft odd
  rw [own] at trackRight trackLeft
  rw [Nat.add_sub_cancel] at trackLeft
  rcases insertIf_spec merging.keeps trackRight level (2 * above) with ⟨first, stored, kept⟩
  rcases insertIf_spec kept trackLeft level (2 * above + 1) with ⟨second, again, both⟩
  have keeps : Keeps merge leaf (Needed tracked (Merged count (level + 1))) second.nodes := by
    refine both.congr (fun height index => ?_)
    rw [needed_merged_succ parent, or_assoc]
  refine ⟨⟨Full.peakNodes merge leaf (above * 2 ^ (level + 1)), second,
    state.trackRight || state.trackLeft,
    isTrackedNode second.nodes tracked (InOrderIndex.ofNode (level + 1) (sibling above)),
    node merge leaf (level + 1) above, .ofNode (level + 1) above⟩, ?_, ?_⟩
  · have last : state.peaks.getLast? = some (node merge leaf level (2 * above)) := by
      rw [merging.peaks, peaks, List.getLast?_concat]
    have others : state.peaks.dropLast = Full.peakNodes merge leaf (above * 2 ^ (level + 1)) := by
      rw [merging.peaks, peaks, List.dropLast_concat]
    have leftIdx : state.rightIdx.sibling = .ofNode level (2 * above) := by
      rw [merging.rightIdx, own, InOrderIndex.sibling_ofNode (lt_of_succ_lt wide), sibling_odd]
    have upIdx : state.rightIdx.parent = .ofNode (level + 1) above := by
      rw [merging.rightIdx, InOrderIndex.parent_ofNode (by omega), ← div_two_pow_succ, parent]
    simp only [addMerge, last, expect_some, ok_bind, leftIdx, stored, others, upIdx,
      InOrderIndex.sibling_ofNode wide]
    rw [merging.right, merging.rightIdx, own, again]
    rfl
  · have tracks : (state.trackRight || state.trackLeft) = true ↔
        Under tracked (level + 1) above := by
      rw [Bool.or_eq_true, trackRight, trackLeft, under_succ, or_comm]
    rw [← parent] at tracks ⊢
    refine ⟨rfl, rfl, rfl, tracks, fun next => ?_, keeps⟩
    have beside : sibling (count / 2 ^ (level + 1)) = count / 2 ^ (level + 1) - 1 := if_pos next
    have complete : Complete count (level + 1) (count / 2 ^ (level + 1) - 1) := by
      have positive : 0 < count / 2 ^ (level + 1) := by omega
      rw [Complete, Nat.sub_add_cancel positive]
      exact div_mul_le_self count _
    rw [beside]
    exact isTrackedNode_iff keeps (by omega) (.inr (.inl complete))

theorem addMerges_spec [DecidableEq D] {merges : Nat} (low : level + merges ≤ 32)
    (merging : Merging merge leaf tracked count level state)
    (ones : forall height, level ≤ height -> height < level + merges -> count / 2 ^ height % 2 = 1) :
    ∃ after, addMerges merge tracked merges state = .ok after ∧
      Merging merge leaf tracked count (level + merges) after := by
  induction merges generalizing level state with
  | zero => exact ⟨state, rfl, merging⟩
  | succ merges ih =>
    rcases addMerge_spec (by omega) merging (ones level (le_refl level) (by omega)) with
      ⟨next, merged, kept⟩
    rcases ih (by omega) kept (fun height le less => ones height (by omega) (by omega)) with
      ⟨after, done, final⟩
    refine ⟨after, ?_, ?_⟩
    · rw [addMerges, merged, ok_bind, done]
    · rw [add_right_comm] at final
      exact final

/-- A new leaf needs itself only, before any merge. -/
theorem needed_insert_new {index : Nat} :
    Needed (insert count tracked) (Complete count) level index ↔
      Needed tracked (Complete count) level index ∨ (level = 0 ∧ index = count) := by
  refine needed_insert_iff.trans (or_iff_left ?_)
  rintro ⟨complete, here⟩
  -- the new leaf is not under a complete node
  have more := lt_succ_self (count / 2 ^ (level + 1))
  rw [Nat.div_lt_iff_lt_mul (Nat.two_pow_pos _), div_two_pow_succ, here, sibling_div_two] at more
  exact absurd complete (not_le.mpr more)

/-- The digits that a new leaf carries over. -/
theorem ones_below {half height : Nat} (shape : count + 1 = (2 * half + 1) * 2 ^ height)
    (less : level < height) : count / 2 ^ level % 2 = 1 := by
  rcases Nat.exists_eq_add_of_le (succ_le_of_lt less) with ⟨more, rfl⟩
  have ends := (ends_iff shape).mpr ⟨le_of_lt less, rfl⟩
  have power : (2 * half + 1) * 2 ^ (level + 1 + more) =
      2 * ((2 * half + 1) * 2 ^ more) * 2 ^ level := by
    ring
  rw [shape, power] at ends
  have next := eq_of_mul_eq_mul_right (Nat.two_pow_pos level) ends
  omega

theorem div_at_carry {half height : Nat} (shape : count + 1 = (2 * half + 1) * 2 ^ height) :
    count / 2 ^ height = 2 * half := by
  have ends := (ends_iff shape).mpr ⟨le_refl height, rfl⟩
  rw [shape] at ends
  have next := eq_of_mul_eq_mul_right (Nat.two_pow_pos height) ends
  omega

/-- The peaks after the last merge. -/
theorem peakNodes_succ (merge : D -> D -> D) (leaf : Nat -> D) {count half height : Nat}
    (low : height < 32) (shape : count + 1 = (2 * half + 1) * 2 ^ height) :
    peakNodes merge leaf (count + 1) =
      peakNodes merge leaf (count / 2 ^ height * 2 ^ height) ++
        [node merge leaf height (count / 2 ^ height)] := by
  have positive := Nat.two_pow_pos height
  have whole : (count + 1) / 2 ^ height = 2 * half + 1 := by
    rw [shape, Nat.mul_div_cancel _ positive]
  have above : (count + 1) / 2 ^ (height + 1) = half := by
    rw [div_two_pow_succ, whole]
    omega
  have set : (count + 1).testBit height = true := by
    rw [testBit_eq_decide_div_mod_eq, decide_eq_true_iff, whole]
    omega
  have last := peakNodes_last merge leaf low set
  have power : half * 2 ^ (height + 1) = 2 * half * 2 ^ height := by ring
  rw [whole, above, rootIndex, above, ← shape, power] at last
  rw [last, div_at_carry shape]

theorem merging_zero (follows : mmr.Follows merge leaf) (track : Bool) (stored : Stored D)
    (trackedEq : tracked = if track then insert mmr.forest.numLeaves mmr.trackedLeaves else mmr.trackedLeaves)
    (nodesEq : stored.nodes = if track then mmr.nodes.insert (.ofNode 0 mmr.forest.numLeaves) (leaf
        mmr.forest.numLeaves) else mmr.nodes) :
    Merging merge leaf tracked mmr.forest.numLeaves 0
      ⟨mmr.peaks, stored, track, decide (mmr.forest.numLeaves - 1 ∈ tracked),
        leaf mmr.forest.numLeaves, .ofNode 0 mmr.forest.numLeaves⟩ := by
  have fresh : mmr.forest.numLeaves ∉ mmr.trackedLeaves :=
    fun member => lt_irrefl _ (follows.tracked _ member)
  have zero (height index : Nat) : Complete mmr.forest.numLeaves height index ↔
      Merged mmr.forest.numLeaves 0 height index := by
    refine ⟨.inl, ?_⟩
    rintro (complete | ⟨positive, le, _⟩)
    · exact complete
    · omega
  have keeps : Keeps merge leaf (Needed tracked (Complete mmr.forest.numLeaves)) stored.nodes := by
    cases track with
    | false =>
      rw [trackedEq, nodesEq]
      exact follows.keeps
    | true =>
      rw [trackedEq, nodesEq]
      exact (follows.keeps.insert 0 _).congr (fun level index => needed_insert_new.symm)
  refine ⟨?_, ?_, ?_, ?_, fun _ => ?_, keeps.congr (needed_congr_inner zero)⟩
  · rw [pow_zero, Nat.div_one, mul_one]
    exact follows.peaks
  · rw [pow_zero, Nat.div_one]
    rfl
  · rw [pow_zero, Nat.div_one]
  · rw [pow_zero, Nat.div_one, under_zero, trackedEq]
    cases track with
    | false => exact iff_of_false Bool.false_ne_true fresh
    | true => exact iff_of_true rfl (mem_insert_self _ _)
  · rw [pow_zero, Nat.div_one, under_zero]
    exact decide_eq_true_iff

theorem Merging.follows {half height : Nat}
    (merging : Merging merge leaf tracked count height state)
    (low : height < 32) (shape : count + 1 = (2 * half + 1) * 2 ^ height) {forest : Forest}
    (size : forest.numLeaves = count + 1) (bounded : forall pos, pos ∈ tracked -> pos < count + 1) :
    (PartialMmr.mk forest (state.peaks ++ [state.right]) state.stored.nodes tracked).Follows
      merge leaf := by
  refine ⟨?_, ?_, merging.keeps.congr (needed_congr (fun level pos _ => ?_))⟩
  · change state.peaks ++ [state.right] = peakNodes merge leaf forest.numLeaves
    rw [merging.peaks, merging.right, size, peakNodes_succ merge leaf low shape]
  · intro pos member
    rw [size]
    exact bounded pos member
  · rw [size]
    exact merged_iff_complete shape (succ_pos level)

/-- Adding the next leaf, tracked or not. -/
theorem add_spec [DecidableEq D] (follows : mmr.Follows merge leaf)
    (room : mmr.forest.numLeaves < maxLeaves) (track : Bool) :
    ∃ after newNodes, mmr.add merge (leaf mmr.forest.numLeaves) track = .ok (after, newNodes) ∧
      after.forest.numLeaves = mmr.forest.numLeaves + 1 ∧
      after.trackedLeaves = (if track then insert mmr.forest.numLeaves mmr.trackedLeaves
        else mmr.trackedLeaves) ∧
      after.Follows merge leaf := by
  rcases exists_odd_mul_two_pow (succ_pos mmr.forest.numLeaves) with ⟨half, height, shape⟩
  let forest : Forest := ⟨mmr.forest.numLeaves + 1, room⟩
  have smallest : forest.smallestTreeHeightUnchecked = height ∧ height < 32 :=
    Forest.smallestTreeHeight_eq shape
  have leafIdx : (InOrderIndex.fromLeafPos mmr.forest.numLeaves : Outcome (MmrError D) InOrderIndex) =
      .ok (.ofNode 0 mmr.forest.numLeaves) :=
    fromLeafPos_of_lt (show _ < forest.numLeaves from lt_succ_self _)
  have rightmost : (forest.rightmostInOrderIndexUnchecked : Outcome (MmrError D) InOrderIndex) =
      .ok (.ofNode 0 mmr.forest.numLeaves) := Forest.rightmostInOrderIndexUnchecked_eq rfl
  have appended : (mmr.forest.appendLeaf : Outcome (MmrError D) Forest) = .ok forest :=
    dif_neg (not_le.mpr room)
  have bounded (pos : Nat) (member : pos ∈ if track then insert mmr.forest.numLeaves mmr.trackedLeaves
      else mmr.trackedLeaves) : pos < mmr.forest.numLeaves + 1 := by
    split at member
    · rcases mem_insert.mp member with rfl | old
      · exact lt_succ_self _
      · exact lt_succ_of_lt (follows.tracked pos old)
    · exact lt_succ_of_lt (follows.tracked pos member)
  have start := merging_zero follows track (if track then
      ⟨mmr.nodes.insert (.ofNode 0 mmr.forest.numLeaves) (leaf mmr.forest.numLeaves),
        [(.ofNode 0 mmr.forest.numLeaves, leaf mmr.forest.numLeaves)]⟩
    else ⟨mmr.nodes, []⟩) rfl (by cases track <;> rfl)
  rw [add, appended, ok_bind, smallest.1]
  change ∃ after newNodes, (InOrderIndex.fromLeafPos mmr.forest.numLeaves >>= _) = _ ∧ _
  rw [leafIdx, ok_bind]
  change ∃ after newNodes, (if height = 0 then _ else _) = _ ∧ _
  by_cases zero : height = 0
  · rw [if_pos zero]
    subst zero
    exact ⟨_, _, rfl, rfl, rfl, start.follows smallest.2 shape rfl bounded⟩
  · rw [if_neg zero]
    have ones (level : Nat) (_ : 0 ≤ level) (less : level < 0 + height) :
        mmr.forest.numLeaves / 2 ^ level % 2 = 1 := ones_below shape (by omega)
    rcases addMerges_spec (by omega) start ones with ⟨after, done, final⟩
    rw [zero_add] at final
    refine ⟨⟨forest, after.peaks ++ [after.right], after.stored.nodes, _⟩, after.stored.newNodes,
      ?_, rfl, rfl, final.follows smallest.2 shape rfl bounded⟩
    simp only [rightmost, ok_bind]
    exact congrArg (fun outcome => Outcome.bind outcome _) done

end PartialMmr

end MidenVm.Crypto.Mmr
