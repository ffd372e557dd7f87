import MidenVm.Crypto.Mmr.Needed

namespace MidenVm.Crypto.Mmr

open Foundation Mountain Outcome Nat Finset Forest

/-!
# Operations of the partial range

A partial range follows a sequence of leaves when its peaks are those over the
first leaves and its map stores exactly the nodes that the tracked leaves
need.  Adding, tracking and untracking keep this, and an opening is read off
the stored nodes.
-/

namespace PartialMmr

variable {D : Type} {merge : D -> D -> D} {leaf : Nat -> D}
variable {forest : Forest} {pos height : Nat} {nodes : NodeMap D} {mmr : PartialMmr D}
    {tracked : Finset Nat}

/-- The state of a partial range over a sequence of leaves. -/
structure Follows (merge : D -> D -> D) (leaf : Nat -> D) (mmr : PartialMmr D) : Prop where
  peaks : mmr.peaks = Full.peakNodes merge leaf mmr.forest.numLeaves
  tracked : forall pos, pos ∈ mmr.trackedLeaves -> pos < mmr.forest.numLeaves
  keeps : Keeps merge leaf (Needed mmr.trackedLeaves (Complete mmr.forest.numLeaves)) mmr.nodes

theorem fromPeaks_follows (forest : Forest) :
    (fromPeaks ⟨forest, Full.peakNodes merge leaf forest.numLeaves⟩).Follows merge leaf := by
  refine ⟨rfl, fun pos member => absurd member (notMem_empty pos), ?_⟩
  intro idx value
  constructor
  · intro impossible
    cases impossible
  · rintro ⟨height, index, _, ⟨_, member⟩ | ⟨_, pos, member, _⟩, _⟩
    · exact absurd member (notMem_empty index)
    · exact absurd member (notMem_empty pos)

/-- Positions of a forest have an index. -/
theorem fromLeafPos_of_lt (inside : pos < forest.numLeaves) :
    (InOrderIndex.fromLeafPos pos : Outcome (MmrError D) InOrderIndex) = .ok (.ofNode 0 pos) :=
  InOrderIndex.fromLeafPos_eq (lt_trans inside (lt_trans forest.numLeaves_lt (by decide)))

/-! ## Openings -/

theorem openSiblings_spec {level depth : Nat} (low : level + depth < usizeBits)
    (stored : forall height, level ≤ height -> height < level + depth ->
        nodes (.ofNode height (sibling (pos / 2 ^ height))) =
        some (node merge leaf height (sibling (pos / 2 ^ height)))) :
    openSiblings nodes pos depth (.ofNode level (pos / 2 ^ level)) =
      .ok (siblings merge leaf depth level (pos / 2 ^ level)) := by
  induction depth generalizing level with
  | zero => rfl
  | succ depth ih =>
    have here := stored level (le_refl level) (by omega)
    have rest : openSiblings nodes pos depth (.ofNode (level + 1) (pos / 2 ^ (level + 1))) = _ :=
      ih (by omega) (fun height le less => stored height (by omega) (by omega))
    rw [openSiblings, InOrderIndex.sibling_ofNode (by omega), here, okOr_some,
      ok_bind, InOrderIndex.parent_ofNode (by omega), ← div_two_pow_succ, rest,
      ok_bind, siblings, div_two_pow_succ]
    rfl

theorem openLeaf_tracked (follows : mmr.Follows merge leaf) (member : pos ∈ mmr.trackedLeaves) :
    ∃ height merklePath, mmr.forest.Owns pos height ∧
      merklePath.nodes = siblings merge leaf height 0 pos ∧
      mmr.openLeaf pos = .ok (some ⟨⟨mmr.forest, pos, merklePath⟩, leaf pos⟩) := by
  have inside := follows.tracked pos member
  rcases owns_of_leafToCorrespondingTree inside with ⟨height, found, owns⟩
  have low := owns.height_lt
  have short : (siblings merge leaf height 0 pos).length ≤ 255 := by
    rw [length_siblings]
    omega
  have own : mmr.nodes (.ofNode 0 pos) = some (leaf pos) :=
    follows.keeps.get_of_needed (.inl ⟨rfl, member⟩)
  have stored (level : Nat) (less : level < height) :
      mmr.nodes (.ofNode level (sibling (pos / 2 ^ level))) =
        some (node merge leaf level (sibling (pos / 2 ^ level))) := by
    refine follows.keeps.get_of_needed (.inr ⟨?_, ?_⟩)
    · rw [sibling_div_two, ← div_two_pow_succ]
      exact (complete_div_iff_le owns).mpr less
    · rw [sibling_sibling]
      exact ⟨pos, member, rfl⟩
  have path : openSiblings mmr.nodes pos height (.ofNode 0 (pos / 2 ^ 0)) = _ :=
    openSiblings_spec (by unfold usizeBits; omega)
      (fun level _ less => stored level (by omega))
  rw [pow_zero, Nat.div_one] at path
  refine ⟨height, ⟨_, short⟩, owns, rfl, ?_⟩
  rw [openLeaf, found, okOr_some, ok_bind, if_neg (not_not_intro member),
    fromLeafPos_of_lt inside, ok_bind, own, expect_some, ok_bind, path,
    ok_bind, MerklePath.new, dif_pos short]
  rfl

theorem openLeaf_untracked (inside : pos < mmr.forest.numLeaves) (free : pos ∉ mmr.trackedLeaves) :
    mmr.openLeaf pos = .ok none := by
  rcases owns_of_leafToCorrespondingTree inside with ⟨height, found, _⟩
  rw [openLeaf, found, okOr_some, ok_bind, if_pos free]
  rfl

theorem openLeaf_outside (outside : mmr.forest.numLeaves ≤ pos) :
    mmr.openLeaf pos = .err (.positionNotFound pos) := by
  rw [openLeaf, leafToCorrespondingTree, if_pos outside]
  rfl

/-! ## Tracking -/

theorem storePath_keeps {needed : Nat -> Nat -> Prop} (pos level depth : Nat)
    (low : level + depth < usizeBits) (keeps : Keeps merge leaf needed nodes) :
    Keeps merge leaf
      (fun height index => needed height index ∨
        (level ≤ height ∧ height < level + depth ∧ index = sibling (pos / 2 ^ height)))
      (storePath nodes (.ofNode level (pos / 2 ^ level))
        (siblings merge leaf depth level (pos / 2 ^ level))) := by
  induction depth generalizing level nodes needed with
  | zero =>
    exact keeps.congr (fun height index => (or_iff_left (fun both => not_lt.mpr both.1 both.2.1)).symm)
  | succ depth ih =>
    rw [siblings, storePath, InOrderIndex.sibling_ofNode (by omega),
      InOrderIndex.parent_ofNode (by omega), ← div_two_pow_succ]
    refine (ih (level + 1) (by omega) (keeps.insert level _)).congr (fun height index => ?_)
    constructor
    · rintro ((need | ⟨rfl, rfl⟩) | ⟨le, less, here⟩)
      · exact .inl need
      · exact .inr ⟨le_refl _, by omega, rfl⟩
      · exact .inr ⟨by omega, by omega, here⟩
    · rintro (need | ⟨le, less, here⟩)
      · exact .inl (.inl need)
      · rcases Nat.eq_or_lt_of_le le with rfl | more
        · exact .inl (.inr ⟨rfl, here⟩)
        · exact .inr ⟨more, by omega, here⟩

/-- What a further tracked leaf needs: itself and the siblings on its path. -/
theorem needed_insert (owns : forest.Owns pos height) (level index : Nat) :
    Needed (insert pos tracked) (Complete forest.numLeaves) level index ↔
      (Needed tracked (Complete forest.numLeaves) level index ∨ (level = 0 ∧ index = pos)) ∨
        (0 ≤ level ∧ level < 0 + height ∧ index = sibling (pos / 2 ^ level)) := by
  have own : pos / 2 ^ level = sibling index ↔ index = sibling (pos / 2 ^ level) :=
    ⟨fun here => by rw [here, sibling_sibling], fun here => by rw [here, sibling_sibling]⟩
  refine needed_insert_iff.trans (or_congr_right ?_)
  rw [own]
  constructor
  · rintro ⟨complete, here⟩
    rw [here, sibling_div_two, ← div_two_pow_succ, complete_div_iff_le owns] at complete
    exact ⟨Nat.zero_le _, by omega, here⟩
  · rintro ⟨_, less, here⟩
    refine ⟨?_, here⟩
    rw [here, sibling_div_two, ← div_two_pow_succ]
    exact (complete_div_iff_le owns).mpr (by omega)

section Track

variable [DecidableEq D] {value : D} {path : MerklePath D}

/-- What follows once the forest has a tree of the depth of the path. -/
theorem checkPath_eq (present : mmr.forest.numLeaves.testBit path.depth = true) :
    mmr.checkPath merge pos value path = (do
      let start := mmr.forest.numLeaves / 2 ^ (path.depth + 1) * 2 ^ (path.depth + 1)
      require (start ≤ pos)
      let computed ← (path.computeRoot merge (pos - start) value).mapErr .merkleRootComputationFailed
      let peak ← expect mmr.peaks[popcount (mmr.forest.numLeaves / 2 ^ (path.depth + 1))]?
      ensure (peak = computed) .peakPathMismatch) := by
  have low := height_lt_of_testBit present
  rcases new_two_pow low with ⟨tree, made, size⟩
  -- the forest down to the tree of the path, and without it
  have target := mmr.forest.numLeaves_without_smaller size
  have before : ((mmr.forest.xor (mmr.forest.and tree.allSmallerTreesUnchecked)).xor tree).numLeaves =
      mmr.forest.numLeaves / 2 ^ (path.depth + 1) * 2 ^ (path.depth + 1) := by
    rw [← xor_two_pow_of_testBit present, ← target, ← size]
    rfl
  have number : (mmr.forest.xor (mmr.forest.and tree.allSmallerTreesUnchecked)).numTrees - 1 =
      popcount (mmr.forest.numLeaves / 2 ^ (path.depth + 1)) := by
    rw [numTrees, target, popcount_shift, popcount_div_of_testBit present, Nat.add_sub_cancel]
  rw [checkPath, if_pos (lt_trans low (by decide)), okOr_some, ok_bind, one_shiftLeft, made,
    okOr_some, ok_bind, ensure_of ((mmr.forest.isEmpty_and_eq_false_iff size).mpr present), ok_bind]
  simp only [before, number]

theorem checkPath_unknownPeak (absent : ¬ mmr.forest.numLeaves.testBit path.depth = true) :
    mmr.checkPath merge pos value path = .err (.unknownPeak path.depth) := by
  rw [checkPath]
  by_cases deep : path.depth < usizeBits
  · rw [if_pos deep, okOr_some, ok_bind, one_shiftLeft]
    cases made : new (2 ^ path.depth) with
    | none => rfl
    | some tree =>
      have size : tree.numLeaves = 2 ^ path.depth := by
        rw [new] at made
        split at made
        · exact (congrArg numLeaves (Option.some.inj made)).symm
        · cases made
      rw [okOr_some, ok_bind, ensure, if_neg ((mmr.forest.isEmpty_and_eq_false_iff size).not.mpr absent)]
      rfl
  · rw [if_neg deep]
    rfl

/-- A path with an index of its own depth is one of the tree at that depth. -/
theorem owns_of_sub_lt (present : forest.numLeaves.testBit height = true)
    (behind : forest.numLeaves / 2 ^ (height + 1) * 2 ^ (height + 1) ≤ pos)
    (narrow : pos - forest.numLeaves / 2 ^ (height + 1) * 2 ^ (height + 1) < 2 ^ height) :
    forest.Owns pos height := by
  refine ⟨present, ?_⟩
  rw [← rootIndex_mul] at behind narrow
  have split := Nat.add_sub_of_le behind
  rw [mul_comm] at split
  rw [← split, mul_add_div (Nat.two_pow_pos height), div_eq_of_lt (by rwa [mul_comm] at narrow), add_zero]

/-- A path is accepted exactly when it leads to the peak of the tree of its depth. -/
theorem checkPath_eq_ok : mmr.checkPath merge pos value path = .ok () ↔ ∃ peakIndex relativePos,
    TreeOf mmr.forest.numLeaves pos peakIndex path.depth relativePos ∧
      mmr.peaks[peakIndex]? = some (climb merge relativePos value path.nodes) := by
  by_cases present : mmr.forest.numLeaves.testBit path.depth = true
  · have low := height_lt_of_testBit present
    rw [checkPath_eq present]
    constructor
    · intro checked
      rcases bind_unit_eq_ok.mp checked with ⟨behind, checked⟩
      rcases bind_eq_ok.mp checked with ⟨root, computed, checked⟩
      rcases bind_eq_ok.mp checked with ⟨peak, found, same⟩
      rcases (MerklePath.computeRoot_eq_ok merge).mp (mapErr_eq_ok.mp computed) with
        ⟨_, narrow, climbs⟩
      have owns := owns_of_sub_lt present (require_eq_ok.mp behind) narrow
      have start := owns.start_add
      rw [show pos - _ = pos % 2 ^ path.depth by omega] at climbs
      refine ⟨_, _, owns.treeOf, ?_⟩
      rw [climbs, ← ensure_eq_ok.mp same]
      exact expect_eq_ok.mp found
    · rintro ⟨peakIndex, relativePos, tree, peak⟩
      rcases tree.owns with ⟨owns, rfl, rfl⟩
      have start := owns.start_add
      have behind : mmr.forest.numLeaves / 2 ^ (path.depth + 1) * 2 ^ (path.depth + 1) ≤ pos := by omega
      have relative : pos - mmr.forest.numLeaves / 2 ^ (path.depth + 1) * 2 ^ (path.depth + 1) =
          pos % 2 ^ path.depth := Nat.sub_eq_of_eq_add' start.symm
      have computed : path.computeRoot merge (pos % 2 ^ path.depth) value = .ok _ :=
        (MerklePath.computeRoot_eq_ok merge).mpr ⟨le_of_lt (lt_trans low (by decide)),
          tree.inside, rfl⟩
      simp only [relative, require_of behind, ok_bind, computed, mapErr_ok, peak,
        expect_some, ensure_of]
  · rw [checkPath_unknownPeak present]
    refine iff_of_false (fun impossible => by cases impossible) ?_
    rintro ⟨peakIndex, relativePos, tree, _⟩
    exact present tree.owns.1.present

/-- The difference of positions aborts when the tree lies behind the position. -/
theorem checkPath_eq_panic (whole : mmr.peaks.length = mmr.forest.numTrees) :
    mmr.checkPath merge pos value path = .panic ↔ mmr.forest.numLeaves.testBit path.depth = true ∧
      pos < mmr.forest.numLeaves / 2 ^ (path.depth + 1) * 2 ^ (path.depth + 1) := by
  by_cases present : mmr.forest.numLeaves.testBit path.depth = true
  · rw [checkPath_eq present]
    constructor
    · intro aborts
      by_contra behind
      revert aborts
      rw [not_and, not_lt] at behind
      simp only [require_of (behind present), ok_bind]
      apply bind_ne_panic
      · rw [ne_eq, mapErr_eq_panic, MerklePath.computeRoot, NodeIndex.new]
        split
        · simp
        · split <;> simp
      intro root computed
      rcases (MerklePath.computeRoot_eq_ok merge).mp (mapErr_eq_ok.mp computed) with ⟨_, narrow, _⟩
      have owns := owns_of_sub_lt present (behind present) narrow
      have inRange := (getElem?_eq_some_iff.mp owns.treeOf.tree).1
      rw [length_setBits, mod_eq_of_lt mmr.forest.numLeaves_lt, ← numTrees, ← whole] at inRange
      rw [List.getElem?_eq_getElem inRange, expect_some, ok_bind]
      exact ensure_ne_panic _ _
    · rintro ⟨_, before⟩
      simp only [require, if_neg (not_le.mpr before), panic_bind]
  · rw [checkPath_unknownPeak present]
    exact iff_of_false (fun impossible => by cases impossible) (fun all => present all.1)

/-- Everything is written after the checks. -/
theorem track_of_checked (checked : mmr.checkPath merge pos value path = .ok ()) :
    track merge pos value path mmr = (.ok (), { mmr with
      nodes := storePath (mmr.nodes.insert (.ofNode 0 pos) value) (.ofNode 0 pos) path.nodes
      trackedLeaves := insert pos mmr.trackedLeaves }) := by
  rcases checkPath_eq_ok.mp checked with ⟨_, _, tree, _⟩
  have index : (InOrderIndex.fromLeafPos pos : Outcome (MmrError D) _) = .ok (.ofNode 0 pos) :=
    fromLeafPos_of_lt tree.owns.1.lt
  exact (Effect.run_bind_ok (congrArg (·, mmr) checked) _).trans
    (Effect.run_bind_ok (congrArg (·, { mmr with trackedLeaves := insert pos mmr.trackedLeaves }) index) _)

theorem track_failed (failed : mmr.checkPath merge pos value path ≠ .ok ()) :
    track merge pos value path mmr = (mmr.checkPath merge pos value path, mmr) := by
  cases checked : mmr.checkPath merge pos value path with
  | ok _ => exact absurd checked failed
  | err error => exact Effect.run_bind_err (congrArg (·, mmr) checked) _
  | panic => exact Effect.run_bind_panic (congrArg (·, mmr) checked) _

theorem track_result (merge : D -> D -> D) (mmr : PartialMmr D) (pos : Nat) (value : D)
    (path : MerklePath D) :
    (track merge pos value path mmr).1 = mmr.checkPath merge pos value path := by
  by_cases checked : mmr.checkPath merge pos value path = .ok ()
  · rw [track_of_checked checked, checked]
  · rw [track_failed checked]

/-- Tracking a leaf with the path of the full range. -/
theorem track_spec (follows : mmr.Follows merge leaf) (owns : mmr.forest.Owns pos height)
    (nodes : path.nodes = siblings merge leaf height 0 pos) :
    ∃ after, (track merge pos (leaf pos) path).exec mmr = .ok after ∧ after.forest = mmr.forest ∧
      after.trackedLeaves = insert pos mmr.trackedLeaves ∧ after.Follows merge leaf := by
  have low := owns.height_lt
  have depth : path.depth = height := by
    rw [MerklePath.depth, nodes, length_siblings]
  subst depth
  have peak : mmr.peaks[popcount (mmr.forest.numLeaves / 2 ^ (path.depth + 1))]? =
      some (node merge leaf path.depth (rootIndex mmr.forest.numLeaves path.depth)) := by
    rw [follows.peaks]
    exact Full.getElem?_peakNodes owns.treeOf.tree
  rcases (MerklePath.computeRoot_eq_ok merge).mp (Full.computeRoot_siblings owns nodes) with
    ⟨_, _, climbs⟩
  rw [← climbs] at peak
  have stored := storePath_keeps pos 0 path.depth (by unfold usizeBits; omega)
    (follows.keeps.insert 0 pos)
  rw [pow_zero, Nat.div_one] at stored
  refine ⟨⟨mmr.forest, mmr.peaks, _, insert pos mmr.trackedLeaves⟩, ?_, rfl, rfl, follows.peaks, ?_,
    stored.congr (fun level index => (needed_insert owns level index).symm)⟩
  · rw [Effect.exec, track_of_checked (checkPath_eq_ok.mpr ⟨_, _, owns.treeOf, peak⟩), nodes]
    rfl
  · intro other member
    rcases mem_insert.mp member with rfl | old
    · exact owns.lt
    · exact follows.tracked other old

/-- A leaf is tracked exactly when its path leads to the peak of its tree, and an
error leaves the range as it was.  The difference of positions aborts when the tree
of the depth of the path lies behind the position. -/
theorem track_outcomes (merge : D -> D -> D) (mmr : PartialMmr D) (pos : Nat) (value : D)
    (path : MerklePath D) :
    ((∃ after, track merge pos value path mmr = (.ok (), after)) ↔ ∃ peakIndex relativePos,
      TreeOf mmr.forest.numLeaves pos peakIndex path.depth relativePos ∧
        mmr.peaks[peakIndex]? = some (climb merge relativePos value path.nodes)) ∧
    (forall error after, track merge pos value path mmr = (.err error, after) -> after = mmr) ∧
    (mmr.peaks.length = mmr.forest.numTrees ->
      ((track merge pos value path mmr).1 = .panic ↔ mmr.forest.numLeaves.testBit path.depth = true ∧
        pos < mmr.forest.numLeaves / 2 ^ (path.depth + 1) * 2 ^ (path.depth + 1))) := by
  refine ⟨?_, fun error after failed => ?_, fun whole => ?_⟩
  · rw [← checkPath_eq_ok]
    constructor
    · rintro ⟨after, ran⟩
      rw [← track_result, ran]
    · exact fun checked => ⟨_, track_of_checked checked⟩
  · have found := track_result merge mmr pos value path
    rw [failed] at found
    have kept := @track_failed _ merge pos mmr _ value path (by rw [← found]; simp)
    exact congrArg Prod.snd (failed.symm.trans kept)
  · rw [track_result]
    exact checkPath_eq_panic whole

/-- A path without nodes for the first of three leaves: its tree is the one of the last leaf. -/
theorem track_aborts_behind :
    (track (· + ·) 0 1 ⟨[], by decide⟩ (fromPeaks ⟨⟨3, by decide⟩, [3, 3]⟩)).1 = .panic := rfl

end Track

/-! ## Untracking -/

/-- Where the leaves under a node on the path of a leaf start. -/
theorem subtree_start {level : Nat} (le : level ≤ height) :
    pos - pos % 2 ^ height + (pos % 2 ^ height) >>> level <<< level =
      pos / 2 ^ level * 2 ^ level := by
  rcases Nat.exists_eq_add_of_le le with ⟨more, rfl⟩
  rw [shiftRight_eq_div_pow, shiftLeft_eq]
  have split := div_add_mod pos (2 ^ (level + more))
  have start : pos - pos % 2 ^ (level + more) =
      2 ^ level * (2 ^ more * (pos / 2 ^ (level + more))) := by
    rw [← mul_assoc, ← pow_add]
    omega
  have own : pos / 2 ^ level =
      2 ^ more * (pos / 2 ^ (level + more)) + pos % 2 ^ (level + more) / 2 ^ level := by
    rw [← mul_add_div (Nat.two_pow_pos level), ← mul_assoc, ← pow_add, split]
  rw [start, own, add_mul, mul_comm (2 ^ level)]

theorem filter_nonempty_iff {level index start : Nat} (same : start = index * 2 ^ level) :
    (tracked.filter (fun pos => start ≤ pos ∧ pos < start + 2 ^ level)).Nonempty ↔
      Under tracked level index := by
  have positive := Nat.two_pow_pos level
  have inside (pos : Nat) : start ≤ pos ∧ pos < start + 2 ^ level ↔ pos / 2 ^ level = index := by
    rw [Nat.div_eq_iff positive, same]
    omega
  constructor
  · rintro ⟨pos, member⟩
    rw [mem_filter, inside] at member
    exact ⟨pos, member.1, member.2⟩
  · rintro ⟨pos, member, here⟩
    exact ⟨pos, mem_filter.mpr ⟨member, (inside pos).mpr here⟩⟩

/-- The siblings on the path of a leaf that was tracked, from a level on. -/
def LeftOver (extra : Prop) (pos level height : Nat) (above index : Nat) : Prop :=
  extra ∧ level ≤ above ∧ above < height ∧ index = sibling (pos / 2 ^ above)

/-- What is stored while the path of a leaf is pruned. -/
def Pruning (forest : Forest) (tracked : Finset Nat) (extra : Prop) (pos level height above index : Nat) : Prop :=
  Needed tracked (Complete forest.numLeaves) above index ∨
    LeftOver extra pos level height above index

section Prune

variable {forest : Forest} {tracked : Finset Nat} {extra : Prop} {pos height level : Nat}
  {nodes : NodeMap D}

/-- Above another tracked leaf everything that is left over is needed. -/
theorem keeps_of_under (owns : forest.Owns pos height)
    (under : Under tracked level (pos / 2 ^ level))
    (keeps : Keeps merge leaf (Pruning forest tracked extra pos level height) nodes) :
    Keeps merge leaf (Needed tracked (Complete forest.numLeaves)) nodes := by
  refine keeps.congr (fun above index => ⟨?_, .inl⟩)
  rintro (need | ⟨_, more, inside, here⟩)
  · exact need
  · refine .inr ⟨?_, ?_⟩
    · rw [here, sibling_div_two, ← div_two_pow_succ]
      exact (complete_div_iff_le owns).mpr inside
    · rw [here, sibling_sibling]
      exact under.up more

/-- Removing the lowest sibling that is left over. -/
theorem keeps_remove_leftOver
    (free : ¬ Needed tracked (Complete forest.numLeaves) level (sibling (pos / 2 ^ level)))
    (keeps : Keeps merge leaf (Pruning forest tracked extra pos level height) nodes) :
    Keeps merge leaf (Pruning forest tracked extra pos (level + 1) height)
      (nodes.remove (.ofNode level (sibling (pos / 2 ^ level)))) := by
  refine (keeps.remove level _).congr (fun above index => ?_)
  constructor
  · rintro ⟨need | ⟨given, more, inside, here⟩, different⟩
    · exact .inl need
    · rcases Nat.eq_or_lt_of_le more with rfl | higher
      · exact absurd ⟨rfl, here⟩ different
      · exact .inr ⟨given, higher, inside, here⟩
  · rintro (need | ⟨given, more, inside, here⟩)
    · refine ⟨.inl need, ?_⟩
      rintro ⟨rfl, rfl⟩
      exact free need
    · exact ⟨.inr ⟨given, le_of_succ_le more, inside, here⟩, fun same => by omega⟩

theorem pruneFrom_spec (owns : forest.Owns pos height) (fuel : Nat) (le : level ≤ height)
    (enough : height < level + fuel)
    (apart : level = 0 -> pos ∉ tracked ∧ sibling pos ∉ tracked)
    (keeps : Keeps merge leaf (Pruning forest tracked extra pos level height) nodes)
    (removed : List (InOrderIndex × D)) :
    ∃ after list, pruneFrom tracked (pos - pos % 2 ^ height) (pos % 2 ^ height) fuel
        (.ofNode level (pos / 2 ^ level)) nodes removed = .ok (after, list) ∧
      Keeps merge leaf (Needed tracked (Complete forest.numLeaves)) after := by
  have low := owns.height_lt
  induction fuel generalizing level nodes removed with
  | zero => omega
  | succ fuel ih =>
    have wide : level + 1 < usizeBits := by unfold usizeBits; omega
    have range : _ ↔ Under tracked level (pos / 2 ^ level) := filter_nonempty_iff (subtree_start le)
    rw [pruneFrom, InOrderIndex.level_ofNode (lt_of_succ_lt wide), one_shiftLeft,
      InOrderIndex.sibling_ofNode wide, InOrderIndex.parent_ofNode (lt_of_succ_lt wide),
      ← div_two_pow_succ]
    by_cases under : Under tracked level (pos / 2 ^ level)
    · rw [if_pos (range.mpr under)]
      exact ⟨nodes, removed, rfl, keeps_of_under owns under keeps⟩
    rw [if_neg (fun nonempty => under (range.mp nonempty))]
    have free : ¬ Needed tracked (Complete forest.numLeaves) level (sibling (pos / 2 ^ level)) := by
      rintro (⟨rfl, member⟩ | ⟨_, below⟩)
      · rw [pow_zero, Nat.div_one] at member
        exact (apart rfl).2 member
      · rw [sibling_sibling] at below
        exact under below
    cases found : nodes (.ofNode level (sibling (pos / 2 ^ level))) with
    | none =>
      refine ⟨nodes, removed, by simp only [found], keeps.congr (fun above index => ⟨?_, .inl⟩)⟩
      rintro (need | ⟨given, more, inside, here⟩)
      · exact need
      · -- a sibling left over at a higher level would leave one here too
        have stored := keeps.get_of_needed
          (.inr ⟨given, le_refl level, lt_of_le_of_lt more inside, rfl⟩)
        rw [found] at stored
        cases stored
    | some word =>
      have next := keeps_remove_leftOver free keeps
      have inside : level < height := by
        rcases (keeps.get_eq_some.mp found).1 with need | ⟨_, _, inside, _⟩
        · exact absurd need free
        · exact inside
      simp only [found]
      by_cases own : (nodes.remove (.ofNode level (sibling (pos / 2 ^ level)))).containsKey
          (.ofNode level (pos / 2 ^ level)) = true
      · rw [if_pos own]
        refine ⟨_, _, rfl, keeps_of_under owns ?_ next⟩
        rcases next.containsKey_iff.mp own with (⟨rfl, member⟩ | ⟨_, beside⟩) | ⟨_, more, _⟩
        · rw [pow_zero, Nat.div_one] at member
          exact absurd member (apart rfl).1
        · rw [div_two_pow_succ, ← sibling_div_two]
          exact beside.parent
        · exact absurd more (not_succ_le_self level)
      · rw [if_neg own]
        exact ih inside (by omega) (fun zero => absurd zero (succ_ne_zero level)) next _

end Prune

/-- A leaf whose sibling is tracked is still needed with its path. -/
theorem needed_erase_of_sibling
    (bounded : forall other, other ∈ tracked -> other < forest.numLeaves)
    (beside : sibling pos ∈ tracked.erase pos) (level index : Nat) :
    Needed tracked (Complete forest.numLeaves) level index ↔
      Needed (tracked.erase pos) (Complete forest.numLeaves) level index := by
  by_cases own : pos ∈ tracked
  · have whole : Needed (insert pos (tracked.erase pos)) (Complete forest.numLeaves) level index ↔ _ :=
      needed_insert_iff
    rw [insert_erase own, or_assoc] at whole
    refine whole.trans (or_iff_left_of_imp ?_)
    rintro (⟨rfl, rfl⟩ | ⟨complete, here⟩)
    · refine .inr ⟨?_, under_zero.mpr beside⟩
      have last := bounded _ (Finset.mem_of_mem_erase beside)
      have first := bounded _ own
      unfold sibling at last
      rw [Complete]
      split at last <;> omega
    · cases level with
      | zero =>
        rw [pow_zero, Nat.div_one] at here
        exact .inl ⟨rfl, by rwa [← sibling_sibling index, ← here]⟩
      | succ level =>
        refine .inr ⟨complete, sibling pos, beside, ?_⟩
        rw [← here, pow_succ', ← Nat.div_div_eq_div_mul, ← Nat.div_div_eq_div_mul, sibling_div_two]
  · rw [erase_eq_of_notMem own]

/-- What a tracked leaf needs beyond the others. -/
theorem needed_erase (owns : forest.Owns pos height) (level index : Nat) :
    Needed tracked (Complete forest.numLeaves) level index ↔
      (Needed (tracked.erase pos) (Complete forest.numLeaves) level index ∨
        (pos ∈ tracked ∧ level = 0 ∧ index = pos)) ∨
        LeftOver (pos ∈ tracked) pos 0 height level index := by
  by_cases own : pos ∈ tracked
  · have whole : Needed (insert pos (tracked.erase pos)) _ level index ↔ _ :=
      needed_insert owns level index
    rw [insert_erase own] at whole
    simp only [whole, LeftOver, own, true_and, zero_add]
  · simp only [erase_eq_of_notMem own, LeftOver, own, false_and, or_false]

/-- The leaf itself goes first. -/
theorem keeps_remove_leaf {extra : Prop} (beside : sibling pos ∉ tracked.erase pos)
    (keeps : Keeps merge leaf (fun level index =>
      (Needed (tracked.erase pos) (Complete forest.numLeaves) level index ∨
        (extra ∧ level = 0 ∧ index = pos)) ∨ LeftOver extra pos 0 height level index) nodes) :
    Keeps merge leaf (Pruning forest (tracked.erase pos) extra pos 0 height)
      (nodes.remove (.ofNode 0 pos)) := by
  refine (keeps.remove 0 pos).congr (fun level index => ?_)
  constructor
  · rintro ⟨(need | ⟨_, same⟩) | left, different⟩
    · exact .inl need
    · exact absurd same different
    · exact .inr left
  · rintro (need | ⟨given, zero, inside, here⟩)
    · refine ⟨.inl (.inl need), ?_⟩
      rintro ⟨rfl, rfl⟩
      rcases need with ⟨_, member⟩ | ⟨_, under⟩
      · exact Finset.notMem_erase _ _ member
      · exact beside (under_zero.mp under)
    · refine ⟨.inr ⟨given, zero, inside, here⟩, ?_⟩
      rintro ⟨rfl, rfl⟩
      rw [pow_zero, Nat.div_one] at here
      exact sibling_ne _ here.symm

theorem untrack_spec (follows : mmr.Follows merge leaf) (small : pos < (2 ^ usizeBits - 1) / 2) :
    ∃ after removed, mmr.untrack pos = .ok (after, removed) ∧ after.forest = mmr.forest ∧
      after.trackedLeaves = mmr.trackedLeaves.erase pos ∧ after.Follows merge leaf := by
  have bounded (other : Nat) (member : other ∈ mmr.trackedLeaves.erase pos) :
      other < mmr.forest.numLeaves := follows.tracked other (mem_of_mem_erase member)
  rw [untrack, InOrderIndex.fromLeafPos_eq small, ok_bind,
    InOrderIndex.sibling_ofNode (by decide), InOrderIndex.toLeafPos_ofNode_zero, expect_some,
    ok_bind]
  by_cases beside : sibling pos ∈ mmr.trackedLeaves.erase pos
  · rw [if_pos beside]
    exact ⟨_, _, rfl, rfl, rfl, follows.peaks, bounded,
      follows.keeps.congr (needed_erase_of_sibling follows.tracked beside)⟩
  · rw [if_neg beside]
    rcases Nat.lt_or_ge pos mmr.forest.numLeaves with inside | outside
    · rcases owns_of_leafToCorrespondingTree inside with ⟨height, found, owns⟩
      have low := owns.height_lt
      have start := keeps_remove_leaf beside (follows.keeps.congr (needed_erase owns))
      rcases pruneFrom_spec owns usizeBits (Nat.zero_le height) (by unfold usizeBits; omega)
          (fun _ => ⟨notMem_erase pos _, beside⟩) start
          ((mmr.nodes (.ofNode 0 pos)).map (fun word => (.ofNode 0 pos, word))).toList with
        ⟨after, removed, pruned, keeps⟩
      rw [Nat.pow_zero, Nat.div_one] at pruned
      simp only [leafRelativePosition_eq found owns, pruned, ok_bind]
      exact ⟨_, _, rfl, rfl, rfl, follows.peaks, bounded, keeps⟩
    · have none : mmr.forest.leafRelativePosition pos = none := by
        rw [leafRelativePosition, leafToCorrespondingTree, if_pos outside]
        rfl
      have free : pos ∉ mmr.trackedLeaves :=
        fun member => absurd (follows.tracked pos member) (Nat.not_lt.mpr outside)
      have same : mmr.trackedLeaves.erase pos = mmr.trackedLeaves := erase_eq_of_notMem free
      simp only [none, same]
      exact ⟨mmr, [], rfl, rfl, rfl, follows⟩

end PartialMmr

end MidenVm.Crypto.Mmr
