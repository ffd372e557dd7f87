import MidenVm.Crypto.Mmr.DeltaSpec
import MidenVm.Crypto.Mmr.PartialSpec

namespace MidenVm.Crypto.Mmr

open Foundation Mountain List Outcome Nat Full InOrderIndex Forest

/-!
# Applying an update to the partial range

The smallest tree that merges takes its sibling from the update.  From then on
the node under way stands over the end of the earlier forest: where that forest
has a tree, the tree is its left sibling, and elsewhere the update brings the
right one.
-/

namespace PartialMmr

variable {D : Type} {merge : D -> D -> D} {leaf : Nat -> D}

/-- An insertion changes the nodes only. -/
theorem ApplyState.insertIf_eq (state : ApplyState D) (test : Bool) (index : InOrderIndex)
    (value : D) : ∃ inserted, state.insertIf test index value = { state with
      nodes := if test then state.nodes.insert index value else state.nodes
      insertedNodes := inserted } := by
  cases test with
  | false | true => exact ⟨_, rfl⟩

/-- The peaks of a forest from a height down. -/
theorem peakNodes_split (merge : D -> D -> D) (leaf : Nat -> D) (leaves : Nat) {width : Nat}
    (narrow : width ≤ 32) :
    peakNodes merge leaf leaves =
      peakNodes merge leaf (leaves / 2 ^ width * 2 ^ width) ++ peaksBelow merge leaf width leaves := by
  have split := peakNodes_add merge leaf (leaves / 2 ^ width)
    (mod_lt leaves (Nat.two_pow_pos width)) narrow
  rw [div_add_mod'] at split
  rw [split, setBits_mod (le_refl width), peaksBelow]

variable {leaves : Nat}

/-- The peaks from the smallest tree on. -/
theorem reverse_peakNodes {level : Nat} (low : level < 32) (set : leaves.testBit level = true) :
    (peakNodes merge leaf leaves).reverse[popcount (leaves % 2 ^ level)]? =
      some (node merge leaf level (rootIndex leaves level)) := by
  rw [peakNodes_split merge leaf leaves (le_of_lt low), peakNodes_last merge leaf low set,
    reverse_append, getElem?_append_right, length_reverse,
    length_peaksBelow, Nat.sub_self, reverse_append]
  · rfl
  · rw [length_reverse, length_peaksBelow]

theorem popcount_mod_succ_of_set {level : Nat} (set : leaves.testBit level = true) :
    popcount (leaves % 2 ^ (level + 1)) = popcount (leaves % 2 ^ level) + 1 := by
  have split := popcount_add 1 (mod_lt leaves (Nat.two_pow_pos level))
  rw [one_mul] at split
  rw [mod_two_pow_succ_of_testBit, if_pos set, split, add_comm]
  rfl

theorem popcount_mod_succ_of_unset {level : Nat} (unset : ¬ leaves.testBit level = true) :
    popcount (leaves % 2 ^ (level + 1)) = popcount (leaves % 2 ^ level) := by
  rw [mod_two_pow_succ_of_testBit, if_neg unset, zero_add]

/-- What the loop of `apply` reads. -/
structure Update (merge : D -> D -> D) (leaf : Nat -> D) (tracked : Finset Nat)
    (leaves high : Nat) (peaks : List D) (treesToMerge : Forest) : Prop where
  top : high < 32
  tracked : forall pos, pos ∈ tracked -> pos < leaves
  peaks : peaks = (Full.peakNodes merge leaf leaves).reverse
  trees : treesToMerge.numLeaves = leaves % 2 ^ high

/-- The loop of `apply` after its first merge. -/
structure Applying (merge : D -> D -> D) (leaf : Nat -> D) (tracked : Finset Nat)
    (leaves high : Nat) (rest data : List D) (level : Nat) (state : ApplyState D) : Prop where
  target : state.target.numLeaves = 2 ^ level
  peakIdx : state.peakIdx = .ofNode level (leaves / 2 ^ level)
  new : state.new = node merge leaf level (leaves / 2 ^ level)
  peakCount : state.peakCount = popcount (leaves % 2 ^ level)
  update : data.drop state.updateCount = Full.mergeData merge leaf leaves (high - level) level ++ rest
  track : state.track = true -> Under tracked level (leaves / 2 ^ level)
  keeps : Keeps merge leaf (Needed tracked (Merged leaves level)) state.nodes

section Step

variable {tracked : Finset Nat} {leaves high level : Nat} {rest peaks data : List D}
  {treesToMerge : Forest} {state : ApplyState D}

theorem merges_iff (update : Update merge leaf tracked leaves high peaks treesToMerge)
    (less : level < high) (size : state.target.numLeaves = 2 ^ level) :
    (state.target.and treesToMerge).isEmpty = false ↔ leaves.testBit level = true := by
  rw [treesToMerge.isEmpty_and_eq_false_iff size, update.trees, testBit_mod_two_pow,
    decide_eq_true less, Bool.true_and]

/-- Nothing is tracked from the end of the forest on. -/
theorem not_under (bounded : forall pos, pos ∈ tracked -> pos < leaves) {index : Nat}
    (beyond : leaves ≤ index * 2 ^ level) : ¬ Under tracked level index := by
  rintro ⟨pos, member, rfl⟩
  have inside := bounded pos member
  have start := div_mul_le_self pos (2 ^ level)
  omega

theorem mergeChildren_peak (tracked : Finset Nat) (data : List D) (state : ApplyState D)
    (present : (state.target.and treesToMerge).isEmpty = false) {peak : D}
    (found : peaks[state.peakCount]? = some peak) :
    ∃ inserted, mergeChildren tracked peaks data treesToMerge state = .ok ({ state with
      nodes := if isTrackedNode state.nodes tracked state.peakIdx.sibling then
        state.nodes.insert state.peakIdx state.new else state.nodes
      insertedNodes := inserted
      peakCount := state.peakCount + 1 }, peak, state.new) := by
  rcases state.insertIf_eq (isTrackedNode state.nodes tracked state.peakIdx.sibling) state.peakIdx state.new
    with ⟨inserted, after⟩
  refine ⟨inserted, ?_⟩
  rw [mergeChildren, if_pos present, found, expect_some, ok_bind]
  dsimp only
  rw [after, pure_eq_ok]

theorem mergeChildren_update (tracked : Finset Nat) (peaks : List D) (state : ApplyState D)
    (absent : ¬ (state.target.and treesToMerge).isEmpty = false) {update : D}
    (found : data[state.updateCount]? = some update) :
    mergeChildren tracked peaks data treesToMerge state =
      .ok ({ state with updateCount := state.updateCount + 1 }, state.new, update) := by
  rw [mergeChildren, if_neg absent, found, expect_some, ok_bind]
  rfl

/-- Nothing merges at the end of a forest before its smallest tree. -/
theorem needed_complete_iff (bounded : forall pos, pos ∈ tracked -> pos < leaves)
    (clear : leaves % 2 ^ level = 0) {height index : Nat} :
    Needed tracked (Merged leaves level) height index ↔
      Needed tracked (Complete leaves) height index := by
  refine needed_congr (fun height pos member => ⟨?_, .inl⟩) height index
  rintro (complete | ⟨_, le, here⟩)
  · exact complete
  · have whole : leaves / 2 ^ (height + 1) * 2 ^ (height + 1) = leaves :=
      Nat.div_mul_cancel (Nat.dvd_trans (Nat.pow_dvd_pow 2 le) (dvd_of_mod_eq_zero clear))
    have inside := bounded pos member
    have start := div_mul_le_self pos (2 ^ (height + 1))
    rw [← whole, ← here] at inside
    exact absurd inside (not_lt.mpr start)

/-- With nothing tracked on the right, a merge stores the right child only. -/
theorem needed_merged_left {parent height index : Nat} (above : leaves / 2 ^ (level + 1) = parent)
    (beyond : ¬ Under tracked level (2 * parent + 1)) :
    Needed tracked (Merged leaves (level + 1)) height index ↔
      Needed tracked (Merged leaves level) height index ∨
        (height = level ∧ index = 2 * parent + 1 ∧ Under tracked level (2 * parent)) := by
  rw [needed_merged_succ above]
  constructor
  · rintro (need | ⟨_, _, under⟩ | right)
    · exact .inl need
    · exact absurd under beyond
    · exact .inr right
  · rintro (need | right)
    · exact .inl need
    · exact .inr (.inr right)

/-- Both children are at hand, and the one beside the path is stored for the
leaves under the path. -/
theorem applyMerge_of_children {mid : ApplyState D} {left right : D} {index parent : Nat}
    {flag : Bool} (low : level + 1 < 32) (above : leaves / 2 ^ (level + 1) = parent)
    (flagEq : (state.track || isTrackedNode state.nodes tracked state.peakIdx) = flag)
    (children : mergeChildren tracked peaks data treesToMerge { state with track := flag } = .ok (mid, left, right))
    (leftEq : left = node merge leaf level (2 * parent))
    (rightEq : right = node merge leaf level (2 * parent + 1))
    (tracks : flag = true ↔ Under tracked level index) (track : mid.track = flag)
    (peakIdx : mid.peakIdx = .ofNode level index) (half : index / 2 = parent)
    (size : mid.target.numLeaves = 2 ^ level) {needed : Nat -> Nat -> Prop}
    (keeps : Keeps merge leaf needed mid.nodes)
    (merged : forall height place, Needed tracked (Merged leaves (level + 1)) height place ↔
      needed height place ∨ (height = level ∧ place = sibling index ∧ Under tracked level index))
    (count : mid.peakCount = popcount (leaves % 2 ^ (level + 1)))
    (remaining : data.drop mid.updateCount =
      mergeData merge leaf leaves (high - (level + 1)) (level + 1) ++ rest) :
    ∃ next, applyMerge merge tracked peaks data treesToMerge state = .ok next ∧
      Applying merge leaf tracked leaves high rest data (level + 1) next := by
  have wide : level + 1 < usizeBits := lt_trans low (by decide)
  rcases nextLargerTree_eq (D := D) size low with ⟨target, doubled, targetSize⟩
  have beside : (if (ofNode level index).isLeftChild then
      node merge leaf level (2 * parent + 1) else node merge leaf level (2 * parent)) =
        node merge leaf level (sibling index) := by
    rw [isLeftChild_ofNode wide]
    rcases mod_two_eq_zero_or_one index with even | odd
    · have left : index = 2 * parent := by omega
      rw [even, left, sibling_even]
      rfl
    · have right : index = 2 * parent + 1 := by omega
      rw [odd, right, sibling_odd]
      rfl
  rcases mid.insertIf_eq flag (.ofNode level (sibling index)) (node merge leaf level (sibling index)) with
    ⟨inserted, stored⟩
  apply Exists.intro
  apply And.intro
  · have above : (ofNode level index).parent = .ofNode (level + 1) parent := by
      rw [parent_ofNode (lt_of_succ_lt wide), half]
    simp only [applyMerge, flagEq, children, ok_bind, peakIdx, beside, above,
      leftEq, rightEq, sibling_ofNode wide, stored, doubled]
    rfl
  · refine ⟨targetSize, above ▸ rfl, above ▸ rfl, count, remaining, fun flag => ?_,
      (keeps.insertIf tracks level (sibling index)).congr (fun height place => (merged height place).symm)⟩
    rcases tracks.mp (track ▸ flag) with ⟨pos, member, here⟩
    exact ⟨pos, member, by rw [div_two_pow_succ, here, half, above]⟩

/-- The sibling of the first peak stands beyond the forest. -/
theorem applyMerge_first (state : ApplyState D)
    (update : Update merge leaf tracked leaves high peaks treesToMerge)
    {half : Nat} (shape : leaves = (2 * half + 1) * 2 ^ level) (less : level < high)
    (keeps : Keeps merge leaf (Needed tracked (Complete leaves)) state.nodes)
    (target : state.target.numLeaves = 2 ^ level)
    (peakIdx : state.peakIdx = .ofNode level (2 * half))
    (new : state.new = node merge leaf level (2 * half + 1)) (track : state.track = false)
    (peakCount : state.peakCount = 0)
    (remaining : data.drop state.updateCount =
      mergeData merge leaf leaves (high - (level + 1)) (level + 1) ++ rest) :
    ∃ next, applyMerge merge tracked peaks data treesToMerge state = .ok next ∧
      Applying merge leaf tracked leaves high rest data (level + 1) next := by
  have low : level + 1 < 32 := lt_of_le_of_lt less update.top
  have wide : level + 1 < usizeBits := lt_trans low (by decide)
  have own : leaves / 2 ^ level = 2 * half + 1 := by
    rw [shape, Nat.mul_div_cancel _ (Nat.two_pow_pos level)]
  have above : leaves / 2 ^ (level + 1) = half := by
    rw [div_two_pow_succ, own]
    omega
  have set : leaves.testBit level = true := by
    rw [testBit_eq_decide_div_mod_eq, decide_eq_true_iff, own]
    omega
  have clear : leaves % 2 ^ level = 0 := by
    rw [shape, mul_mod_left]
  have complete : Complete leaves level (2 * half) := by
    rw [Complete, shape]
  have beyond : ¬ Under tracked level (2 * half + 1) := not_under update.tracked (le_of_eq shape)
  have tracks : (state.track || isTrackedNode state.nodes tracked state.peakIdx) = true ↔
      Under tracked level (2 * half) := by
    rw [track, Bool.false_or, peakIdx]
    exact isTrackedNode_iff keeps (lt_of_succ_lt wide) (.inr complete)
  generalize flagEq : (state.track || isTrackedNode state.nodes tracked state.peakIdx) =
    flag at tracks
  have peak : peaks[state.peakCount]? = some (node merge leaf level (2 * half)) := by
    have none : popcount (leaves % 2 ^ level) = 0 := by
      rw [clear]
      rfl
    have found : (peakNodes merge leaf leaves).reverse[popcount (leaves % 2 ^ level)]? =
        some (node merge leaf level (rootIndex leaves level)) :=
      reverse_peakNodes (lt_of_succ_lt low) set
    rw [none, rootIndex, above] at found
    rw [update.peaks, peakCount]
    exact found
  have untracked : isTrackedNode state.nodes tracked (.ofNode level (2 * half + 1)) = false := by
    rw [← Bool.not_eq_true]
    exact fun found => beyond (under_of_isTrackedNode keeps (lt_of_succ_lt wide) found)
  rcases mergeChildren_peak tracked data { state with track := flag }
    ((merges_iff update less target).mpr set) peak with ⟨inserted, children⟩
  have kept : Keeps merge leaf (Needed tracked (Complete leaves)) (if isTrackedNode state.nodes tracked
      state.peakIdx.sibling then state.nodes.insert state.peakIdx state.new else state.nodes) := by
    rw [peakIdx, sibling_ofNode wide, sibling_even, untracked]
    exact keeps
  refine applyMerge_of_children low above flagEq children rfl new tracks rfl peakIdx
    (Nat.mul_div_cancel_left half (by decide)) target kept (fun height place => ?_) ?_ remaining
  · rw [needed_merged_left above beyond, needed_complete_iff update.tracked clear, sibling_even]
  · rw [popcount_mod_succ_of_set set, clear]
    exact congrArg (· + 1) peakCount

/-- Beside a tree of the earlier forest the node under way is a right child,
and elsewhere it is a left one. -/
theorem applyMerge_next (update : Update merge leaf tracked leaves high peaks treesToMerge)
    (less : level < high)
    (applying : Applying merge leaf tracked leaves high rest data level state) :
    ∃ next, applyMerge merge tracked peaks data treesToMerge state = .ok next ∧
      Applying merge leaf tracked leaves high rest data (level + 1) next := by
  have low : level + 1 < 32 := lt_of_le_of_lt less update.top
  have wide : level + 1 < usizeBits := lt_trans low (by decide)
  generalize above : leaves / 2 ^ (level + 1) = parent
  have tracks : (state.track || isTrackedNode state.nodes tracked state.peakIdx) = true ↔
      Under tracked level (leaves / 2 ^ level) := by
    have own : level = 0 ∨ Merged leaves level level (leaves / 2 ^ level) := by
      rcases Nat.eq_zero_or_pos level with zero | positive
      · exact .inl zero
      · exact .inr (.inr ⟨positive, le_refl level, rfl⟩)
    have found := isTrackedNode_iff applying.keeps (lt_of_succ_lt wide) own
    rw [Bool.or_eq_true, applying.peakIdx, found]
    exact ⟨fun either => either.elim applying.track id, .inr⟩
  generalize flagEq : (state.track || isTrackedNode state.nodes tracked state.peakIdx) =
    flag at tracks
  have levels : high - level = high - (level + 1) + 1 := by omega
  have remaining := applying.update
  rw [levels] at remaining
  by_cases set : leaves.testBit level = true
  · have own := odd_of_testBit set
    rw [above] at own
    have peak : peaks[state.peakCount]? = some (node merge leaf level (2 * parent)) := by
      rw [update.peaks, applying.peakCount, reverse_peakNodes (lt_of_succ_lt low) set,
        rootIndex, above]
    have complete : Complete leaves level (2 * parent) := by
      have root := root_complete_le set
      rw [rootIndex, above] at root
      exact root
    have new : state.new = node merge leaf level (2 * parent + 1) := own ▸ applying.new
    have peakIdx : state.peakIdx = .ofNode level (2 * parent + 1) := own ▸ applying.peakIdx
    have left : isTrackedNode state.nodes tracked state.peakIdx.sibling = true ↔
        Under tracked level (2 * parent) := by
      rw [peakIdx, sibling_ofNode wide, sibling_odd]
      exact isTrackedNode_iff applying.keeps (lt_of_succ_lt wide) (.inr (.inl complete))
    rcases mergeChildren_peak tracked data { state with track := flag }
      ((merges_iff update less applying.target).mpr set) peak with ⟨inserted, children⟩
    have keeps := applying.keeps.insertIf left level (2 * parent + 1)
    rw [← peakIdx, ← new] at keeps
    rw [own] at tracks
    rw [mergeData, if_pos set] at remaining
    refine applyMerge_of_children low above flagEq children rfl new tracks rfl peakIdx (by omega) applying.target
      keeps (fun height place => ?_) ?_ remaining
    · rw [needed_merged_succ above, sibling_odd, or_assoc]
      exact or_congr_right or_comm
    · rw [popcount_mod_succ_of_set set]
      exact congrArg (· + 1) applying.peakCount
  · have own := even_of_testBit_false (Bool.not_eq_true _ ▸ set)
    rw [above] at own
    rw [own] at tracks
    rw [mergeData, if_neg set, above, cons_append] at remaining
    have found : data[state.updateCount]? = some (node merge leaf level (2 * parent + 1)) := by
      rw [← head?_drop, remaining]
      rfl
    have children := mergeChildren_update tracked peaks { state with track := flag }
      (fun present => set ((merges_iff update less applying.target).mp present)) found
    have beyond : ¬ Under tracked level (2 * parent + 1) := by
      refine not_under update.tracked (le_of_lt ?_)
      rw [← own, ← Nat.div_lt_iff_lt_mul (Nat.two_pow_pos level)]
      exact lt_succ_self _
    refine applyMerge_of_children low above flagEq children (own ▸ applying.new) rfl tracks rfl
      (own ▸ applying.peakIdx) (Nat.mul_div_cancel_left parent (by decide)) applying.target applying.keeps
      (fun height place => ?_) ?_ ?_
    · rw [needed_merged_left above beyond, sibling_even]
    · rw [popcount_mod_succ_of_unset set]
      exact applying.peakCount
    · rw [← drop_drop, remaining]
      rfl

/-- The loop of `apply`, from its second merge on. -/
theorem applyMerges_spec (update : Update merge leaf tracked leaves high peaks treesToMerge)
    {largest : Forest} (size : largest.numLeaves = 2 ^ high) {fuel : Nat} (le : level ≤ high)
    (enough : high < level + fuel)
    (applying : Applying merge leaf tracked leaves high rest data level state) :
    ∃ final, applyMerges merge tracked peaks data treesToMerge largest fuel state = .ok final ∧
      Applying merge leaf tracked leaves high rest data high final := by
  induction fuel generalizing level state with
  | zero => exact absurd enough (not_lt.mpr le)
  | succ fuel ih =>
    have more : state.target.numLeaves < largest.numLeaves ↔ level < high := by
      rw [applying.target, size]
      exact Nat.pow_lt_pow_iff_right (by decide)
    rw [applyMerges]
    rcases Nat.lt_or_eq_of_le le with less | rfl
    · rcases applyMerge_next update less applying with ⟨next, merged, kept⟩
      rcases ih less (by omega) kept with ⟨final, done, last⟩
      refine ⟨final, ?_, last⟩
      rw [if_pos (more.mpr less), merged, ok_bind, done]
    · refine ⟨state, ?_, applying⟩
      rw [if_neg (fun less => lt_irrefl _ (more.mp less))]

end Step

/-! ## Apply -/

theorem complete_iff_lt {height index : Nat} :
    Complete leaves height index ↔ index < leaves / 2 ^ height := by
  rw [Complete, ← Nat.le_div_iff_mul_le (Nat.two_pow_pos height)]
  exact succ_le_iff

/-- After the last merge the parents are those of the later forest. -/
theorem needed_grown {tracked : Finset Nat} {later high : Nat}
    (bounded : forall pos, pos ∈ tracked -> pos < leaves) (grows : Grows leaves later high)
    (less : leaves < later) {height index : Nat} :
    Needed tracked (Merged leaves high) height index ↔
      Needed tracked (Complete later) height index := by
  refine needed_congr (fun height pos member => ?_) height index
  have positive : 0 < height + 1 := succ_pos height
  generalize height + 1 = level at positive
  constructor
  · rintro (complete | ⟨_, le, here⟩)
    · exact le_trans complete (le_of_lt less)
    · rw [here]
      exact grows.complete le
  · intro complete
    rcases lt_or_ge high level with higher | lower
    · -- above the new tree both forests have the same digits
      rcases Nat.exists_eq_add_of_le (succ_le_of_lt higher) with ⟨more, rfl⟩
      refine .inl (complete_iff_lt.mpr ?_)
      have before := complete_iff_lt.mp complete
      rwa [pow_add, ← Nat.div_div_eq_div_mul, ← Nat.div_div_eq_div_mul, succ_eq_add_one,
        ← grows.above, Nat.div_div_eq_div_mul, Nat.div_div_eq_div_mul, ← pow_add] at before
    · have order : pos / 2 ^ level ≤ leaves / 2 ^ level :=
        Nat.div_le_div_right (le_of_lt (bounded pos member))
      rcases Nat.lt_or_eq_of_le order with before | here
      · exact .inl (complete_iff_lt.mpr before)
      · exact .inr ⟨positive, lower, here⟩

section Merging

variable {mmr : PartialMmr D} {later : Forest} {high half low : Nat}

/-- The peaks after the merges. -/
theorem mergePeaks_spec (follows : mmr.Follows merge leaf) (top : high < 32)
    (shape : mmr.forest.numLeaves = (2 * half + 1) * 2 ^ low) (below : low < high)
    {largest treesToMerge : Forest} (size : largest.numLeaves = 2 ^ high)
    (trees : treesToMerge.numLeaves = mmr.forest.numLeaves % 2 ^ high) {data rest : List D}
    (brings : data = (node merge leaf low (2 * half + 1) ::
      mergeData merge leaf mmr.forest.numLeaves (high - (low + 1)) (low + 1)) ++ rest) :
    ∃ state, mergePeaks merge mmr.trackedLeaves mmr data treesToMerge largest =
        .ok (peakNodes merge leaf (mmr.forest.numLeaves / 2 ^ high * 2 ^ high) ++
          [node merge leaf high (mmr.forest.numLeaves / 2 ^ high)], state) ∧
      data.drop state.updateCount = rest ∧
      Keeps merge leaf (Needed mmr.trackedLeaves (Merged mmr.forest.numLeaves high)) state.nodes := by
  have update : Update merge leaf mmr.trackedLeaves mmr.forest.numLeaves high mmr.peaks.reverse
      treesToMerge := ⟨top, follows.tracked, congrArg List.reverse follows.peaks, trees⟩
  rcases mod_two_pow_shape shape below with ⟨part, partShape⟩
  have smallest := (smallestTreeHeight_eq (trees.trans partShape)).1
  rcases withHeight_eq (D := D) (lt_trans below top) with ⟨target, made, targetSize⟩
  have first : data[0]? = some (node merge leaf low (2 * half + 1)) := by
    rw [brings]
    rfl
  have remaining : data.drop 1 =
      mergeData merge leaf mmr.forest.numLeaves (high - (low + 1)) (low + 1) ++ rest := by
    rw [brings]
    rfl
  rcases applyMerge_first ⟨mmr.nodes, [], .ofNode low (2 * half), false, 0, 1, target,
      node merge leaf low (2 * half + 1)⟩ update shape below follows.keeps targetSize rfl rfl rfl rfl
      remaining with ⟨next, merged, applying⟩
  have enough : high < low + 1 + (usizeBits - 1) := by
    unfold usizeBits
    omega
  rcases applyMerges_spec update size below enough applying with ⟨final, done, last⟩
  have loop : applyMerges merge mmr.trackedLeaves mmr.peaks.reverse data treesToMerge largest usizeBits
      ⟨mmr.nodes, [], .ofNode low (2 * half), false, 0, 1, target,
        node merge leaf low (2 * half + 1)⟩ = .ok final := by
    have more : target.numLeaves < largest.numLeaves := by
      rw [targetSize, size]
      exact Nat.pow_lt_pow_right (by decide) below
    rw [show usizeBits = usizeBits - 1 + 1 from rfl, applyMerges, if_pos more, merged,
      ok_bind, done]
  have count : final.peakCount = treesToMerge.numTrees := by
    rw [last.peakCount, numTrees, trees]
  have kept : mmr.peaks.take (mmr.peaks.length - final.peakCount) =
      peakNodes merge leaf (mmr.forest.numLeaves / 2 ^ high * 2 ^ high) := by
    rw [follows.peaks, peakNodes_split merge leaf _ (le_of_lt top), length_append,
      length_peaksBelow, last.peakCount, Nat.add_sub_cancel, take_left]
  refine ⟨final, ?_, ?_, last.keeps⟩
  · simp only [mergePeaks, rootInOrderIndexUnchecked_eq shape, ok_bind,
      smallestTreeUnchecked, smallest, made, first, expect_some, loop,
      require_of count, kept, last.new]
    rfl
  · rw [last.update, Nat.sub_self]
    rfl

/-- Every level above the smallest tree takes a tree or a sibling. -/
theorem length_update (merge : D -> D -> D) (leaf : Nat -> D) {leaves : Nat}
    (shape : leaves = (2 * half + 1) * 2 ^ low) (below : low < high) :
    (mergeData merge leaf leaves (high - (low + 1)) (low + 1)).length + 1 =
      high - low - (popcount (leaves % 2 ^ high) - 1) := by
  rcases Nat.exists_eq_add_of_le (succ_le_of_lt below) with ⟨more, rfl⟩
  rw [succ_eq_add_one, Nat.add_sub_cancel_left]
  have total : (mergeData merge leaf leaves more (low + 1)).length +
      popcount (leaves / 2 ^ (low + 1) % 2 ^ more) = more := length_mergeData leaves more (low + 1)
  have upper : leaves / 2 ^ (low + 1) = half := by
    rw [div_two_pow_succ, shape, Nat.mul_div_cancel _ (Nat.two_pow_pos low)]
    omega
  have lower : leaves % 2 ^ (low + 1) = 1 * 2 ^ low := by
    rw [shape, pow_succ, mul_comm (2 ^ low), mul_mod_mul_right, mul_add_mod]
  have trees : popcount (leaves % 2 ^ (low + 1 + more)) = popcount (half % 2 ^ more) + 1 := by
    have small : 1 * 2 ^ low < 2 ^ (low + 1) := by
      rw [one_mul]
      exact Nat.pow_lt_pow_succ (by decide)
    rw [pow_add, mod_mul, upper, lower, add_comm, mul_comm, popcount_add _ small, popcount_shift]
    rfl
  rw [upper] at total
  rw [trees]
  omega

theorem updateShape_merging (later : Forest)
    (shape : mmr.forest.numLeaves = (2 * half + 1) * 2 ^ low)
    (below : low < high) {largest treesToMerge : Forest} (size : largest.numLeaves = 2 ^ high)
    (trees : treesToMerge.numLeaves = mmr.forest.numLeaves % 2 ^ high) (changes : Nat) :
    treesToMerge.isEmpty = false ∧
    (updateShape treesToMerge largest later changes : Outcome (MmrError D) (Nat × Forest)) =
      .ok (high - low - (popcount (mmr.forest.numLeaves % 2 ^ high) - 1),
        later.and largest.allSmallerTreesUnchecked) := by
  rcases mod_two_pow_shape shape below with ⟨part, partShape⟩
  have present : treesToMerge.isEmpty = false := by
    refine beq_eq_false_iff_ne.mpr (ne_of_gt ?_)
    rw [trees, partShape]
    exact Nat.mul_pos (succ_pos _) (Nat.two_pow_pos low)
  have smallest := (smallestTreeHeight_eq (trees.trans partShape)).1
  have one : largest.numLeaves = (2 * 0 + 1) * 2 ^ high := size.trans (one_mul _).symm
  have depth : largest.smallestTreeHeightUnchecked = high := (smallestTreeHeight_eq one).1
  refine ⟨present, ?_⟩
  rw [updateShape, if_pos present, depth, smallest, numTrees, trees]

end Merging

section Apply

variable {mmr : PartialMmr D} {later : Forest} {high : Nat}

/-- An update that leads to a later forest. -/
def Advances (merge : D -> D -> D) (leaf : Nat -> D) (mmr : PartialMmr D) (later : Forest) (data : List D) : Prop :=
  ∃ after inserted, mmr.apply merge ⟨later, data⟩ = .ok (after, inserted) ∧
    after.forest = later ∧ after.trackedLeaves = mmr.trackedLeaves ∧ after.Follows merge leaf

variable (follows : mmr.Follows merge leaf) (less : mmr.forest.numLeaves < later.numLeaves)
  (top : high = (later.numLeaves ^^^ mmr.forest.numLeaves).log2)
include follows less top

theorem apply_merging {half low : Nat} (shape : mmr.forest.numLeaves = (2 * half + 1) * 2 ^ low)
    (below : low < high) {data : List D} (brings : data = (node merge leaf low (2 * half + 1) ::
        mergeData merge leaf mmr.forest.numLeaves (high - (low + 1)) (low + 1)) ++
      peaksBelow merge leaf high later.numLeaves) : Advances merge leaf mmr later data := by
  have grows : Grows mmr.forest.numLeaves later.numLeaves high := top ▸ grows_of_lt less
  have other : later ≠ mmr.forest := fun same => ne_of_gt less (congrArg numLeaves same)
  rcases exists_largestTree (D := D) less top with ⟨largest, made, size⟩
  rw [Nat.xor_comm] at made
  have trees := mmr.forest.numLeaves_and_smaller size
  rcases updateShape_merging (D := D) later shape below size trees
    (mmr.forest.numLeaves ^^^ later.numLeaves) with ⟨present, shaped⟩
  rcases mergePeaks_spec follows grows.height_lt shape below size trees brings with
    ⟨state, merged, remaining, keeps⟩
  have whole : peakNodes merge leaf (mmr.forest.numLeaves / 2 ^ high * 2 ^ high) ++
      [node merge leaf high (mmr.forest.numLeaves / 2 ^ high)] ++
      peaksBelow merge leaf high later.numLeaves = peakNodes merge leaf later.numLeaves := by
    have root : rootIndex later.numLeaves high = mmr.forest.numLeaves / 2 ^ high := by
      rw [rootIndex, ← grows.above, even_of_testBit_false grows.unset]
    rw [peakNodes_split merge leaf later.numLeaves (le_of_lt grows.height_lt),
      peakNodes_last merge leaf grows.height_lt grows.set, grows.common, root]
  have length : data.length = high - low - (popcount (mmr.forest.numLeaves % 2 ^ high) - 1) +
      (later.and largest.allSmallerTreesUnchecked).numTrees := by
    rw [brings, length_append, length_cons, length_update merge leaf shape below,
      length_peaksBelow, numTrees, later.numLeaves_and_smaller size]
  have count := length_peakNodes merge leaf later
  refine ⟨⟨later, peakNodes merge leaf later.numLeaves, state.nodes, mmr.trackedLeaves⟩,
    state.insertedNodes, ?_, rfl, rfl, rfl, ?_, ?_⟩
  · simp only [apply, if_neg (not_lt.mpr (le_of_lt less)), if_neg other, made,
      ok_bind, shaped, if_pos present, ensure_of length, merged, pure_eq_ok,
      remaining, require_of count, whole]
  · intro pos member
    exact lt_trans (follows.tracked pos member) less
  · exact keeps.congr (fun height index => needed_grown follows.tracked grows less)

theorem apply_adding (clear : mmr.forest.numLeaves % 2 ^ high = 0) :
    Advances merge leaf mmr later (peaksBelow merge leaf (high + 1) later.numLeaves) := by
  have grows : Grows mmr.forest.numLeaves later.numLeaves high := top ▸ grows_of_lt less
  have other : later ≠ mmr.forest := fun same => ne_of_gt less (congrArg numLeaves same)
  have start : mmr.forest.numLeaves = later.numLeaves / 2 ^ (high + 1) * 2 ^ (high + 1) := by
    rw [← grows.common, Nat.div_mul_cancel (dvd_of_mod_eq_zero clear)]
  set added := later.numLeaves % 2 ^ (high + 1)
  have changes : mmr.forest.numLeaves ^^^ later.numLeaves = added := by
    rw [Nat.xor_comm, start, xor_high]
  rcases exists_largestTree (D := D) less top with ⟨largest, made, size⟩
  rw [Nat.xor_comm] at made
  have absent : ¬ (mmr.forest.and largest.allSmallerTreesUnchecked).isEmpty = false := by
    rw [Forest.isEmpty, mmr.forest.numLeaves_and_smaller size, clear]
    exact Bool.noConfusion
  have whole : mmr.peaks ++ peaksBelow merge leaf (high + 1) later.numLeaves =
      peakNodes merge leaf later.numLeaves := by
    rw [follows.peaks, peakNodes_split merge leaf later.numLeaves (succ_le_of_lt grows.height_lt), ← start]
  have bounded : added ≤ maxLeaves := le_trans (mod_le _ _) later.bounded
  have shaped : (updateShape (mmr.forest.and largest.allSmallerTreesUnchecked) largest later
      (mmr.forest.numLeaves ^^^ later.numLeaves) : Outcome (MmrError D) (Nat × Forest)) =
        .ok (0, ⟨added, bounded⟩) := by
    rw [updateShape, if_neg absent, changes, Forest.new, dif_pos bounded]
    rfl
  have length : (peaksBelow merge leaf (high + 1) later.numLeaves).length =
      0 + numTrees ⟨added, bounded⟩ := by
    rw [length_peaksBelow, zero_add]
    rfl
  have count := length_peakNodes merge leaf later
  refine ⟨⟨later, peakNodes merge leaf later.numLeaves, mmr.nodes, mmr.trackedLeaves⟩, [], ?_,
    rfl, rfl, rfl, ?_, ?_⟩
  · simp only [apply, if_neg (not_lt.mpr (le_of_lt less)), if_neg other, made,
      ok_bind, shaped, if_neg absent, ensure_of length, pure_eq_ok,
      drop_zero, require_of count, whole]
  · intro pos member
    exact lt_trans (follows.tracked pos member) less
  · refine follows.keeps.congr (fun height index => ?_)
    rw [← needed_complete_iff follows.tracked clear]
    exact needed_grown follows.tracked grows less

omit less top in
/-- The update of a full range to a later forest. -/
theorem apply_getDelta {full : Full D} (holds : full.Holds merge leaf)
    (le : mmr.forest.numLeaves ≤ later.numLeaves)
    (inside : later.numLeaves ≤ full.forest.numLeaves) :
    ∃ delta after inserted, full.getDelta mmr.forest later = .ok delta ∧
      mmr.apply merge delta = .ok (after, inserted) ∧
      after.forest = later ∧ after.trackedLeaves = mmr.trackedLeaves ∧
      after.Follows merge leaf := by
  rcases Nat.lt_or_eq_of_le le with less | same
  · generalize top : (later.numLeaves ^^^ mmr.forest.numLeaves).log2 = high
    by_cases clear : mmr.forest.numLeaves % 2 ^ high = 0
    · exact ⟨_, (apply_adding follows less top.symm clear).imp (fun after ⟨inserted, applied⟩ =>
        ⟨inserted, getDelta_adding holds inside less top.symm clear, applied⟩)⟩
    · have positive : 0 < mmr.forest.numLeaves := by
        refine pos_of_ne_zero (fun none => clear ?_)
        rw [none, zero_mod]
      rcases exists_odd_mul_two_pow positive with ⟨half, low, shape⟩
      have below : low < high := by
        refine not_le.mp (fun above => clear (mod_eq_zero_of_dvd ?_))
        rw [shape]
        exact Nat.dvd_mul_left_of_dvd (Nat.pow_dvd_pow 2 above) _
      exact ⟨_, (apply_merging follows less top.symm shape below rfl).imp
        (fun after ⟨inserted, applied⟩ =>
          ⟨inserted, getDelta_merging holds inside less top.symm shape below, applied⟩)⟩
  · have unchanged : mmr.forest = later := Forest.ext same
    refine ⟨⟨later, []⟩, mmr, [], ?_, ?_, unchanged, rfl, follows⟩
    · rw [getDelta, if_neg (not_lt.mpr inside), if_neg (not_lt.mpr le), if_pos unchanged]
    · rw [apply, if_neg (not_lt.mpr le), if_pos unchanged.symm]
      rfl

end Apply

end PartialMmr

end MidenVm.Crypto.Mmr
