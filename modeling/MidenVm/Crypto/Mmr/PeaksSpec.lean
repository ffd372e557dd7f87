import MidenVm.Crypto.Mmr.Needed
import MidenVm.Foundation.SparseTree

namespace MidenVm.Crypto.Mmr

open Foundation Mountain List Outcome Full MerklePath

/-!
# What a verified opening is bound to

`verify` takes the number of the peak and the place under it from the forest
that the opening carries, and takes the length of the path as it comes.  It
does not compare either with the forest of the peaks.  An opening is bound to
its position when the position stands at the same place of the same tree in
both forests and the path is as long as that tree is high.  For every other
shape of an opening there is a range on which a wrong opening is accepted.
-/

namespace MmrPeaks

variable {D : Type} {merge : D -> D -> D}
variable {forest : Forest}

/-- The checks of `verify`. -/
structure Accepts (merge : D -> D -> D) (peaks : MmrPeaks D) (value : D) (opening : MmrProof D)
    (peakIndex own relativePos : Nat) (root : D) : Prop where
  tree : TreeOf opening.path.forest.numLeaves opening.path.position peakIndex own relativePos
  peak : peaks.peaks[peakIndex]? = some root
  shallow : opening.path.merklePath.depth ≤ 64
  narrow : relativePos < 2 ^ opening.path.merklePath.depth
  climbs : climb merge relativePos value opening.path.merklePath.nodes = root

theorem verify_eq_ok [DecidableEq D] {peaks : MmrPeaks D} {value : D} {opening : MmrProof D} :
    peaks.verify merge value opening = .ok () ↔
      ∃ peakIndex own relativePos root, Accepts merge peaks value opening peakIndex own relativePos root := by
  have placed {height : Nat} (owns : opening.path.forest.Owns opening.path.position height)
      (found : opening.path.forest.leafToCorrespondingTree opening.path.position = some height) :
      opening.path.peakIndex =
          .ok (popcount (opening.path.forest.numLeaves / 2 ^ (height + 1))) ∧
        opening.path.relativePos = .ok (opening.path.position % 2 ^ height) := by
    refine ⟨Forest.treeIndex_eq found owns, ?_⟩
    rw [MmrPath.relativePos, Forest.leafRelativePosition_eq found owns, expect_some]
  have checked {relativePos : Nat} {root : D} :
      (opening.path.merklePath.verify merge relativePos value root).mapErr
          MmrError.invalidMerklePath = .ok () ↔
        opening.path.merklePath.computeRoot merge relativePos value = .ok root := by
    rw [mapErr_eq_ok, MerklePath.verify, bind_eq_ok]
    constructor
    · rintro ⟨computed, found, same⟩
      split at same
      · cases same
      · next equal => rw [found, not_not.mp equal]
    · intro found
      exact ⟨root, found, if_neg (not_not_intro rfl)⟩
  constructor
  · intro accepted
    rw [verify, bind_eq_ok] at accepted
    rcases accepted with ⟨peakIndex, index, accepted⟩
    rcases bind_eq_ok.mp accepted with ⟨root, peak, accepted⟩
    rcases bind_eq_ok.mp accepted with ⟨relativePos, relative, accepted⟩
    -- the position is in the forest of the opening, or its peak could not be computed
    have inside : opening.path.position < opening.path.forest.numLeaves := by
      rcases lt_or_ge opening.path.position opening.path.forest.numLeaves with less | more
      · exact less
      · rw [MmrPath.peakIndex, Forest.treeIndex, Forest.leafToCorrespondingTree,
          if_pos more] at index
        cases index
    rcases Forest.owns_of_leafToCorrespondingTree inside with ⟨height, found, owns⟩
    rw [(placed owns found).1, Outcome.ok.injEq] at index
    rw [(placed owns found).2, Outcome.ok.injEq] at relative
    subst index relative
    rcases (computeRoot_eq_ok merge).mp (checked.mp accepted) with
      ⟨shallow, narrow, climbs⟩
    exact ⟨_, height, _, root, owns.treeOf, okOr_eq_ok.mp peak, shallow, narrow, climbs⟩
  · rintro ⟨peakIndex, own, relativePos, root, tree, peak, shallow, narrow, climbs⟩
    rcases tree.owns with ⟨owns, rfl, rfl⟩
    have found := owns.leafToCorrespondingTree
    rw [verify, (placed owns found).1, ok_bind, getPeak, peak, okOr_some,
      ok_bind, (placed owns found).2, ok_bind]
    exact checked.mpr ((computeRoot_eq_ok merge).mpr ⟨shallow, narrow, climbs⟩)

/-! ## The shapes that bind -/

/-- A value that verifies is the leaf at the position of the opening, for every
range with the leaves of a forest, every hash without collisions and every
opening of a shape: the forest, the position and the length of the path. -/
def PositionBinding (forest proofForest : Forest) (position depth : Nat) : Prop :=
  forall (D : Type) [DecidableEq D] (merge : D -> D -> D),
    (forall a b c d, merge a b = merge c d -> a = c ∧ b = d) ->
    forall (leaves : List D) (mmr : Full D) (peaks : MmrPeaks D),
      Full.new.addAll merge leaves = .ok mmr -> mmr.forest = forest ->
      mmr.peaksAt mmr.forest = .ok peaks ->
      forall (value : D) (opening : MmrProof D),
        opening.path.forest = proofForest -> opening.path.position = position ->
        opening.path.merklePath.depth = depth ->
        peaks.verify merge value opening = .ok () -> leaves[position]? = some value

/-- The position has one place in both forests, and the path has the length
for it, unless no opening of the shape is accepted at all. -/
def SamePlace (forest proofForest : Forest) (position depth : Nat) : Prop :=
  forall peakIndex own height relativePos,
    TreeOf proofForest.numLeaves position peakIndex own relativePos ->
    (setBits 32 forest.numLeaves)[peakIndex]? = some height ->
    depth ≤ 64 -> relativePos < 2 ^ depth ->
    depth = height ∧ TreeOf forest.numLeaves position peakIndex height relativePos

theorem getElem?_peakNodes_eq_some {leaf : Nat -> D} {leaves peakIndex : Nat} {root : D}
    (peak : (Full.peakNodes merge leaf leaves)[peakIndex]? = some root) :
    ∃ height, (setBits 32 leaves)[peakIndex]? = some height ∧
      root = node merge leaf height (rootIndex leaves height) := by
  rw [peakNodes, getElem?_map, Option.map_eq_some_iff] at peak
  rcases peak with ⟨height, tree, same⟩
  exact ⟨height, tree, same.symm⟩

theorem positionBinding_of_samePlace {proofForest : Forest} {position depth : Nat}
    (same : SamePlace forest proofForest position depth) :
    PositionBinding forest proofForest position depth := by
  intro D _ merge free leaves mmr peaks all forestEq read value opening proofEq positionEq depthEq
    accepted
  rcases Full.holds_of_addAll all _ (Full.eq_getD value) with ⟨holds, count⟩
  rw [peaksAt_spec holds (le_refl _), Outcome.ok.injEq] at read
  rcases verify_eq_ok.mp accepted with
    ⟨peakIndex, own, relativePos, root, tree, peak, shallow, narrow, climbs⟩
  rw [← read] at peak
  rcases getElem?_peakNodes_eq_some peak with ⟨height, found, rootEq⟩
  rw [proofEq, positionEq] at tree
  rw [depthEq] at shallow narrow
  rw [forestEq] at found rootEq
  rcases same _ _ _ _ tree found shallow narrow with ⟨depthHeight, place⟩
  rcases place.owns with ⟨owns, _, relative⟩
  have long : opening.path.merklePath.nodes.length = height := depthEq.trans depthHeight
  have reached : climb merge position value opening.path.merklePath.nodes =
      node merge (fun place => leaves.getD place value)
        (0 + opening.path.merklePath.nodes.length)
        (position / 2 ^ opening.path.merklePath.nodes.length) := by
    rw [← climb_mod, long, ← relative, climbs, rootEq, owns.inside, zero_add]
  have bound : value = leaves.getD position value := climb_binds merge free reached
  have inside : position < leaves.length := by
    rw [← count, forestEq]
    exact owns.lt
  rw [getD_eq_getElem?_getD, getElem?_eq_getElem inside] at bound
  rw [getElem?_eq_getElem inside]
  exact congrArg some bound.symm

/-! ## Every other shape accepts a wrong opening -/

/-- Digests of a hash without collisions. -/
inductive Digest where
  | word (value : Nat)
  | merged (left right : Digest)
  deriving DecidableEq

namespace Digest

theorem merged_free (a b c d : Digest) (same : merged a b = merged c d) : a = c ∧ b = d :=
  merged.inj same

/-- Nodes over distinct words are distinct. -/
theorem node_inj {height other index place : Nat}
    (same : node merged word height index = node merged word other place) :
    height = other ∧ index = place := by
  induction height generalizing other index place with
  | zero =>
    cases other with
    | zero => exact ⟨rfl, word.inj same⟩
    | succ other => cases same
  | succ height ih =>
    cases other with
    | zero => cases same
    | succ other =>
      have left := ih (merged.inj same).1
      omega

end Digest

/-- The leaves of a range that stand for nodes of a height. -/
def highLeaves (forest : Forest) (extra : Nat) : List Digest :=
  (List.range forest.numLeaves).map (node Digest.merged Digest.word extra)

theorem length_highLeaves (forest : Forest) (extra : Nat) :
    (highLeaves forest extra).length = forest.numLeaves := by
  rw [highLeaves, length_map, length_range]

theorem getElem?_highLeaves {extra : Nat} (place : Nat) (value : Digest)
    (here : (highLeaves forest extra)[place]? = some value) :
    value = node Digest.merged Digest.word extra place := by
  rcases List.getElem?_eq_some_iff.mp here with ⟨inside, rfl⟩
  simp only [highLeaves, getElem_map, getElem_range]

theorem samePlace_of_positionBinding {proofForest : Forest} {position depth : Nat}
    (binds : PositionBinding forest proofForest position depth) :
    SamePlace forest proofForest position depth := by
  intro peakIndex own height relativePos tree found shallow narrow
  -- a path that is too long starts below the leaves, one that is too short above them
  rcases Full.new_addAll Digest.merged (node Digest.merged Digest.word (depth - height))
      (length_highLeaves forest _ ▸ forest.bounded) getElem?_highLeaves with
        ⟨mmr, all, count, holds⟩
  have forestEq : mmr.forest = forest := Forest.ext (count.trans (length_highLeaves forest _))
  have sum : height - depth + depth = height + (depth - height) := by omega
  have climbs := climb_under Digest.merged Digest.word (height - depth)
    (rootIndex forest.numLeaves height) narrow
  have long := length_siblings Digest.merged Digest.word depth (height - depth)
    (rootIndex forest.numLeaves height * 2 ^ depth + relativePos)
  rw [sum, ← node_node] at climbs
  generalize siblings Digest.merged Digest.word depth (height - depth)
    (rootIndex forest.numLeaves height * 2 ^ depth + relativePos) = path at climbs long
  have bound := binds Digest Digest.merged Digest.merged_free _ mmr _ all forestEq
    (Full.peaksAt_spec holds (le_refl _)) _
    ⟨⟨proofForest, position, ⟨path, by omega⟩⟩, Digest.word 0⟩ rfl rfl long
    (verify_eq_ok.mpr ⟨peakIndex, own, relativePos, _, tree,
      Full.getElem?_peakNodes (forestEq ▸ found), long.trans_le shallow, long ▸ narrow,
      by rw [forestEq]; exact climbs⟩)
  rcases Digest.node_inj (getElem?_highLeaves position _ bound) with ⟨levels, place⟩
  have same : depth = height := by omega
  subst same
  refine ⟨rfl, found, narrow, ?_⟩
  rw [(before_tree found).2, place]

/-- An opening binds its position exactly when both forests place it alike and
the path has the height of its tree. -/
theorem positionBinding_iff_samePlace (forest proofForest : Forest) (position depth : Nat) :
    PositionBinding forest proofForest position depth ↔
      SamePlace forest proofForest position depth :=
  ⟨samePlace_of_positionBinding, positionBinding_of_samePlace⟩

/-- A range of three leaves accepts its last leaf at position 4 from an opening
that names a forest of six leaves. -/
theorem verify_accepts_missing_position :
    ∃ mmr peaks, Full.new.addAll Digest.merged [.word 0, .word 1, .word 2] = .ok mmr ∧
      mmr.peaksAt mmr.forest = .ok peaks ∧
      peaks.verify Digest.merged (.word 2) ⟨⟨⟨6, by decide⟩, 4, ⟨[], by decide⟩⟩,
        .word 2⟩ = .ok () ∧
      ¬ 4 < mmr.forest.numLeaves :=
  ⟨_, _, rfl, rfl, rfl, by decide⟩

/-! ## Peaks and leaves -/

/-- Ranges with the same peaks of a forest have the same leaves in it. -/
theorem take_eq_of_peaksAt_eq (free : forall a b c d, merge a b = merge c d -> a = c ∧ b = d)
    {left right : List D} {mmr other : Full D} (all : Full.new.addAll merge left = .ok mmr)
    (otherAll : Full.new.addAll merge right = .ok other) (forest : Forest)
    (inLeft : forest.numLeaves ≤ left.length) (inRight : forest.numLeaves ≤ right.length)
    (same : mmr.peaksAt forest = other.peaksAt forest) :
    left.take forest.numLeaves = right.take forest.numLeaves := by
  refine ext_getElem (by simp [inLeft, inRight]) (fun pos inside _ => ?_)
  have below := lt_of_lt_of_le inside (length_take_le _ left)
  rcases Forest.owns_of_leafToCorrespondingTree below with ⟨height, -, owns⟩
  rcases holds_of_addAll all _ (eq_getD left[pos]) with ⟨holds, count⟩
  rcases holds_of_addAll otherAll _ (eq_getD left[pos]) with ⟨otherHolds, otherCount⟩
  rw [peaksAt_spec holds (by omega), peaksAt_spec otherHolds (by omega)] at same
  have peaks := congrArg (fun peaks : MmrPeaks D => peaks.peaks[popcount (forest.numLeaves / 2 ^ (height + 1))]?)
    (Outcome.ok.inj same)
  rw [getElem?_peakNodes owns.treeOf.tree, getElem?_peakNodes owns.treeOf.tree] at peaks
  have leaf := SparseTree.leaves_of_node free (Option.some.inj peaks) pos owns.inside
  rw [getD_eq_getElem _ _ (by omega), getD_eq_getElem _ _ (by omega)] at leaf
  rw [getElem_take, getElem_take, leaf]

theorem take_eq_of_peaksAt_eq_two : ∃ mmr other : Full Digest,
    Full.new.addAll .merged [.word 0, .word 1, .word 2] = .ok mmr ∧
      Full.new.addAll .merged [.word 0, .word 1] = .ok other ∧
      [Digest.word 0, .word 1, .word 2].take 2 = [.word 0, .word 1].take 2 := by
  have all : Full.new.addAll Digest.merged [.word 0, .word 1, .word 2] = .ok _ := rfl
  have otherAll : Full.new.addAll Digest.merged [.word 0, .word 1] = .ok _ := rfl
  exact ⟨_, _, all, otherAll, take_eq_of_peaksAt_eq Digest.merged_free all otherAll ⟨2, by decide⟩
    (by decide) (by decide) rfl⟩

end MmrPeaks

/-! ## Openings cut down to an earlier forest -/

namespace MmrPath

/-- The tree of a position is no higher in an earlier forest, and the path
there is the beginning of the later one. -/
theorem withForest_openAt {D : Type} [Inhabited D] [DecidableEq D] (merge : D -> D -> D) :
    (forall (leaves : List D) (mmr : Full D), Full.new.addAll merge leaves = .ok mmr ->
      forall (target : Forest) (pos : Nat), target.numLeaves ≤ leaves.length ->
        pos < target.numLeaves -> ∃ opening cut peaks, mmr.openAt pos mmr.forest = .ok opening ∧
          opening.path.withForest target = .ok cut ∧
            mmr.openAt pos target = .ok ⟨cut, opening.leaf⟩ ∧
          mmr.peaksAt target = .ok peaks ∧
          peaks.verify merge opening.leaf ⟨cut, opening.leaf⟩ = .ok ()) ∧
    forall (path : MmrPath D) (target : Forest),
      target.numLeaves ≤ path.position ∨ path.forest.numLeaves < target.numLeaves ->
        ∃ error, path.withForest target = .err error := by
  constructor
  · intro leaves mmr all target pos earlier below
    rcases Full.holds_of_addAll all _ (Full.eq_getD default) with ⟨holds, count⟩
    rw [← count] at earlier
    rcases openAt_spec holds (le_refl _) (below.trans_le earlier) with
      ⟨height, merklePath, _, owns, path, opened⟩
    rcases openAt_spec holds earlier below with ⟨level, shorter, found, within, front, cut⟩
    have le : level ≤ height := (complete_div_iff_le owns).mp
      (le_trans ((complete_div_iff_le within).mpr (le_refl _)) earlier)
    have trimmed : merklePath.nodes.take level = shorter.nodes := by
      rw [path, take_siblings _ _ le, front]
    rcases (computeRoot_eq_ok merge).mp (computeRoot_siblings within front) with
      ⟨shallow, narrow, climbs⟩
    refine ⟨_, _, _, opened, ?_, cut, peaksAt_spec holds earlier,
      MmrPeaks.verify_eq_ok.mpr ⟨_, _, _, _, within.treeOf, getElem?_peakNodes within.treeOf.tree,
        shallow, narrow, climbs⟩⟩
    rw [withForest, if_neg (not_le.mpr below), if_neg (not_lt.mpr earlier), found, expect_some,
      ok_bind, trimmed, MerklePath.new, dif_pos shorter.bounded]
    rfl
  · intro path target outside
    rw [withForest]
    split_ifs with missing larger
    · exact ⟨_, rfl⟩
    · exact ⟨_, rfl⟩
    · exact absurd outside (not_or.mpr ⟨missing, larger⟩)

theorem withForest_openAt_three_of_four :
    let mmr : Full Nat := ⟨⟨4, by decide⟩, [1, 2, 12, 3, 4, 34, 154]⟩
    ∃ opening cut, mmr.openAt 2 mmr.forest = .ok opening ∧
      opening.path.withForest ⟨3, by decide⟩ = .ok cut ∧
      mmr.openAt 2 ⟨3, by decide⟩ = .ok ⟨cut, opening.leaf⟩ := by
  intro mmr
  rcases (withForest_openAt fun left right => 10 * left + right).1 [1, 2, 3, 4] mmr rfl ⟨3,
    by decide⟩ 2 (by decide) (by decide) with ⟨opening, cut, _, opened, trimmed, again, _⟩
  exact ⟨opening, cut, opened, trimmed, again⟩

end MmrPath

end MidenVm.Crypto.Mmr
