import Pedigree.Proofs.Forest
import Pedigree.Proofs.Generations
import Pedigree.Proofs.Singles

/-! The box of a subtree is as tight as its persons allow. Its width is measured on the nodes and its
persons are drawn by another walk, after a shift; both meet the same persons, so nothing that is
rounded on the way can come between them. -/
namespace Pedigree

open Checked Drawing

/-- A root at the origin. Its persons start at its left edge and reach as far to the right and as far
down as its box, and no further. -/
structure Drawing.Root.Framed (r : Root) : Prop where
  origin : r.rect.x = 0 ∧ r.rect.y = 0
  left : IsLeast ((fun p => p.rect.x) '' {p | p ∈ r.person.walk}) 0
  right : IsGreatest ((fun p => p.rect.x + p.rect.width) '' {p | p ∈ r.person.walk}) r.rect.width
  bottom : IsGreatest ((fun p => p.rect.y + p.rect.height) '' {p | p ∈ r.person.walk}) r.rect.height

namespace Subtree

variable {S : Type} [Scalar S] {style : Style S} {ratio : S} {b : Branch}

/-- What is measured on the persons of a root can be measured on the boxes of the nodes. -/
theorem image_walk (hn : b.numbers.Nodup) (f : Rect → Int) :
    (fun p => f p.rect) '' {p | p ∈ (layout style ratio b).value.person.walk} =
      (fun p => f { p.2 with x := p.2.x + -leftEdge style ratio b }) ''
        {p | p ∈ boxes style ratio b} := by
  have hrects := congrArg (List.map f) (rects_layout style ratio hn)
  rw [List.map_map, List.map_map] at hrects
  ext y
  exact List.mem_map.symm.trans (hrects ▸ List.mem_map)

theorem isGreatest_foldl_max {xs : List α} (f : α → Int) {x : α} (hx : x ∈ xs) (h : 0 ≤ f x) :
    IsGreatest (f '' {x | x ∈ xs}) ((xs.map f).foldl max 0) := by
  constructor
  · exact List.mem_map.1 (Block.foldl_max_mem (List.mem_map_of_mem hx) h)
  · rintro _ ⟨y, hy, rfl⟩
    exact Block.le_foldl_max (Or.inl (List.mem_map_of_mem hy))

/-- A layout without faults has boxes of a height that is not negative. -/
theorem personHeight_nonneg (h : (layout style ratio b).faults = []) :
    0 ≤ Scalar.round style.personHeight := by
  unfold layout at h
  simp only [faults_bind_eq_nil, faults_mapM_eq_nil] at h
  obtain ⟨n, hn⟩ := List.exists_mem_of_ne_nil _ (nodes_ne_nil style ratio b)
  have hbox := (h.1 n hn).1
  simp only [boxOf, Rect.make, faults_bind_eq_nil, faults_size_eq_nil] at hbox
  exact hbox.2.1

theorem size_nonneg (h : (layout style ratio b).faults = []) :
    0 ≤ (layout style ratio b).value.rect.width ∧ 0 ≤ (layout style ratio b).value.rect.height := by
  unfold layout at h
  simp only [faults_bind_eq_nil, Rect.ofSize, Rect.make, faults_size_eq_nil] at h
  obtain ⟨-, -, -, -, -, ⟨hw, hh, -⟩, -⟩ := h
  exact ⟨hw, hh⟩

/-- The box of the root starts at the top, so it ends there or below. -/
theorem exists_box_below_top (hz : Scalar.round (Scalar.zero : S) = 0)
    (h : (layout style ratio b).faults = []) :
    ∃ p ∈ boxes style ratio b, 0 ≤ p.2.y + p.2.height := by
  have hlevels : 0 < (sizing style ratio b).levels := by
    cases sizing style ratio b
    rw [Tidy.Node.levels]
    exact Nat.succ_pos _
  obtain ⟨n, hn, hy⟩ := exists_node_at style ratio hlevels
  have htop : n.y = Scalar.zero := hy
  refine ⟨_, List.mem_map_of_mem hn, ?_⟩
  rw [value_boxOf, htop, hz, Int.zero_add]
  exact personHeight_nonneg h

theorem framed_layout (hz : Scalar.round (Scalar.zero : S) = 0) (hn : b.numbers.Nodup)
    (h : (layout style ratio b).faults = []) : (layout style ratio b).value.Framed := by
  obtain ⟨hx, hy, hheight⟩ := rect_layout style ratio b
  have hne : boxes style ratio b ≠ [] := mt List.map_eq_nil_iff.1 (nodes_ne_nil style ratio b)
  have hshift : Monotone fun x => x + -leftEdge style ratio b :=
    fun _ _ h => Int.add_le_add_right h _
  constructor
  case origin => exact ⟨hx, hy⟩
  case left =>
    have hleast := hshift.map_isLeast (isLeast_getD_min? hne fun p => p.2.x)
    rw [Set.image_image] at hleast
    rw [image_walk hn Rect.x, ← Int.add_right_neg (leftEdge style ratio b)]
    exact hleast
  case right =>
    have hgreatest := hshift.map_isGreatest (isGreatest_getD_max? hne fun p => p.2.x + p.2.width)
    rw [Set.image_image] at hgreatest
    rw [width_layout, image_walk hn fun r => r.x + r.width]
    simpa only [Int.add_right_comm, Int.sub_eq_add_neg] using hgreatest
  case bottom =>
    obtain ⟨p, hp, hreach⟩ := exists_box_below_top hz h
    rw [hheight, image_walk hn fun r => r.y + r.height]
    exact isGreatest_foldl_max (fun p => p.2.y + p.2.height) hp hreach

/-- Whoever it starts with and however its sizes are rounded, a subtree fills its box. -/
theorem layout_framed {memberOf : Snapshot.Reference → Option Id} {f : Snapshot.Family} {i : Nat}
    {b : Branch} (hb : (Kinship.ofFamily memberOf f).branches[i]? = some b)
    {style : Style Binary32} {ratio : Binary32} {root : Root}
    (h : (layout style ratio b).run = .ok root) : root.Framed := by
  obtain ⟨hfaults, rfl⟩ := run_eq_ok_iff.1 h
  have hforest : (Kinship.ofFamily memberOf f).Forest := (Kinship.growing_ofFamily f).forest
  have hi : i < (Kinship.ofFamily memberOf f).size := by
    rw [Kinship.getElem?_branches] at hb
    obtain ⟨p, hp, -⟩ := Option.map_eq_some_iff.1 hb
    exact (Array.getElem?_eq_some_iff.1 hp).1
  have hn := hforest.nodup_numbersAt hi
  rw [Kinship.numbersAt, hb] at hn
  have hz : Scalar.round (Scalar.zero : Binary32) = 0 :=
    Binary32.round_of_isWhole (Binary32.isWhole_ofInt (Nat.zero_le 16777216))
  exact framed_layout hz hn hfaults

/-- Three fifths, rounded as single precision has it. -/
def threeFifths : Binary32 := .ofUnits false (3 * Binary32.one) 5 (by decide)

theorem layout_framed_ownParent : ∃ b root,
    (Kinship.ofFamily ownParent.memberOf (ownParent.families.head (by decide))).branches[0]? =
        some b ∧
      (layout default threeFifths b).run = .ok root ∧ root.rect = ⟨0, 0, 136, 195⟩ ∧
      root.Framed := by
  have hb : (Kinship.ofFamily ownParent.memberOf
      (ownParent.families.head (by decide))).branches[0]?.map (fun b =>
        ((layout default threeFifths b).run.map (·.rect)).toOption) =
      some (some ⟨0, 0, 136, 195⟩) := by decide +kernel
  obtain ⟨b, hb, hr⟩ := Option.map_eq_some_iff.1 hb
  obtain ⟨root, hr, hrect⟩ := eq_ok_of_toOption_map hr
  exact ⟨b, root, hb, hr, hrect, layout_framed hb hr⟩

end Subtree

end Pedigree
