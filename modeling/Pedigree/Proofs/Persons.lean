import Pedigree.Proofs.Forest
import Pedigree.Proofs.Overlaps
import Pedigree.Proofs.Siblings

/-! Persons of a family do not overlap. Nodes that are clear of each other leave margins and
connectors between the boxes of their persons, enough for the rounding of edges and sizes to whole
numbers; roots stand side by side. -/
namespace Pedigree

open Checked Drawing

/-- Sizes that are not negative, with room between persons. -/
structure Style.Roomy (style : Style ℚ) : Prop where
  titleSize : 0 ≤ style.titleSize
  nameSize : 0 ≤ style.nameSize
  personHeight : 0 ≤ style.personHeight
  paddingX : 0 ≤ style.paddingX
  marginX : 1 ≤ style.marginX
  arrows : 1 ≤ style.arrows
  gap : 0 ≤ style.gap

/-- Sizes that are finite numbers. -/
structure Style.IsFinite (style : Style Binary32) : Prop where
  titleSize : style.titleSize.toRat?.isSome
  nameSize : style.nameSize.toRat?.isSome
  personHeight : style.personHeight.toRat?.isSome
  paddingX : style.paddingX.toRat?.isSome
  marginX : style.marginX.toRat?.isSome

theorem Binary32.exact_pos {x : Binary32} (h : x.isPositive) : 0 < x.exact := by
  match x, h with
  | finite s a, h =>
    simp only [isPositive, Bool.and_eq_true, Bool.not_eq_true', decide_eq_true_eq] at h
    obtain ⟨rfl, ha⟩ := h
    have hone : (0 : ℚ) < one := by exact_mod_cast one_pos
    have hu : (0 : ℚ) < a.units := by exact_mod_cast ha
    simpa [exact, toRat?, signed] using div_pos hu hone

/-- A box whose left edge can be moved to any other and whose ends are in range. -/
structure Rect.Fits (r : Rect) : Prop where
  x : -2147483648 < r.x
  right : r.x + r.width ≤ 2147483647
  bottom : r.y + r.height ≤ 2147483647

theorem Rect.not_overlaps_of_right_le {r s : Rect} (h : r.x + r.width ≤ s.x) :
    ¬r.Overlaps s := by
  rintro ⟨hx, -⟩
  unfold overlapX at hx
  omega

theorem Rect.not_overlaps_of_bottom_le {r s : Rect} (h : r.y + r.height ≤ s.y) :
    ¬r.Overlaps s := by
  rintro ⟨-, hy⟩
  unfold overlapY at hy
  omega

theorem Rect.Overlaps.symm {r s : Rect} (h : r.Overlaps s) : s.Overlaps r := by
  obtain ⟨hx, hy⟩ := h
  unfold overlapX at hx
  unfold overlapY at hy
  constructor
  · unfold overlapX
    omega
  · unfold overlapY
    omega

/-- Moving two boxes does not change whether they overlap. -/
theorem Rect.overlaps_move {r s : Rect} (dx dy : Int) :
    Overlaps ⟨r.x + dx, r.y + dy, r.width, r.height⟩ ⟨s.x + dx, s.y + dy, s.width, s.height⟩ ↔
      r.Overlaps s := by
  simp only [Overlaps, overlapX, overlapY]
  omega

namespace Subtree

section Exact

variable {style : Style ℚ} {ratio : ℚ}

/-- A node is wide enough for the margins on both sides. -/
theorem margins_le_width (hr : style.Roomy) (hratio : 0 < ratio) {b : Branch}
    {n : Tidy.Node ℚ Nat} (hn : n ∈ nodes style ratio b) : 2 * style.marginX ≤ n.width := by
  have hl := List.mem_map_of_mem (f := Tidy.Node.label) hn
  rw [nodes, Tidy.labels_layout, labels_sizing] at hl
  obtain ⟨p, -, he⟩ := List.mem_map.mp hl
  have hw : style.nodeWidth ratio p.2.length = n.width := congrArg (·.2.1) he
  have hname : 0 ≤ (p.2.length : ℚ) * style.nameSize * ratio :=
    mul_nonneg (mul_nonneg (Nat.cast_nonneg _) hr.nameSize) hratio.le
  have hp := hr.paddingX
  rw [← hw, Style.nodeWidth]
  simp only [Exact.scalar_ofInt, Exact.scalar_double, Int.cast_natCast]
  linarith

variable (hr : style.Roomy) {n m : Tidy.Node ℚ Nat}

include hr

/-- Margins of one unit each make up for the rounding of a left edge and a width. -/
theorem right_le_of_clear (hw : 2 * style.marginX ≤ n.width)
    (hf : (boxOf style n).value.Fits) (h : n.x + n.width / 2 ≤ m.x - m.width / 2) :
    (boxOf style n).value.x + (boxOf style n).value.width ≤ (boxOf style m).value.x := by
  obtain ⟨hx, hright, -⟩ := hf
  rw [value_boxOf_edges] at hx hright ⊢
  rw [value_boxOf_edges]
  dsimp only at hx hright ⊢
  have hinner : 0 ≤ (edges style n).2.2 := by
    simp only [edges, Exact.scalar_double]
    linarith
  have hzero : 0 ≤ (Scalar.round (edges style n).2.2 : Int) :=
    Exact.le_round (by exact_mod_cast hinner) (by decide)
  rw [max_eq_left hzero] at hright ⊢
  have h₁ := (Exact.round_le (edges style n).1).resolve_right (by omega)
  have h₂ := (Exact.round_le (edges style n).2.2).resolve_right (by omega)
  refine Exact.le_round ?_ hright
  have hm := hr.marginX
  push_cast
  simp only [edges, Exact.scalar_half, Exact.scalar_double] at h₁ h₂ ⊢
  linarith

/-- Connectors of one unit make up for the rounding of a top and a height. -/
theorem bottom_le_of_clear (hy : 0 ≤ n.y) (hf : (boxOf style n).value.Fits)
    (h : n.y + style.nodeHeight ≤ m.y) :
    (boxOf style n).value.y + (boxOf style n).value.height ≤ (boxOf style m).value.y := by
  obtain ⟨-, -, hbottom⟩ := hf
  rw [value_boxOf_edges] at hbottom ⊢
  rw [value_boxOf_edges]
  dsimp only at hbottom ⊢
  have hp := hr.personHeight
  have htop : 0 ≤ (Scalar.round (edges style n).2.1 : Int) :=
    Exact.le_round (by exact_mod_cast hy) (by decide)
  have hheight : 0 ≤ (Scalar.round style.personHeight : Int) :=
    Exact.le_round (by exact_mod_cast hp) (by decide)
  have h₁ := (Exact.round_le (edges style n).2.1).resolve_right (by omega)
  have h₂ := (Exact.round_le style.personHeight).resolve_right (by omega)
  have ha : (1 : ℚ) ≤ style.arrows := by exact_mod_cast hr.arrows
  refine Exact.le_round ?_ hbottom
  push_cast
  simp only [edges, Style.nodeHeight, Exact.scalar_ofInt] at h h₁ h₂ ⊢
  linarith

theorem boxes_apart (hratio : 0 < ratio) {b : Branch}
    (hf : ∀ p ∈ boxes style ratio b, p.2.Fits) :
    (boxes style ratio b).Pairwise fun p q => ¬p.2.Overlaps q.2 := by
  have hheight : 0 ≤ style.nodeHeight := by
    have ha : (1 : ℚ) ≤ style.arrows := by exact_mod_cast hr.arrows
    simp only [Style.nodeHeight, Exact.scalar_ofInt]
    linarith [hr.personHeight]
  obtain ⟨hclear, hy⟩ := Tidy.layout_clear hheight (n := sizing style ratio b)
    fun _ hm => height_of_mem_sizing style ratio hm
  have fits {n : Tidy.Node ℚ Nat} (hn : n ∈ nodes style ratio b) : (boxOf style n).value.Fits :=
    hf _ (List.mem_map_of_mem hn)
  rw [boxes, List.pairwise_map]
  refine hclear.imp_of_mem fun {n m} hn hm h => ?_
  obtain h | h | h := h
  · exact Rect.not_overlaps_of_right_le
      (right_le_of_clear hr (margins_le_width hr hratio hn) (fits hn) h)
  · exact Rect.not_overlaps_of_bottom_le (bottom_le_of_clear hr (hy n hn) (fits hn) h)
  · exact fun ho => Rect.not_overlaps_of_bottom_le
      (bottom_le_of_clear hr (hy m hm) (fits hm) h) ho.symm

end Exact

section Roots

variable {S : Type} [Scalar S] {style : Style S} {ratio : S} {b : Branch}

theorem leftEdge_le {p : Nat × Rect} (hp : p ∈ boxes style ratio b) :
    leftEdge style ratio b ≤ p.2.x :=
  getD_min?_le (List.mem_map_of_mem hp)

theorem neg_le_of_draw {boxes : List (Nat × Rect)} {left : Int} {partner : Bool}
    (h : (draw boxes left partner b).faults = []) : -2147483647 ≤ left := by
  obtain ⟨index, label, member, bonds⟩ := b
  rw [draw] at h
  have hneg : (narrow (-left)).faults = [] := (faults_bind_eq_nil.1 h).1
  have := (faults_narrow_eq_nil.1 hneg).2
  omega

/-- A layout without faults has boxes in range. -/
theorem fits_of_faults (h : (layout style ratio b).faults = []) :
    ∀ p ∈ boxes style ratio b, p.2.Fits := by
  unfold layout at h
  simp only [faults_bind_eq_nil, faults_mapM_eq_nil, value_mapM, value_bind, value_pure] at h
  obtain ⟨-, hright, hbottom, hdraw, -⟩ := h
  intro p hp
  have hl : -2147483647 ≤ leftEdge style ratio b := neg_le_of_draw hdraw
  have hx := leftEdge_le hp
  exact ⟨by omega, (faults_narrow_eq_nil.1 (hright p hp)).2,
    (faults_narrow_eq_nil.1 (hbottom p hp)).2⟩

end Roots

end Subtree

/-- A root whose persons stand in its box and do not overlap. -/
structure Drawing.Root.Orderly (r : Root) : Prop where
  width : 0 ≤ r.rect.width
  inside : ∀ p ∈ r.person.walk,
    r.rect.x ≤ p.rect.x ∧ p.rect.x + p.rect.width ≤ r.rect.x + r.rect.width
  apart : r.person.walk.Pairwise fun p q => ¬p.rect.Overlaps q.rect

namespace Subtree

variable {S : Type} [Scalar S] {style : Style S} {ratio : S} {b : Branch}

theorem width_nonneg {p : Nat × Rect} (hp : p ∈ boxes style ratio b) : 0 ≤ p.2.width := by
  obtain ⟨n, -, rfl⟩ := List.mem_map.mp hp
  exact Int.le_max_right _ _

theorem orderly_layout (hn : b.numbers.Nodup)
    (hb : (boxes style ratio b).Pairwise fun p q => ¬p.2.Overlaps q.2) :
    (layout style ratio b).value.Orderly := by
  have hrects := rects_layout style ratio hn
  obtain ⟨hx, -, -⟩ := rect_layout style ratio b
  have hwidth := width_layout style ratio b
  have le_right {p : Nat × Rect} (hp : p ∈ boxes style ratio b) : p.2.x + p.2.width ≤
      ((boxes style ratio b).map fun p => p.2.x + p.2.width).max?.getD 0 :=
    le_getD_max? (List.mem_map_of_mem hp)
  refine ⟨?_, fun p hp => ?_, ?_⟩
  · rw [hwidth]
    refine Int.sub_nonneg.2 (getD_min?_le_getD_max? fun p hp => ?_)
    exact Int.le_add_of_nonneg_right (width_nonneg hp)
  · have hr := List.mem_map_of_mem (f := Person.rect) hp
    rw [hrects] at hr
    obtain ⟨q, hq, he⟩ := List.mem_map.mp hr
    have := leftEdge_le hq
    have := le_right hq
    rw [← he, hx, hwidth]
    dsimp only
    omega
  · rw [← List.pairwise_map (f := Person.rect) (R := fun r s => ¬r.Overlaps s), hrects,
      List.pairwise_map]
    refine hb.imp fun {p q} h ho => h ?_
    rw [← Rect.overlaps_move (-leftEdge style ratio b) 0]
    simpa using ho

end Subtree

namespace Drawing

theorem Root.Orderly.place {r : Root} (h : r.Orderly) (x y : Int) :
    (r.place x y).value.Orderly := by
  have hrects := Person.rects_translate (x - r.rect.x) (y - r.rect.y) r.person
  rw [Root.value_place]
  refine ⟨h.width, fun p hp => ?_, ?_⟩
  · have hr := List.mem_map_of_mem (f := Person.rect) hp
    rw [hrects] at hr
    obtain ⟨q, hq, he⟩ := List.mem_map.mp hr
    have := h.inside q hq
    rw [← he]
    dsimp only
    omega
  · dsimp only
    rw [← List.pairwise_map (f := Person.rect) (R := fun r s => ¬r.Overlaps s), hrects,
      List.pairwise_map]
    exact h.apart.imp fun h ho => h ((Rect.overlaps_move _ _).mp ho)

/-- Roots side by side keep their persons apart. -/
theorem Block.pairwise_placeRoots {gap : Int} (hg : 0 ≤ gap) (top : Int) {rs : List Root}
    (hr : ∀ r ∈ rs, r.Orderly) (x : Int) :
    (∀ p ∈ (placeRoots top gap x rs).value.flatMap fun r => r.person.walk, x ≤ p.rect.x) ∧
      ((placeRoots top gap x rs).value.flatMap fun r => r.person.walk).Pairwise
        fun p q => ¬p.rect.Overlaps q.rect := by
  induction rs generalizing x with
  | nil => exact ⟨by simp [placeRoots], by simp [placeRoots]⟩
  | cons r rs ih =>
    rw [List.forall_mem_cons] at hr
    have hplaced := hr.1.place x top
    have hx : (r.place x top).value.rect.x = x := by
      rw [Root.value_place]
      dsimp only
      omega
    have hw := hplaced.width
    obtain ⟨hright, hapart⟩ := ih hr.2 (x + ((r.place x top).value.rect.width + gap))
    have hv : (placeRoots top gap x (r :: rs)).value = (r.place x top).value ::
      (placeRoots top gap (x + ((r.place x top).value.rect.width + gap)) rs).value := rfl
    rw [hv, List.flatMap_cons]
    constructor
    · intro p hp
      obtain hp | hp := List.mem_append.mp hp
      · have := (hplaced.inside p hp).1
        omega
      · have := hright p hp
        omega
    · refine List.pairwise_append.mpr ⟨hplaced.apart, hapart, fun p hp q hq => ?_⟩
      have := (hplaced.inside p hp).2
      have := hright q hq
      exact Rect.not_overlaps_of_right_le (by omega)

end Drawing

namespace Layout

variable {S : Type} [Scalar S] {style : Style S} {ratio : S} {k : Kinship}

theorem composed_apart (hn : ∀ t ∈ k.trees, t.numbers.Nodup) (hg : 0 ≤ style.gap)
    (hb : ∀ t ∈ k.trees, (Subtree.boxes style ratio t).Pairwise fun p q => ¬p.2.Overlaps q.2) :
    (composed style ratio k).value.persons.Pairwise fun p q => ¬p.rect.Overlaps q.rect := by
  have horderly : ∀ r ∈ (roots style ratio k).value, r.Orderly := by
    rw [roots, value_mapM]
    intro r hr
    obtain ⟨t, ht, rfl⟩ := List.mem_map.mp hr
    exact Subtree.orderly_layout (hn t ht) (hb t ht)
  obtain ⟨titleX, width, hc⟩ := Block.compose_spec style ratio k.label (roots style ratio k).value
  have hv : (composed style ratio k).value =
    (Block.compose style ratio k.label (roots style ratio k).value).value := rfl
  rw [hv, hc]
  exact (Block.pairwise_placeRoots hg _ horderly _).2

theorem faults_layout_of_composed (h : (composed style ratio k).faults = []) :
    ∀ t ∈ k.trees, (Subtree.layout style ratio t).faults = [] :=
  faults_mapM_eq_nil.1 (faults_bind_eq_nil.1 h).1

/-- Persons of a family do not overlap, within one root and across roots, when the trees are sized and
laid out in exact numbers, or in single precision without any rounding. -/
theorem persons_apart {s : Snapshot} {k : Kinship} (hk : k ∈ s.kinships) :
    (∀ (style : Style ℚ) (ratio : ℚ) (b : Block), style.Roomy → 0 < ratio →
      (composed style ratio k).run = .ok b →
        b.persons.Pairwise fun p q => ¬p.rect.Overlaps q.rect) ∧
    ∀ (style : Style Binary32) (ratio : Binary32) (b : Block), style.IsFinite →
      (style.map Binary32.exact).Roomy → ratio.isPositive →
      (∀ t ∈ k.trees, Subtree.Unrounded style ratio t) → (composed style ratio k).run = .ok b →
        b.persons.Pairwise fun p q => ¬p.rect.Overlaps q.rect := by
  have hn : ∀ t ∈ k.trees, t.numbers.Nodup := fun t ht =>
    (forest_of_mem_kinships hk).nodup_numbers ht
  constructor
  · intro style ratio b hr hratio h
    obtain ⟨hf, rfl⟩ := run_eq_ok_iff.1 h
    refine composed_apart hn hr.gap fun t ht => ?_
    exact Subtree.boxes_apart hr hratio (Subtree.fits_of_faults (faults_layout_of_composed hf t ht))
  · intro style ratio b hfinite hr hratio hu h
    obtain ⟨hf, rfl⟩ := run_eq_ok_iff.1 h
    refine composed_apart hn hr.gap fun t ht => ?_
    have hfits := Subtree.fits_of_faults (faults_layout_of_composed hf t ht)
    rw [Subtree.boxes_eq hfinite.personHeight (hu t ht)] at hfits ⊢
    exact Subtree.boxes_apart hr (Binary32.exact_pos hratio) hfits

/-- A couple whose elder son is married and has two daughters, and a single woman. -/
def grandparents : Snapshot :=
  let bob : Id := ⟨"Lee::Bob"⟩
  ⟨[⟨"Lee", [⟨[⟨0, "Adam"⟩, ⟨1, "Eve"⟩], [⟨2, "Bob"⟩, ⟨3, "Christopher"⟩], true⟩,
      ⟨[⟨4, "Bob"⟩, ⟨5, "Dora"⟩], [⟨6, "Fay"⟩, ⟨7, "Gwendolyn"⟩], true⟩,
      ⟨[⟨8, "Hal"⟩], [], true⟩]⟩], ⟨[(2, bob), (4, bob)]⟩⟩

theorem persons_apart_grandparents : ∃ k ∈ grandparents.kinships, ∃ exact single : Block,
    (composed (default : Style ℚ) 1 k).run = .ok exact ∧
      (composed (default : Style Binary32) (Binary32.ofInt 1) k).run = .ok single ∧
      exact.persons.length = 8 ∧ exact.persons.map (·.rect) = single.persons.map (·.rect) ∧
      (exact.persons.Pairwise fun p q => ¬p.rect.Overlaps q.rect) ∧
      single.persons.Pairwise fun p q => ¬p.rect.Overlaps q.rect := by
  have hroomy : (default : Style ℚ).Roomy := by constructor <;> decide +kernel
  have hfinite : (default : Style Binary32).IsFinite := by constructor <;> decide +kernel
  have hsingle : ((default : Style Binary32).map Binary32.exact).Roomy := by
    constructor <;> decide +kernel
  let k := grandparents.kinships.head (by decide)
  have hk : k ∈ grandparents.kinships := List.head_mem _
  have hrun := run_eq_ok_value (x := composed (default : Style ℚ) 1 k) (by decide +kernel)
  have hrun' := run_eq_ok_value
    (x := composed (default : Style Binary32) (Binary32.ofInt 1) k) (by decide +kernel)
  obtain ⟨hexact, hfloat⟩ := persons_apart hk
  exact ⟨k, hk, _, _, hrun, hrun', by decide +kernel, by decide +kernel,
    hexact _ _ _ hroomy one_pos hrun,
    hfloat _ _ _ hfinite hsingle (by decide +kernel) (by decide +kernel) hrun'⟩

end Layout

end Pedigree
