import Pedigree.Proofs.Disjoint
import Pedigree.Proofs.Frames

/-! How roots are joined into a block. Each of them moves as a whole, they stand in one line with gaps
between them, and the block around them is as wide and as high as the line with its padding. The running
place of the next root and the width of the block are computed apart, and agree. -/
namespace Pedigree

open Checked

namespace Drawing

/-! ### Single roots -/

namespace Root

/-- The same root at another place: its box and everybody in it have moved in the same way. -/
structure Moved (dx dy : Int) (r r' : Root) : Prop where
  rect : r'.rect = { r.rect with x := r.rect.x + dx, y := r.rect.y + dy }
  persons : List.Forall₂ (Person.Moved dx dy) r.person.walk r'.person.walk

/-- Everybody stands in the box, but maybe above its top. -/
def Holds (r : Root) : Prop := ∀ p ∈ r.person.walk, r.rect.x ≤ p.rect.x ∧
  p.rect.x + p.rect.width ≤ r.rect.x + r.rect.width ∧
  p.rect.y + p.rect.height ≤ r.rect.y + r.rect.height

/-- Nobody stands above the top of the box. -/
def Tops (r : Root) : Prop := ∀ p ∈ r.person.walk, r.rect.y ≤ p.rect.y

/-- A root as it is laid out in a style. -/
def LaidOut (style : Style Binary32) (r : Root) : Prop :=
  ∃ (ratio : Binary32) (memberOf : Snapshot.Reference → Option Id) (f : Snapshot.Family) (i : Nat)
    (b : Branch), (Kinship.ofFamily memberOf f).branches[i]? = some b ∧
      (Subtree.layout style ratio b).run = .ok r

variable {r r' : Root} {dx dy : Int} {style : Style Binary32}

/-- So are the roots of a family in a drawing. -/
theorem laidOut_of_roots {memberOf : Snapshot.Reference → Option Id} {f : Snapshot.Family}
    {ratio : Binary32} {rs : List Root}
    (h : (Layout.roots style ratio (Kinship.ofFamily memberOf f)).run = .ok rs) :
    ∀ r ∈ rs, r.LaidOut style := by
  obtain ⟨hf, rfl⟩ := run_eq_ok_iff.mp h
  rw [Layout.roots, value_mapM]
  refine List.forall_mem_map.mpr fun t ht => ?_
  obtain ⟨i, -, hi⟩ := List.mem_filterMap.mp ht
  exact ⟨ratio, memberOf, f, i, t, hi, run_eq_ok_value (faults_mapM_eq_nil.mp hf t ht)⟩

theorem moved_place (r : Root) (x y : Int) :
    Moved (x - r.rect.x) (y - r.rect.y) r (r.place x y).value :=
  ⟨rfl, Person.walk_translate _ _ _⟩

theorem Moved.exists_person (h : Moved dx dy r r') : ∀ p' ∈ r'.person.walk,
    ∃ p ∈ r.person.walk, Person.Moved dx dy p p' := fun _ hp =>
  let ⟨p, hp, hm⟩ := exists_mem_of_forall₂ h.persons.flip hp
  ⟨p, hp, hm⟩

theorem Holds.moved (h : r.Holds) (hm : Moved dx dy r r') : r'.Holds := by
  intro p' hp'
  obtain ⟨p, hp, hpm⟩ := hm.exists_person p' hp'
  have := h p hp
  rw [hm.rect, hpm.rect]
  dsimp only
  omega

theorem Tops.moved (h : r.Tops) (hm : Moved dx dy r r') : r'.Tops := by
  intro p' hp'
  obtain ⟨p, hp, hpm⟩ := hm.exists_person p' hp'
  have := h p hp
  rw [hm.rect, hpm.rect]
  dsimp only
  omega

theorem Framed.holds (h : r.Framed) : r.Holds := by
  intro p hp
  have hleft := h.left.2 ⟨p, hp, rfl⟩
  have hright := h.right.2 ⟨p, hp, rfl⟩
  have hbottom := h.bottom.2 ⟨p, hp, rfl⟩
  obtain ⟨hx, hy⟩ := h.origin
  dsimp only at hleft hright hbottom
  omega

theorem LaidOut.framed (h : r.LaidOut style) : r.Framed := by
  obtain ⟨ratio, memberOf, f, i, b, hb, h⟩ := h
  exact Subtree.layout_framed hb h

theorem LaidOut.size_nonneg (h : r.LaidOut style) : 0 ≤ r.rect.width ∧ 0 ≤ r.rect.height := by
  obtain ⟨ratio, memberOf, f, i, b, -, h⟩ := h
  obtain ⟨hf, rfl⟩ := run_eq_ok_iff.mp h
  exact Subtree.size_nonneg hf

/-- Where generations go down, nobody comes to stand above the first one. -/
theorem LaidOut.tops (h : r.LaidOut style) (hh : style.nodeHeight.NotBelow) : r.Tops := by
  obtain ⟨ratio, memberOf, f, i, b, -, h⟩ := h
  obtain ⟨-, rfl⟩ := run_eq_ok_iff.mp h
  intro p hp
  obtain ⟨n, hn, he⟩ := Subtree.exists_node_of_mem_walk style ratio hp
  obtain ⟨-, -, hy⟩ := Subtree.top_of_mem_nodes style ratio (P := fun _ => Binary32.NotBelow)
    Binary32.notBelow_scalar_zero (fun _ _ hy => hy.add hh) hn
  rw [he, (Subtree.rect_layout style ratio b).2.1]
  exact Binary32.round_nonneg hy

end Root

/-! ### Roots in a line -/

namespace Block

/-- How far a line of roots reaches. -/
def lineWidth (gap : Int) (rs : List Root) : Int :=
  (rs.map (·.rect.width)).sum + (rs.length - 1) * gap

variable {top gap x : Int} {rs : List Root}

theorem lineWidth_singleton (gap : Int) (r : Root) : lineWidth gap [r] = r.rect.width := by
  simp [lineWidth]

theorem lineWidth_cons (gap : Int) (r : Root) (hne : rs ≠ []) :
    lineWidth gap (r :: rs) = r.rect.width + gap + lineWidth gap rs := by
  obtain ⟨s, ss, rfl⟩ := List.exists_cons_of_ne_nil hne
  simp only [lineWidth, List.map_cons, List.sum_cons, List.length_cons]
  push_cast
  ring

theorem lineWidth_nonneg (hg : 0 ≤ gap) (hw : ∀ r ∈ rs, 0 ≤ r.rect.width) (hne : rs ≠ []) :
    0 ≤ lineWidth gap rs := by
  have hlength := List.length_pos_iff.mpr hne
  have hgaps : 0 ≤ ((rs.length : Int) - 1) * gap := Int.mul_nonneg (by omega) hg
  have hsum : 0 ≤ (rs.map (·.rect.width)).sum := List.sum_nonneg (List.forall_mem_map.mpr hw)
  rw [lineWidth]
  omega

theorem lineWidth_placeRoots (top gap x : Int) (rs : List Root) :
    lineWidth gap (placeRoots top gap x rs).value = lineWidth gap rs := by
  have hw := widths_placeRoots top gap x rs
  have hl : (placeRoots top gap x rs).value.length = rs.length := by
    simpa using congrArg List.length hw
  rw [lineWidth, lineWidth, hw, hl]

theorem placeRoots_cons (top gap x : Int) (r : Root) (rs : List Root) :
    (placeRoots top gap x (r :: rs)).value =
      (r.place x top).value :: (placeRoots top gap (x + (r.rect.width + gap)) rs).value := rfl

theorem placeRoots_ne_nil (hne : rs ≠ []) : (placeRoots top gap x rs).value ≠ [] := by
  obtain ⟨r, rs, rfl⟩ := List.exists_cons_of_ne_nil hne
  exact List.cons_ne_nil _ _

/-- A root in its place. -/
theorem rect_place (r : Root) (x y : Int) :
    (r.place x y).value.rect = { r.rect with x := x, y := y } := by
  rw [Root.value_place]
  simp

theorem moved_placeRoots (top gap x : Int) (rs : List Root) :
    List.Forall₂ (fun r r' => ∃ dx dy, Root.Moved dx dy r r') rs (placeRoots top gap x rs).value := by
  induction rs generalizing x with
  | nil => exact .nil
  | cons r rs ih => exact .cons ⟨_, _, r.moved_place x top⟩ (ih _)

theorem top_of_mem_placeRoots : ∀ r ∈ (placeRoots top gap x rs).value, r.rect.y = top := by
  intro r hr
  obtain ⟨r, -, x', rfl⟩ := exists_of_mem_placeRoots hr
  rw [rect_place]

/-- The line starts at its place and each root starts a gap behind the one before it. -/
theorem isChain_placeRoots (top gap x : Int) (rs : List Root) :
    (∀ r ∈ (placeRoots top gap x rs).value.head?, r.rect.x = x) ∧
      (placeRoots top gap x rs).value.IsChain
        fun r s => s.rect.x = r.rect.x + r.rect.width + gap := by
  induction rs generalizing x with
  | nil => exact ⟨by simp [placeRoots], .nil⟩
  | cons r rs ih =>
    obtain ⟨hhead, hchain⟩ := ih (x + (r.rect.width + gap))
    rw [placeRoots_cons, List.isChain_cons]
    refine ⟨by simp [rect_place], fun s hs => ?_, hchain⟩
    rw [hhead s hs, rect_place]
    dsimp only
    omega

/-- The line ends where its width says. -/
theorem right_of_getLast?_placeRoots (x : Int) : ∀ r ∈ (placeRoots top gap x rs).value.getLast?,
    r.rect.x + r.rect.width = x + lineWidth gap rs := by
  induction rs generalizing x with
  | nil => simp [placeRoots]
  | cons r rs ih =>
    rw [placeRoots_cons]
    by_cases hne : rs = []
    · subst hne
      simp [placeRoots, rect_place, lineWidth_singleton]
    · intro s hs
      rw [List.getLast?_cons_of_ne_nil (placeRoots_ne_nil hne)] at hs
      rw [ih _ s hs, lineWidth_cons gap r hne]
      omega

theorem between_placeRoots (hg : 0 ≤ gap) (hw : ∀ r ∈ rs, 0 ≤ r.rect.width) (x : Int) :
    ∀ r ∈ (placeRoots top gap x rs).value,
      x ≤ r.rect.x ∧ r.rect.x + r.rect.width ≤ x + lineWidth gap rs := by
  induction rs generalizing x with
  | nil => simp [placeRoots]
  | cons r rs ih =>
    rw [List.forall_mem_cons] at hw
    rw [placeRoots_cons, List.forall_mem_cons, rect_place]
    by_cases hne : rs = []
    · subst hne
      simp [placeRoots, lineWidth_singleton]
    · have hrest := lineWidth_nonneg hg hw.2 hne
      rw [lineWidth_cons gap r hne]
      refine ⟨⟨Int.le_refl _, by dsimp only; omega⟩, fun s hs => ?_⟩
      have := ih hw.2 _ s hs
      omega

/-- Roots side by side from a place on, each of them moved there as a whole. -/
structure Lined (top gap x : Int) (rs placed : List Root) : Prop where
  moved : List.Forall₂ (fun r r' => ∃ dx dy, Root.Moved dx dy r r') rs placed
  top : ∀ r ∈ placed, r.rect.y = top
  gaps : placed.IsChain fun r s => s.rect.x = r.rect.x + r.rect.width + gap
  between : ∀ r ∈ placed, x ≤ r.rect.x ∧ r.rect.x + r.rect.width ≤ x + lineWidth gap placed
  first : ∀ r ∈ placed.head?, r.rect.x = x
  last : ∀ r ∈ placed.getLast?, r.rect.x + r.rect.width = x + lineWidth gap placed

theorem lined_placeRoots (top : Int) (hg : 0 ≤ gap) (x : Int) (hw : ∀ r ∈ rs, 0 ≤ r.rect.width) :
    Lined top gap x rs (placeRoots top gap x rs).value where
  moved := moved_placeRoots top gap x rs
  top := top_of_mem_placeRoots
  gaps := (isChain_placeRoots top gap x rs).2
  between := lineWidth_placeRoots top gap x rs ▸ between_placeRoots hg hw x
  first := (isChain_placeRoots top gap x rs).1
  last := lineWidth_placeRoots top gap x rs ▸ right_of_getLast?_placeRoots x

namespace Lined

variable {placed : List Root}

theorem exists_root (h : Lined top gap x rs placed) :
    ∀ r' ∈ placed, ∃ r ∈ rs, ∃ dx dy, Root.Moved dx dy r r' := fun _ hr =>
  exists_mem_of_forall₂ h.moved.flip hr

theorem size_nonneg (h : Lined top gap x rs placed)
    (hs : ∀ r ∈ rs, 0 ≤ r.rect.width ∧ 0 ≤ r.rect.height) :
    ∀ r ∈ placed, 0 ≤ r.rect.width ∧ 0 ≤ r.rect.height := by
  intro r' hr'
  obtain ⟨r, hr, dx, dy, hm⟩ := h.exists_root r' hr'
  rw [hm.rect]
  exact hs r hr

theorem holds (h : Lined top gap x rs placed) (hs : ∀ r ∈ rs, r.Holds) :
    ∀ r ∈ placed, r.Holds := by
  intro r' hr'
  obtain ⟨r, hr, dx, dy, hm⟩ := h.exists_root r' hr'
  exact (hs r hr).moved hm

theorem tops (h : Lined top gap x rs placed) :
    List.Forall₂ (fun r r' => (∃ s, r.LaidOut s ∧ s.nodeHeight.NotBelow) → r'.Tops) rs placed := by
  refine h.moved.imp ?_
  rintro r r' ⟨dx, dy, hm⟩ ⟨s, hs, hh⟩
  exact (hs.tops hh).moved hm

end Lined

/-! ### Title and block -/

/-- Over roots the title is centred, and the block is as wide as their line with its padding. -/
theorem value_span {padding titleWidth : Int} {first last : Root} (hf : rs.head? = some first)
    (hl : rs.getLast? = some last) : (span padding gap titleWidth rs).value =
      (first.rect.x + (last.rect.x + last.rect.width - first.rect.x).tdiv 2 - titleWidth.tdiv 2,
        padding * 2 + lineWidth gap rs) := by
  simp only [span, hf, hl, value_bind, Rect.value_right, value_sub, value_add, value_mul,
    value_sum, value_pure, lineWidth, List.sum_eq_foldl, Int.add_assoc]

theorem width_span {padding titleWidth : Int} (hne : rs ≠ []) :
    (span padding gap titleWidth rs).value.2 = padding * 2 + lineWidth gap rs := by
  rw [value_span (List.head?_eq_some_head hne) (List.getLast?_eq_some_getLast hne)]

/-- Halves that are rounded towards zero move a centre by less than a unit. -/
theorem natAbs_centre_le {a e t : Int} (h : a ≤ e) (ht : 0 ≤ t) :
    (2 * (a + (e - a).tdiv 2 - t.tdiv 2) + t - (a + e)).natAbs ≤ 1 := by
  rw [Int.tdiv_eq_ediv_of_nonneg (Int.sub_nonneg_of_le h), Int.tdiv_eq_ediv_of_nonneg ht]
  omega

/-- Of the heights of some roots the greatest is that of a tallest one. -/
theorem foldl_max_eq_of_tallest {r : Root} (hr : r ∈ rs) (h : 0 ≤ r.rect.height)
    (ht : ∀ s ∈ rs, s.rect.height ≤ r.rect.height) :
    (rs.map (·.rect.height)).foldl max 0 = r.rect.height := by
  obtain ⟨s, hs, he⟩ := List.mem_map.mp (foldl_max_mem
    (List.mem_map_of_mem (f := fun r : Root => r.rect.height) hr) h)
  exact Int.le_antisymm (he ▸ ht s hs) (le_foldl_max (.inl
    (List.mem_map_of_mem (f := fun r : Root => r.rect.height) hr)))

/-- A block made of roots, which keep their shape and stand side by side, with a title over them. -/
structure Joined (style : Style Binary32) (titleWidth : Int) (roots : List Root) (b : Block) :
    Prop where
  origin : b.rect.x = 0 ∧ b.rect.y = 0
  moved : List.Forall₂ (fun r r' => ∃ dx dy, Root.Moved dx dy r r') roots b.roots
  holds : ∀ r ∈ b.roots, r.Holds
  tops : List.Forall₂ (fun r r' => (∃ s, r.LaidOut s ∧ s.nodeHeight.NotBelow) → r'.Tops)
    roots b.roots
  top : ∀ r ∈ b.roots, r.rect.y = style.rootsTop.value
  gaps : b.roots.IsChain fun r s => s.rect.x = r.rect.x + r.rect.width + style.gap
  inset : ∀ r ∈ b.roots, style.padding ≤ r.rect.x ∧
    r.rect.x + r.rect.width ≤ b.rect.width - style.padding ∧
    r.rect.y + r.rect.height ≤ b.rect.height - style.padding
  first : ∀ r ∈ b.roots.head?, r.rect.x = style.padding
  last : ∀ r ∈ b.roots.getLast?, r.rect.x + r.rect.width = b.rect.width - style.padding
  tallest : ∀ r ∈ b.roots, (∀ s ∈ b.roots, s.rect.height ≤ r.rect.height) →
    r.rect.y + r.rect.height = b.rect.height - style.padding
  /-- Twice the centre of the title and twice that of the roots. -/
  centred : ∀ first ∈ b.roots.head?, ∀ last ∈ b.roots.getLast?,
    (2 * b.title.rect.x + b.title.rect.width -
      (first.rect.x + (last.rect.x + last.rect.width))).natAbs ≤ 1
  bare : roots = [] → b.rect.width = 2 * style.padding + titleWidth ∧
    b.title.rect.width = titleWidth ∧ b.title.rect.origin = ⟨style.padding, style.padding⟩

theorem value_compose {S : Type} [Scalar S] (style : Style S) (ratio : S) (label : String)
    (roots : List Root) : (compose style ratio label roots).value =
      let placed := (placeRoots style.rootsTop.value style.gap style.padding roots).value
      let titleWidth := style.titleWidth ratio label.length
      let span := (span style.padding style.gap titleWidth placed).value
      ⟨⟨0, 0, span.2, style.rootsTop.value + (placed.map (·.rect.height)).foldl max 0 +
          style.padding⟩,
        ⟨⟨span.1, style.padding, titleWidth, style.titleHeight⟩, label⟩, placed, []⟩ :=
  rfl

/-- Roots that were laid out, in whatever style, are joined into one block. Nobody leaves the box of a
root, unless its style has a negative height for a generation. -/
theorem compose_joined {style : Style Binary32} {ratio : Binary32} {label : String}
    {roots : List Root} {b : Block} (hg : 0 ≤ style.gap) (hr : ∀ r ∈ roots, ∃ s, r.LaidOut s)
    (h : (compose style ratio label roots).run = .ok b) :
    Joined style (style.titleWidth ratio label.length) roots b := by
  obtain ⟨hf, rfl⟩ := run_eq_ok_iff.mp h
  have htitle := (titleHeight_nonneg style ratio label roots hf).1
  have hsizes : ∀ r ∈ roots, 0 ≤ r.rect.width ∧ 0 ≤ r.rect.height := fun r hm =>
    let ⟨_, hs⟩ := hr r hm
    hs.size_nonneg
  have hframes : ∀ r ∈ roots, r.Holds := fun r hm =>
    let ⟨_, hs⟩ := hr r hm
    hs.framed.holds
  have hline := lined_placeRoots style.rootsTop.value hg style.padding fun r hm => (hsizes r hm).1
  rw [value_compose]
  generalize (placeRoots style.rootsTop.value style.gap style.padding roots).value = placed at hline
  have hplaced := hline.size_nonneg hsizes
  dsimp only
  constructor
  case origin => exact ⟨rfl, rfl⟩
  case moved => exact hline.moved
  case holds => exact hline.holds hframes
  case tops => exact hline.tops
  case top => exact hline.top
  case gaps => exact hline.gaps
  case first => exact hline.first
  case inset =>
    intro r hm
    have hle : r.rect.height ≤ (placed.map (·.rect.height)).foldl max 0 :=
      le_foldl_max (.inl (List.mem_map_of_mem hm))
    have htop := hline.top r hm
    obtain ⟨hleft, hright⟩ := hline.between r hm
    rw [width_span (List.ne_nil_of_mem hm)]
    exact ⟨hleft, by dsimp only; omega, by dsimp only; omega⟩
  case last =>
    intro r hm
    rw [width_span (List.ne_nil_of_mem (List.mem_of_getLast? hm)), hline.last r hm]
    dsimp only
    omega
  case tallest =>
    intro r hm htall
    have htop := hline.top r hm
    rw [foldl_max_eq_of_tallest hm (hplaced r hm).2 htall]
    dsimp only
    omega
  case centred =>
    intro first hfirst last hlast
    have hm := List.mem_of_getLast? hlast
    have hleft := (hline.between last hm).1
    have hwide := (hplaced last hm).1
    rw [value_span hfirst hlast]
    refine natAbs_centre_le ?_ htitle
    rw [hline.first first hfirst]
    omega
  case bare =>
    rintro rfl
    obtain rfl := List.forall₂_nil_left_iff.mp hline.moved
    simp [span, Rect.origin]
    omega

/-- Two roots, one of them with a child. -/
def visitors : Kinship := .ofFamily (fun _ => none)
  ⟨"Jones", [⟨[⟨6, "Carl"⟩], [], true⟩, ⟨[⟨13, "Al"⟩], [⟨18, "Bo"⟩], true⟩]⟩

theorem compose_joined_visitors : ∃ roots b,
    (∀ r ∈ roots, r.LaidOut default) ∧ (default : Style Binary32).nodeHeight.NotBelow ∧
    0 ≤ (default : Style Binary32).gap ∧
    (compose default (Binary32.ofInt 1) "Jones" roots).run = .ok b ∧
    b.roots.map (·.rect) = [⟨10, 51, 88, 30⟩, ⟨113, 51, 64, 85⟩] ∧
    Joined default ((default : Style Binary32).titleWidth (Binary32.ofInt 1) "Jones".length)
      roots b := by
  have hroots := run_eq_ok_value
    (x := Layout.roots (default : Style Binary32) (Binary32.ofInt 1) visitors) (by decide +kernel)
  have hlaid := Root.laidOut_of_roots hroots
  have hb := run_eq_ok_value (x := compose (default : Style Binary32) (Binary32.ofInt 1) "Jones"
    (Layout.roots (default : Style Binary32) (Binary32.ofInt 1) visitors).value) (by decide +kernel)
  exact ⟨_, _, hlaid, by decide +kernel, by decide, hb, by decide +kernel,
    compose_joined (by decide) (fun r hr => ⟨_, hlaid r hr⟩) hb⟩

/-- A style whose generations go up. -/
def upwards : Style Binary32 := { (default : Style Binary32) with arrows := -40 }

/-- A child above the box of its root. -/
theorem exists_person_above_root : ∃ roots b, (∀ r ∈ roots, r.LaidOut upwards) ∧
    0 ≤ upwards.gap ∧ 0 ≤ upwards.padding ∧
    (compose upwards (Binary32.ofInt 1) "Jones" roots).run = .ok b ∧
    ∃ r ∈ b.roots, ∃ p ∈ r.person.walk, p.rect.y < r.rect.y := by
  have hroots := run_eq_ok_value
    (x := Layout.roots upwards (Binary32.ofInt 1) visitors) (by decide +kernel)
  have hb := run_eq_ok_value (x := compose upwards (Binary32.ofInt 1) "Jones"
    (Layout.roots upwards (Binary32.ofInt 1) visitors).value) (by decide +kernel)
  exact ⟨_, _, Root.laidOut_of_roots hroots, by decide, by decide, hb, by decide +kernel⟩

end Block

end Drawing

end Pedigree
