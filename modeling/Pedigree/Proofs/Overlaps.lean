import Pedigree.Proofs.Disjoint
import Pedigree.Session.Run

/-! Boxes of persons of different families. Blocks that share no cell may still overlap where no cell
has its middle, so boxes overlap by less than a cell. -/
namespace Pedigree

open Checked Drawing

namespace Rect

/-- How far two boxes overlap from left to right; not positive if they do not. -/
def overlapX (r s : Rect) : Int := min (r.x + r.width) (s.x + s.width) - max r.x s.x

/-- How far two boxes overlap from top to bottom. -/
def overlapY (r s : Rect) : Int := min (r.y + r.height) (s.y + s.height) - max r.y s.y

/-- Whether the interiors of two boxes have a point in common. -/
def Overlaps (r s : Rect) : Prop := 0 < r.overlapX s ∧ 0 < r.overlapY s

instance (r s : Rect) : Decidable (r.Overlaps s) :=
  inferInstanceAs (Decidable (0 < r.overlapX s ∧ 0 < r.overlapY s))

end Rect

/-- A box of a block, where it is drawn. -/
def Drawing.Block.global (b : Block) (r : Rect) : Rect :=
  { r with x := r.x + b.origin.x, y := r.y + b.origin.y }

namespace Figure

/-- Between two places that are a cell apart lies the middle of a cell. -/
theorem firstCell_lt {step a b : Int} (hs : 0 < step) (h : a + step ≤ b) :
    (firstCell step a).value < (firstCell step b).value := by
  have h₁ := firstCell_add_mul hs a 1
  have h₂ := firstCell_mono hs h
  rw [Int.one_mul] at h₁
  omega

/-- Two boxes that overlap by a whole cell in both directions have a cell in common. -/
theorem exists_common_cell {step : Int} (hs : 0 < step) {r s : Rect} (hx : step ≤ r.overlapX s)
    (hy : step ≤ r.overlapY s) : ∃ c, Region.contains (cellsOf step r).value c ∧
      Region.contains (cellsOf step s).value c := by
  unfold Rect.overlapX at hx
  unfold Rect.overlapY at hy
  have mono {a b : Int} (h : a ≤ b) : (firstCell step a).value ≤ (firstCell step b).value :=
    firstCell_mono hs h
  have hcol := firstCell_lt hs (show max r.x s.x + step ≤ min (r.x + r.width) (s.x + s.width)
    by omega)
  have hrow := firstCell_lt hs (show max r.y s.y + step ≤ min (r.y + r.height) (s.y + s.height)
    by omega)
  refine ⟨⟨(firstCell step (max r.x s.x)).value, (firstCell step (max r.y s.y)).value⟩, ?_, ?_⟩
  · exact contains_cellsOf.mpr
      ⟨⟨mono (Int.le_max_left _ _), Int.lt_of_lt_of_le hcol (mono (Int.min_le_left _ _))⟩,
        mono (Int.le_max_left _ _), Int.lt_of_lt_of_le hrow (mono (Int.min_le_left _ _))⟩
  · exact contains_cellsOf.mpr
      ⟨⟨mono (Int.le_max_right _ _), Int.lt_of_lt_of_le hcol (mono (Int.min_le_right _ _))⟩,
        mono (Int.le_max_right _ _), Int.lt_of_lt_of_le hrow (mono (Int.min_le_right _ _))⟩

/-- Each person stands in a band, with the connectors above it. -/
theorem exists_band_of_mem (arrows : Int) {b : Block} {p : Person} (hp : p ∈ b.persons) :
    ∃ band ∈ (bands arrows b).value, band.x ≤ p.rect.x ∧
      p.rect.x + p.rect.width ≤ band.x + band.width ∧ band.y = p.rect.y - arrows ∧
      p.rect.y + p.rect.height ≤ band.y + band.height := by
  have hrow : p.rect ∈ row b p.rect.y :=
    List.mem_filter.2 ⟨List.mem_map_of_mem hp, beq_self_eq_true _⟩
  have hband := spans_generation arrows p.rect.y (List.ne_nil_of_mem hrow)
  exact ⟨_, mem_bands_iff.2 (.inr ⟨p.rect.y, hband⟩), hband.left.2 ⟨_, hrow, rfl⟩,
    hband.right.2 ⟨_, hrow, rfl⟩, hband.top, hband.bottom.2 ⟨_, hrow, rfl⟩⟩

variable {S : Type} {style : Style S}

/-- Persons of blocks that share no cell overlap by less than a cell, of which padding and connectors
take their part. -/
theorem overlap_lt (hs : 0 < style.gridStep) {b b' : Block}
    (hcells : ∀ c, (cells style b).value.contains c → ¬(cells style b').value.contains c)
    {p q : Person} (hp : p ∈ b.persons) (hq : q ∈ b'.persons) :
    (b.global p.rect).overlapX (b'.global q.rect) < style.gridStep - 2 * style.padding ∨
      (b.global p.rect).overlapY (b'.global q.rect) <
        style.gridStep - 2 * style.padding - style.arrows := by
  obtain ⟨band, hband, hx, hright, hy, hbottom⟩ := exists_band_of_mem style.arrows hp
  obtain ⟨band', hband', hx', hright', hy', hbottom'⟩ :=
    exists_band_of_mem style.arrows hq
  refine Decidable.byContradiction fun hcon => ?_
  rw [not_or, Int.not_lt, Int.not_lt] at hcon
  simp only [Block.global, Rect.overlapX, Rect.overlapY] at hcon
  obtain ⟨c, hc, hc'⟩ := exists_common_cell hs (r := (pad style.padding b.origin band).value)
    (s := (pad style.padding b'.origin band').value)
    (by simp only [Rect.overlapX, value_pad]; omega)
    (by simp only [Rect.overlapY, value_pad]; omega)
  exact hcells c (contains_cells.mpr ⟨band, hband, hc⟩) (contains_cells.mpr ⟨band', hband', hc'⟩)

end Figure

namespace Layout

variable {settings : Settings Binary32} {ratio : Binary32} {document : Snapshot}
  {blocks : List Block}

/-- In a drawing the boxes of persons of different families overlap by less than what the grid leaves
between padded generations. Where that is one unit or nothing, they do not overlap. -/
theorem align_overlap_lt (hp : 0 ≤ settings.style.padding) (ha : 0 ≤ settings.style.arrows)
    (hh : settings.style.personHeight.NotBelow) (h : align settings ratio document = .ok blocks)
    {i j : Nat} {b b' : Block} (hij : i ≠ j) (hb : blocks[i]? = some b) (hb' : blocks[j]? = some b')
    {p q : Person} (hpb : p ∈ b.persons) (hqb : q ∈ b'.persons) :
    ((b.global p.rect).overlapX (b'.global q.rect) <
        settings.style.gridStep - 2 * settings.style.padding ∨
      (b.global p.rect).overlapY (b'.global q.rect) <
        settings.style.gridStep - 2 * settings.style.padding - settings.style.arrows) ∧
      (settings.style.gridStep ≤ 2 * settings.style.padding + 1 →
        ¬(b.global p.rect).Overlaps (b'.global q.rect)) := by
  obtain ⟨hs, hd⟩ := align_eq_ok h
  have hapart := drawn_apart hs hp ha hh hd i j b b' hij hb hb'
  have hlt := Figure.overlap_lt hs hapart hpb hqb
  refine ⟨hlt, fun hstep hov => ?_⟩
  obtain ⟨hx, hy⟩ := hov
  omega

/-- A wife whose own family is drawn first, with a wide daughter below her. -/
def wideDaughter : String := "Lee\nA = B\nB = Catherine\n\nHa\nLee B =\n"

/-- The boxes of the persons of each block, where they are drawn. -/
def globalBoxes (blocks : List Block) : List (List Rect) :=
  blocks.map fun b => b.persons.map fun p => b.global p.rect

/-- A person of the first block and a person of the second one. -/
structure Couple (blocks : List Block) (b b' : Block) (p q : Person) : Prop where
  first : blocks[0]? = some b
  second : blocks[1]? = some b'
  left : p ∈ b.persons
  right : q ∈ b'.persons

theorem exists_couple_wideDaughter : ∃ s blocks b b' p q,
    (Snapshot.parse wideDaughter).map (·.1) = .ok s ∧
      align default (Binary32.ofInt 1) s = .ok blocks ∧ Couple blocks b b' p q ∧
        b.global p.rect = ⟨58, 51, 52, 30⟩ ∧ b'.global q.rect = ⟨10, 72, 52, 30⟩ := by
  have hp : ((Snapshot.parse wideDaughter).map fun s =>
      ((align default (Binary32.ofInt 1) s.1).map globalBoxes).toOption).toOption =
        some (some [[⟨58, 51, 52, 30⟩, ⟨58, 106, 52, 30⟩, ⟨10, 161, 148, 30⟩],
          [⟨10, 72, 52, 30⟩]]) := by decide +kernel
  obtain ⟨s, hs, hm⟩ := eq_ok_of_toOption_map hp
  obtain ⟨blocks, hb, ho⟩ := eq_ok_of_toOption_map hm
  obtain ⟨b, bs, rfl, hfirst, ho⟩ := List.map_eq_cons_iff.mp ho
  obtain ⟨b', bs', rfl, hsecond, -⟩ := List.map_eq_cons_iff.mp ho
  obtain ⟨p, ps, hps, hp, -⟩ := List.map_eq_cons_iff.mp hfirst
  obtain ⟨q, qs, hqs, hq, -⟩ := List.map_eq_cons_iff.mp hsecond
  exact ⟨s.1, _, b, b', p, q, by rw [hs]; rfl, hb,
    ⟨rfl, rfl, hps ▸ List.mem_cons_self, hqs ▸ List.mem_cons_self⟩, hp, hq⟩

/-- With a grid of 30 and a padding of 10 fewer than ten units are left. -/
theorem align_overlap_lt_wideDaughter : ∃ s blocks b b' p q,
    align default (Binary32.ofInt 1) s = .ok blocks ∧ Couple blocks b b' p q ∧
      ((b.global p.rect).overlapX (b'.global q.rect) < 30 - 2 * 10 ∨
        (b.global p.rect).overlapY (b'.global q.rect) < 30 - 2 * 10 - 25) := by
  obtain ⟨s, blocks, b, b', p, q, -, hb, hc, -, -⟩ := exists_couple_wideDaughter
  have hlt := align_overlap_lt (by decide) (by decide) (by decide +kernel) hb (by decide) hc.first
    hc.second hc.left hc.right
  exact ⟨s, blocks, b, b', p, q, hb, hc, hlt.1⟩

/-- With the default settings the boxes of two families may overlap. -/
theorem align_overlaps_wideDaughter :
    (Session.validated "").toOption = some default ∧ (default : Settings Binary32).pack ∧
      ∃ s blocks b b' p q, (Snapshot.parse wideDaughter).map (·.1) = .ok s ∧
        align default (Binary32.ofInt 1) s = .ok blocks ∧ Couple blocks b b' p q ∧
          (b.global p.rect).Overlaps (b'.global q.rect) := by
  obtain ⟨s, blocks, b, b', p, q, hs, hb, hc, hp, hq⟩ := exists_couple_wideDaughter
  refine ⟨by decide +kernel, rfl, s, blocks, b, b', p, q, hs, hb, hc, ?_⟩
  rw [hp, hq]
  decide

end Layout

end Pedigree
