import Pedigree.Packing.Figure
import Pedigree.Proofs.Sorting

/-! The bands of a block, and the cells that they take. The cells move with the block, as long as it
moves on the grid. -/
namespace Pedigree

open Checked Drawing

namespace Figure

/-- A band around the boxes of a generation that starts at `y`, as narrow and as low as they allow. -/
structure Spans (arrows y : Int) (boxes : List Rect) (band : Rect) : Prop where
  left : IsLeast (Rect.x '' {r | r ∈ boxes}) band.x
  right : IsGreatest ((fun r => r.x + r.width) '' {r | r ∈ boxes}) (band.x + band.width)
  top : band.y = y - arrows
  bottom : IsGreatest ((fun r => r.y + r.height) '' {r | r ∈ boxes}) (band.y + band.height)

theorem spans_generation (arrows y : Int) {boxes : List Rect} (hne : boxes ≠ []) :
    Spans arrows y boxes (generation arrows y boxes).value := by
  have hwidth : (generation arrows y boxes).value.x + (generation arrows y boxes).value.width =
      (boxes.map fun r => r.x + r.width).max?.getD 0 := by
    simp only [generation, value_bind, value_mapM, Rect.value_make, Rect.value_extendUp,
      Rect.value_right, value_sub]
    omega
  have hheight : (generation arrows y boxes).value.y + (generation arrows y boxes).value.height =
      (boxes.map fun r => r.y + r.height).max?.getD 0 := by
    simp only [generation, value_bind, value_mapM, Rect.value_make, Rect.value_extendUp,
      Rect.value_bottom, value_sub]
    omega
  constructor
  case left => exact isLeast_getD_min? hne Rect.x
  case right => exact hwidth ▸ isGreatest_getD_max? hne fun r => r.x + r.width
  case top => rfl
  case bottom => exact hheight ▸ isGreatest_getD_max? hne fun r => r.y + r.height

theorem Spans.unique {arrows y : Int} {boxes : List Rect} {band band' : Rect}
    (h : Spans arrows y boxes band) (h' : Spans arrows y boxes band') : band = band' := by
  obtain ⟨x, top, width, height⟩ := band
  obtain ⟨x', top', width', height'⟩ := band'
  have hleft := h.left.unique h'.left
  have hright := h.right.unique h'.right
  have htop := h.top.trans h'.top.symm
  have hbottom := h.bottom.unique h'.bottom
  simp only [Rect.mk.injEq] at hleft hright htop hbottom ⊢
  omega

/-- The boxes of the persons of a block who start at `y`. -/
def row (b : Block) (y : Int) : List Rect := (b.persons.map (·.rect)).filter (·.y == y)

theorem mem_bands_iff {arrows : Int} {b : Block} {band : Rect} :
    band ∈ (bands arrows b).value ↔
      band = { b.title.rect with height := b.title.rect.height + arrows } ∨
        ∃ y, Spans arrows y (row b y) band := by
  unfold bands
  simp only [value_bind, value_mapM, value_pure, Rect.value_withHeight, value_add, List.mem_cons,
    List.mem_map]
  refine or_congr_right ⟨?_, ?_⟩
  · rintro ⟨g, hg, rfl⟩
    have hrow : g.2 = row b g.1 := (mem_groupsBy.1 hg).2
    exact ⟨g.1, hrow ▸ spans_generation arrows g.1 (group_ne_nil hg)⟩
  · rintro ⟨y, h⟩
    obtain ⟨r, hr, -⟩ := h.left.1
    obtain ⟨hmem, hy⟩ := List.mem_filter.1 hr
    obtain ⟨g, hg, hkey, -⟩ := exists_group Rect.y hmem
    have hgy : g.1 = y := hkey.trans (beq_iff_eq.1 hy)
    have hrow : g.2 = row b y := hgy ▸ (mem_groupsBy.1 hg).2
    refine ⟨g, hg, ?_⟩
    rw [hgy, hrow]
    exact (spans_generation arrows y (List.ne_nil_of_mem hr)).unique h

theorem value_firstCell (step place : Int) :
    (firstCell step place).value = (place - step.tdiv 2 + step - 1) / step := by
  simp [firstCell]

theorem firstCell_mono {step a b : Int} (hs : 0 < step) (h : a ≤ b) :
    (firstCell step a).value ≤ (firstCell step b).value := by
  rw [value_firstCell, value_firstCell]
  exact Int.ediv_le_ediv hs (by omega)

theorem firstCell_add_mul {step : Int} (hs : 0 < step) (place k : Int) :
    (firstCell step (place + k * step)).value = (firstCell step place).value + k := by
  rw [value_firstCell, value_firstCell, ← Int.add_mul_ediv_right _ _ (by omega)]
  congr 1
  omega

theorem contains_cellsOf {step : Int} {box : Rect} {c : Pos} :
    Region.contains (cellsOf step box).value c ↔
      ((firstCell step box.x).value ≤ c.x ∧ c.x < (firstCell step (box.x + box.width)).value) ∧
      (firstCell step box.y).value ≤ c.y ∧ c.y < (firstCell step (box.y + box.height)).value := by
  unfold cellsOf
  simp only [value_bind, Rect.value_right]
  split
  · next h =>
    refine iff_of_false (by simp [Region.contains]) ?_
    rintro ⟨⟨h₁, h₂⟩, -⟩
    omega
  · simp only [value_bind, value_pure, Rect.value_bottom, Region.contains, List.any_cons,
      List.any_nil, Bool.or_false, CellRect.contains_iff, and_assoc]

@[simp] theorem value_pad (padding : Int) (origin : Pos) (band : Rect) :
    (pad padding origin band).value = ⟨band.x - padding + origin.x, band.y - padding + origin.y,
      band.width + padding * 2, band.height + padding * 2⟩ := rfl

variable {S : Type} {style : Style S}

theorem contains_cells {b : Block} {c : Pos} :
    (cells style b).value.contains c ↔ ∃ band ∈ (bands style.arrows b).value,
      Region.contains (cellsOf style.gridStep (pad style.padding b.origin band).value).value c := by
  simp only [cells, value_bind, value_pure, value_mapM, Region.contains, List.any_flatten,
    List.any_map, List.any_eq_true, Function.comp_apply]

@[simp] theorem bands_moveTo (arrows : Int) (b : Block) (p : Pos) :
    bands arrows (b.moveTo p) = bands arrows b := rfl

/-- Moving the origin by whole cells moves every cell. -/
theorem contains_cells_moveTo (hs : 0 < style.gridStep) (b : Block) (k c : Pos) :
    (cells style (b.moveTo ⟨b.origin.x + k.x * style.gridStep,
      b.origin.y + k.y * style.gridStep⟩)).value.contains c =
      (cells style b).value.contains ⟨c.x - k.x, c.y - k.y⟩ := by
  have shifted (place k : Int) : (firstCell style.gridStep (place + k * style.gridStep)).value =
      (firstCell style.gridStep place).value + k := firstCell_add_mul hs place k
  rw [Bool.eq_iff_iff, contains_cells, contains_cells, bands_moveTo]
  have iff (band : Rect) : Region.contains (cellsOf style.gridStep (pad style.padding
      ⟨b.origin.x + k.x * style.gridStep, b.origin.y + k.y * style.gridStep⟩
        band).value).value c ↔
      Region.contains (cellsOf style.gridStep (pad style.padding b.origin band).value).value
        ⟨c.x - k.x, c.y - k.y⟩ := by
    rw [contains_cellsOf, contains_cellsOf]
    simp only [value_pad]
    have h₁ := shifted (band.x - style.padding + b.origin.x) k.x
    have h₂ := shifted (band.x - style.padding + b.origin.x + (band.width + style.padding * 2)) k.x
    have h₃ := shifted (band.y - style.padding + b.origin.y) k.y
    have h₄ := shifted (band.y - style.padding + b.origin.y + (band.height + style.padding * 2)) k.y
    rw [show band.x - style.padding + (b.origin.x + k.x * style.gridStep) =
        band.x - style.padding + b.origin.x + k.x * style.gridStep by omega,
      show band.y - style.padding + (b.origin.y + k.y * style.gridStep) =
        band.y - style.padding + b.origin.y + k.y * style.gridStep by omega,
      Int.add_right_comm _ (k.x * style.gridStep), Int.add_right_comm _ (k.y * style.gridStep),
      h₁, h₂, h₃, h₄]
    omega
  exact exists_congr fun band => and_congr_right fun _ => iff band

end Figure

end Pedigree
