import Pedigree.Proofs.Cells
import Pedigree.Proofs.Faultless

/-! The cells of a block are those whose middle lies in one of its padded bands. -/
namespace Pedigree

open Checked Drawing

namespace Rect

/-- A place lies in a box. Of its edges, the left one and the top one belong to it. -/
def Holds (r : Rect) (p : Pos) : Prop :=
  (r.x ≤ p.x ∧ p.x < r.x + r.width) ∧ r.y ≤ p.y ∧ p.y < r.y + r.height

end Rect

namespace Figure

/-- The middle of a cell of the grid, rounded to the left and to the top. -/
def middle (step : Int) (c : Pos) : Pos := ⟨c.x * step + step / 2, c.y * step + step / 2⟩

/-- A box in a block with some space around it, where the block stands. -/
def around (padding : Int) (origin : Pos) (r : Rect) : Rect :=
  ⟨origin.x + r.x - padding, origin.y + r.y - padding, r.width + 2 * padding,
    r.height + 2 * padding⟩

variable {S : Type}

/-- A place lies in the title of a block, with the connectors below it, or in one of its generations,
with the connectors above it. -/
inductive Covers (style : Style S) (b : Block) (p : Pos) : Prop where
  | title (h : (around style.padding b.origin
      { b.title.rect with height := b.title.rect.height + style.arrows }).Holds p)
  | generation (y : Int) (band : Rect) (hband : Spans style.arrows y (row b y) band)
      (h : (around style.padding b.origin band).Holds p)

theorem firstCell_le_iff {step : Int} (hs : 0 < step) (place c : Int) :
    (firstCell step place).value ≤ c ↔ place ≤ c * step + step / 2 := by
  have hhalf : step.tdiv 2 = step / 2 := Int.tdiv_eq_ediv_of_nonneg (Int.le_of_lt hs)
  rw [value_firstCell, hhalf, ← Int.lt_add_one_iff, Int.ediv_lt_iff_lt_mul hs, Int.add_mul,
    Int.one_mul]
  omega

theorem contains_cellsOf_iff {step : Int} (hs : 0 < step) {box : Rect} {c : Pos} :
    Region.contains (cellsOf step box).value c ↔ box.Holds (middle step c) := by
  rw [contains_cellsOf]
  unfold Rect.Holds middle
  simp only [firstCell_le_iff hs, ← Int.not_le]

theorem contains_cells_iff {style : Style S} (hs : 0 < style.gridStep) {b : Block} {c : Pos} :
    (cells style b).value.contains c ↔ Covers style b (middle style.gridStep c) := by
  have hpad (band : Rect) :
      (pad style.padding b.origin band).value = around style.padding b.origin band := by
    rw [value_pad, around, Rect.mk.injEq]
    omega
  simp only [contains_cells, mem_bands_iff, contains_cellsOf_iff hs, hpad]
  constructor
  · rintro ⟨band, rfl | ⟨y, hband⟩, h⟩
    · exact .title h
    · exact .generation y band hband h
  · rintro (h | ⟨y, band, hband, h⟩)
    · exact ⟨_, .inl rfl, h⟩
    · exact ⟨band, .inr ⟨y, hband⟩, h⟩

/-- A cell is taken exactly if its middle lies in a padded band of the block, and where the block moves
by whole cells, all its cells move along. -/
theorem cells_hold_middles {style : Style S} {b : Block} {region : Region}
    (hs : 0 < style.gridStep) (h : (cells style b).run = .ok region) :
    (∀ c, region.contains c ↔ Covers style b (middle style.gridStep c)) ∧
      ∀ (k : Pos) (moved : Region), (cells style (b.moveTo ⟨b.origin.x + k.x * style.gridStep,
        b.origin.y + k.y * style.gridStep⟩)).run = .ok moved →
          ∀ c, moved.contains c ↔ region.contains ⟨c.x - k.x, c.y - k.y⟩ := by
  obtain ⟨-, rfl⟩ := run_eq_ok_iff.1 h
  refine ⟨fun c => contains_cells_iff hs, fun k moved hmoved c => ?_⟩
  obtain ⟨-, rfl⟩ := run_eq_ok_iff.1 hmoved
  rw [contains_cells_moveTo hs]

/-- A father and his son, drawn to the left of the origin and above it. -/
def leftOfOrigin : Block where
  rect := ⟨-23, -5, 16, 36⟩
  title := ⟨⟨2, 2, 12, 6⟩, "Lee"⟩
  roots := [⟨⟨2, 11, 12, 19⟩,
    ⟨⟨2, 11, 12, 8⟩, "Al", false, none, [⟨⟨2, 22, 9, 8⟩, "Bob", false, none, []⟩]⟩⟩]
  outline := []

/-- Cells of an odd size. -/
def oddGrid : Style Binary32 :=
  { (default : Style Binary32) with padding := 2, arrows := 3, gridStep := 7 }

theorem cells_hold_middles_leftOfOrigin : ∃ region moved,
    (cells oddGrid leftOfOrigin).run = .ok region ∧
      (cells oddGrid (leftOfOrigin.moveTo ⟨-2, -33⟩)).run = .ok moved ∧
      (∀ c, region.contains c ↔ Covers oddGrid leftOfOrigin (middle 7 c)) ∧
      ∀ c, moved.contains c ↔ region.contains ⟨c.x - 3, c.y - -4⟩ := by
  have hr : ((cells oddGrid leftOfOrigin).run.map fun _ => ()).toOption = some () := by
    decide +kernel
  have hm : ((cells oddGrid (leftOfOrigin.moveTo ⟨-2, -33⟩)).run.map fun _ => ()).toOption =
      some () := by decide +kernel
  obtain ⟨region, hr, -⟩ := eq_ok_of_toOption_map hr
  obtain ⟨moved, hm, -⟩ := eq_ok_of_toOption_map hm
  obtain ⟨hcells, hshift⟩ := cells_hold_middles (by decide) hr
  exact ⟨region, moved, hr, hm, hcells, hshift ⟨3, -4⟩ moved hm⟩

end Figure

end Pedigree
