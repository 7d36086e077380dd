import Pedigree.Drawing.Block
import Pedigree.Packing.Region

/-! The cells that a block takes. A cell is taken if its middle lies in a band of the block: the
title with the connectors below it, or a generation, over all roots, with the connectors above it;
each band is padded. -/
namespace Pedigree

open Checked Drawing

namespace Figure

/-- The box around a generation that starts at `y`. -/
def generation (arrows y : Int) (boxes : List Rect) : Checked Rect := do
  let rights ← boxes.mapM (·.right)
  let bottoms ← boxes.mapM (·.bottom)
  let left := (boxes.map (·.x)).min?.getD 0
  let right := rights.max?.getD 0
  let bottom := bottoms.max?.getD 0
  (← Rect.make left y (← sub right left) (← sub bottom y)).extendUp arrows

/-- The bands of a block, relative to it. -/
def bands (arrows : Int) (b : Block) : Checked (List Rect) := do
  let title ← b.title.rect.withHeight (← add b.title.rect.height arrows)
  let rows ← (groupsBy (·.y) (b.persons.map (·.rect))).mapM fun (y, boxes) =>
    generation arrows y boxes
  return title :: rows

/-- A band where it is drawn, padded. -/
def pad (padding : Int) (origin : Pos) (band : Rect) : Checked Rect := do
  let x ← add (← sub band.x padding) origin.x
  let y ← add (← sub band.y padding) origin.y
  Rect.make x y (← add band.width (← mul padding 2)) (← add band.height (← mul padding 2))

/-- The first cell whose middle is not left of a place. -/
def firstCell (step place : Int) : Checked Int := do
  ediv (← sub (← add (← sub place (step.tdiv 2)) step) 1) step

/-- The cells whose middle lies in a box. -/
def cellsOf (step : Int) (box : Rect) : Checked Region := do
  let left ← firstCell step box.x
  let right ← firstCell step (← box.right)
  if right ≤ left then return []
  else
    let top ← firstCell step box.y
    let bottom ← firstCell step (← box.bottom)
    return [⟨left, right, top, bottom⟩]

variable {S : Type}

/-- The cells that a block takes where it stands. -/
def cells (style : Style S) (b : Block) : Checked Region := do
  let boxes ← (← bands style.arrows b).mapM (pad style.padding b.origin)
  return (← boxes.mapM (cellsOf style.gridStep)).flatten

/-- The cell at the middle of the top of a box in a block. -/
def anchorCell (step : Int) (origin : Pos) (box : Rect) : Checked Pos := do
  (← origin.plus (← box.corner .topMiddle)).cell step

end Figure

end Pedigree
