import Pedigree.Drawing.Border
import Pedigree.Drawing.Edges
import Pedigree.Number.Decimal
import Pedigree.Packing.Placement

/-! Laying out a document: subtrees of all roots, blocks of all families, outlines, stacking and
packing. -/
namespace Pedigree

open Drawing Checked

namespace Layout

variable {S : Type} [Scalar S]

def roots (style : Style S) (ratio : S) (k : Kinship) : Checked (List Root) :=
  k.trees.mapM (Subtree.layout style ratio)

/-- The outline of a block, empty if it has no roots. -/
def outline (style : Style S) (kind : OutlineKind) (b : Block) : Checked (List Pos) :=
  if b.roots.isEmpty then return []
  else match kind with
    | .edges => Edges.outline style.padding style.arrows b
    | .levels => Levels.outline style.padding style.arrows style.gap b

/-- The block of a family, at the origin. -/
def block (settings : Settings S) (ratio : S) (k : Kinship) : Checked Block := do
  let b ← Block.compose settings.style ratio k.label (← roots settings.style ratio k)
  return { b with outline := ← outline settings.style settings.outline b }

/-- The blocks of a document, stacked. -/
def stacked (settings : Settings S) (ratio : S) (document : Snapshot) : Checked (List Block) := do
  Block.stack (← document.kinships.mapM (block settings ratio))

/-- The blocks of a document, where they are drawn. -/
def drawn (settings : Settings S) (ratio : S) (document : Snapshot) :
    Except Fault (List Block) := do
  let blocks ← (stacked settings ratio document).run
  if settings.pack then return (← Packing.pack settings.style blocks).1 else return blocks

/-- Why nothing is drawn. -/
inductive Refusal where
  | fontRatio (ratio : Binary32)
  | gridStep (step : Int)
  /-- A number left its range. -/
  | fault (f : Fault)
  deriving DecidableEq

/-- Draws a document if the font ratio and the grid step are positive. -/
def align (settings : Settings Binary32) (ratio : Binary32) (document : Snapshot) :
    Except Refusal (List Block) :=
  if !ratio.isPositive then .error (.fontRatio ratio)
  else if settings.style.gridStep ≤ 0 then .error (.gridStep settings.style.gridStep)
  else (drawn settings ratio document).mapError .fault

end Layout

end Pedigree
