import Pedigree.Packing.Figure
import Pedigree.Packing.Links
import Pedigree.Packing.Search

/-! Moving linked blocks next to each other. For each link the dependent block moves on the grid so
that its root comes as close as possible to the person in the anchor, without taking a cell of any
other block. -/
namespace Pedigree

open Drawing Checked

/-- A move that was made: `anchor` stayed, `family` moved. -/
structure Placement where
  anchor : Nat
  family : Nat
  offset : Pos
  deriving DecidableEq, Repr, Inhabited

namespace Packing

/-- Blocks, the cells that each of them takes, and all taken cells. -/
structure State where
  blocks : List Block
  own : List Region
  occupied : Region

def State.originOf (s : State) (i : Nat) : Pos := (s.blocks[i]?.map (·.origin)).getD default

def State.cellsOf (s : State) (i : Nat) : Region := s.own[i]?.getD []

/-- The way from the cell of the linked root to the cell of the linked person. -/
def distance (step : Int) (s : State) (l : Link) : Checked Pos := do
  let anchor ← Figure.anchorCell step (s.originOf l.anchor) l.person
  let moving ← Figure.anchorCell step (s.originOf l.family) l.root
  let way ← anchor.minus moving
  let _ ← way.absSum
  return way

/-- A region moved, with a look at the cells in its corners. -/
def shiftCells (r : Region) (offset : Pos) : Checked Region := do
  let _ ← r.mapM fun t => do
    let _ ← add t.left offset.x
    let _ ← add (t.right - 1) offset.x
    let _ ← add t.top offset.y
    add (t.bottom - 1) offset.y
  return r.shift offset

/-- Moves the dependent block of a link. -/
def follow (step : Int) (s : State) (l : Link) : Except Fault (State × Placement) := do
  let way ← (distance step s l).run
  let own := s.cellsOf l.family
  let others := Region.diff s.occupied own
  let cells := searchOffset others own way
  let moved ← (shiftCells own cells).run
  let offset ← (cells.scale step).run
  let origin ← ((s.originOf l.family).plus offset).run
  return (⟨s.blocks.modify l.family (·.moveTo origin), s.own.set l.family moved, moved ++ others⟩,
    ⟨l.anchor, l.family, offset⟩)

/-- Follows links one after the other. -/
def followAll (step : Int) (s : State) : List Link → Except Fault (State × List Placement)
  | [] => .ok (s, [])
  | l :: ls => do
    let (s, p) ← follow step s l
    let (s, ps) ← followAll step s ls
    return (s, p :: ps)

variable {S : Type}

/-- The blocks before any move. -/
def start (style : Style S) (blocks : List Block) : Except Fault State := do
  let own ← (blocks.mapM (Figure.cells style)).run
  return ⟨blocks, own, own.flatten⟩

/-- Packs blocks that have been stacked. Blocks without links stay where they are. -/
def pack (style : Style S) (blocks : List Block) : Except Fault (List Block × List Placement) :=
  match Link.find blocks with
  | [] => .ok (blocks, [])
  | links => do
    let (s, placements) ← followAll style.gridStep (← start style blocks) links
    return (s.blocks, placements)

end Packing

end Pedigree
