import Pedigree.Drawing.Block
import Pedigree.Drawing.Sorting

/-! Outlines along the outermost box of every generation. Both sides are traced from top to bottom
and joined: down the left side and up the right one. -/
namespace Pedigree

open Checked

namespace Drawing

inductive Side where
  | left
  | right
  deriving DecidableEq, Repr

namespace Side

def edge : Side → Rect → Checked Int
  | left, r => return r.x
  | right, r => r.right

/-- Whether the first edge lies further out. -/
def isOuter : Side → Int → Int → Bool
  | left, a, b => a < b
  | right, a, b => b < a

def outward : Side → Int → Checked Int
  | left, n => neg n
  | right, n => return n

end Side

/-- A generation seen from one side. -/
structure Row where
  x : Int
  y : Int
  height : Int
  deriving DecidableEq, Repr, Inhabited

namespace Edges

/-- Neighbouring edges closer than this are aligned. -/
def snapThreshold : Int := 10

def rowOf (side : Side) (r : Rect) : Checked Row := return ⟨← side.edge r, r.y, r.height⟩

/-- The row that lies furthest out, the first one of equals. -/
def outermost (side : Side) (rows : List Row) : Row :=
  rows.tail.foldl (fun known row => if side.isOuter row.x known.x then row else known)
    (rows.headD default)

/-- The title, which reaches down over its connectors, and one row for each generation. -/
def rows (side : Side) (arrows : Int) (title : Rect) (boxes : List Rect) :
    Checked (List Row) := do
  let top ← rowOf side title
  let top := { top with height := ← add title.height arrows }
  let all ← boxes.mapM (rowOf side)
  return sortBy (·.y) (top :: (groupsBy (·.y) all).map fun g => outermost side g.2)

/-- Aligns a row with the rows below: where two edges are close, the inner one moves out. -/
def snapFrom (side : Side) (above : Row) : List Row → Checked (List Row)
  | [] => return [above]
  | row :: rows => do
    let delta ← sub above.x row.x
    if delta = 0 || snapThreshold ≤ (← abs delta) then
      return above :: (← snapFrom side row rows)
    else if side.isOuter above.x row.x then
      return above :: (← snapFrom side { row with x := above.x } rows)
    else
      return { above with x := row.x } :: (← snapFrom side row rows)

def snap (side : Side) : List Row → Checked (List Row)
  | [] => return []
  | row :: rows => snapFrom side row rows

/-- Rows below the first generation reach up over their connectors. -/
def growUp (arrows : Int) (row : Row) : Checked Row :=
  return { row with y := ← sub row.y arrows, height := ← add row.height arrows }

def grow (arrows : Int) (rows : List Row) : Checked (List Row) :=
  return rows.take 2 ++ (← (rows.drop 2).mapM (growUp arrows))

/-- The ends of a row's edge. -/
def ends (row : Row) : Checked (List Pos) :=
  return [⟨row.x, row.y⟩, ⟨row.x, ← add row.y row.height⟩]

/-- Pads an inner point between its neighbours. It drops where the edge turns inward below it, so
that the margin stays even around steps. -/
def padInner (side : Side) (pad : Int) (previous current next : Pos) : Checked Pos := do
  let drops :=
    if previous.x = current.x then side.isOuter current.x next.x
    else side.isOuter previous.x current.x
  let current ← if drops then current.translate 0 pad else pure current
  current.translate (← side.outward pad) 0

/-- Pads the points after one that has been padded. -/
def padAfter (side : Side) (pad : Int) (previous : Pos) : List Pos → Checked (List Pos)
  | [] => return []
  | [last] => return [← last.translate (← side.outward pad) pad]
  | current :: next :: rest => return (← padInner side pad previous current next) ::
      (← padAfter side pad current (next :: rest))

/-- Lifts the first step if it goes inward. -/
def liftStep (side : Side) (pad : Int) : List Pos → Checked (List Pos)
  | first :: second :: third :: rest =>
    if side.isOuter third.x second.x then do
      let lift ← neg pad
      return first :: (← second.translate 0 lift) :: (← third.translate 0 lift) :: rest
    else return first :: second :: third :: rest
  | points => return points

/-- Moves the points of one side out by a padding. -/
def padPoints (side : Side) (pad : Int) : List Pos → Checked (List Pos)
  | first :: second :: rest => do
    let after ← padAfter side pad first (second :: rest)
    let first ← first.translate (← side.outward pad) (← neg pad)
    liftStep side pad (first :: after)
  | points => return points

/-- One side of the outline, from top to bottom. -/
def trace (side : Side) (padding arrows : Int) (title : Rect) (boxes : List Rect) :
    Checked (List Pos) := do
  let rows ← snap side (← rows side arrows title boxes)
  let points ← (← grow arrows rows).mapM ends
  padPoints side padding points.flatten

/-- The outline of a block. -/
def outline (padding arrows : Int) (b : Block) : Checked (List Pos) := do
  let boxes := b.persons.map (·.rect)
  let left ← trace .left padding arrows b.title.rect boxes
  let right ← trace .right padding arrows b.title.rect boxes
  return left ++ right.reverse

end Edges

end Drawing

end Pedigree
