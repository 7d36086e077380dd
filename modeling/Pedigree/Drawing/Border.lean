import Pedigree.Drawing.Block
import Pedigree.Drawing.Levels

/-! The border of merged levels, a walk from corner to corner. A corner lies on the line between
two levels; the walk goes down left sides, up right sides and along the lines. -/
namespace Pedigree

open Checked

namespace Drawing

namespace Border

/-- The corners of a bar, in the order in which they follow each other at one point. -/
inductive Kind where
  | topLeft
  | topRight
  | bottomLeft
  | bottomRight
  deriving DecidableEq, Repr, Inhabited

def Kind.rank : Kind → Int
  | .topLeft => 0
  | .topRight => 1
  | .bottomLeft => 2
  | .bottomRight => 3

/-- The corner of the bar with the given number. -/
structure Vertex where
  bar : Nat
  kind : Kind
  pos : Pos
  deriving DecidableEq, Repr, Inhabited

/-- The vertices of the upper and of the lower side of a bar. -/
def sides (y bottom : Int) (bar : Nat) (b : Bar) : Checked (List Vertex × List Vertex) := do
  let right ← b.right
  return ([⟨bar, .topLeft, ⟨b.x, y⟩⟩, ⟨bar, .topRight, ⟨right, y⟩⟩],
    [⟨bar, .bottomLeft, ⟨b.x, bottom⟩⟩, ⟨bar, .bottomRight, ⟨right, bottom⟩⟩])

def levelSides (l : Level) (first : Nat) : Checked (List Vertex × List Vertex) := do
  let all ← (l.bars.zipIdx first).mapM fun (b, i) => do
    sides l.y (← add l.y (max l.height 0)) i b
  return (all.flatMap (·.1), all.flatMap (·.2))

/-- The order along a line. -/
def sortLine (line : List Vertex) : List Vertex :=
  sortBy (fun v => v.pos.x) (sortBy (fun v => v.kind.rank) line)

/-- The lines above, between and below levels, whose bars are numbered from `first`. The line
above starts with what the level above it leaves there. -/
def linesFrom (above : List Vertex) (first : Nat) : List Level → Checked (List (List Vertex))
  | [] => return [sortLine above]
  | l :: rest => do
    let (tops, bottoms) ← levelSides l first
    return sortLine (above ++ tops) :: (← linesFrom bottoms (first + l.bars.length) rest)

/-- What follows a vertex in a line. -/
def after? (v : Vertex) : List Vertex → Option Vertex
  | [] => none
  | w :: ws => if w.bar = v.bar ∧ w.kind = v.kind then ws.head? else after? v ws

def next? (lines : List (List Vertex)) (v : Vertex) : Option Vertex :=
  lines.findSome? (after? v)

def previous? (lines : List (List Vertex)) (v : Vertex) : Option Vertex :=
  lines.findSome? fun line => after? v line.reverse

/-- The other end of the left or right side. -/
def Kind.across : Kind → Kind
  | .topLeft => .bottomLeft
  | .topRight => .bottomRight
  | .bottomLeft => .topLeft
  | .bottomRight => .topRight

def across (lines : List (List Vertex)) (v : Vertex) : Vertex :=
  ((lines.findSome? fun line => line.find? fun w => w.bar = v.bar ∧ w.kind = v.kind.across)).getD v

def advance (lines : List (List Vertex)) (v : Vertex) : Vertex :=
  match v.kind with
  | .topLeft | .bottomRight => across lines v
  | .bottomLeft =>
    match previous? lines v with
    | some w => if w.kind = .topLeft then w else (next? lines v).getD (across lines v)
    | none => (next? lines v).getD (across lines v)
  | .topRight => ((next? lines v).or (previous? lines v)).getD (across lines v)

/-- The vertices that a walk of some length passes. -/
def walk (lines : List (List Vertex)) : Nat → Vertex → List Vertex
  | 0, _ => []
  | n + 1, v => v :: walk lines n (advance lines v)

/-- The border, clockwise from the top left corner of the first bar, with each point once where it
repeats. -/
def trace (levels : List Level) : Checked (List Pos) := do
  let lines ← linesFrom [] 0 levels
  match lines.head?.bind (·.head?) with
  | none => return []
  | some start => return ((walk lines lines.flatten.length start).map (·.pos)).eraseReps

end Border

namespace Levels

/-- The bands of a block: the title, which reaches down over its connectors, and the persons, all
padded. -/
def ofBlock (padding arrows : Int) (b : Block) : Checked (List Level) := do
  let title ← b.title.rect.withHeight (← add b.title.rect.height arrows)
  let boxes ← (title :: b.persons.map (·.rect)).mapM fun r => do
    (← r.translate (← neg padding) 0).withWidth (← add r.width (← mul padding 2))
  match ← Level.ofBoxes boxes with
  | [] => return []
  | first :: rest => do
    let levels := (← first.growUp padding) :: rest
    return levels.dropLast ++ (← (levels.getLast?.toList).mapM (·.growDown padding))

def outline (padding arrows gap : Int) (b : Block) : Checked (List Pos) := do
  Border.trace (← Level.merge gap (← ofBlock padding arrows b))

end Levels

end Drawing

end Pedigree
