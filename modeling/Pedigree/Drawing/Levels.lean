import Pedigree.Drawing.Sorting
import Pedigree.Geometry

/-! Bands of boxes. Narrow gaps are closed inside a band, and a gap is narrowed by what lies below
it, so that the corners of all bands form one border. -/
namespace Pedigree

open Checked

namespace Drawing

/-- A box of a band; its height is that of the band. -/
structure Bar where
  x : Int
  width : Int
  deriving DecidableEq, Repr, Inhabited

namespace Bar

def make (x width : Int) : Checked Bar := return ⟨x, ← size width⟩

def right (b : Bar) : Checked Int := add b.x b.width

/-- Moves the right edge. -/
def reach (b : Bar) (right : Int) : Checked Bar :=
  return { b with width := ← size (← sub right b.x) }

/-- Moves the left edge. -/
def startAt (b : Bar) (x : Int) : Checked Bar := do
  let width ← sub (← b.right) x
  return ⟨x, ← size width⟩

@[simp] theorem value_right (b : Bar) : b.right.value = b.x + b.width := rfl

@[simp] theorem value_reach (b : Bar) (r : Int) : (b.reach r).value = ⟨b.x, r - b.x⟩ := rfl

@[simp] theorem value_startAt (b : Bar) (x : Int) :
    (b.startAt x).value = ⟨x, b.x + b.width - x⟩ := rfl

end Bar

structure Level where
  y : Int
  height : Int
  bars : List Bar
  deriving DecidableEq, Repr, Inhabited

namespace Level

def growUp (l : Level) (amount : Int) : Checked Level :=
  return { l with y := ← sub l.y amount, height := ← add l.height amount }

def growDown (l : Level) (amount : Int) : Checked Level :=
  return { l with height := ← add l.height amount }

/-- Makes each level reach down to the next. -/
def touch : List Level → Checked (List Level)
  | [] => return []
  | [l] => return [l]
  | l :: next :: rest =>
    return { l with height := ← sub next.y l.y } :: (← touch (next :: rest))

/-- Boxes with equal tops form a level. The last level is as high as its first box. -/
def ofBoxes (boxes : List Rect) : Checked (List Level) :=
  touch ((groupsBy (·.y) boxes).map fun (y, group) =>
    ⟨y, (group.head?.map (·.height)).getD 0, group.map fun r => ⟨r.x, r.width⟩⟩)

/-- Joins a bar with those after it that are closer than a gap. -/
def closeFrom (gap : Int) (last : Bar) : List Bar → Checked (List Bar)
  | [] => return [last]
  | bar :: bars => do
    if (← sub bar.x (← last.right)) < gap then
      let last ← last.reach (max (← last.right) (← bar.right))
      closeFrom gap last bars
    else
      return last :: (← closeFrom gap bar bars)

/-- Sorts the bars of a level and closes its narrow gaps. -/
def close (gap : Int) (l : Level) : Checked Level := do
  match sortBy (·.x) l.bars with
  | [] => return l
  | bar :: bars => return { l with bars := ← closeFrom gap bar bars }

/-- What is left of the gap from `start` to `stop` between the bars below it. -/
def openGap (start stop : Int) : List Bar → Checked (Int × Int)
  | [] => return (start, stop)
  | bar :: bars => do
    let right ← bar.right
    if stop ≤ bar.x then return (start, stop)
    else if right ≤ start then openGap start stop bars
    else if bar.x ≤ start && stop ≤ right then return (stop, stop)
    else
      let stop := if start ≤ bar.x then bar.x else stop
      let start := if right ≤ stop then right else start
      openGap start stop bars

/-- Narrows the gaps after a bar by the bars below, and closes those that get narrow. -/
def settleFrom (gap : Int) (below : List Bar) (last : Bar) : List Bar → Checked (List Bar)
  | [] => return [last]
  | bar :: bars => do
    let right ← last.right
    let (start, stop) ← openGap right bar.x below
    if (← sub stop start) < gap then
      let last ← last.reach (← bar.right)
      settleFrom gap below last bars
    else
      let last ← if start = right then pure last else last.reach start
      let bar ← if stop = bar.x then pure bar else bar.startAt stop
      return last :: (← settleFrom gap below bar bars)

def settle (gap : Int) (below : List Bar) (l : Level) : Checked Level := do
  match l.bars with
  | [] => return l
  | bar :: bars => return { l with bars := ← settleFrom gap below bar bars }

/-- Settles each level on the one below it, from the lowest upwards. -/
def settleAll (gap : Int) : List Level → Checked (List Level)
  | [] => return []
  | l :: rest => do
    match ← settleAll gap rest with
    | [] => return [l]
    | below :: rest => return (← l.settle gap below.bars) :: below :: rest

/-- Closes all gaps narrower than the given one. -/
def merge (gap : Int) (levels : List Level) : Checked (List Level) := do
  settleAll gap (← levels.mapM (close gap))

end Level

end Drawing

end Pedigree
