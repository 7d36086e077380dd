import Pedigree.Packing.Region

/-! Where to move a set of cells. Offsets are tried ring by ring, a ring holding all offsets of
one Manhattan length. -/
namespace Pedigree

namespace Packing

/-- The offsets of a Manhattan length, by `x` and then `y`. -/
def ring (r : Nat) : List Pos :=
  (List.range (2 * r + 1)).flatMap fun i : Nat =>
    let x : Int := i - r
    let rest : Int := r - x.natAbs
    if 0 < rest then [⟨x, -rest⟩, ⟨x, rest⟩] else [⟨x, 0⟩]

/-- Whether the moved cells miss the blocked ones. -/
def fits (blocked moving : Region) (offset : Pos) : Bool := !(moving.shift offset).meets blocked

/-- How far an offset leaves from a goal. -/
def left (goal offset : Pos) : Nat := Pos.length ⟨goal.x - offset.x, goal.y - offset.y⟩

/-- An offset, if any, and how far it leaves; an offset that leaves less takes over. -/
def improve (blocked moving : Region) (goal : Pos) (best : Option Pos × Nat) (offset : Pos) :
    Option Pos × Nat :=
  if left goal offset < best.2 && fits blocked moving offset then (some offset, left goal offset)
  else best

/-- Among the offsets that fit and are no longer than the goal, the first of those that leave
least, unless it leaves more than staying. -/
def bestWithin (blocked moving : Region) (goal : Pos) : Option Pos :=
  ((List.range (goal.length + 1)).foldl
    (fun best r => (ring r).foldl (improve blocked moving goal) best)
    (none, goal.length + 1)).1

/-- A length at which the moved cells stand right of all blocked ones. -/
def escape (blocked moving : Region) : Nat :=
  (((blocked.map (·.right)).max?.getD 0) - ((moving.map (·.left)).min?.getD 0)).toNat

/-- The first offset that fits among those longer than the given length; there is one no later
than at the length of the escape. -/
def firstBeyond (blocked moving : Region) (length : Nat) : Pos :=
  ((List.range' (length + 1) (escape blocked moving + 1)).findSome? fun r =>
    (ring r).find? (fits blocked moving)).getD default

/-- The offset that brings moving cells closest to a goal. -/
def searchOffset (blocked moving : Region) (goal : Pos) : Pos :=
  (bestWithin blocked moving goal).getD (firstBeyond blocked moving goal.length)

end Packing

end Pedigree
