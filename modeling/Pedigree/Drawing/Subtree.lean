import Pedigree.Drawing.Tidy
import Pedigree.Geometry
import Pedigree.Kinship
import Pedigree.Settings

/-! The boxes of a root and everyone below. For sizing, partners hang under each other and the
children of a union under its last partner; the drawing lists partners and children side by
side. -/
namespace Pedigree

open Checked

namespace Drawing

structure Person where
  rect : Rect
  name : String
  /-- Whether the person is a partner of the one above. -/
  partner : Bool
  member : Option Id
  children : List Person

namespace Person

mutual

/-- The person and everyone below, parents first. -/
def walk : Person → List Person
  | ⟨rect, name, partner, member, children⟩ =>
    ⟨rect, name, partner, member, children⟩ :: walkAll children

def walkAll : List Person → List Person
  | [] => []
  | p :: ps => walk p ++ walkAll ps

end

mutual

def translate (dx dy : Int) : Person → Checked Person
  | ⟨rect, name, partner, member, children⟩ =>
    return ⟨← rect.translate dx dy, name, partner, member, ← translateAll dx dy children⟩

def translateAll (dx dy : Int) : List Person → Checked (List Person)
  | [] => return []
  | p :: ps => return (← translate dx dy p) :: (← translateAll dx dy ps)

end

end Person

structure Root where
  rect : Rect
  person : Person

/-- Moves a root and everyone below so that its box starts at a point. -/
def Root.place (r : Root) (x y : Int) : Checked Root := do
  let dx ← sub x r.rect.x
  let dy ← sub y r.rect.y
  return ⟨← r.rect.translate dx dy, ← r.person.translate dx dy⟩

end Drawing

namespace Subtree

open Drawing

variable {S : Type} [Scalar S]

/-- Under the first of some nodes hangs the second, and so on; under the last hang the rest. -/
def chain (partners below : List (Tidy.Node S Nat)) : List (Tidy.Node S Nat) :=
  partners.foldr (fun partner below => [partner.append below]) below

mutual

def sizing (style : Style S) (ratio : S) : Branch → Tidy.Node S Nat
  | .node index label _ bonds =>
    .make index (style.nodeWidth ratio label.length) style.nodeHeight
      (sizingBonds style ratio bonds)

def sizingBonds (style : Style S) (ratio : S) : List Bond → List (Tidy.Node S Nat)
  | [] => []
  | ⟨partners, children⟩ :: bonds =>
    chain (sizingAll style ratio partners) (sizingAll style ratio children) ++
      sizingBonds style ratio bonds

def sizingAll (style : Style S) (ratio : S) : List Branch → List (Tidy.Node S Nat)
  | [] => []
  | b :: bs => sizing style ratio b :: sizingAll style ratio bs

end

/-- The box that a node leaves for the person, without margins. -/
def boxOf (style : Style S) (n : Tidy.Node S Nat) : Checked Rect :=
  Rect.make (Scalar.round (n.x - Scalar.half n.width + style.marginX)) (Scalar.round n.y)
    (max (Scalar.round (n.width - Scalar.double style.marginX)) 0)
    (Scalar.round style.personHeight)

mutual

/-- The person of a branch with its boxes moved left. -/
def draw (boxes : List (Nat × Rect)) (left : Int) (partner : Bool) : Branch → Checked Person
  | .node index label member bonds => do
    let rect ← ((boxes.lookup index).getD default).translate (← neg left) 0
    return ⟨rect, label, partner, member, ← drawBonds boxes left bonds⟩

def drawBonds (boxes : List (Nat × Rect)) (left : Int) : List Bond → Checked (List Person)
  | [] => return []
  | ⟨partners, children⟩ :: bonds => return (← drawAll boxes left true partners) ++
      (← drawAll boxes left false children) ++ (← drawBonds boxes left bonds)

def drawAll (boxes : List (Nat × Rect)) (left : Int) (partner : Bool) :
    List Branch → Checked (List Person)
  | [] => return []
  | b :: bs => return (← draw boxes left partner b) :: (← drawAll boxes left partner bs)

end

/-- Lays out a branch, with its leftmost box at `x = 0` and the box of its root at `y = 0`. -/
def layout (style : Style S) (ratio : S) (branch : Branch) : Checked Root := do
  let nodes := (sizing style ratio branch).layout.walk
  let boxes ← nodes.mapM fun n => return (n.payload, ← boxOf style n)
  let rights ← boxes.mapM fun b => b.2.right
  let bottoms ← boxes.mapM fun b => b.2.bottom
  let left := (boxes.map fun b => b.2.x).min?.getD 0
  let right := rights.max?.getD 0
  let person ← draw boxes left false branch
  return ⟨← Rect.ofSize (← sub right left) (bottoms.foldl max 0), person⟩

end Subtree

end Pedigree
