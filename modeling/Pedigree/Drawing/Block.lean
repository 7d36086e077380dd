import Pedigree.Drawing.Subtree

/-! Family blocks. The roots of a family stand side by side below a centred title. Everything
inside a block is relative to the block; only its origin is global, set by stacking and changed by
packing. -/
namespace Pedigree

open Checked

namespace Drawing

structure Title where
  rect : Rect
  name : String
  deriving DecidableEq, Repr, Inhabited

structure Block where
  /-- Its origin is global. -/
  rect : Rect
  title : Title
  roots : List Root
  outline : List Pos

namespace Block

def origin (b : Block) : Pos := b.rect.origin

def moveTo (b : Block) (p : Pos) : Block := { b with rect := b.rect.withOrigin p }

/-- The persons of all roots, parents first. -/
def persons (b : Block) : List Person := b.roots.flatMap fun r => r.person.walk

/-- Places roots from left to right with gaps between them. -/
def placeRoots (top gap x : Int) : List Root → Checked (List Root)
  | [] => return []
  | r :: rs => do
    let r ← r.place x top
    let next ← add x (← add r.rect.width gap)
    return r :: (← placeRoots top gap next rs)

/-- Where the title starts, and how wide the block is. -/
def span (padding gap titleWidth : Int) (roots : List Root) : Checked (Int × Int) := do
  match roots.head?, roots.getLast? with
  | some first, some last =>
    let span ← sub (← last.rect.right) first.rect.x
    let widths ← sum (roots.map (·.rect.width))
    let gaps ← mul (roots.length - 1) gap
    let start ← sub (← add first.rect.x (span.tdiv 2)) (titleWidth.tdiv 2)
    return (start, ← add (← add (← mul padding 2) widths) gaps)
  | _, _ => return (padding, ← add (← mul padding 2) titleWidth)

variable {S : Type} [Scalar S]

/-- Puts a title over roots. The block is at the origin and has no outline yet. -/
def compose (style : Style S) (ratio : S) (label : String) (roots : List Root) :
    Checked Block := do
  let top ← style.rootsTop
  let roots ← placeRoots top style.gap style.padding roots
  let height := (roots.map (·.rect.height)).foldl max 0
  let titleWidth := style.titleWidth ratio label.length
  let (titleX, width) ← span style.padding style.gap titleWidth roots
  let title ← Rect.make titleX style.padding titleWidth style.titleHeight
  let rect ← Rect.ofSize width (← add (← add top height) style.padding)
  return ⟨rect, ⟨title, label⟩, roots, []⟩

/-- Stacks blocks from top to bottom, starting at a given `y`. -/
def stackFrom (y : Int) : List Block → Checked (List Block)
  | [] => return []
  | b :: bs => do
    let next ← add y b.rect.height
    return b.moveTo ⟨0, y⟩ :: (← stackFrom next bs)

def stack (blocks : List Block) : Checked (List Block) := stackFrom 0 blocks

end Block

end Drawing

end Pedigree
