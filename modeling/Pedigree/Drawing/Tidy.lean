import Pedigree.Number.Scalar

/-! Centred layout of trees. A parent stands over the middle between its first and its last child,
a child starts where its parent ends, and subtrees are moved right until no two of them overlap at
any depth. For that, subtrees are compared by their contours. -/
namespace Pedigree

namespace Tidy

/-- A box with the boxes below it; `x` is its centre, `y` its top and `offset` the distance from
the centre of its parent. -/
structure Node (S α : Type) where
  payload : α
  width : S
  height : S
  x : S
  y : S
  offset : S
  children : List (Node S α)
  deriving Inhabited

/-- How far a subtree reaches to both sides of its root, at each depth. -/
abbrev Contour (S : Type) := List (S × S)

variable {S α : Type} [Scalar S]

namespace Node

def make (payload : α) (width height : S) (children : List (Node S α)) : Node S α :=
  ⟨payload, width, height, Scalar.zero, Scalar.zero, Scalar.zero, children⟩

/-- Adds children on the right. -/
def append (n : Node S α) (children : List (Node S α)) : Node S α :=
  { n with children := n.children ++ children }

mutual

/-- The node and everyone below, parents first. -/
def walk : Node S α → List (Node S α)
  | ⟨p, w, h, x, y, o, children⟩ => ⟨p, w, h, x, y, o, children⟩ :: walkAll children

def walkAll : List (Node S α) → List (Node S α)
  | [] => []
  | n :: ns => walk n ++ walkAll ns

end

end Node

/-- How far a subtree has to move to stand right of others. -/
def clearance (others contour : Contour S) : S :=
  if others.isEmpty then Scalar.zero
  else Scalar.greatest (List.zipWith (fun o c => o.2 - c.1) others contour)

def Contour.shift (by_ : S) (c : Contour S) : Contour S := c.map fun e => (e.1 + by_, e.2 + by_)

/-- The contour around two. -/
def Contour.join : Contour S → Contour S → Contour S
  | [], ds => ds
  | cs, [] => cs
  | c :: cs, d :: ds => (min c.1 d.1, max c.2 d.2) :: Contour.join cs ds

def offsetOf (n : Option (Node S α)) : S := (n.map (·.offset)).getD Scalar.zero

/-- The middle between the first and the last of some nodes. -/
def middle (ns : List (Node S α)) : S :=
  Scalar.half (offsetOf ns.head? + offsetOf ns.getLast?)

mutual

/-- Sets the offsets below a node and gives its contour. -/
def arrange : Node S α → Node S α × Contour S
  | ⟨payload, width, height, x, y, offset, children⟩ =>
    let half := Scalar.half width
    let (children, merged) := arrangeAll [] children
    let mid := middle children
    (⟨payload, width, height, x, y, offset,
      children.map fun c => { c with offset := c.offset - mid }⟩,
      (-half, half) :: merged.map fun e => (e.1 - mid, e.2 - mid))

/-- Arranges siblings to the right of a contour; offsets are relative to the first sibling of
all. -/
def arrangeAll (others : Contour S) : List (Node S α) → List (Node S α) × Contour S
  | [] => ([], others)
  | n :: ns =>
    let (n, contour) := arrange n
    let shift := clearance others contour
    let (ns, merged) := arrangeAll (Contour.join others (Contour.shift shift contour)) ns
    ({ n with offset := shift } :: ns, merged)

end

mutual

/-- Turns offsets into places. -/
def place (x y : S) : Node S α → Node S α
  | ⟨payload, width, height, _, _, offset, children⟩ =>
    ⟨payload, width, height, x, y, offset, placeAll x (y + height) children⟩

def placeAll (x y : S) : List (Node S α) → List (Node S α)
  | [] => []
  | n :: ns => place (x + n.offset) y n :: placeAll x y ns

end

/-- Lays a tree out with the centre of its root at the origin. -/
def Node.layout (n : Node S α) : Node S α := place Scalar.zero Scalar.zero (arrange n).1

end Tidy

end Pedigree
