import Pedigree.Drawing.Block
import Pedigree.Drawing.Sorting

/-! Which blocks belong together. A person who stands below a root of one block and is a root of
another one links the two. -/
namespace Pedigree

open Drawing

/-- Someone below a root of `anchor` who is a root of `family`. -/
structure Link where
  anchor : Nat
  family : Nat
  /-- The person in the anchor. -/
  person : Rect
  /-- The root in the other family. -/
  root : Rect
  deriving DecidableEq, Repr, Inhabited

namespace Link

/-- The members that are roots, in order, with their blocks and boxes. -/
def roots (blocks : List Block) : List (Id × Nat × Rect) :=
  blocks.zipIdx.flatMap fun (b, i) => b.roots.filterMap fun r =>
    r.person.member.map fun m => (m, i, r.person.rect)

/-- Everyone below the roots of a block who is no partner, parents first. -/
def descendants (b : Block) : List Person :=
  b.roots.flatMap fun r => (Person.walkAll r.person.children).filter (!·.partner)

/-- The link that a person of a block makes, if any. -/
def ofPerson? (roots : List (Id × Nat × Rect)) (anchor : Nat) (p : Person) : Option Link := do
  let (family, root) ← roots.lookup (← p.member)
  if family = anchor then none else some ⟨anchor, family, p.rect, root⟩

/-- All links of a block, by the place of the person: from top to bottom, then from left to
right. -/
def candidates (roots : List (Id × Nat × Rect)) (b : Block) (anchor : Nat) : List Link :=
  sortBy (·.person.y) (sortBy (·.person.x) ((descendants b).filterMap (ofPerson? roots anchor)))

/-- Whether two links join the same two blocks. -/
def samePair (l k : Link) : Bool :=
  (l.anchor == k.anchor && l.family == k.family) || (l.anchor == k.family && l.family == k.anchor)

/-- The first link of each pair of blocks; `taken` are those found before, latest first. -/
def firstOfPairs (taken : List Link) : List Link → List Link
  | [] => []
  | l :: ls =>
    if taken.any (samePair l) then firstOfPairs taken ls
    else l :: firstOfPairs (l :: taken) ls

/-- One link for each pair of linked blocks, by the anchor. -/
def find (blocks : List Block) : List Link :=
  let roots := roots blocks
  firstOfPairs [] (blocks.zipIdx.flatMap fun (b, i) => candidates roots b i)

end Link

end Pedigree
