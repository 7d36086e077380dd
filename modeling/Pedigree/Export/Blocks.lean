import Pedigree.Drawing.Block
import Pedigree.Export.Json

/-! Drawings as JSON. A box is written as its place and size, in front of what else is known of
what it holds. -/
namespace Pedigree.Export

open Drawing

def box (r : Rect) : List (String × Json) :=
  [("x", .number r.x), ("y", .number r.y), ("width", .number r.width),
    ("height", .number r.height)]

def point (p : Pos) : Json := .object [("x", .number p.x), ("y", .number p.y)]

mutual

/-- Only partners are marked as such. -/
def person : Person → Json
  | ⟨rect, name, partner, _, children⟩ =>
    .object (box rect ++ [("name", .text name)] ++
      (if partner then [("partner", .bool true)] else []) ++
      [("children", .list (persons children))])

def persons : List Person → List Json
  | [] => []
  | p :: ps => person p :: persons ps

end

def title (t : Title) : Json := .object (box t.rect ++ [("name", .text t.name)])

def root (r : Root) : Json := .object (box r.rect ++ [("person", person r.person)])

def block (b : Block) : Json :=
  .object (box b.rect ++ [("title", title b.title), ("roots", .list (b.roots.map root)),
    ("bounding", .list (b.outline.map point))])

def blocks (bs : List Block) : Json := .list (bs.map block)

end Pedigree.Export
