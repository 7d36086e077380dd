import Pedigree.Checked

/-! Whole-number points and boxes, with the origin in the top left corner and `y` growing
downwards. -/
namespace Pedigree

open Checked

/-- A point, or the way from one point to another. -/
structure Pos where
  x : Int
  y : Int
  deriving DecidableEq, Repr, Inhabited

namespace Pos

def translate (p : Pos) (dx dy : Int) : Checked Pos :=
  return ⟨← add p.x dx, ← add p.y dy⟩

def plus (p q : Pos) : Checked Pos := p.translate q.x q.y

def minus (p q : Pos) : Checked Pos := do
  p.translate (← neg q.x) (← neg q.y)

/-- The Manhattan length. -/
def length (p : Pos) : Nat := p.x.natAbs + p.y.natAbs

def absSum (p : Pos) : Checked Int := do
  add (← abs p.x) (← abs p.y)

def scale (p : Pos) (factor : Int) : Checked Pos :=
  return ⟨← mul p.x factor, ← mul p.y factor⟩

/-- The grid cell that holds the point, for cells of the given size. -/
def cell (p : Pos) (step : Int) : Checked Pos :=
  return ⟨← ediv p.x step, ← ediv p.y step⟩

/-- The order by `x` and then `y`. -/
def order (p q : Pos) : Ordering := (compare p.x q.x).then (compare p.y q.y)

@[simp] theorem value_translate (p : Pos) (dx dy : Int) :
    (p.translate dx dy).value = ⟨p.x + dx, p.y + dy⟩ := rfl

@[simp] theorem value_plus (p q : Pos) : (p.plus q).value = ⟨p.x + q.x, p.y + q.y⟩ := rfl

@[simp] theorem value_minus (p q : Pos) : (p.minus q).value = ⟨p.x - q.x, p.y - q.y⟩ := rfl

@[simp] theorem value_absSum (p : Pos) : p.absSum.value = p.length := by
  simp [absSum, length]

@[simp] theorem value_scale (p : Pos) (k : Int) : (p.scale k).value = ⟨p.x * k, p.y * k⟩ := rfl

@[simp] theorem value_cell (p : Pos) (s : Int) : (p.cell s).value = ⟨p.x / s, p.y / s⟩ := by
  simp [cell]

end Pos

inductive Corner where
  | topLeft
  | topMiddle
  | topRight
  | bottomLeft
  | bottomRight
  deriving DecidableEq, Repr, Inhabited

structure Rect where
  x : Int
  y : Int
  width : Int
  height : Int
  deriving DecidableEq, Repr, Inhabited

namespace Rect

/-- A box of a size that is not negative. -/
def make (x y width height : Int) : Checked Rect :=
  return ⟨x, y, ← size width, ← size height⟩

def ofSize (width height : Int) : Checked Rect := make 0 0 width height

def right (r : Rect) : Checked Int := add r.x r.width

def bottom (r : Rect) : Checked Int := add r.y r.height

def origin (r : Rect) : Pos := ⟨r.x, r.y⟩

/-- Half a width is rounded towards zero. -/
def corner (r : Rect) : Corner → Checked Pos
  | .topLeft => return ⟨r.x, r.y⟩
  | .topMiddle => return ⟨← add r.x (r.width.tdiv 2), r.y⟩
  | .topRight => return ⟨← r.right, r.y⟩
  | .bottomLeft => return ⟨r.x, ← r.bottom⟩
  | .bottomRight => return ⟨← r.right, ← r.bottom⟩

def translate (r : Rect) (dx dy : Int) : Checked Rect :=
  return { r with x := ← add r.x dx, y := ← add r.y dy }

def withOrigin (r : Rect) (p : Pos) : Rect := { r with x := p.x, y := p.y }

def withWidth (r : Rect) (width : Int) : Checked Rect :=
  return { r with width := ← size width }

def withHeight (r : Rect) (height : Int) : Checked Rect :=
  return { r with height := ← size height }

/-- Grows upwards and keeps the bottom edge in place. -/
def extendUp (r : Rect) (amount : Int) : Checked Rect :=
  return { r with y := ← sub r.y amount, height := ← add r.height amount }

@[simp] theorem value_make (x y w h : Int) : (make x y w h).value = ⟨x, y, w, h⟩ := rfl

@[simp] theorem value_right (r : Rect) : r.right.value = r.x + r.width := rfl

@[simp] theorem value_bottom (r : Rect) : r.bottom.value = r.y + r.height := rfl

@[simp] theorem value_translate (r : Rect) (dx dy : Int) :
    (r.translate dx dy).value = { r with x := r.x + dx, y := r.y + dy } := rfl

@[simp] theorem value_withWidth (r : Rect) (w : Int) :
    (r.withWidth w).value = { r with width := w } := rfl

@[simp] theorem value_withHeight (r : Rect) (h : Int) :
    (r.withHeight h).value = { r with height := h } := rfl

@[simp] theorem value_extendUp (r : Rect) (n : Int) :
    (r.extendUp n).value = { r with y := r.y - n, height := r.height + n } := rfl

end Rect

end Pedigree
