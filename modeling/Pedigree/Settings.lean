import Pedigree.Checked
import Pedigree.Number.Binary32

/-! The sizes that a drawing is made with and the choices that it leaves open. -/
namespace Pedigree

open Checked

/-- Sizes of a drawing. Text is as wide as its number of characters times its font size times the
font ratio, which belongs to the request. -/
structure Style (S : Type) where
  titleSize : S
  /-- Around a family block. -/
  padding : Int
  /-- Between the subtrees of a family. -/
  gap : Int
  nameSize : S
  personHeight : S
  /-- On each side of a name, inside its box. -/
  paddingX : S
  /-- On each side of a box. -/
  marginX : S
  /-- Above each generation, for connectors. -/
  arrows : Int
  /-- The size of a cell of the packing grid. -/
  gridStep : Int
  deriving DecidableEq

namespace Style

variable {S : Type} [Scalar S]

instance : Inhabited (Style S) where
  default := {
    titleSize := Scalar.ofInt 16
    padding := 10
    gap := 15
    nameSize := Scalar.ofInt 12
    personHeight := Scalar.ofInt 30
    paddingX := Scalar.ofInt 20
    marginX := Scalar.ofInt 10
    arrows := 25
    gridStep := 30 }

def titleHeight (s : Style S) : Int := Scalar.trunc s.titleSize

def titleWidth (s : Style S) (ratio : S) (chars : Nat) : Int :=
  Scalar.trunc (Scalar.ofInt chars * s.titleSize * ratio)

/-- The width that a person takes in a row, margins included. -/
def nodeWidth (s : Style S) (ratio : S) (chars : Nat) : S :=
  Scalar.ofInt chars * s.nameSize * ratio + Scalar.double s.paddingX + Scalar.double s.marginX

/-- The height of a generation, connectors included. -/
def nodeHeight (s : Style S) : S := s.personHeight + Scalar.ofInt s.arrows

/-- Where the first generation of a block starts. -/
def rootsTop (s : Style S) : Checked Int := do
  add (← add s.padding s.titleHeight) s.arrows

end Style

/-- How the outline of a block is drawn. -/
inductive OutlineKind where
  /-- Along the outermost boxes of every generation. -/
  | edges
  /-- Around every box. -/
  | levels
  deriving DecidableEq, Repr, Inhabited

def OutlineKind.name : OutlineKind → String
  | .edges => "edges"
  | .levels => "levels"

structure Settings (S : Type) where
  fontRatio : S
  outline : OutlineKind
  /-- Whether families that share a person are moved next to each other. -/
  pack : Bool
  style : Style S
  deriving DecidableEq

instance [Scalar S] : Inhabited (Settings S) := ⟨⟨Scalar.ofInt 1, .edges, true, default⟩⟩

/-- Whether two settings have equal entries, as numbers. -/
def Settings.same (a b : Settings Binary32) : Bool :=
  a.fontRatio.same b.fontRatio && a.outline == b.outline && a.pack == b.pack &&
    a.style.titleSize.same b.style.titleSize && a.style.padding == b.style.padding &&
    a.style.gap == b.style.gap && a.style.nameSize.same b.style.nameSize &&
    a.style.personHeight.same b.style.personHeight && a.style.paddingX.same b.style.paddingX &&
    a.style.marginX.same b.style.marginX && a.style.arrows == b.style.arrows &&
    a.style.gridStep == b.style.gridStep

end Pedigree
