import Pedigree.Datum
import Pedigree.Settings

/-! Settings written as plain data. A field that is missing has its default, a field that is
unknown is ignored, and a field of the wrong type makes the whole unreadable. -/
namespace Pedigree

namespace Datum

def asOutline? (c : Convention) : Datum → Option OutlineKind
  | .text "edges" => some .edges
  | .text "levels" => some .levels
  | .table [("edges", d)] => if c.isUnit d then some .edges else none
  | .table [("levels", d)] => if c.isUnit d then some .levels else none
  | _ => none

def asStyle? (c : Convention) (d : Datum) : Option (Style Binary32) := do
  let base : Style Binary32 := default
  let entries ← c.fields? ["family_title_size", "family_padding", "family_gap",
    "person_name_size", "person_height", "person_padding_x", "person_margin_x", "arrows_height",
    "grid_step"] d
  return {
    titleSize := ← field entries "family_title_size" asFloat? base.titleSize
    padding := ← field entries "family_padding" asInt? base.padding
    gap := ← field entries "family_gap" asInt? base.gap
    nameSize := ← field entries "person_name_size" asFloat? base.nameSize
    personHeight := ← field entries "person_height" asFloat? base.personHeight
    paddingX := ← field entries "person_padding_x" asFloat? base.paddingX
    marginX := ← field entries "person_margin_x" asFloat? base.marginX
    arrows := ← field entries "arrows_height" asInt? base.arrows
    gridStep := ← field entries "grid_step" asInt? base.gridStep }

/-- The choices of layout, in settings with a default style. -/
def asLayout? (c : Convention) (d : Datum) : Option (Settings Binary32) := do
  let base : Settings Binary32 := default
  let entries ← c.fields? ["font_ratio", "outline", "pack"] d
  return { base with
    fontRatio := ← field entries "font_ratio" asFloat? base.fontRatio
    outline := ← field entries "outline" (asOutline? c) base.outline
    pack := ← field entries "pack" asBool? base.pack }

def asSettings? (c : Convention) (d : Datum) : Option (Settings Binary32) := do
  let entries ← c.fields? ["layout", "style"] d
  let layout ← field entries "layout" (asLayout? c) default
  return { layout with style := ← field entries "style" (asStyle? c) layout.style }

end Datum

end Pedigree
