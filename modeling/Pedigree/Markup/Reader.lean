import Pedigree.Markup.Diagnostic
import Pedigree.Markup.Line

/-! Reading a document line by line. A relation without targets collects children from the lines
below it, up to a blank line, a relation or the end; every other line that is no relation opens a
family. A malformed line is reported and reading goes on. -/
namespace Pedigree.Markup

/-- The lines of a text, each with the offset at which it starts. -/
def linesFrom (offset : Nat) : List Char → List Cursor
  | [] => [⟨offset, []⟩]
  | c :: cs =>
    if c = '\n' then ⟨offset, []⟩ :: linesFrom (offset + 1) cs
    else
      match linesFrom (offset + c.utf8Size) cs with
      | line :: lines => ⟨offset, c :: line.rest⟩ :: lines
      | [] => [⟨offset, [c]⟩]

/-- What stands before a comment. -/
def beforeComment : List Char → List Char
  | [] => []
  | '/' :: '/' :: _ => []
  | c :: cs => c :: beforeComment cs

def trimRight (cs : List Char) : List Char := (cs.reverse.dropWhile CharClass.isSpace).reverse

/-- What a line says: no comment, and no white space at its ends. -/
def content (line : Cursor) : Cursor :=
  let c := Cursor.dropWhile ⟨line.offset, beforeComment line.rest⟩ CharClass.isSpace
  ⟨c.offset, trimRight c.rest⟩

def contents (source : String) : List Cursor := (linesFrom 0 source.toList).map content

/-- Lines with an operator are relations, well-formed or not. -/
def isRelation : List Char → Bool
  | [] => false
  | '=' :: _ => true
  | '-' :: '>' :: _ => true
  | _ :: cs => isRelation cs

def relationHelp : String := "relations are written `Father + Mother = Child, Child`"
def childHelp : String := "list one child per line, optionally numbered: `1. Bob`"
def headerHelp : String := "a family starts with a line holding only its surname"

/-- The part of a line from where reading stopped. -/
def malformed (content stopped : Cursor) (message help : String) : Diagnostic :=
  let label := if stopped.rest.isEmpty then "line ends too early" else "unexpected text"
  ⟨message, [⟨stopped.spanTo ⟨content.stop, []⟩, label, true⟩], some help⟩

def outsideFamily (content : Cursor) : Diagnostic :=
  ⟨"relation outside of a family",
    [⟨content.spanTo ⟨content.stop, []⟩, "this relation", true⟩], some headerHelp⟩

/-- What has been read. Families, their relations and diagnostics stand latest first, so that the
relation that collects children is the first one of the first family. -/
structure Progress where
  families : List Family
  diagnostics : List Diagnostic
  collecting : Bool
  deriving Repr, Inhabited

namespace Progress

def start : Progress := ⟨[], [], false⟩

def report (p : Progress) (d : Diagnostic) : Progress :=
  { p with diagnostics := d :: p.diagnostics }

/-- Adds children to the latest relation. -/
def adopt (span : Span) (children : List Mention) : List Family → List Family
  | [] => []
  | f :: fs =>
    match f.relations with
    | [] => f :: fs
    | r :: rs =>
      let r := { r with span := r.span.union span, targets := r.targets ++ children }
      { f with relations := r :: rs } :: fs

def readRelation (p : Progress) (c : Cursor) (span : Span) : Progress :=
  match p.families with
  | [] => { p with collecting := false }.report (outsideFamily c)
  | f :: fs =>
    match Line.relation c with
    | .ok (sources, isUnion, targets) =>
      let relation := ⟨span, sources, targets.getD [], isUnion⟩
      { p with
        families := { f with relations := relation :: f.relations } :: fs
        collecting := targets.isNone }
    | .error stopped =>
      { p with collecting := false }.report (malformed c stopped "invalid relation" relationHelp)

def readChildren (p : Progress) (c : Cursor) (span : Span) : Progress :=
  match Line.children c with
  | .ok children => { p with families := adopt span children p.families }
  | .error stopped => p.report (malformed c stopped "invalid child list" childHelp)

def readHeader (p : Progress) (c : Cursor) (span : Span) : Progress :=
  match Line.header c with
  | .ok (name, aliases) => { p with families := ⟨span, name, aliases, []⟩ :: p.families }
  | .error stopped =>
    p.report (malformed c stopped "expected a family name or a relation" headerHelp)

/-- Reads the content of one line. -/
def step (p : Progress) (c : Cursor) : Progress :=
  let span := c.spanTo ⟨c.stop, []⟩
  if c.rest.isEmpty then { p with collecting := false }
  else if isRelation c.rest then p.readRelation c span
  else if p.collecting then p.readChildren c span
  else p.readHeader c span

/-- The document in the order of the source, or what is wrong with it. -/
def finish (p : Progress) : Except (List Diagnostic) Document :=
  if p.diagnostics.isEmpty then
    .ok (p.families.reverse.map fun f => { f with relations := f.relations.reverse })
  else .error p.diagnostics.reverse

end Progress

def read (source : String) : Except (List Diagnostic) Document :=
  ((contents source).foldl Progress.step .start).finish

end Pedigree.Markup
