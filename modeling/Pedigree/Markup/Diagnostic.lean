import Pedigree.Markup.Span

/-! What the reader reports about a source that it cannot read. -/
namespace Pedigree

namespace Diagnostic

/-- A remark on a span. A primary label marks the offending text, a secondary one adds context. -/
structure Label where
  span : Span
  message : String
  primary : Bool
  deriving DecidableEq, Repr

end Diagnostic

structure Diagnostic where
  message : String
  labels : List Diagnostic.Label
  help : Option String
  deriving DecidableEq, Repr

namespace Diagnostic

/-- The span of the first primary label. -/
def primary? (d : Diagnostic) : Option Span := (d.labels.find? (·.primary)).map (·.span)

def text (d : Diagnostic) : String :=
  "error: " ++ d.message ++ match d.primary? with
    | some s => " at " ++ s.text
    | none => ""

/-- Several diagnostics in one line: the first, and the number of the others. -/
def summary : List Diagnostic → String
  | [] => ""
  | [d] => d.text
  | d :: ds => d.text ++ " (+" ++ toString ds.length ++ " more)"

end Diagnostic

end Pedigree
