import Pedigree.Markup.Span

/-! The tree of a document as it is written, before anyone knows who is meant. -/
namespace Pedigree.Markup

/-- A question mark, or one or two words. -/
inductive Wording where
  | unknown
  | words (first : String) (second : Option String)
  deriving DecidableEq, Repr, Inhabited

/-- A person as written in a relation. -/
structure Mention where
  span : Span
  wording : Wording
  deriving DecidableEq, Repr

inductive Role where
  | source
  | target
  deriving DecidableEq, Repr

namespace Mention

/-- Of two words the given name is the second in a source (`Smith Alice`) and the first in a
target (`Alice Jones`). -/
def givenName? (m : Mention) (role : Role) : Option String :=
  match m.wording, role with
  | .unknown, _ => none
  | .words first second, .source => some (second.getD first)
  | .words first _, .target => some first

/-- The other family that two words name. -/
def surname? (m : Mention) (role : Role) : Option String :=
  match m.wording, role with
  | .unknown, _ => none
  | .words _ none, _ => none
  | .words first (some _), .source => some first
  | .words _ (some second), .target => some second

/-- The text that a drawing shows. -/
def shown (m : Mention) (role : Role) : String := (m.givenName? role).getD "?"

end Mention

structure Relation where
  span : Span
  sources : List Mention
  targets : List Mention
  isUnion : Bool
  deriving DecidableEq, Repr

/-- The part of a document under one surname. -/
structure Family where
  span : Span
  name : String
  aliases : List String
  relations : List Relation
  deriving DecidableEq, Repr

abbrev Document := List Family

end Pedigree.Markup
