import Pedigree.Identity.Id

/-! Identities as symbols. Strings are interned once and for all, and an identity is the symbol of its
text: two of them are compared by their symbols, and a text is looked up to be shown or to become part
of a nested identity. -/
namespace Pedigree

/-- An interner: symbols for strings, and a table of those that have got one. -/
structure Interner where
  Table : Type
  Symbol : Type
  /-- The symbol that a string has got. -/
  symbol? : Table → String → Option Symbol
  /-- The symbol of a string, which gets one if it has none. -/
  intern : String → Table → Symbol × Table
  /-- The string that has got a symbol. -/
  resolve? : Table → Symbol → Option String

/-- A call that makes an identity. Earlier identities are told by the numbers of their calls. -/
inductive Call where
  | new (name : String)
  | nested (parent child : Nat)
  | member (family name : String)
  deriving DecidableEq, Repr

namespace Call

/-- The identity that a call makes after others, by its text. -/
def id? (made : List Id) : Call → Option Id
  | .new name => some ⟨name⟩
  | .nested i j => return .nested (← made[i]?) (← made[j]?)
  | .member family name => some (.member family name)

def next (made : List Id) (c : Call) : Option (List Id) := return made ++ [← c.id? made]

/-- The identities of some calls, if each tells only of earlier ones. -/
def ids (calls : List Call) : Option (List Id) := calls.foldlM next []

end Call

namespace Interner

variable (I : Interner)

/-- A step on the table, which fails at a symbol without a string. -/
abbrev Step (α : Type) := StateT I.Table Option α

def new (name : String) : I.Step I.Symbol := fun t => some (I.intern name t)

def text (k : I.Symbol) : I.Step String := fun t => (I.resolve? t k).map (·, t)

def nested (parent child : I.Symbol) : I.Step I.Symbol := do
  let p ← I.text parent
  let c ← I.text child
  I.new (p ++ "::" ++ c)

def member (family name : String) : I.Step I.Symbol := do
  let f ← I.new family
  let n ← I.new name
  I.nested f n

def call (made : List I.Symbol) : Call → I.Step I.Symbol
  | .new name => I.new name
  | .nested i j => do I.nested (← made[i]?) (← made[j]?)
  | .member family name => I.member family name

def next (made : List I.Symbol) (c : Call) : I.Step (List I.Symbol) :=
  return made ++ [← I.call made c]

/-- The symbols that calls make, one after the other. -/
def run (calls : List Call) : I.Step (List I.Symbol) := calls.foldlM I.next []

end Interner

end Pedigree
