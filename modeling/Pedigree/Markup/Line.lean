import Pedigree.Markup.Cursor
import Pedigree.Markup.Document

/-! The grammar of single lines. With persons separated by `+` on the left of `=` or `->` and by
`,` elsewhere, and blanks around every person, a line is

* a relation: `John + Mary = Bob, Alice Jones`, where the right side may be missing,
* a list of children, which may be numbered: `1. Bob, Kate`,
* or a family header: `Smith` or `Smith (Smyth, Smithe)`.

A reader that fails says where it stopped. What may be missing is read from its own start, and a
separator is only taken together with what follows it. -/
namespace Pedigree.Markup

namespace Line

def name (c : Cursor) : Except Cursor (String × Cursor) :=
  let word := c.rest.takeWhile CharClass.isName
  if word.isEmpty then .error c else .ok (String.ofList word, c.dropWhile CharClass.isName)

/-- The second word is taken only if it follows at least one blank. -/
def secondWord? (c : Cursor) : Option (String × Cursor) :=
  let d := c.skipBlanks
  if d = c then none else (name d).toOption

def wording (c : Cursor) : Except Cursor (Wording × Cursor) :=
  if c.rest.head? = some '?' then .ok (.unknown, c.drop 1)
  else do
    let (first, d) ← name c
    match secondWord? d with
    | some (second, e) => return (.words first (some second), e)
    | none => return (.words first none, d)

def person (c : Cursor) : Except Cursor (Mention × Cursor) := do
  let (w, d) ← wording c
  return (⟨c.spanTo d, w⟩, d)

/-- With blanks on both sides. -/
def spaced (item : Cursor → Except Cursor (α × Cursor)) (c : Cursor) :
    Except Cursor (α × Cursor) := do
  let (x, d) ← item c.skipBlanks
  return (x, d.skipBlanks)

/-- At most `fuel` items with separators between them. -/
def separatedUpTo (item : Cursor → Except Cursor (α × Cursor)) (separator : Char) :
    Nat → Cursor → Except Cursor (List α × Cursor)
  | 0, c => .error c
  | fuel + 1, c => do
    let (x, d) ← item c
    if d.rest.head? = some separator then
      match separatedUpTo item separator fuel (d.drop 1) with
      | .ok (xs, e) => return (x :: xs, e)
      | .error _ => return ([x], d)
    else return ([x], d)

/-- One or more items with separators between them. Each takes a character, so there are no more
items than characters. -/
def separated (item : Cursor → Except Cursor (α × Cursor)) (separator : Char) (c : Cursor) :
    Except Cursor (List α × Cursor) :=
  separatedUpTo item separator (c.rest.length + 1) c

def sources (c : Cursor) : Except Cursor (List Mention × Cursor) := separated (spaced person) '+' c

def targets (c : Cursor) : Except Cursor (List Mention × Cursor) := separated (spaced person) ',' c

/-- Whether the relation is a union. -/
def operator (c : Cursor) : Except Cursor (Bool × Cursor) :=
  match c.rest with
  | '-' :: '>' :: _ => .ok (false, c.drop 2)
  | '=' :: _ => .ok (true, c.drop 1)
  | _ => .error c

/-- The line has to end here. -/
def finish (x : α) (c : Cursor) : Except Cursor α :=
  if c.rest.isEmpty then .ok x else .error c

/-- Sources, whether they form a union, and targets, if there are any. -/
def relation (c : Cursor) : Except Cursor (List Mention × Bool × Option (List Mention)) := do
  let (ss, c) ← sources c
  let (isUnion, c) ← operator c
  match targets c with
  | .ok (ts, c) => finish (ss, isUnion, some ts) c.skipBlanks
  | .error _ => finish (ss, isUnion, none) c.skipBlanks

/-- Past digits and a point, if both are there. -/
def skipNumber (c : Cursor) : Cursor :=
  let d := c.dropWhile Char.isDigit
  if d ≠ c ∧ d.rest.head? = some '.' then d.drop 1 else c

def children (c : Cursor) : Except Cursor (List Mention) := do
  let (ts, c) ← targets (skipNumber c)
  finish ts c

def aliases (c : Cursor) : Except Cursor (List String × Cursor) := do
  if c.rest.head? ≠ some '(' then .error c
  else
    let (names, d) ← separated (spaced name) ',' (c.drop 1)
    if d.rest.head? = some ')' then return (names, d.drop 1) else .error d

/-- A surname and its other spellings. -/
def header (c : Cursor) : Except Cursor (String × List String) := do
  let (surname, c) ← name c
  match aliases c.skipBlanks with
  | .ok (others, c) => finish (surname, others) c.skipBlanks
  | .error _ => finish (surname, []) c.skipBlanks

end Line

end Pedigree.Markup
