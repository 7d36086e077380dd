import Pedigree.Checked
import Pedigree.Number.Binary32

/-! Plain data, as configuration formats hold it. -/
namespace Pedigree

inductive Datum where
  | null
  | bool (b : Bool)
  | integer (n : Int)
  | float (x : Binary32)
  | text (s : String)
  /-- A date or a time. -/
  | moment
  /-- A numeral beyond the range of its kind. -/
  | outOfRange
  | list (items : List Datum)
  | table (entries : List (String × Datum))
  deriving Inhabited

namespace Datum

def asBool? : Datum → Option Bool
  | .bool b => some b
  | _ => none

/-- A whole number of 32 bits. -/
def asInt? : Datum → Option Int
  | .integer n => if Checked.inRange n then some n else none
  | _ => none

/-- Any number; a whole one has to fit into 64 bits, with or without a sign. -/
def asFloat? : Datum → Option Binary32
  | .integer n => if -Nat.pow 2 63 ≤ n ∧ n < Nat.pow 2 64 then some (.ofInt n) else none
  | .float x => some x
  | _ => none

def isNull : Datum → Bool
  | .null => true
  | _ => false

/-- A list without items or a table without entries. -/
def isEmpty : Datum → Bool
  | .list [] | .table [] => true
  | _ => false

mutual

/-- Whether all numerals in it have values. -/
def isSound : Datum → Bool
  | .outOfRange => false
  | .list items => areSound items
  | .table entries => entriesSound entries
  | _ => true

def areSound : List Datum → Bool
  | [] => true
  | d :: ds => d.isSound && areSound ds

def entriesSound : List (String × Datum) → Bool
  | [] => true
  | (_, d) :: es => d.isSound && entriesSound es

end

/-- What formats of data settle differently. -/
structure Convention where
  /-- Whether a list may go on after the fields of its record. -/
  surplus : Bool
  /-- What a case without content has beside its name. -/
  isUnit : Datum → Bool

namespace Convention

def json : Convention := ⟨false, isNull⟩

def toml : Convention := ⟨true, isEmpty⟩

/-- The fields of a record by name. A list gives the first of them in order, a date or time
none. Entries of a table that are no fields still have to be sound, items after the last field
need not be. -/
def fields? (c : Convention) (names : List String) : Datum → Option (List (String × Datum))
  | .table entries =>
    if entries.all fun e => names.contains e.1 || e.2.isSound then some entries else none
  | .moment => some []
  | .list items =>
    if c.surplus || items.length ≤ names.length then some (names.zip items) else none
  | _ => none

end Convention

/-- A field, or its default if it is missing. -/
def field (entries : List (String × Datum)) (name : String) (read : Datum → Option α)
    (default : α) : Option α :=
  match entries.lookup name with
  | some d => read d
  | none => some default

end Datum

end Pedigree
