import Pedigree.Datum
import Pedigree.Keyed

/-! Tables while they are being filled. A table is filled under one header, or by keys with dots
from within one table; its values are never changed. -/
namespace Pedigree.Toml

/-- How a table came about. -/
inductive Origin where
  /-- By a longer header. -/
  | implied
  /-- By a key with dots. -/
  | dotted
  | header
  deriving DecidableEq, Repr

inductive Node where
  | value (d : Datum)
  | table (origin : Origin) (entries : List (String × Node))
  /-- Tables of one name, of which the last is still being filled. -/
  | series (closed : List Datum) (last : List (String × Node))
  deriving Inhabited

abbrev Entries := List (String × Node)

mutual

def Node.datum : Node → Datum
  | .value d => d
  | .table _ es => .table (entriesData es)
  | .series closed last => .list (closed ++ [.table (entriesData last)])

def entriesData : List (String × Node) → List (String × Datum)
  | [] => []
  | (k, n) :: es => (k, n.datum) :: entriesData es

end

namespace Entries

def set (es : Entries) (k : String) (n : Node) : Entries := Keyed.set es k n

/-- Changes the table at the end of a path, which leads into the last table of a series. -/
def changeAt (f : Entries → Option Entries) : List String → Entries → Option Entries
  | [], es => f es
  | k :: path, es => do
    match es.lookup k with
    | none => return set es k (.table .implied (← changeAt f path []))
    | some (.table o inner) => return set es k (.table o (← changeAt f path inner))
    | some (.series closed last) => return set es k (.series closed (← changeAt f path last))
    | some (.value _) => none

/-- The header of a table. -/
def openTable (k : String) (es : Entries) : Option Entries :=
  match es.lookup k with
  | none => some (set es k (.table .header []))
  | some (.table .implied inner) => some (set es k (.table .header inner))
  | _ => none

/-- The header of a table in a series. -/
def openNext (k : String) (es : Entries) : Option Entries :=
  match es.lookup k with
  | none => some (set es k (.series [] []))
  | some (.series closed last) =>
    some (set es k (.series (closed ++ [.table (entriesData last)]) []))
  | _ => none

/-- A value under a key with dots. It goes into a table that such keys fill: a new one or an
implied one, which no header takes up after that. The last table of a series may lie on the way
but not at its end. -/
def insert (d : Datum) (k : String) : List String → Entries → Option Entries
  | [], es => if (es.lookup k).isNone then some (set es k (.value d)) else none
  | p :: path, es => do
    match es.lookup p with
    | none => return set es p (.table .dotted (← insert d k path []))
    | some (.table .header _) | some (.value _) => none
    | some (.table _ inner) => return set es p (.table .dotted (← insert d k path inner))
    | some (.series closed last) =>
      if path.isEmpty then none
      else return set es p (.series closed (← insert d k path last))

end Entries

end Pedigree.Toml
