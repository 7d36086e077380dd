import Pedigree.Settings.Datum
import Pedigree.Toml.Scalar
import Pedigree.Toml.Table

/-! Documents: keys with values, under the headers of the tables that they belong to. -/
namespace Pedigree.Toml

def isBareKey (c : Char) : Bool := c.isAlphanum || c = '_' || c = '-'

def keyPart : Scan String := do
  let cs ← Scan.takeWhile isBareKey
  if cs.isEmpty then lineText else pure (String.ofList cs)

/-- How many brackets may be open at once, and how many parts a key may have. -/
def nesting : Nat := 80

/-- Parts with points between them: the path and the last part. -/
def key : Scan (List String × String) := do
  let parts ← Scan.loop (fun (parts : List String) => do
    blanks
    let part ← keyPart
    blanks
    pure (part :: parts, !(← Scan.taken ['.']))) []
  match parts with
  | k :: path => if path.length < nesting then pure (path.reverse, k) else failure
  | [] => failure

/-- Items with commas between them, and maybe one after the last, up to a closing mark. -/
def enclosed (closing : Char) (item : Scan α) : Scan (List α) := do
  spacing
  if ← Scan.taken [closing] then pure []
  else
    let items ← Scan.loop (fun acc => do
      let x ← item
      spacing
      if ← Scan.taken [','] then
        spacing
        pure (x :: acc, ← Scan.taken [closing])
      else
        Scan.char closing
        pure (x :: acc, true)) []
    pure items.reverse

structure Assignment where
  path : List String
  key : String
  value : Datum

/-- A key and its value, with gaps of one kind around the equals sign. -/
def assignment (gap : Scan Unit) (value : Scan Datum) : Scan Assignment := do
  let (path, k) ← key
  gap
  Scan.char '='
  gap
  pure ⟨path, k, ← value⟩

def assign (es : Entries) (a : Assignment) : Option Entries := es.insert a.value a.key a.path

/-- A value with at most the given number of brackets open at once. -/
def value : Nat → Scan Datum
  | 0 => simple
  | depth + 1 => do
    if ← Scan.taken ['['] then return .list (← enclosed ']' (value depth))
    else if ← Scan.taken ['\x7b'] then
      let items ← enclosed '\x7d' (assignment spacing (value depth))
      return .table (entriesData (← StateT.lift (items.foldlM assign [])))
    else simple
where
  simple : Scan Datum := do
    let c ← Scan.peek?
    if c = some '"' ∨ c = some '\'' then return .text (← text) else scalar

/-- The tables so far, and the header that keys stand under. -/
structure Progress where
  root : Entries
  header : List String

inductive Line where
  | table (path : List String) (key : String)
  | series (path : List String) (key : String)
  | entry (a : Assignment)

def line : Scan Line := do
  if ← Scan.taken ['[', '['] then
    let (path, k) ← key
    Scan.chars [']', ']']
    return .series path k
  else if ← Scan.taken ['['] then
    let (path, k) ← key
    Scan.char ']'
    return .table path k
  else return .entry (← assignment blanks (value nesting))

def Progress.step? (s : Progress) : Line → Option Progress
  | .table path k => return ⟨← s.root.changeAt (Entries.openTable k) path, path ++ [k]⟩
  | .series path k => return ⟨← s.root.changeAt (Entries.openNext k) path, path ++ [k]⟩
  | .entry a => return { s with root := ← s.root.changeAt (assign · a) s.header }

def document : Scan Entries := do
  discard (Scan.taken ['\uFEFF'])
  spacing
  let s ← Scan.loop (fun s => do
    if ← Scan.atEnd then pure (s, true)
    else
      let s ← StateT.lift (s.step? (← line))
      lineEnd
      spacing
      pure (s, false)) (⟨[], []⟩ : Progress)
  pure s.root

/-- The data of a document. -/
def read? (s : String) : Option Datum := (document.run? s.toList).map (.table <| entriesData ·)

end Pedigree.Toml

namespace Pedigree

/-- The settings that a configuration file holds. -/
def Settings.ofToml? (s : String) : Option (Settings Binary32) := do
  (← Toml.read? s).asSettings? .toml

end Pedigree
