/-! JSON values and their indented text. -/
namespace Pedigree

inductive Json where
  | bool (b : Bool)
  | number (n : Int)
  | text (s : String)
  | list (items : List Json)
  | object (entries : List (String × Json))

namespace Json

def hexDigit (n : Nat) : Char := (Nat.digitChar n)

/-- Quotes, backslashes and control characters are escaped, with short forms where there are
some. -/
def escape (c : Char) : List Char :=
  if c = '"' then ['\\', '"']
  else if c = '\\' then ['\\', '\\']
  else if c = '\n' then ['\\', 'n']
  else if c = '\r' then ['\\', 'r']
  else if c = '\t' then ['\\', 't']
  else if c.toNat = 8 then ['\\', 'b']
  else if c.toNat = 12 then ['\\', 'f']
  else if c.toNat < 32 then
    ['\\', 'u', '0', '0', hexDigit (c.toNat / 16), hexDigit (c.toNat % 16)]
  else [c]

def quoted (s : String) : String := "\"" ++ String.ofList (s.toList.flatMap escape) ++ "\""

/-- A new line with an indentation of two blanks for each level. -/
def newline (depth : Nat) : String := "\n" ++ String.ofList (List.replicate (2 * depth) ' ')

mutual

/-- The text with one item or entry on a line; the first line is not indented. -/
def pretty (depth : Nat) : Json → String
  | .bool b => if b then "true" else "false"
  | .number n => toString n
  | .text s => quoted s
  | .list [] => "[]"
  | .list (j :: js) =>
    "[" ++ newline (depth + 1) ++ pretty (depth + 1) j ++ prettyItems (depth + 1) js ++
      newline depth ++ "]"
  | .object [] => "\x7b\x7d"
  | .object ((k, j) :: es) =>
    "\x7b" ++ newline (depth + 1) ++ quoted k ++ ": " ++ pretty (depth + 1) j ++
      prettyEntries (depth + 1) es ++ newline depth ++ "\x7d"

def prettyItems (depth : Nat) : List Json → String
  | [] => ""
  | j :: js => "," ++ newline depth ++ pretty depth j ++ prettyItems depth js

def prettyEntries (depth : Nat) : List (String × Json) → String
  | [] => ""
  | (k, j) :: es =>
    "," ++ newline depth ++ quoted k ++ ": " ++ pretty depth j ++ prettyEntries depth es

end

end Json

end Pedigree
