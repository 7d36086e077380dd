import Pedigree.Toml.Scan

/-! Texts between quotes. Between double quotes a backslash starts an escape, between single
quotes it is a character like any other. Between triple quotes a text may span lines. -/
namespace Pedigree.Toml

structure Quoting where
  mark : Char
  escapes : Bool
  multiline : Bool

def hexValue? (c : Char) : Option Nat :=
  if c.isDigit then some (c.toNat - '0'.toNat)
  else if 'a' ≤ c ∧ c ≤ 'f' then some (c.toNat - 'a'.toNat + 10)
  else if 'A' ≤ c ∧ c ≤ 'F' then some (c.toNat - 'A'.toNat + 10)
  else none

def isHex (c : Char) : Bool := (hexValue? c).isSome

/-- The value of digits in a base up to sixteen. -/
def valueIn (base : Nat) (cs : List Char) : Nat :=
  cs.foldl (fun n c => base * n + (hexValue? c).getD 0) 0

/-- A character by its number. -/
def numbered (digits : Nat) : Scan (List Char) := do
  let n := valueIn 16 (← Scan.exactly digits isHex)
  if h : n.isValidChar then pure [Char.ofNatAux n h] else failure

/-- Past blanks and line ends. -/
def dropLines : List Char → List Char
  | '\r' :: '\n' :: cs => dropLines cs
  | c :: cs => if isBlank c || c = '\n' then dropLines cs else c :: cs
  | [] => []

/-- What an escape stands for. At the end of a line it stands for nothing and takes the blanks and
line ends that follow. -/
def escape (multiline : Bool) : Scan (List Char) := do
  match ← Scan.next with
  | 'b' => pure ['\x08']
  | 't' => pure ['\t']
  | 'n' => pure ['\n']
  | 'f' => pure ['\x0c']
  | 'r' => pure ['\r']
  | 'e' => pure ['\x1b']
  | '"' => pure ['"']
  | '\\' => pure ['\\']
  | 'x' => numbered 2
  | 'u' => numbered 4
  | 'U' => numbered 8
  | c =>
    if multiline then
      let rest := (c :: (← get)).dropWhile isBlank
      match rest with
      | '\n' :: cs | '\r' :: '\n' :: cs => set (dropLines cs); pure []
      | _ => failure
    else failure

/-- The next characters of a text, and whether it ends with them. Up to two quotes may stand right
before three that end a text. -/
def piece (q : Quoting) : Scan (List Char × Bool) := do
  let c ← Scan.next
  if c = q.mark then
    if q.multiline then
      let more := ((← get).takeWhile (· = q.mark)).length
      modify (·.drop (min more 4))
      pure (if more < 2 then (List.replicate (more + 1) c, false)
        else (List.replicate (min more 4 - 2) c, true))
    else pure ([], true)
  else if c = '\\' ∧ q.escapes then pure (← escape q.multiline, false)
  else if c = '\n' ∧ q.multiline then pure (['\n'], false)
  else if c = '\r' ∧ q.multiline then do Scan.char '\n'; pure (['\n'], false)
  else if isPlain c then pure ([c], false)
  else failure

/-- A text after its opening quotes. -/
def rest (q : Quoting) : Scan String := do
  let cs ← Scan.loop (fun acc => do
    let (cs, done) ← piece q
    pure (cs.reverse ++ acc, done)) []
  pure (String.ofList cs.reverse)

/-- A text within a line. -/
def lineText : Scan String := do
  let mark ← Scan.next
  if mark = '"' ∨ mark = '\'' then rest ⟨mark, mark = '"', false⟩ else failure

/-- A text; a line end right after triple quotes does not belong to it. -/
def text : Scan String := do
  let mark := (← Scan.peek?).getD ' '
  if (mark = '"' ∨ mark = '\'') ∧ (← Scan.taken [mark, mark, mark]) then
    if !(← Scan.taken ['\n']) then discard (Scan.taken ['\r', '\n'])
    rest ⟨mark, mark = '"', true⟩
  else lineText

end Pedigree.Toml
