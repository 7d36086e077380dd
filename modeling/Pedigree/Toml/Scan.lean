/-! Reading characters from the front of a text. -/
namespace Pedigree.Toml

/-- Takes characters and gives a value, or fails. -/
abbrev Scan := StateT (List Char) Option

namespace Scan

def next : Scan Char := fun
  | c :: cs => some (c, cs)
  | [] => none

def char (c : Char) : Scan Unit := do
  if (← next) = c then pure () else failure

def chars (cs : List Char) : Scan Unit := cs.forM char

/-- Takes the given characters if they come next. -/
def taken (cs : List Char) : Scan Bool := fun ds =>
  if cs.isPrefixOf ds then some (true, ds.drop cs.length) else some (false, ds)

def takeWhile (p : Char → Bool) : Scan (List Char) := fun cs =>
  some (cs.takeWhile p, cs.dropWhile p)

def peek? : Scan (Option Char) := fun cs => some (cs.head?, cs)

def atEnd : Scan Bool := fun cs => some (cs.isEmpty, cs)

/-- As many characters as stated, all of one kind. -/
def exactly (n : Nat) (p : Char → Bool) : Scan (List Char) := fun cs =>
  if (cs.take n).length = n ∧ (cs.take n).all p then some (cs.take n, cs.drop n) else none

/-- Runs a step on a state until it says that it is done. Every step takes a character, so there
are no more steps than characters. -/
def loop (step : σ → Scan (σ × Bool)) (init : σ) : Scan σ := fun cs => upTo (cs.length + 1) init cs
where
  upTo : Nat → σ → Scan σ
    | 0, _ => failure
    | fuel + 1, s => do
      let (s, done) ← step s
      if done then pure s else upTo fuel s

/-- What a text gives that is read to its end. -/
def run? (p : Scan α) (cs : List Char) : Option α :=
  match p cs with
  | some (x, []) => some x
  | _ => none

end Scan

def isBlank (c : Char) : Bool := c = ' ' || c = '\t'

/-- What comments and texts hold: no control characters but the tab. -/
def isPlain (c : Char) : Bool := c = '\t' || (0x20 ≤ c.toNat && c.toNat ≠ 0x7F)

def blanks : Scan Unit := discard (Scan.takeWhile isBlank)

/-- What is left after blanks, line ends and comments. -/
def afterSpacing? (inComment : Bool) : List Char → Option (List Char)
  | [] => some []
  | '\n' :: cs => afterSpacing? false cs
  | '\r' :: '\n' :: cs => afterSpacing? false cs
  | c :: cs =>
    if inComment then if isPlain c then afterSpacing? true cs else none
    else if c = '#' then afterSpacing? true cs
    else if isBlank c then afterSpacing? false cs
    else some (c :: cs)

def spacing : Scan Unit := fun cs => (afterSpacing? false cs).map ((), ·)

/-- Blanks and a comment up to the end of a line or of the text. -/
def lineEnd : Scan Unit := do
  blanks
  if ← Scan.taken ['#'] then discard (Scan.takeWhile isPlain)
  if ← Scan.atEnd then pure ()
  else if ← Scan.taken ['\r', '\n'] then pure ()
  else Scan.char '\n'

end Pedigree.Toml
