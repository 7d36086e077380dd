import Pedigree.Datum
import Pedigree.Number.Decimal
import Pedigree.Toml.Text

/-! Values without quotes or brackets: truth values, numbers, dates and times. -/
namespace Pedigree.Toml

/-- Digits without the underscores between them. -/
def ungrouped? (digit : Char → Bool) : List Char → Option (List Char)
  | [] => none
  | [c] => if digit c then some [c] else none
  | c :: '_' :: cs => if digit c then (ungrouped? digit cs).map (c :: ·) else none
  | c :: cs => if digit c then (ungrouped? digit cs).map (c :: ·) else none

/-- Decimal digits of a whole number: a zero starts no other number. -/
def wholeDigits? (cs : List Char) : Option (List Char) :=
  match ungrouped? Char.isDigit cs with
  | some ('0' :: _ :: _) => none
  | ds => ds

def unboundInteger? : List Char → Option Int
  | '0' :: 'x' :: cs => (ungrouped? isHex cs).map (valueIn 16 ·)
  | '0' :: 'o' :: cs => (ungrouped? (fun c => '0' ≤ c && c ≤ '7') cs).map (valueIn 8 ·)
  | '0' :: 'b' :: cs => (ungrouped? (fun c => c = '0' || c = '1') cs).map (valueIn 2 ·)
  | cs =>
    let (negative, cs) := Decimal.signOf cs
    (wholeDigits? cs).map fun ds => if negative then -(valueIn 10 ds : Int) else valueIn 10 ds

/-- A whole number of 128 bits, with or without a sign. -/
def integer? (cs : List Char) : Option Datum :=
  (unboundInteger? cs).map fun (n : Int) =>
    if -Nat.pow 2 127 ≤ n ∧ n < Nat.pow 2 128 then .integer n else .outOfRange

def isExponentMark (c : Char) : Bool := c = 'e' || c = 'E'

/-- A numeral with a fraction, an exponent or both. -/
def decimal? (cs : List Char) : Option Decimal := do
  let (negative, cs) := Decimal.signOf cs
  let mantissa := cs.takeWhile (! isExponentMark ·)
  let exponent := cs.dropWhile (! isExponentMark ·)
  let whole ← wholeDigits? (mantissa.takeWhile (· ≠ '.'))
  let fraction ← match mantissa.dropWhile (· ≠ '.') with
    | [] => if exponent.isEmpty then none else some []
    | _ :: cs => ungrouped? Char.isDigit cs
  let power : Int ← match exponent with
    | [] => some 0
    | _ :: cs => do
      let (negative, cs) := Decimal.signOf cs
      let ds ← ungrouped? Char.isDigit cs
      pure (if negative then -(valueIn 10 ds : Int) else valueIn 10 ds)
  return ⟨negative, valueIn 10 (whole ++ fraction), power - fraction.length⟩

/-- A number in double precision, rounded to single. Only a name is read as infinite. -/
def float? (cs : List Char) : Option Datum :=
  let (negative, name) := Decimal.signOf cs
  if name = "inf".toList then some (.float (.infinite negative))
  else if name = "nan".toList then some (.float .nan)
  else (decimal? cs).map fun d =>
    if d.doubleUnits?.isNone then .outOfRange else .float d.toBinary32Twice

def daysOf (year month : Nat) : Nat :=
  if month = 2 then if year % 4 = 0 ∧ (year % 100 ≠ 0 ∨ year % 400 = 0) then 29 else 28
  else if month = 4 ∨ month = 6 ∨ month = 9 ∨ month = 11 then 30
  else 31

def digits (n : Nat) : Scan Nat := return valueIn 10 (← Scan.exactly n Char.isDigit)

def date : Scan Unit := do
  let year ← digits 4
  Scan.char '-'
  let month ← digits 2
  Scan.char '-'
  let day ← digits 2
  if 1 ≤ month ∧ month ≤ 12 ∧ 1 ≤ day ∧ day ≤ daysOf year month then pure () else failure

/-- Hours and minutes. -/
def clock : Scan Unit := do
  let hour ← digits 2
  Scan.char ':'
  let minute ← digits 2
  if hour ≤ 23 ∧ minute ≤ 59 then pure () else failure

/-- Seconds may be missing and may have a fraction. -/
def time : Scan Unit := do
  clock
  if ← Scan.taken [':'] then
    if 60 < (← digits 2) then failure
    if ← Scan.taken ['.'] then
      if (← Scan.takeWhile Char.isDigit).isEmpty then failure

/-- The offset of a time on a given day. -/
def offset : Scan Unit := do
  match ← Scan.peek? with
  | none => pure ()
  | some _ =>
    match ← Scan.next with
    | 'Z' | 'z' => pure ()
    | '+' | '-' => clock
    | _ => failure

def dateAndTime : Scan Unit := do
  date
  match ← Scan.peek? with
  | none => pure ()
  | some _ =>
    match ← Scan.next with
    | 'T' | 't' | ' ' => time; offset
    | _ => failure

def isMoment (cs : List Char) : Bool := (dateAndTime.run? cs <|> time.run? cs).isSome

def scalarOf? (cs : List Char) : Option Datum :=
  if cs = "true".toList then some (.bool true)
  else if cs = "false".toList then some (.bool false)
  else if isMoment cs then some .moment
  else integer? cs <|> float? cs

def isScalarChar (c : Char) : Bool :=
  c.isAlphanum || c = '_' || c = '+' || c = '-' || c = '.' || c = ':'

/-- A value up to the first character that belongs to none; a blank may stand before a time. -/
def scalar : Scan Datum := do
  let first ← Scan.takeWhile isScalarChar
  let cs ← match ← get with
    | ' ' :: c :: _ =>
      if isScalarChar c then
        discard Scan.next
        pure (first ++ ' ' :: (← Scan.takeWhile isScalarChar))
      else pure first
    | _ => pure first
  StateT.lift (scalarOf? cs)

end Pedigree.Toml
