import Pedigree.Number.Binary32

/-! Decimal numerals: reading them into single precision, and the fewest digits that read back. -/
namespace Pedigree

/-- The number `digits * 10 ^ exponent` under a sign. -/
structure Decimal where
  negative : Bool
  digits : Nat
  exponent : Int
  deriving DecidableEq, Repr, Inhabited

namespace Decimal

def digitsValue (cs : List Char) : Nat :=
  cs.foldl (fun n c => 10 * n + (c.toNat - '0'.toNat)) 0

/-- An optional exponent part, which has to be the rest of the text. -/
def exponentOf? : List Char → Option Int
  | [] => some 0
  | e :: cs =>
    if e != 'e' && e != 'E' then none
    else
      let (negative, ds) := match cs with
        | '-' :: ds => (true, ds)
        | '+' :: ds => (false, ds)
        | ds => (false, ds)
      if ds.isEmpty || !ds.all Char.isDigit then none
      else some (if negative then -(digitsValue ds : Int) else digitsValue ds)

/-- Digits with an optional point among them and an optional exponent; at least one digit has to
stand before the exponent. -/
def ofUnsigned? (negative : Bool) (cs : List Char) : Option Decimal :=
  let whole := cs.takeWhile Char.isDigit
  let (fraction, rest) := match cs.dropWhile Char.isDigit with
    | '.' :: cs => (cs.takeWhile Char.isDigit, cs.dropWhile Char.isDigit)
    | cs => ([], cs)
  if whole.isEmpty && fraction.isEmpty then none
  else (exponentOf? rest).map fun e =>
    ⟨negative, digitsValue (whole ++ fraction), e - fraction.length⟩

/-- Splits off a sign. -/
def signOf : List Char → Bool × List Char
  | '-' :: cs => (true, cs)
  | '+' :: cs => (false, cs)
  | cs => (false, cs)

def ofChars? (cs : List Char) : Option Decimal :=
  ofUnsigned? (signOf cs).1 (signOf cs).2

/-- Beyond this power of ten a number is infinite, and below its inverse zero, in both
precisions. -/
def reach : Int := 400

/-- The number as a quotient, if it is neither zero nor out of reach. -/
inductive Size where
  | tiny
  | huge
  | quotient (num den : Nat) (hd : 0 < den)

def size (d : Decimal) : Size :=
  if d.digits = 0 then .tiny
  else if reach < d.exponent then .huge
  else if d.exponent + (Nat.toDigits 10 d.digits).length < -reach then .tiny
  else .quotient (d.digits * Nat.pow 10 d.exponent.toNat)
    (Nat.pow 10 (-d.exponent).toNat)
    (Nat.pow_pos (by decide))

/-- Rounds once. -/
def toBinary32 (d : Decimal) : Binary32 :=
  match d.size with
  | .tiny => .finite d.negative .zero
  | .huge => .infinite d.negative
  | .quotient num den hd => .ofUnits d.negative (num * Binary32.one) den hd

/-- One, in the least units of double precision. -/
def doubleOne : Nat := Nat.pow 2 1074

theorem doubleOne_pos : 0 < doubleOne := by
  unfold doubleOne
  generalize 1074 = n
  exact two_pow_pos n

/-- The number rounded to double precision, in units of `2 ^ -1074`, unless that is infinite. -/
def doubleUnits? (d : Decimal) : Option Nat :=
  match d.size with
  | .tiny => some 0
  | .huge => none
  | .quotient num den _ =>
    let units := nearest 53 (num * doubleOne) den
    if Nat.pow 2 1024 * doubleOne ≤ units then none else some units

/-- Rounds to double precision and then to single. -/
def toBinary32Twice (d : Decimal) : Binary32 :=
  match d.doubleUnits? with
  | none => .infinite d.negative
  | some units => .ofUnits d.negative (units * Binary32.one) doubleOne doubleOne_pos

end Decimal

namespace Binary32

def lowercase (cs : List Char) : List Char := cs.map Char.toLower

/-- A numeral, or the name of an infinity or of a NaN in any letter case. -/
def ofText? (text : String) : Option Binary32 :=
  let (negative, cs) := Decimal.signOf text.toList
  let name := String.ofList (lowercase cs)
  if name = "inf" || name = "infinity" then some (infinite negative)
  else if name = "nan" then some nan
  else (Decimal.ofUnsigned? negative cs).map Decimal.toBinary32

/-- Whether `digits * 10 ^ exponent` rounds to `units`. -/
def readsBack (units digits : Nat) (exponent : Int) : Bool :=
  nearest precision (digits * Nat.pow 10 exponent.toNat * one)
    (Nat.pow 10 (-exponent).toNat) = units

/-- The power of ten that is next above `units`. -/
def magnitudeOf (units : Nat) : Int :=
  let above (p : Int) : Bool := units * Nat.pow 10 (-p).toNat < Nat.pow 10 p.toNat * one
  (((List.range 86).map fun i : Nat => (i : Int) - 45).find? above).getD 40

/-- With a given number of digits, the numeral nearest to `units` among those that read back; of
two equally near ones the greater. -/
def numeralOf? (units : Nat) (count : Nat) : Option (Nat × Int) :=
  let exponent := magnitudeOf units - count
  let num := units * Nat.pow 10 (-exponent).toNat
  let den := one * Nat.pow 10 exponent.toNat
  let low := num / den
  let nearer := if 2 * (num % den) < den then [low, low + 1] else [low + 1, low]
  (nearer.find? (readsBack units · exponent)).map (·, exponent)

/-- The fewest digits that read back; nine always do. -/
def shortest (units : Nat) : Nat × Int :=
  ((List.range 9).findSome? fun n => numeralOf? units (n + 1)).getD (0, 0)

/-- A numeral without exponent: a point only before a fraction, and a digit before a point. -/
def positional (digits : Nat) (exponent : Int) : String :=
  let ds := Nat.toDigits 10 digits
  if 0 ≤ exponent then String.ofList (ds ++ List.replicate exponent.toNat '0')
  else
    let places := (-exponent).toNat
    let padded := List.replicate (places + 1 - ds.length) '0' ++ ds
    let whole := padded.take (padded.length - places)
    let fraction := ((padded.drop (padded.length - places)).reverse.dropWhile (· = '0')).reverse
    String.ofList (if fraction.isEmpty then whole else whole ++ '.' :: fraction)

def text : Binary32 → String
  | finite s a =>
    (if s then "-" else "") ++
      if a.units = 0 then "0" else
        let (digits, exponent) := shortest a.units
        positional digits exponent
  | infinite s => if s then "-inf" else "inf"
  | nan => "NaN"

end Binary32

end Pedigree
