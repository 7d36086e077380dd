import Pedigree.Number.Rounding
import Pedigree.Number.Scalar

/-! Single precision numbers, written in units of the least positive one: a finite number is a
sign and a whole count of `2 ^ -149` that rounding to 24 bits leaves alone. Every operation is
exact on counts and rounds once. -/
namespace Pedigree

namespace Binary32

/-- Significant bits of a finite number. -/
def precision : Nat := 24

/-- The number of units in one. -/
def one : Nat := Nat.pow 2 149

/-- The first count that is too large to be finite. -/
def limit : Nat := Nat.pow 2 128 * one

structure Magnitude where
  units : Nat
  rounded : nearest precision units 1 = units
  bounded : units < limit
  deriving DecidableEq

def Magnitude.zero : Magnitude := ⟨0, by decide, by decide⟩

end Binary32

inductive Binary32 where
  | finite (negative : Bool) (magnitude : Binary32.Magnitude)
  | infinite (negative : Bool)
  | nan
  deriving DecidableEq

namespace Binary32

/-- `num / den` units under a sign, rounded. -/
def ofUnits (negative : Bool) (num den : Nat) (hd : 0 < den) : Binary32 :=
  if h : nearest precision num den < limit then
    finite negative ⟨nearest precision num den, nearest_nearest _ _ _ (by decide) hd, h⟩
  else
    infinite negative

def zero : Binary32 := finite false .zero

instance : Inhabited Binary32 := ⟨zero⟩

/-- A whole number. -/
def ofInt (n : Int) : Binary32 := ofUnits (n < 0) (n.natAbs * one) 1 (by decide)

def signed (negative : Bool) (m : Magnitude) : Int :=
  if negative then -(m.units : Int) else m.units

def neg : Binary32 → Binary32
  | finite s m => finite (!s) m
  | infinite s => infinite (!s)
  | nan => nan

/-- An exact zero sum is negative only if both operands are. -/
def add : Binary32 → Binary32 → Binary32
  | finite s a, finite t b =>
    let sum := signed s a + signed t b
    if sum = 0 then finite (s && t) .zero else ofUnits (sum < 0) sum.natAbs 1 (by decide)
  | infinite s, infinite t => if s = t then infinite s else nan
  | infinite s, finite _ _ => infinite s
  | finite _ _, infinite t => infinite t
  | nan, _ => nan
  | _, nan => nan

def mul : Binary32 → Binary32 → Binary32
  | finite s a, finite t b => ofUnits (s ^^ t) (a.units * b.units) one (by decide)
  | infinite s, infinite t => infinite (s ^^ t)
  | infinite s, finite t b => if b.units = 0 then nan else infinite (s ^^ t)
  | finite s a, infinite t => if a.units = 0 then nan else infinite (s ^^ t)
  | nan, _ => nan
  | _, nan => nan

def half : Binary32 → Binary32
  | finite s a => ofUnits s a.units 2 (by decide)
  | x => x

def isNaN : Binary32 → Bool
  | nan => true
  | _ => false

/-- The order of numbers, with both zeros equal. -/
def lt : Binary32 → Binary32 → Bool
  | finite s a, finite t b => signed s a < signed t b
  | infinite s, infinite t => s && !t
  | infinite s, finite _ _ => s
  | finite _ _, infinite t => !t
  | nan, _ => false
  | _, nan => false

/-- Equality of numbers: both zeros are equal and nothing equals a NaN. -/
def same (x y : Binary32) : Bool := !x.isNaN && !y.isNaN && !lt x y && !lt y x

/-- The greater number, or the one that is a number. -/
protected def max (x y : Binary32) : Binary32 :=
  if x.isNaN then y else if lt x y then y else x

/-- The smaller number, or the one that is a number. -/
protected def min (x y : Binary32) : Binary32 :=
  if x.isNaN then y else if lt y x then y else x

/-- Moves a whole number into the 32-bit range. -/
def saturate (n : Int) : Int := max (-2147483648) (min n 2147483647)

def toWhole (whole : Nat → Nat) : Binary32 → Int
  | finite s a => saturate (if s then -(whole a.units : Int) else whole a.units)
  | infinite s => if s then -2147483648 else 2147483647
  | nan => 0

instance : Scalar Binary32 where
  add := add
  sub x y := add x (neg y)
  mul := mul
  neg := neg
  max := Binary32.max
  min := Binary32.min
  ofInt := ofInt
  half := half
  greatest xs := xs.foldl Binary32.max (infinite true)
  round := toWhole fun u => (2 * u + one) / (2 * one)
  trunc := toWhole fun u => u / one

/-- Finite and greater than zero. -/
def isPositive : Binary32 → Bool
  | finite s a => !s && 0 < a.units
  | _ => false

/-- The weight of the sign in an encoding. -/
def signBit : Nat := Nat.pow 2 31

/-- The interchange encoding: sign, biased exponent, fraction. Both zeros are encoded as zero,
and a NaN has no encoding of its own. -/
def encoding : Binary32 → Option Nat
  | finite s a =>
    let exponent := a.units.log2 + 1 - precision
    let fraction := a.units / Nat.pow 2 exponent
    some ((if s && a.units != 0 then signBit else 0) + exponent * Nat.pow 2 23 + fraction)
  | infinite s => some ((if s then signBit else 0) + 255 * Nat.pow 2 23)
  | nan => none

end Binary32

end Pedigree
