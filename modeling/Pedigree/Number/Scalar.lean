/-! The arithmetic that sizing and tree layout need, so that one algorithm serves rounded and
exact numbers alike. -/
namespace Pedigree

class Scalar (S : Type) extends Add S, Sub S, Mul S, Neg S, Max S, Min S where
  ofInt : Int → S
  half : S → S
  /-- The greatest of some numbers. -/
  greatest : List S → S
  /-- The nearest whole number; a half goes away from zero. -/
  round : S → Int
  /-- The whole part, towards zero. -/
  trunc : S → Int

def Scalar.zero [Scalar S] : S := Scalar.ofInt 0

def Scalar.double [Scalar S] (x : S) : S := x * Scalar.ofInt 2

end Pedigree
