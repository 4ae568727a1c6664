/-!
# Binary floating-point numbers of 64 bits

A number is kept as its bits.  A finite one stands for the fraction `significand * 2 ^ exponent`
with its sign; rounding a fraction goes to the nearest number and, half way, to the even one.
-/
namespace SchemaKeeper

/-- A number in the binary interchange format of 64 bits: sign, eleven exponent bits, fraction. -/
structure Double where
  bits : UInt64
  deriving DecidableEq

namespace Double

/-- The two parts below the sign: the exponent bits. -/
def exponentBits (x : Double) : Nat := x.bits.toNat / Nat.pow 2 52 % Nat.pow 2 11

/-- The fraction bits. -/
def fractionBits (x : Double) : Nat := x.bits.toNat % Nat.pow 2 52

def isNegative (x : Double) : Bool := decide (Nat.pow 2 63 ≤ x.bits.toNat)

/-- Neither infinite nor undefined. -/
def isFinite (x : Double) : Bool := x.exponentBits != 2047

def isInfinite (x : Double) : Bool := x.exponentBits == 2047 && x.fractionBits == 0

/-- Undefined: equal to no number, itself included. -/
def isUndefined (x : Double) : Bool := x.exponentBits == 2047 && x.fractionBits != 0

/-- One of the two zeros. -/
def isZero (x : Double) : Bool := x.exponentBits == 0 && x.fractionBits == 0

/-- Equality of numbers: the two zeros agree, and what is undefined agrees with nothing. -/
def same (x y : Double) : Bool :=
  !x.isUndefined && !y.isUndefined && (x.bits == y.bits || x.isZero && y.isZero)

/-- The significand of a finite number, its leading bit included. -/
def significand (x : Double) : Nat :=
  if x.exponentBits = 0 then x.fractionBits else Nat.pow 2 52 + x.fractionBits

/-- The power of two that scales the significand. -/
def exponent (x : Double) : Int :=
  if x.exponentBits = 0 then -1074 else (x.exponentBits : Int) - 1075

/-- The size of a finite number as numerator and denominator. -/
def ratio (x : Double) : Nat × Nat :=
  if 0 ≤ x.exponent then (x.significand * Nat.pow 2 x.exponent.toNat, 1)
  else (x.significand, Nat.pow 2 (-x.exponent).toNat)

/-- The quotient rounded to the nearest whole number; half way it goes to the even one. -/
def roundQuotient (num den : Nat) : Nat :=
  let q := num / den
  let r := num % den
  if 2 * r < den then q
  else if den < 2 * r then q + 1
  else if q % 2 = 0 then q else q + 1

/-- Sets the sign bit above the other bits. -/
def signed (negative : Bool) (magnitude : Nat) : Double :=
  ⟨UInt64.ofNat (if negative then magnitude + Nat.pow 2 63 else magnitude)⟩

/-- The bits of infinity without its sign. -/
def infinityBits : Nat := 2047 * Nat.pow 2 52

/-- The fraction `num / den` rounded to the nearest number; one too large becomes infinite. -/
def ofRatio (negative : Bool) (num den : Nat) : Double :=
  if num = 0 then signed negative 0
  else
    let high : Int := (num.log2 : Int) - (den.log2 : Int)
    let reached : Bool :=
      if 0 ≤ high then decide (den * Nat.pow 2 high.toNat ≤ num)
      else decide (den ≤ num * Nat.pow 2 (-high).toNat)
    let scale : Int := max (-1074) ((if reached then high else high - 1) - 52)
    let whole : Nat :=
      if 0 ≤ scale then roundQuotient num (den * Nat.pow 2 scale.toNat)
      else roundQuotient (num * Nat.pow 2 (-scale).toNat) den
    signed negative (min infinityBits ((scale + 1074).toNat * Nat.pow 2 52 + whole))

/-- The nearest number to an integer. -/
def ofInt (n : Int) : Double := ofRatio (decide (n < 0)) n.natAbs 1

/-- The product of two finite numbers, rounded once. -/
def mul (x y : Double) : Double :=
  let (a, b) := x.ratio
  let (c, d) := y.ratio
  ofRatio (x.isNegative != y.isNegative) (a * c) (b * d)

/-- The quotient of two finite numbers, rounded once; the divisor is not zero. -/
def div (x y : Double) : Double :=
  let (a, b) := x.ratio
  let (c, d) := y.ratio
  ofRatio (x.isNegative != y.isNegative) (a * d) (b * c)

/-- The number with the other sign. -/
def neg (x : Double) : Double :=
  signed (!x.isNegative) (x.bits.toNat % Nat.pow 2 63)

example : (ofInt 1).bits = 0x3ff0000000000000 := by decide
example : (ofRatio false 1 10).bits = 0x3fb999999999999a := by decide
example : (ofRatio true 3 2).bits = 0xbff8000000000000 := by decide
example : same (ofInt 0) (neg (ofInt 0)) = true := by decide

end Double
end SchemaKeeper
