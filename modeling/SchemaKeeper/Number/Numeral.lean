import SchemaKeeper.Number.Double

/-!
# Numbers as written in documents

`Numeral.scan?` takes a number off the front of a text by the grammar alone.  `Numeral.value?`
says what it stands for: an integer if it has neither fraction nor exponent and fits 64 bits, else
a floating-point number.  The significand is gathered in one unsigned word of 64 bits; digits that
no longer fit it only move the point, and the word is scaled by a power of ten in one rounding
step (two or three for very small numbers).
-/
namespace SchemaKeeper

/-- The parts of a number as it is written; `fraction` is empty without a point. -/
structure Numeral where
  negative : Bool
  whole : List Nat
  fraction : List Nat
  exponent : Option (Bool × List Nat)

/-- What a written number stands for. -/
inductive Number where
  | int (n : Int)
  | float (x : Double)

namespace Numeral

def isDigit (c : Char) : Bool := decide ('0' ≤ c) && decide (c ≤ '9')

def digit (c : Char) : Nat := c.toNat - 48

/-- The digits at the front of a text and what follows them. -/
def scanDigits (cs : List Char) : List Nat × List Char :=
  ((cs.takeWhile isDigit).map digit, cs.dropWhile isDigit)

/-- The digits before the point: a zero stands alone. -/
def scanWhole? (cs : List Char) : Option (List Nat × List Char) :=
  match scanDigits cs with
  | ([], _) => none
  | (0 :: _ :: _, _) => none
  | r => some r

/-- The part after the point, which needs a digit. -/
def scanFraction? : List Char → Option (List Nat × List Char)
  | '.' :: cs =>
    match scanDigits cs with
    | ([], _) => none
    | r => some r
  | cs => some ([], cs)

/-- The digits of an exponent after its sign. -/
def scanPower? (positive : Bool) (cs : List Char) :
    Option (Option (Bool × List Nat) × List Char) :=
  match scanDigits cs with
  | ([], _) => none
  | (ds, rest) => some (some (positive, ds), rest)

/-- The exponent with its sign, `true` for one that is not negative. -/
def scanExponent? : List Char → Option (Option (Bool × List Nat) × List Char)
  | c :: cs =>
    if c = 'e' ∨ c = 'E' then
      match cs with
      | '-' :: rest => scanPower? false rest
      | '+' :: rest => scanPower? true rest
      | rest => scanPower? true rest
    else some (none, c :: cs)
  | [] => some (none, [])

/-- Takes a number off the front of a text. -/
def scan? (cs : List Char) : Option (Numeral × List Char) := do
  let (negative, cs) := match cs with
    | '-' :: rest => (true, rest)
    | rest => (false, rest)
  let (whole, cs) ← scanWhole? cs
  let (fraction, cs) ← scanFraction? cs
  let (exponent, cs) ← scanExponent? cs
  return (⟨negative, whole, fraction, exponent⟩, cs)

/-- Appends digits to a word of 64 bits as long as they fit, and returns those that do not. -/
def gather : Nat → List Nat → Nat × List Nat
  | n, [] => (n, [])
  | n, d :: ds => if n * 10 + d < UInt64.size then gather (n * 10 + d) ds else (n, d :: ds)

/-- The number that digits spell. -/
def ofDigits (ds : List Nat) : Nat := ds.foldl (fun n d => n * 10 + d) 0

/-- A power of ten rounded to a number. -/
def powerOfTen (k : Nat) : Double := Double.ofRatio false (Nat.pow 10 k) 1

/-- Scales by a power of ten; nothing if the result is infinite.  A power below those that a
number can hold is taken in steps, which end at zero before the fuel does. -/
def scale? : Nat → Double → Int → Option Double
  | 0, x, _ => some x
  | fuel + 1, x, power =>
    if power.natAbs ≤ 308 then
      if 0 ≤ power then
        let y := x.mul (powerOfTen power.toNat)
        if y.isInfinite then none else some y
      else some (x.div (powerOfTen power.natAbs))
    else if x.isZero then some x
    else if 0 ≤ power then none
    else scale? fuel (x.div (powerOfTen 308)) (power + 308)

/-- The scaled word with its sign. -/
def float? (negative : Bool) (word : Nat) (power : Int) : Option Number :=
  (scale? 8 (Double.ofInt word) power).map fun x => .float (if negative then x.neg else x)

/-- What the number stands for; nothing if it is too large for a finite number. -/
def value? (n : Numeral) : Option Number :=
  let (wholeWord, overflow) := gather 0 n.whole
  let (word, dropped) := gather wholeWord n.fraction
  let power : Int := (overflow.length : Int) - ((n.fraction.length : Int) - dropped.length)
  match n.exponent with
  | none =>
    if overflow.isEmpty && n.fraction.isEmpty then
      if !n.negative then some (.int word)
      else if 0 < word ∧ word ≤ Nat.pow 2 63 then some (.int (-word))
      else some (.float (Double.ofInt word).neg)
    else float? n.negative word power
  | some (positive, ds) =>
    let shift := ofDigits ds
    if Nat.pow 2 31 ≤ shift then
      if word ≠ 0 ∧ positive then none
      else some (.float (Double.signed n.negative 0))
    else float? n.negative word (if positive then power + shift else power - shift)

end Numeral
end SchemaKeeper
