import SchemaKeeper.Number.Double

/-!
# The fewest digits that read back

The decimals that round to a number form an interval, its ends included exactly when the
significand is even.  `Double.shortest` tries one digit, then two, and so on to seventeen; for
each count it looks at the two neighbours of the number on that decimal grid and takes the nearer
one that lies in the interval.
-/
namespace SchemaKeeper.Double

/-- A decimal: `digits * 10 ^ exponent`. -/
structure Decimal where
  digits : Nat
  exponent : Int
  deriving DecidableEq

/-- Compares `a * 2 ^ e` with the decimal, both given as fractions: `num / den ≤ c / d`. -/
def fractionLe (a c : Nat × Nat) : Bool := decide (a.1 * c.2 ≤ c.1 * a.2)

def fractionLt (a c : Nat × Nat) : Bool := decide (a.1 * c.2 < c.1 * a.2)

/-- A scaled whole number as a fraction. -/
def scaled (base : Nat) (n : Nat) (e : Int) : Nat × Nat :=
  if 0 ≤ e then (n * Nat.pow base e.toNat, 1) else (n, Nat.pow base (-e).toNat)

/-- The lower and upper end of what rounds to a positive finite number. -/
def interval (x : Double) : (Nat × Nat) × (Nat × Nat) :=
  let m := x.significand
  let e := x.exponent
  let low :=
    if x.fractionBits = 0 && decide (1 < x.exponentBits) then scaled 2 (4 * m - 1) (e - 2)
    else scaled 2 (2 * m - 1) (e - 1)
  (low, scaled 2 (2 * m + 1) (e - 1))

/-- The decimal rounds to the number. -/
def holds (x : Double) (d : Decimal) : Bool :=
  let (low, high) := x.interval
  let v := scaled 10 d.digits d.exponent
  if x.significand % 2 = 0 then fractionLe low v && fractionLe v high
  else fractionLt low v && fractionLt v high

/-- The neighbour on the grid of `10 ^ e` that reads back and is nearest, if one reads back. -/
def onGrid (x : Double) (e : Int) : Option Decimal :=
  let (n, d) := x.ratio
  let (n, d) := if 0 ≤ e then (n, d * Nat.pow 10 e.toNat) else (n * Nat.pow 10 (-e).toNat, d)
  let below : Decimal := ⟨n / d, e⟩
  let above : Decimal := ⟨n / d + 1, e⟩
  match x.holds below, x.holds above with
  | true, true =>
    let r := n % d
    some (if 2 * r < d || (2 * r == d && n / d % 2 == 0) then below else above)
  | true, false => some below
  | false, true => some above
  | false, false => none

/-- How many decimal digits stand before the point of the number; for a number below one it
counts down the zeros after the point. -/
def decimalHeight (x : Double) : Int :=
  let (n, d) := x.ratio
  let guess : Int := ((n.log2 : Int) - (d.log2 : Int)) * 30103 / 100000 - 1
  let exceeds (k : Int) : Bool := fractionLe (scaled 10 1 k) (n, d)
  ((List.range 5).filter fun (i : Nat) => exceeds (guess + i)).length + guess

/-- Takes the zeros off the end of the digits. -/
def trimZeros : Nat → Decimal → Decimal
  | 0, d => d
  | fuel + 1, d =>
    if d.digits % 10 = 0 ∧ d.digits ≠ 0 then trimZeros fuel ⟨d.digits / 10, d.exponent + 1⟩ else d

/-- The decimal with the fewest digits that reads back as the positive finite number. -/
def shortest (x : Double) : Decimal :=
  let height := x.decimalHeight
  let found := (List.range 17).findSome? fun (k : Nat) => x.onGrid (height - 1 - k)
  trimZeros 20 (found.getD ⟨0, 0⟩)

/-- Where the decimal point moves to an exponent, and how that exponent is written. -/
structure Style where
  leastPositional : Int
  pastPositional : Int

/-- Positional for sizes from `10 ^ -5` up to `10 ^ 16`. -/
def plain : Style := ⟨-5, 16⟩

def zeros (n : Nat) : List Char := List.replicate n '0'

/-- The digits of a decimal in the style: always with a point or an exponent. -/
def Decimal.write (style : Style) (d : Decimal) : List Char :=
  let ds := Nat.toDigits 10 d.digits
  let point : Int := ds.length + d.exponent
  if style.leastPositional < point ∧ point ≤ style.pastPositional then
    if 0 ≤ d.exponent then ds ++ zeros d.exponent.toNat ++ ['.', '0']
    else if 0 < point then ds.take point.toNat ++ '.' :: ds.drop point.toNat
    else '0' :: '.' :: zeros (-point).toNat ++ ds
  else
    let shown := point - 1
    let mantissa := match ds with
      | [c] => [c]
      | c :: rest => c :: '.' :: rest
      | [] => []
    let mark := if shown < 0 then ['e', '-'] else ['e', '+']
    mantissa ++ mark ++ Nat.toDigits 10 shown.natAbs

/-- The text of a finite number: the fewest digits that read back, with a fraction or an
exponent. -/
def text (x : Double) : String :=
  let body := if x.isZero then ['0', '.', '0'] else x.shortest.write plain
  String.ofList (if x.isNegative then '-' :: body else body)

end SchemaKeeper.Double
