import SchemaKeeper.Moment.Basic

/-!
# Moments as text

`Moment.text` writes a moment in UTC with as few of 0, 3, 6 or 9 fraction digits as hold it; a
year outside 0 to 9999 carries a sign.  `Moment.read?` takes the form of RFC 3339 with a year of
four digits and any offset below a day, and cuts fraction digits after the ninth;
`Moment.readSigned?` also takes a year with a sign.
-/
namespace SchemaKeeper.Moment

/-- A number in at least the given count of decimal digits. -/
def padded (width n : Nat) : List Char :=
  let ds := Nat.toDigits 10 n
  List.replicate (width - ds.length) '0' ++ ds

def yearText (year : Int) : List Char :=
  if 0 ≤ year ∧ year ≤ 9999 then padded 4 year.toNat
  else (if year < 0 then '-' else '+') :: padded 4 year.natAbs

/-- The fraction of a second after its point, empty for a whole second. -/
def fractionText (nano : Nat) : List Char :=
  if nano = 0 then []
  else if nano % 1000000 = 0 then '.' :: padded 3 (nano / 1000000)
  else if nano % 1000 = 0 then '.' :: padded 6 (nano / 1000)
  else '.' :: padded 9 nano

/-- The written form, in UTC. -/
def text (m : Moment) : String :=
  String.ofList <|
    yearText m.date.year ++ '-' :: padded 2 m.date.month ++ '-' :: padded 2 m.date.day ++
      'T' :: padded 2 m.hour ++ ':' :: padded 2 m.minute ++ ':' :: padded 2 m.second ++
      fractionText m.nano ++ ['Z']

def digit? (c : Char) : Option Nat :=
  if '0' ≤ c ∧ c ≤ '9' then some (c.toNat - 48) else none

/-- A number of exactly the given count of digits. -/
def number? (count : Nat) (cs : List Char) : Option (Nat × List Char) :=
  if cs.length < count then none
  else do
    let ds ← (cs.take count).mapM digit?
    return (ds.foldl (fun n d => n * 10 + d) 0, cs.drop count)

/-- One expected character. -/
def expect? (c : Char) : List Char → Option (List Char)
  | d :: rest => if d = c then some rest else none
  | [] => none

/-- The fraction after a point: nine digits count, and at least one must stand there. -/
def fraction? : List Char → Option (Nat × List Char)
  | '.' :: cs =>
    let ds := cs.takeWhile fun c => (digit? c).isSome
    if ds.isEmpty then none
    else do
      let kept ← (ds.take 9).mapM digit?
      let n := kept.foldl (fun n d => n * 10 + d) 0
      return (n * Nat.pow 10 (9 - kept.length), cs.drop ds.length)
  | cs => some (0, cs)

/-- Hours and minutes of an offset. -/
def offsetSize? (cs : List Char) : Option (Int × List Char) := do
  let (hours, cs) ← number? 2 cs
  let cs ← expect? ':' cs
  let (minutes, cs) ← number? 2 cs
  if hours ≤ 23 ∧ minutes ≤ 59 then some ((hours * 60 + minutes : Nat), cs) else none

/-- The offset from UTC in minutes; the minus sign may also be the typographic one. -/
def offset? : List Char → Option (Int × List Char)
  | [] => none
  | c :: cs =>
    if c = 'Z' ∨ c = 'z' then some (0, cs)
    else if c = '+' then offsetSize? cs
    else if c = '-' ∨ c.toNat = 0x2212 then (offsetSize? cs).map fun (n, rest) => (-n, rest)
    else none

/-- Everything after the year: the rest of the date, a separator, the time and the offset. -/
def afterYear? (year : Int) (cs : List Char) : Option Moment := do
  let cs ← expect? '-' cs
  let (month, cs) ← number? 2 cs
  let cs ← expect? '-' cs
  let (day, cs) ← number? 2 cs
  let date ← Day.ofNumbers? year month day
  let cs ← match cs with
    | c :: rest => if c = 'T' ∨ c = 't' ∨ c = ' ' then some rest else none
    | [] => none
  let (hour, cs) ← number? 2 cs
  let cs ← expect? ':' cs
  let (minute, cs) ← number? 2 cs
  let cs ← expect? ':' cs
  let (second, cs) ← number? 2 cs
  let (nano, cs) ← fraction? cs
  let (offset, cs) ← offset? cs
  if cs.isEmpty then
    if h : hour < 24 ∧ minute < 60 ∧ second ≤ 60 ∧ nano < 1000000000 then
      some (ofLocal ⟨date, hour, minute, second, nano, h⟩ offset)
    else none
  else none

/-- The moment that a text writes. -/
def read? (s : String) : Option Moment := do
  let (year, cs) ← number? 4 s.toList
  afterYear? year cs

/-- The digits of a year after its sign: four at least. -/
def signedYear? (cs : List Char) : Option (Nat × List Char) :=
  let ds := cs.takeWhile fun c => (digit? c).isSome
  if ds.length < 4 ∨ 6 < ds.length then none else number? ds.length cs

/-- The moment that a text writes, also with a year beyond four digits or below zero. -/
def readSigned? (s : String) : Option Moment :=
  match s.toList with
  | '+' :: cs => do
    let (year, cs) ← signedYear? cs
    afterYear? year cs
  | '-' :: cs => do
    let (year, cs) ← signedYear? cs
    afterYear? (-(year : Int)) cs
  | _ => read? s

/-- The text writes a moment. -/
def isText (s : String) : Bool := (read? s).isSome

end SchemaKeeper.Moment
