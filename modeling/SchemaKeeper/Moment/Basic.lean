/-!
# Moments

A moment is a day of the Gregorian calendar, carried on before its introduction and before year
one, and a time of that day in UTC down to the nanosecond.  Second 60 is a leap second and may
close any minute.
-/
namespace SchemaKeeper

/-- A year with 29 days in February. -/
def isLeapYear (year : Int) : Bool :=
  year % 4 == 0 && (year % 100 != 0 || year % 400 == 0)

/-- The number of days in a month. -/
def daysInMonth (year : Int) (month : Nat) : Nat :=
  if month = 2 then (if isLeapYear year then 29 else 28)
  else if month = 4 ∨ month = 6 ∨ month = 9 ∨ month = 11 then 30
  else 31

theorem twentyEight_le_daysInMonth (year : Int) (month : Nat) : 28 ≤ daysInMonth year month := by
  unfold daysInMonth; repeat' split
  all_goals omega

/-- A calendar day. -/
structure Day where
  year : Int
  month : Nat
  day : Nat
  valid : 1 ≤ month ∧ month ≤ 12 ∧ 1 ≤ day ∧ day ≤ daysInMonth year month
  deriving DecidableEq

namespace Day

/-- The day with these numbers, if the calendar has it. -/
def ofNumbers? (year : Int) (month day : Nat) : Option Day :=
  if h : 1 ≤ month ∧ month ≤ 12 ∧ 1 ≤ day ∧ day ≤ daysInMonth year month then
    some ⟨year, month, day, h⟩
  else none

/-- The day after. -/
def next (d : Day) : Day :=
  if h : d.day < daysInMonth d.year d.month then
    ⟨d.year, d.month, d.day + 1, d.valid.1, d.valid.2.1, by omega, h⟩
  else if hm : d.month < 12 then
    ⟨d.year, d.month + 1, 1, by omega, by omega, by omega, by
      have := twentyEight_le_daysInMonth d.year (d.month + 1); omega⟩
  else ⟨d.year + 1, 1, 1, by omega, by omega, by omega, by
      have := twentyEight_le_daysInMonth (d.year + 1) 1; omega⟩

/-- The day before. -/
def previous (d : Day) : Day :=
  if h : 1 < d.day then
    ⟨d.year, d.month, d.day - 1, d.valid.1, d.valid.2.1, by omega, by
      have := d.valid.2.2.2; omega⟩
  else if hm : 1 < d.month then
    ⟨d.year, d.month - 1, daysInMonth d.year (d.month - 1), by omega, by
      have := d.valid.2.1; omega, by
      have := twentyEight_le_daysInMonth d.year (d.month - 1); omega, by omega⟩
  else ⟨d.year - 1, 12, daysInMonth (d.year - 1) 12, by omega, by omega, by
      have := twentyEight_le_daysInMonth (d.year - 1) 12; omega, by omega⟩

/-- The first day of 1970. -/
def epoch : Day := ⟨1970, 1, 1, by decide⟩

/-- The day that lies the given number of days after the first of 1970. -/
def ofCount (days : Nat) : Day := days.repeat next epoch

end Day

/-- An instant in UTC. -/
structure Moment where
  date : Day
  hour : Nat
  minute : Nat
  second : Nat
  nano : Nat
  valid : hour < 24 ∧ minute < 60 ∧ second ≤ 60 ∧ nano < 1000000000
  deriving DecidableEq

namespace Moment

/-- The instant shown by a clock that is `offset` minutes ahead of UTC. -/
def ofLocal (m : Moment) (offset : Int) : Moment :=
  let total : Int := (m.hour * 60 + m.minute : Nat) - offset
  let date := if total < 0 then m.date.previous else if 1440 ≤ total then m.date.next else m.date
  let minutes := (total % 1440).toNat
  ⟨date, minutes / 60, minutes % 60, m.second, m.nano, by
    have h : minutes < 1440 := by
      have h1 := Int.emod_nonneg total (by omega : (1440 : Int) ≠ 0)
      have h2 := Int.emod_lt_of_pos total (by omega : (0 : Int) < 1440)
      omega
    have := m.valid
    omega⟩

/-- The instant that lies the given number of nanoseconds after the start of 1970. -/
def ofNanoseconds (n : Nat) : Moment :=
  let seconds := n / 1000000000
  let rest := seconds % 86400
  ⟨Day.ofCount (seconds / 86400), rest / 3600, rest % 3600 / 60, rest % 60, n % 1000000000, by
    have : rest < 86400 := Nat.mod_lt _ (by omega)
    omega⟩

@[simp] theorem second_ofLocal (m : Moment) (offset : Int) :
    (m.ofLocal offset).second = m.second := rfl

@[simp] theorem nano_ofLocal (m : Moment) (offset : Int) :
    (m.ofLocal offset).nano = m.nano := rfl

end Moment
end SchemaKeeper
