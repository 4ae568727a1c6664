import Mathlib.Order.Lattice
import SchemaKeeper.Moment.Basic

/-!
# Earlier and later moments

Moments are in the order of the calendar.  Each day gets a number that grows from one day to the
next, and so does each moment; a clock that counts nanoseconds never goes back.
-/
namespace SchemaKeeper

namespace Day

/-- A number by which days are in order. -/
def reading (d : Day) : Int := (d.year * 13 + d.month) * 32 + d.day

theorem daysInMonth_le (year : Int) (month : Nat) : daysInMonth year month ≤ 31 := by
  unfold daysInMonth
  repeat' split
  all_goals omega

theorem reading_injective {d d' : Day} (h : d.reading = d'.reading) : d = d' := by
  obtain ⟨year, month, day, hvalid⟩ := d
  obtain ⟨year', month', day', hvalid'⟩ := d'
  have hdays := daysInMonth_le year month
  have hdays' := daysInMonth_le year' month'
  simp only [reading] at h
  obtain rfl : year = year' := by omega
  obtain rfl : month = month' := by omega
  obtain rfl : day = day' := by omega
  rfl

theorem reading_lt_next (d : Day) : d.reading < d.next.reading := by
  have hdays := daysInMonth_le d.year d.month
  have hvalid := d.valid
  unfold next
  split
  · simp only [reading]
    omega
  · split
    all_goals
      simp only [reading]
      omega

theorem ofCount_succ (n : Nat) : ofCount (n + 1) = (ofCount n).next := rfl

theorem reading_ofCount {n n' : Nat} (h : n < n') : (ofCount n).reading < (ofCount n').reading := by
  have hstep : StrictMono fun n => (ofCount n).reading :=
    strictMono_nat_of_lt_succ fun n => ofCount_succ n ▸ reading_lt_next (ofCount n)
  exact hstep h

end Day

namespace Moment

/-- A number by which moments are in order. -/
def reading (m : Moment) : Int :=
  (((m.date.reading * 24 + m.hour) * 60 + m.minute) * 61 + m.second) * 1000000000 + m.nano

theorem reading_injective {m m' : Moment} (h : m.reading = m'.reading) : m = m' := by
  obtain ⟨date, hour, minute, second, nano, hvalid⟩ := m
  obtain ⟨date', hour', minute', second', nano', hvalid'⟩ := m'
  simp only [reading] at h
  obtain rfl : date = date' := Day.reading_injective (by omega)
  obtain rfl : hour = hour' := by omega
  obtain rfl : minute = minute' := by omega
  obtain rfl : second = second' := by omega
  obtain rfl : nano = nano' := by omega
  rfl

instance : LinearOrder Moment := LinearOrder.lift' reading fun _ _ => reading_injective

theorem le_iff {m m' : Moment} : m ≤ m' ↔ m.reading ≤ m'.reading := .rfl

/-- A clock that counts nanoseconds never goes back. -/
theorem ofNanoseconds_mono : Monotone ofNanoseconds := by
  intro n n' h
  rw [le_iff]
  simp only [reading, ofNanoseconds]
  rcases Nat.lt_or_ge (n / 1000000000 / 86400) (n' / 1000000000 / 86400) with hday | hday
  · have hlt := Day.reading_ofCount hday
    omega
  · have heq : n / 1000000000 / 86400 = n' / 1000000000 / 86400 := by omega
    rw [heq]
    omega

end Moment
end SchemaKeeper
