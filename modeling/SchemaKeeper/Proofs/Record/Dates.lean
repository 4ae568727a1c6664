import SchemaKeeper.Proofs.Moment.Years
import SchemaKeeper.Proofs.Record.Any
import SchemaKeeper.Proofs.Validator.Accept
import SchemaKeeper.Value.Fits

/-!
# Datetimes in the store

Every moment is an instance of the type of datetimes.  Its stored form carries its text, and both
the rule of dates and the reader of records take that text with a year of four digits alone.
-/
namespace SchemaKeeper.Record

variable (m : Moment) (path : String)

theorem wrapped?_stored_datetime : (Value.datetime m).stored.wrapped? "$date" = some m.text :=
  Json.wrapped?_eq_some.2 rfl

theorem dateOf?_stored_eq :
    dateOf? (Value.datetime m).stored = if m.HasPlainYear then some m else none := by
  rw [dateOf?, wrapped?_stored_datetime, Option.bind_eq_bind, Option.bind_some,
    Moment.read?_text_eq]

theorem isDate_stored : Rule.isDate (Value.datetime m).stored = decide m.HasPlainYear := by
  rw [Rule.isDate, wrapped?_stored_datetime]
  simp only [Moment.isText, Moment.read?_text_eq]
  split <;> simp_all

theorem check_stored_datetime : Rule.check path (.ofScalar .datetime) (Value.datetime m).stored =
    if m.HasPlainYear then .ok () else .error ⟨path, "date", "object"⟩ := by
  have hcheck : Rule.check path (.ofScalar .datetime) (Value.datetime m).stored =
      Rule.checkScalar path .date (Value.datetime m).stored
        (Rule.isDate (Value.datetime m).stored) := rfl
  rw [hcheck, isDate_stored, Rule.checkScalar]
  simp only [decide_eq_true_eq]
  rfl

/-- Where a datetime is declared every moment is taken, and it survives storage exactly if its year
has four digits: then the rule of dates lets its stored form through and the moment that is read
back is the same, down to the nanosecond and the leap second; with a signed year the rule complains
and nothing is read back.  A text of RFC 3339 leads to such a year only where its offset moves it to
the day before year 0 or to the day after year 9999. -/
theorem datetime_survives_iff : (Value.datetime m).fits (.scalar .datetime) = true ∧
    Rule.check path (.ofScalar .datetime) (Value.datetime m).stored =
      (if m.HasPlainYear then .ok () else .error ⟨path, "date", "object"⟩) ∧
    dateOf? (Value.datetime m).stored = (if m.HasPlainYear then some m else none) ∧
    ∀ text, Moment.read? text = some m →
      m.HasPlainYear ∨ m.date = .last (-1) ∨ m.date = .first 10000 :=
  ⟨rfl, check_stored_datetime m path, dateOf?_stored_eq m, fun _ => Moment.date_of_read?⟩

/-- A leap second by a clock seven hours behind, with its nanosecond. -/
def sampleMoment : Moment := ⟨⟨1972, 6, 30, by decide⟩, 23, 59, 60, 1, by decide⟩

/-- The leap second is taken, let through and read back. -/
theorem datetime_survives_sample :
    Moment.read? "1972-06-30T16:59:60.000000001-07:00" = some sampleMoment ∧
    Rule.check "d" (.ofScalar .datetime) (Value.datetime sampleMoment).stored = .ok () ∧
    dateOf? (Value.datetime sampleMoment).stored = some sampleMoment :=
  have hstored := datetime_survives_iff sampleMoment "d"
  ⟨by decide +kernel, hstored.2.1.trans (if_pos (by decide)),
    hstored.2.2.1.trans (if_pos (by decide))⟩

/-- A leap second in the last minute of year 9999 by a clock that is a minute behind is taken as a
datetime, and once it is stored neither the rule nor the reader takes it. -/
theorem datetime_not_survives : ∃ m, Moment.read? "9999-12-31T23:59:60-00:01" = some m ∧
    (Value.datetime m).fits (.scalar .datetime) = true ∧
    Rule.check "d" (.ofScalar .datetime) (Value.datetime m).stored =
      .error ⟨"d", "date", "object"⟩ ∧
    dateOf? (Value.datetime m).stored = none :=
  ⟨⟨.first 10000, 0, 0, 60, 0, by decide⟩, by decide +kernel, rfl,
    (check_stored_datetime _ _).trans (if_neg (by decide)),
    (dateOf?_stored_eq _).trans (if_neg (by decide))⟩

end SchemaKeeper.Record
