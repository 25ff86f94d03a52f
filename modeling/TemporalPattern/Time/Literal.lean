import TemporalPattern.Time.Pattern

/-!
# Literals of instants

The texts that name an instant: year, month and day with dashes between them, and perhaps the hour
and the minute of the day, and perhaps the second.  How the numbers in them are written is a
parameter.  In full they have all their digits and nothing else; freely, they may have blanks
before them and fewer digits, the year may have a sign, and a minute may have a second more.
-/

namespace TemporalPattern

/-- How the year and the other numbers of a literal are written, and the last second of a minute. -/
structure Spelling where
  year : List Char → Int → Prop
  part : List Char → Nat → Prop
  lastSecond : Nat

namespace Spelling

open Pattern

/-- Four digits for the year, two for every other number. -/
def inFull : Spelling where
  year cs year := ∃ n : Nat, IsNumber 4 4 cs n ∧ year = n
  part := IsNumber 2 2
  lastSecond := 59

def freely : Spelling where
  year cs year := AfterBlanks (IsYear · year) cs
  part cs n := AfterBlanks (IsNumber 1 2 · n) cs
  lastSecond := 60

variable (σ : Spelling)

/-- A text that names a date of the calendar. -/
inductive WritesDate : List Char → Date → Prop where
  | date {y m d : List Char} {date : Date} (hy : σ.year y date.year) (hm : σ.part m date.month)
      (hd : σ.part d date.day) (hyear : InCalendar date.year) (hvalid : date.Valid) :
      WritesDate (y ++ '-' :: (m ++ '-' :: d)) date

/-- What may follow a date, and the seconds since midnight. -/
inductive WritesClock : List Char → Nat → Prop where
  | midnight : WritesClock [] 0
  | minute {h m : List Char} {hour minute : Nat} (hh : σ.part h hour) (hm : σ.part m minute)
      (hhour : hour ≤ 23) (hminute : minute ≤ 59) :
      WritesClock ('T' :: (h ++ ':' :: m)) (3600 * hour + 60 * minute)
  | second {h m s : List Char} {hour minute second : Nat} (hh : σ.part h hour)
      (hm : σ.part m minute) (hs : σ.part s second) (hhour : hour ≤ 23) (hminute : minute ≤ 59)
      (hsecond : second ≤ σ.lastSecond) :
      WritesClock ('T' :: (h ++ ':' :: (m ++ ':' :: s))) (3600 * hour + 60 * minute + second)

/-- A text that names an instant, in milliseconds since the epoch. -/
inductive Writes : List Char → Int → Prop where
  | instant {cs ds : List Char} {date : Date} {seconds : Nat} (hdate : σ.WritesDate cs date)
      (hclock : σ.WritesClock ds seconds) :
      Writes (cs ++ ds) (1000 * (86400 * date.dayNumber + seconds))

end Spelling
end TemporalPattern
