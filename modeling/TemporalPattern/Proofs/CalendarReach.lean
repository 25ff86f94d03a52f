import TemporalPattern.Proofs.Calendar
import TemporalPattern.Time.Instant

/-!
# The reach of the calendar

Every instant on a date of the calendar is so near the epoch that the distance between two of them
is again a 64-bit number.
-/

namespace TemporalPattern

namespace Date

theorem dayNumber_bounds {d : Date} (hyear : InCalendar d.year) (hvalid : d.Valid) :
    -100000000 ≤ d.dayNumber ∧ d.dayNumber ≤ 100000000 := by
  have hday : d.dayOfYear < 366 := by
    have hlast := dayOfYear_lt hvalid
    rw [yearLength_eq] at hlast
    split at hlast <;> omega
  rw [dayNumber_eq hvalid]
  unfold InCalendar at hyear
  simp only [daysBeforeYear, epoch]
  omega

theorem dayNumber_of_inCalendar {n : Int} (h : InCalendar (ofDayNumber n).year) :
    -100000000 ≤ n ∧ n ≤ 100000000 := by
  obtain ⟨hvalid, hnumber⟩ := ofDayNumber_spec n
  have hbounds := dayNumber_bounds h hvalid
  rwa [hnumber] at hbounds

end Date

namespace Millis

theorem least_le_sub_of_nearEpoch {s t : Millis} (hs : s.NearEpoch) (ht : t.NearEpoch) :
    least ≤ t.toInt - s.toInt := by
  unfold NearEpoch least greatest at *
  omega

theorem nearEpoch_of_hasDate {time : Millis} (h : time.HasDate) : time.NearEpoch := by
  have hday := Date.dayNumber_of_inCalendar h
  unfold NearEpoch least greatest
  omega

end Millis

namespace Stamp.Valid

variable {s : Stamp} (h : s.Valid)

include h

theorem millis_bounds : Millis.least ≤ 2 * s.millis ∧ 2 * s.millis ≤ Millis.greatest := by
  obtain ⟨hday, hday'⟩ := Date.dayNumber_bounds h.year h.date
  obtain ⟨-, -, hhour, hminute, hsecond, hnano⟩ := h
  simp only [millis, Millis.least, Millis.greatest]
  omega

/-- The instant of a stamp does not leave the 64-bit numbers. -/
theorem toInt_ofInt_millis : (Int64.ofInt s.millis).toInt = s.millis := by
  obtain ⟨hleast, hgreatest⟩ := h.millis_bounds
  apply Millis.toInt_ofInt_of_fits
  · unfold Millis.least at *
    omega
  · unfold Millis.greatest at *
    omega

theorem nearEpoch {time : Millis} (htime : s.millis = time.toInt) : time.NearEpoch := by
  have hbounds := h.millis_bounds
  rwa [htime] at hbounds

end Stamp.Valid
end TemporalPattern
