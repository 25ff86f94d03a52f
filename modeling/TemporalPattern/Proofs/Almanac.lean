import TemporalPattern.Proofs.Gregorian

/-!
# Instants in an almanac

What holds of every almanac that is as documented.  The patterns of literals differ in the number
of colons, so no text can be read by two of them and the order of the attempts does not matter; and
an instant has a stamp exactly if it falls on a date of the calendar.
-/

namespace TemporalPattern

open Pattern

/-- The patterns in which literals are read. -/
def Pattern.literals : List Pattern :=
  [day, toSecond, toMinute]

/-- No text stands for stamps in two patterns with different numbers of colons. -/
theorem Pattern.not_names_of_count_ne {p q : Pattern} {s : Stamp} {cs : List Char}
    (h : p.Names s cs) (hcount : p.count (.mark ':') ≠ q.count (.mark ':')) (s' : Stamp) :
    ¬ q.Names s' cs := by
  intro h'
  apply hcount
  rw [← count_eq_of_matches (by decide) h.matched, ← count_eq_of_matches (by decide) h'.matched]

namespace Almanac

variable {a : Almanac} (ha : a.Documented) {text : String} {time : Millis} {s : Stamp}

theorem parse_of_ne_now (hnow : (Text.trim text).map Char.toLower ≠ "now") :
    a.parse text = (a.instant? (Text.trim text)).elim (.error (.malformedInstant text))
      fun time => .ok (.fixed time) := by
  simp only [parse, if_neg hnow]
  cases a.instant? (Text.trim text) <;> rfl

include ha

theorem readDate?_bind_eq_some_iff :
    (a.readDate? .day text).bind (a.at? · 0 0 0) = some s ↔ day.Names s text.toList := by
  simp only [Option.bind_eq_some_iff, ha.readDate?, ha.at?]
  constructor
  · rintro ⟨date, hdate, -, rfl⟩
    exact hdate
  · intro h
    have hs := h.eq_midnight
    refine ⟨s.date, ?_, h.valid, hs⟩
    rwa [← hs]

theorem instant?_eq_some_iff : a.instant? text = some time ↔
    ∃ p ∈ literals, ∃ s, p.Names s text.toList ∧ s.millis = time.toInt := by
  have hsecond {s : Stamp} := ha.readStamp? toSecond (by decide) text s
  have hminute {s : Stamp} := ha.readStamp? toMinute (by decide) text s
  have hmillis {p : Pattern} {s : Stamp} (h : p.Names s text.toList) :
      a.millis s = time ↔ s.millis = time.toInt := by
    rw [← Int64.toInt_inj, ha.millis s h.valid]
  simp only [instant?, Option.orElse_eq_orElse, Option.orElse_eq_or, Option.map_eq_some_iff,
    Option.or_eq_some_iff, Option.eq_none_iff_forall_ne_some, ne_eq, readDate?_bind_eq_some_iff ha,
    hsecond, hminute]
  constructor
  · rintro ⟨s, h | ⟨-, h | ⟨-, h⟩⟩, htime⟩
    · exact ⟨day, by decide, s, h, (hmillis h).1 htime⟩
    · exact ⟨toSecond, by decide, s, h, (hmillis h).1 htime⟩
    · exact ⟨toMinute, by decide, s, h, (hmillis h).1 htime⟩
  · rintro ⟨p, hp, s, h, htime⟩
    refine ⟨s, ?_, (hmillis h).2 htime⟩
    rw [literals, List.mem_cons, List.mem_pair] at hp
    rcases hp with rfl | rfl | rfl
    · exact .inl h
    · exact .inr ⟨not_names_of_count_ne h (by decide), .inl h⟩
    · have hday := not_names_of_count_ne h (q := day) (by decide)
      have htoSecond := not_names_of_count_ne h (q := toSecond) (by decide)
      exact .inr ⟨hday, .inr ⟨htoSecond, h⟩⟩

theorem nearEpoch_of_parse {moment : Moment} {now : Millis} (hnow : now.NearEpoch)
    (h : a.parse text = .ok moment) : (moment.time now).NearEpoch := by
  simp only [parse] at h
  split at h
  case isTrue =>
    obtain rfl := Except.ok.inj h
    exact hnow
  case isFalse =>
    split at h
    case h_1 time htime =>
      obtain rfl := Except.ok.inj h
      obtain ⟨p, -, s, hs, hmillis⟩ := (instant?_eq_some_iff ha).1 htime
      exact hs.valid.nearEpoch hmillis
    case h_2 => simp at h

/-- What is documented determines the stamp of an instant. -/
theorem stamp?_eq (time : Millis) :
    a.stamp? time = if time.HasDate then some (Stamp.ofMillis time.toInt) else none := by
  have hsame : a.stamp? time = gregorian.stamp? time := by
    ext s
    rw [ha.stamp?, documented_gregorian.stamp?]
  rw [hsame]
  exact if_congr Stamp.valid_ofMillis_iff rfl rfl

end Almanac
end TemporalPattern
