import TemporalPattern.Proofs.Almanac
import TemporalPattern.Time.Literal

/-!
# Literals are read as they may be written freely

The patterns in which literals are read put the numbers and the marks in the order in which a
literal has them, so exactly the texts in which numbers are written freely are read.  A literal in
full is one of these.
-/

namespace TemporalPattern

open Pattern

/-! ## The parts of a literal -/

namespace Pattern

variable {value : Stamp.Part → Int} {p q : Pattern} {cs : List Char}

theorem matches_append : Matches value (p ++ q) cs ↔
    ∃ ds rest, Matches value p ds ∧ Matches value q rest ∧ cs = ds ++ rest := by
  induction p generalizing cs with
  | nil =>
      simp only [List.nil_append, matches_nil]
      constructor
      · exact fun h => ⟨[], cs, rfl, h, rfl⟩
      · rintro ⟨_, rest, rfl, h, rfl⟩
        exact h
  | cons item p ih =>
      cases item with
      | part r =>
          simp only [List.cons_append, matches_part, ih]
          constructor
          · rintro ⟨ds, _, hr, ⟨es, rest, hp, hq, rfl⟩, rfl⟩
            exact ⟨ds ++ es, rest, ⟨ds, es, hr, hp, rfl⟩, hq, (List.append_assoc ..).symm⟩
          · rintro ⟨_, rest, ⟨ds, es, hr, hp, rfl⟩, hq, rfl⟩
            exact ⟨ds, es ++ rest, hr, ⟨es, rest, hp, hq, rfl⟩, List.append_assoc ..⟩
      | mark c =>
          simp only [List.cons_append, matches_mark, ih]
          constructor
          · rintro ⟨_, ⟨es, rest, hp, hq, rfl⟩, rfl⟩
            exact ⟨c :: es, rest, ⟨es, hp, rfl⟩, hq, rfl⟩
          · rintro ⟨_, rest, ⟨es, hp, rfl⟩, hq, rfl⟩
            exact ⟨es ++ rest, ⟨es, rest, hp, hq, rfl⟩, rfl⟩
      | fraction => simp [not_matches_fraction]

theorem matches_day : Matches value day cs ↔ ∃ y m d, Spells .year y (value .year) ∧
    Spells .month m (value .month) ∧ Spells .day d (value .day) ∧
      cs = y ++ '-' :: (m ++ '-' :: d) := by
  simp only [day, matches_part, matches_mark, matches_nil]
  constructor
  · rintro ⟨y, _, hy, ⟨_, ⟨m, _, hm, ⟨_, ⟨d, _, hd, rfl, rfl⟩, rfl⟩, rfl⟩, rfl⟩, rfl⟩
    exact ⟨y, m, d, hy, hm, hd, by rw [List.append_nil]⟩
  · rintro ⟨y, m, d, hy, hm, hd, rfl⟩
    exact ⟨y, _, hy, ⟨_, ⟨m, _, hm, ⟨_, ⟨d, [], hd, rfl, rfl⟩, rfl⟩, rfl⟩, by simp⟩, rfl⟩

theorem matches_toMinute : Matches value toMinute cs ↔ ∃ ds h m, Matches value day ds ∧
    Spells .hour h (value .hour) ∧ Spells .minute m (value .minute) ∧
      cs = ds ++ 'T' :: (h ++ ':' :: m) := by
  simp only [toMinute, matches_append, matches_part, matches_mark, matches_nil]
  constructor
  · rintro ⟨ds, _, hds, ⟨_, ⟨h, _, hh, ⟨_, ⟨m, _, hm, rfl, rfl⟩, rfl⟩, rfl⟩, rfl⟩, rfl⟩
    exact ⟨ds, h, m, hds, hh, hm, by rw [List.append_nil]⟩
  · rintro ⟨ds, h, m, hds, hh, hm, rfl⟩
    exact ⟨ds, _, hds, ⟨_, ⟨h, _, hh, ⟨_, ⟨m, [], hm, rfl, rfl⟩, rfl⟩, rfl⟩, rfl⟩, by simp⟩

theorem matches_toSecond : Matches value toSecond cs ↔ ∃ ds s, Matches value toMinute ds ∧
    Spells .second s (value .second) ∧ cs = ds ++ ':' :: s := by
  simp only [toSecond, matches_append, matches_part, matches_mark, matches_nil]
  constructor
  · rintro ⟨ds, _, hds, ⟨_, ⟨s, _, hs, rfl, rfl⟩, rfl⟩, rfl⟩
    exact ⟨ds, s, hds, hs, by rw [List.append_nil]⟩
  · rintro ⟨ds, s, hds, hs, rfl⟩
    exact ⟨ds, _, hds, ⟨_, ⟨s, [], hs, rfl, rfl⟩, rfl⟩, by simp⟩

end Pattern

/-! ## Literals written freely -/

namespace Spelling

variable {cs ds : List Char} {n : Int}

theorem freely_part_iff {r : Stamp.Part} (hr : r ≠ .year) {k : Nat} :
    freely.part cs k ↔ Spells r cs k := by
  rw [spells_of_ne_year hr]
  constructor
  · exact fun h => ⟨k, h, rfl⟩
  · rintro ⟨n, hn, hk⟩
    obtain rfl := Int.ofNat_inj.1 hk
    exact hn

theorem freely_writesDate_iff {s : Stamp} (hs : s.Valid) :
    freely.WritesDate cs s.date ↔ Matches s.part day cs := by
  rw [matches_day]
  constructor
  · intro h
    obtain @⟨y, m, d, _, hy, hm, hd, -, -⟩ := h
    exact ⟨y, m, d, hy, (freely_part_iff (by decide)).1 hm, (freely_part_iff (by decide)).1 hd, rfl⟩
  · rintro ⟨y, m, d, hy, hm, hd, rfl⟩
    exact .date hy ((freely_part_iff (by decide)).2 hm) ((freely_part_iff (by decide)).2 hd)
      hs.year hs.date

/-- The second of a minute, where the leap second has number sixty. -/
def clockSecond (s : Stamp) : Nat :=
  s.second + s.nanosecond / 1000000000

theorem part_second (s : Stamp) : s.part .second = clockSecond s := by
  simp [Stamp.part, clockSecond]

theorem millis_of_whole {s : Stamp} (h : s.nanosecond % 1000000000 = 0) : s.millis =
    1000 * (86400 * s.date.dayNumber + (3600 * s.hour + 60 * s.minute + clockSecond s : Nat)) := by
  unfold Stamp.millis clockSecond
  omega

/-- A stamp with a given second up to the leap second. -/
theorem exists_clockSecond_eq {date : Date} {hour minute second : Nat}
    (hyear : InCalendar date.year) (hdate : date.Valid) (hhour : hour ≤ 23) (hminute : minute ≤ 59)
    (hsecond : second ≤ 60) : ∃ s : Stamp, s.Valid ∧ s.date = date ∧ s.hour = hour ∧
      s.minute = minute ∧ clockSecond s = second ∧ s.nanosecond % 1000000000 = 0 := by
  by_cases hleap : second = 60
  · refine ⟨⟨date, hour, minute, 59, 1000000000⟩, ⟨hyear, hdate, hhour, hminute, ?_, ?_⟩,
      rfl, rfl, rfl, ?_, ?_⟩
    · exact Nat.le_refl 59
    · exact .inr ⟨rfl, by simp⟩
    · simp [clockSecond, hleap]
    · simp
  · refine ⟨⟨date, hour, minute, second, 0⟩, ⟨hyear, hdate, hhour, hminute, ?_, ?_⟩,
      rfl, rfl, rfl, ?_, ?_⟩
    · exact Nat.lt_succ_iff.1 (Nat.lt_of_le_of_ne hsecond hleap)
    · exact .inl (by simp)
    · simp [clockSecond]
    · simp

theorem writes_of_names {p : Pattern} {s : Stamp} (hp : p ∈ literals) (h : p.Names s cs) :
    freely.Writes cs s.millis := by
  have hvalue := millis_of_whole h.whole
  obtain ⟨-, -, hhour, hminute, hsecond, hnano⟩ := h.valid
  rw [literals, List.mem_cons, List.mem_pair] at hp
  rcases hp with rfl | rfl | rfl
  · have hdate := (freely_writesDate_iff h.valid).2 h.matched
    have hwrites := Writes.instant hdate .midnight
    have hnone : 3600 * s.hour + 60 * s.minute + clockSecond s = 0 := by
      rw [h.eq_midnight]
      simp [Stamp.midnight, clockSecond]
    rwa [List.append_nil, ← hnone, ← hvalue] at hwrites
  · obtain ⟨ds, sec, hmatch, hs, rfl⟩ := matches_toSecond.1 h.matched
    obtain ⟨ds, h', m, hds, hh, hm, rfl⟩ := matches_toMinute.1 hmatch
    rw [part_second, ← freely_part_iff (by decide)] at hs
    have hlast : clockSecond s ≤ 60 := by
      unfold clockSecond
      omega
    have hclock := WritesClock.second ((freely_part_iff (by decide)).2 hh)
      ((freely_part_iff (by decide)).2 hm) hs hhour hminute hlast
    have hwrites := Writes.instant ((freely_writesDate_iff h.valid).2 hds) hclock
    rw [hvalue]
    simpa only [List.append_assoc, List.cons_append] using hwrites
  · obtain ⟨ds, h', m, hds, hh, hm, rfl⟩ := matches_toMinute.1 h.matched
    have hzero : clockSecond s = 0 := by
      have hunnamed := h.unnamed .second (by decide)
      rw [part_second] at hunnamed
      omega
    have hclock := WritesClock.minute ((freely_part_iff (by decide)).2 hh)
      ((freely_part_iff (by decide)).2 hm) hhour hminute
    have hwrites := Writes.instant ((freely_writesDate_iff h.valid).2 hds) hclock
    rwa [hvalue, hzero, Nat.add_zero]

theorem names_of_writes (h : freely.Writes cs n) :
    ∃ p ∈ literals, ∃ s, p.Names s cs ∧ s.millis = n := by
  obtain @⟨ds, rest, date, seconds, hdate, hclock⟩ := h
  have hyear : InCalendar date.year := by
    obtain ⟨-, -, -, hyear, -⟩ := hdate
    exact hyear
  have hvalid : date.Valid := by
    obtain ⟨-, -, -, -, hvalid⟩ := hdate
    exact hvalid
  have hpart : ∀ r : Stamp.Part, .part r ∈ toSecond := by
    rintro ⟨⟩ <;> decide
  cases hclock with
  | midnight =>
      obtain ⟨s, hs, rfl, hhour, hminute, hsecond, hwhole⟩ :=
        exists_clockSecond_eq hyear hvalid (Nat.zero_le _) (Nat.zero_le _) (Nat.zero_le _)
      have hmatch := (freely_writesDate_iff hs).1 hdate
      refine ⟨day, by decide, s, ⟨hs, ?_, fun r hr => ?_, hwhole⟩, ?_⟩
      · rwa [List.append_nil]
      · cases r with
        | year | month | day => exact absurd (by decide) hr
        | hour => exact congrArg Nat.cast hhour
        | minute => exact congrArg Nat.cast hminute
        | second => rw [part_second, hsecond, Int.natCast_zero]
      · rw [millis_of_whole hwhole, hhour, hminute, hsecond]
  | @minute h m hour minute hh hm hhour hminute =>
      obtain ⟨s, hs, rfl, rfl, rfl, hsecond, hwhole⟩ :=
        exists_clockSecond_eq hyear hvalid hhour hminute (Nat.zero_le _)
      have hmatch := (freely_writesDate_iff hs).1 hdate
      refine ⟨toMinute, by decide, s, ⟨hs, ?_, fun r hr => ?_, hwhole⟩, ?_⟩
      · exact matches_toMinute.2 ⟨ds, h, m, hmatch, (freely_part_iff (by decide)).1 hh,
          (freely_part_iff (by decide)).1 hm, rfl⟩
      · cases r with
        | second => rw [part_second, hsecond, Int.natCast_zero]
        | year | month | day | hour | minute => exact absurd (by decide) hr
      · rw [millis_of_whole hwhole, hsecond, Nat.add_zero]
  | @second h m sec hour minute second hh hm hsec hhour hminute hlast =>
      obtain ⟨s, hs, rfl, rfl, rfl, hsecond, hwhole⟩ :=
        exists_clockSecond_eq hyear hvalid hhour hminute hlast
      have hmatch := (freely_writesDate_iff hs).1 hdate
      refine ⟨toSecond, by decide, s, ⟨hs, ?_, fun r hr => absurd (hpart r) hr, hwhole⟩, ?_⟩
      · rw [matches_toSecond]
        refine ⟨ds ++ 'T' :: (h ++ ':' :: m), sec, matches_toMinute.2 ⟨ds, h, m, hmatch,
          (freely_part_iff (by decide)).1 hh, (freely_part_iff (by decide)).1 hm, rfl⟩, ?_, ?_⟩
        · rwa [part_second, hsecond, ← freely_part_iff (by decide)]
        · simp only [List.append_assoc, List.cons_append]
      · rw [millis_of_whole hwhole, hsecond]

end Spelling

namespace Almanac

variable {a : Almanac} (ha : a.Documented) {text : String}

include ha

theorem instant?_eq_some_iff_writes {time : Millis} :
    a.instant? text = some time ↔ Spelling.freely.Writes text.toList time.toInt := by
  rw [instant?_eq_some_iff ha]
  constructor
  · rintro ⟨p, hp, s, hs, hmillis⟩
    rw [← hmillis]
    exact Spelling.writes_of_names hp hs
  · exact Spelling.names_of_writes

theorem exists_of_writes {n : Int} (h : Spelling.freely.Writes text.toList n) :
    ∃ time : Millis, time.toInt = n ∧ a.instant? text = some time := by
  obtain ⟨p, hp, s, hs, rfl⟩ := Spelling.names_of_writes h
  have htime := hs.valid.toInt_ofInt_millis
  exact ⟨.ofInt s.millis, htime, (instant?_eq_some_iff ha).2 ⟨p, hp, s, hs, htime.symm⟩⟩

theorem instant?_eq_none_iff :
    a.instant? text = none ↔ ∀ n, ¬ Spelling.freely.Writes text.toList n := by
  constructor
  · intro hnone n h
    obtain ⟨time, -, hread⟩ := exists_of_writes ha h
    rw [hnone] at hread
    contradiction
  · intro h
    rw [Option.eq_none_iff_forall_ne_some]
    intro time hread
    exact h _ ((instant?_eq_some_iff_writes ha).1 hread)

end Almanac

/-! ## Literals in full -/

namespace Spelling

variable {cs : List Char} {n : Int}

theorem freely_year_of_inFull {year : Int} (h : inFull.year cs year) : freely.year cs year := by
  obtain ⟨n, hn, rfl⟩ := h
  exact afterBlanks_of_none (.plain (hn.mono (by decide)))

theorem freely_part_of_inFull {n : Nat} (h : inFull.part cs n) : freely.part cs n :=
  afterBlanks_of_none (IsNumber.mono h (by decide))

theorem freely_writesDate_of_inFull {date : Date} (h : inFull.WritesDate cs date) :
    freely.WritesDate cs date := by
  obtain ⟨hy, hm, hd, hyear, hvalid⟩ := h
  exact .date (freely_year_of_inFull hy) (freely_part_of_inFull hm) (freely_part_of_inFull hd)
    hyear hvalid

theorem freely_writesClock_of_inFull {seconds : Nat} (h : inFull.WritesClock cs seconds) :
    freely.WritesClock cs seconds := by
  cases h with
  | midnight => exact .midnight
  | minute hh hm hhour hminute =>
      exact .minute (freely_part_of_inFull hh) (freely_part_of_inFull hm) hhour hminute
  | second hh hm hs hhour hminute hsecond =>
      exact .second (freely_part_of_inFull hh) (freely_part_of_inFull hm)
        (freely_part_of_inFull hs) hhour hminute (Nat.le_succ_of_le hsecond)

theorem freely_writes_of_inFull (h : inFull.Writes cs n) : freely.Writes cs n := by
  obtain ⟨hdate, hclock⟩ := h
  exact .instant (freely_writesDate_of_inFull hdate) (freely_writesClock_of_inFull hclock)

/-- Four digits, a dash, two digits, a dash and two digits are ten characters. -/
theorem le_length_of_inFull (h : inFull.Writes cs n) : 10 ≤ cs.length := by
  obtain ⟨hdate, -⟩ := h
  obtain ⟨⟨_, hy, -⟩, hm, hd, -, -⟩ := hdate
  have hyear := hy.least
  have hmonth := hm.least
  have hday := hd.least
  simp only [List.length_append, List.length_cons]
  omega

end Spelling

/-- Except for the current instant, with every almanac that is as documented, exactly the texts in
which an instant is written freely name this instant, and every other text is an error that carries
it; a literal in full is among them.  Numbers may have blanks before them and fewer digits, a year
may have a sign and then any number of digits, and a minute may have sixty seconds. -/
theorem Moment.literals_are_read_as_freely_written (a : Almanac) (ha : a.Documented)
    (text : String) (hnow : (Text.trim text).map Char.toLower ≠ "now") :
    (∀ time : Millis, a.parse text = .ok (.fixed time) ↔
      Spelling.freely.Writes (Text.trim text).toList time.toInt) ∧
    (a.parse text = .error (.malformedInstant text) ↔
      ∀ n, ¬ Spelling.freely.Writes (Text.trim text).toList n) ∧
    ∀ n, Spelling.inFull.Writes (Text.trim text).toList n →
      ∃ time : Millis, time.toInt = n ∧ a.parse text = .ok (.fixed time) := by
  rw [Almanac.parse_of_ne_now hnow]
  refine ⟨fun time => ?_, ?_, fun n h => ?_⟩
  · rw [← Almanac.instant?_eq_some_iff_writes ha]
    cases a.instant? (Text.trim text) <;> simp
  · rw [← Almanac.instant?_eq_none_iff ha]
    cases a.instant? (Text.trim text) <;> simp
  · obtain ⟨time, htime, hread⟩ :=
      Almanac.exists_of_writes ha (Spelling.freely_writes_of_inFull h)
    refine ⟨time, htime, ?_⟩
    rw [hread, Option.elim_some]

theorem Moment.literals_are_read_as_freely_written_of_leap_day :
    let a := Almanac.gregorian
    let text := " 2020-02-29T23:59:59 "
    let short := "+20200-2-9"
    a.Documented ∧ (Text.trim text).map Char.toLower ≠ "now" ∧
      (Text.trim short).map Char.toLower ≠ "now" ∧
      Spelling.inFull.Writes (Text.trim text).toList 1583020799000 ∧
      (∃ time : Millis, time.toInt = 1583020799000 ∧ a.parse text = .ok (.fixed time)) ∧
      Spelling.freely.Writes (Text.trim short).toList 575286624000000 := by
  intro a text short
  have ha : a.Documented := Almanac.documented_gregorian
  have hnow : (Text.trim text).map Char.toLower ≠ "now" := by decide +kernel
  have hshort : (Text.trim short).map Char.toLower ≠ "now" := by decide +kernel
  have hyear : Spelling.inFull.year "2020".toList 2020 := ⟨2020, by decide, rfl⟩
  have hmonth : IsNumber 2 2 "02".toList 2 := by decide
  have hday : IsNumber 2 2 "29".toList 29 := by decide
  have hhour : IsNumber 2 2 "23".toList 23 := by decide
  have hlast : IsNumber 2 2 "59".toList 59 := by decide
  have htext : (Text.trim text).toList = ("2020".toList ++ '-' :: ("02".toList ++ '-' ::
      "29".toList)) ++ 'T' :: ("23".toList ++ ':' :: ("59".toList ++ ':' :: "59".toList)) := by
    decide +kernel
  have hdate : Spelling.inFull.WritesDate
      ("2020".toList ++ '-' :: ("02".toList ++ '-' :: "29".toList)) ⟨2020, 2, 29⟩ :=
    .date hyear hmonth hday (by decide) (by decide)
  have hclock : Spelling.inFull.WritesClock
      ('T' :: ("23".toList ++ ':' :: ("59".toList ++ ':' :: "59".toList)))
      (3600 * 23 + 60 * 59 + 59) :=
    .second hhour hlast hlast (by decide) (by decide) (by decide)
  have hvalue : 1000 * (86400 * (⟨2020, 2, 29⟩ : Date).dayNumber +
      (3600 * 23 + 60 * 59 + 59 : Nat)) = 1583020799000 := by decide
  have hwritten := Spelling.Writes.instant hdate hclock
  rw [hvalue, ← htext] at hwritten
  have hread : a.parse short = .ok (.fixed 575286624000000) := by decide +kernel
  have hmillis : (575286624000000 : Millis).toInt = 575286624000000 := by decide
  have hloose :=
    ((literals_are_read_as_freely_written a ha short hshort).1 575286624000000).1 hread
  rw [hmillis] at hloose
  exact ⟨ha, hnow, hshort, hwritten,
    (literals_are_read_as_freely_written a ha text hnow).2.2 _ hwritten, hloose⟩

/-- Two digits of a year are the year of that number. -/
theorem Moment.literal_with_short_year_is_read :
    Almanac.gregorian.Documented ∧ (Text.trim "20-01-01").map Char.toLower ≠ "now" ∧
      Almanac.gregorian.parse "20-01-01" = .ok (.fixed (-61536067200000)) ∧
      ∀ n, ¬ Spelling.inFull.Writes (Text.trim "20-01-01").toList n := by
  refine ⟨Almanac.documented_gregorian, by decide +kernel, by decide +kernel, fun n h => ?_⟩
  have hlength := Spelling.le_length_of_inFull h
  exact absurd hlength (by decide +kernel)

end TemporalPattern
