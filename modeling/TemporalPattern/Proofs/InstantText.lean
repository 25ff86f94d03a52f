import TemporalPattern.Proofs.Almanac

/-!
# Instants are read as they are written

An instant on a date of the calendar is read back from its text if it is a whole number of seconds;
every other text of an instant is refused.  All the same the text is exact: different instants have
different texts, because a fraction of a second is written after everything that can be read.
-/

namespace TemporalPattern

open Pattern

/-! ## The stamp of an instant -/

namespace Stamp

variable {s : Stamp}

/-- The pattern in which a stamp is written. -/
def pattern (s : Stamp) : Pattern :=
  if s.nanosecond = 0 then
    if s.hour = 0 ∧ s.minute = 0 ∧ s.second = 0 then day else toSecond
  else toMilli

theorem pattern_of_fraction (h : s.nanosecond ≠ 0) : s.pattern = toMilli :=
  if_neg h

theorem pattern_subset (s : Stamp) : s.pattern ⊆ toMilli := by
  unfold pattern
  split
  case isTrue => split <;> decide
  case isFalse => exact List.Subset.refl _

theorem pattern_mem_literals (h : s.nanosecond = 0) : s.pattern ∈ literals := by
  rw [pattern, if_pos h]
  split <;> decide

theorem names_text_toSecond (hs : s.Valid) (h : s.nanosecond = 0) :
    toSecond.Names s (toSecond.text s) := by
  have hpart : ∀ r : Part, .part r ∈ toSecond := by
    rintro ⟨⟩ <;> decide
  exact ⟨hs, matches_text hs (by decide), fun r hr => absurd (hpart r) hr, by rw [h]⟩

/-- A whole second is named by its own text. -/
theorem names_text_pattern (hs : s.Valid) (h : s.nanosecond = 0) :
    s.pattern.Names s (s.pattern.text s) := by
  rw [pattern, if_pos h]
  split
  case isTrue hmidnight =>
    refine ⟨hs, matches_text hs (by decide), fun r hr => ?_, by rw [h]⟩
    cases r with
    | year | month | day => exact absurd (by decide) hr
    | hour | minute | second => simp [part, hmidnight, h]
  case isFalse => exact names_text_toSecond hs h

theorem nanosecond_ofMillis_eq_zero_iff {n : Int} :
    (ofMillis n).nanosecond = 0 ↔ n % 1000 = 0 := by
  simp only [ofMillis]
  omega

theorem nanosecond_ofMillis_lt (n : Int) : (ofMillis n).nanosecond < 1000000000 := by
  simp only [ofMillis]
  omega

end Stamp

theorem Millis.hasDate_iff {time : Millis} : time.HasDate ↔
    ∃ d : Date, d.Valid ∧ InCalendar d.year ∧ d.dayNumber = time.toInt / 86400000 := by
  obtain ⟨hvalid, hnumber⟩ := Date.ofDayNumber_spec (time.toInt / 86400000)
  constructor
  · intro h
    exact ⟨_, hvalid, h, hnumber⟩
  · rintro ⟨d, hd, hyear, hday⟩
    have hdate : d = .ofDayNumber (time.toInt / 86400000) := by
      apply Date.eq_of_dayNumber_eq hd hvalid
      rw [hday, hnumber]
    rwa [hdate] at hyear

/-! ## The characters of texts -/

/-- The characters that instants are written with. -/
def IsWritten (c : Char) : Prop :=
  c.isDigit ∨ c ∈ ['-', '+', ':', 'T', '.']

theorem isWritten_padded (width n : Nat) : ∀ c ∈ padded width n, IsWritten c :=
  fun c hc => .inl ((isDigits_padded width n).digits c hc)

theorem isWritten_toString (k : Int) : ∀ c ∈ (toString k).toList, IsWritten c := by
  intro c hc
  rw [toList_toString, List.mem_append] at hc
  rcases hc with hc | hc
  · split at hc
    · rw [List.mem_singleton.1 hc]
      exact .inr (by decide)
    · simp at hc
  · exact .inl ((isDigits_toDigits k.natAbs).digits c hc)

theorem isWritten_yearText (year : Int) : ∀ c ∈ yearText year, IsWritten c := by
  have hdigits := isWritten_padded 4 year.natAbs
  unfold yearText
  split
  case isTrue => exact hdigits
  case isFalse =>
    refine List.forall_mem_cons.2 ⟨?_, hdigits⟩
    split <;> exact .inr (by decide)

theorem isWritten_text {p : Pattern} (hp : ∀ c, .mark c ∈ p → IsWritten c) (s : Stamp) :
    ∀ c ∈ p.text s, IsWritten c := by
  have hpoint : IsWritten '.' := .inr (by decide)
  intro c hc
  obtain ⟨item, hitem, hc⟩ := List.mem_flatMap.1 hc
  cases item with
  | part r =>
      by_cases hr : r = .year
      · subst hr
        exact isWritten_yearText _ c hc
      · rw [text_of_ne_year hr] at hc
        exact isWritten_padded 2 _ c hc
  | mark d =>
      obtain rfl := List.mem_singleton.1 hc
      exact hp c hitem
  | fraction => exact List.forall_mem_cons.2 ⟨hpoint, isWritten_padded 3 _⟩ c hc

theorem not_blank_of_isWritten {c : Char} (h : IsWritten c) : Text.isBlank c = false := by
  rcases h with h | h
  · exact isBlank_of_isDigit h
  · have hmarks : ['-', '+', ':', 'T', '.'].all (!Text.isBlank ·) := by decide
    simpa using List.all_eq_true.1 hmarks c h

theorem toLower_ne_of_isWritten {c : Char} (h : IsWritten c) : c.toLower ≠ 'n' := by
  rcases h with h | h
  · apply of_isDigit _ h
    decide
  · have hmarks : ['-', '+', ':', 'T', '.'].all (·.toLower != 'n') := by decide
    simpa using List.all_eq_true.1 hmarks c h

theorem Text.trim_eq_self {s : String} (h : ∀ c ∈ s.toList, isBlank c = false) : trim s = s := by
  have hdrop {cs : List Char} (h : ∀ c ∈ cs, isBlank c = false) : dropBlanks cs = cs := by
    cases cs with
    | nil => rfl
    | cons c cs =>
        rw [dropBlanks, List.dropWhile_cons_of_neg]
        simp [h c List.mem_cons_self]
  rw [trim, hdrop h, hdrop fun c hc => h c (List.mem_reverse.1 hc), List.reverse_reverse,
    String.ofList_toList]

/-- A number has a dash at most in front of it. -/
theorem count_dash_toString (k : Int) : (toString k).toList.count '-' ≤ 1 := by
  have hnone : '-' ∉ Nat.toDigits 10 k.natAbs := fun hmem =>
    absurd ((isDigits_toDigits k.natAbs).digits '-' hmem) (by decide)
  rw [toList_toString, List.count_append, List.count_eq_zero_of_not_mem hnone]
  split <;> decide

/-! ## Texts of instants -/

namespace Almanac

section

variable {a : Almanac} (ha : a.Documented) {time : Millis}

include ha

theorem toList_instantText (time : Millis) : (a.instantText time).toList =
    if time.HasDate then
      (Stamp.ofMillis time.toInt).pattern.text (Stamp.ofMillis time.toInt)
    else (toString time.toInt).toList := by
  rw [instantText, stamp?_eq ha]
  by_cases h : time.HasDate
  · have hs := Stamp.valid_ofMillis_iff.2 h
    rw [if_pos h, if_pos h]
    simp only [ha.write _ _ hs, Stamp.pattern]
    split <;> try split
    all_goals exact String.toList_ofList
  · rw [if_neg h, if_neg h]

theorem isWritten_instantText (time : Millis) :
    ∀ c ∈ (a.instantText time).toList, IsWritten c := by
  have hmarks (c : Char) (hc : .mark c ∈ toMilli) : IsWritten c := by
    simp only [toMilli, toSecond, toMinute, day, List.mem_append, List.mem_cons,
      Item.mark.injEq, reduceCtorEq, List.not_mem_nil, or_false, false_or] at hc
    exact .inr (by simp only [List.mem_cons]; tauto)
  rw [toList_instantText ha]
  split
  case isTrue => exact isWritten_text (fun c hc => hmarks c (Stamp.pattern_subset _ hc)) _
  case isFalse => exact isWritten_toString time.toInt

/-- The texts have no blanks, and none begins like that of the current instant. -/
theorem parse_instantText (time : Millis) : a.parse (a.instantText time) =
    (a.instant? (a.instantText time)).elim (.error (.malformedInstant (a.instantText time)))
      fun time => .ok (.fixed time) := by
  have htrim : Text.trim (a.instantText time) = a.instantText time :=
    Text.trim_eq_self fun c hc => not_blank_of_isWritten (isWritten_instantText ha time c hc)
  have hnow : (a.instantText time).map Char.toLower ≠ "now" := by
    intro hnow
    have hlower : (a.instantText time).toList.map Char.toLower = ['n', 'o', 'w'] := by
      rw [← String.toList_map, hnow]
      rfl
    obtain ⟨c, cs, hcons, hc, -⟩ := List.map_eq_cons_iff.1 hlower
    have hwritten := isWritten_instantText ha time c (hcons ▸ List.mem_cons_self)
    exact toLower_ne_of_isWritten hwritten hc
  rw [parse_of_ne_now (by rwa [htrim]), htrim]

/-! ## Reading them back -/

theorem instant?_of_whole (h : time.HasDate) (hwhole : time.toInt % 1000 = 0) :
    a.instant? (a.instantText time) = some time := by
  have hnano := Stamp.nanosecond_ofMillis_eq_zero_iff.2 hwhole
  have hnames := Stamp.names_text_pattern (Stamp.valid_ofMillis_iff.2 h) hnano
  rw [instant?_eq_some_iff ha]
  refine ⟨_, Stamp.pattern_mem_literals hnano, _, ?_, Stamp.millis_ofMillis time.toInt⟩
  rwa [toList_instantText ha, if_pos h]

theorem toList_instantText_of_fraction (h : time.HasDate) (hfraction : time.toInt % 1000 ≠ 0) :
    (a.instantText time).toList = toMilli.text (Stamp.ofMillis time.toInt) := by
  have hnano := mt Stamp.nanosecond_ofMillis_eq_zero_iff.1 hfraction
  rw [toList_instantText ha, if_pos h, Stamp.pattern_of_fraction hnano]

theorem point_mem_of_fraction (h : time.HasDate) (hfraction : time.toInt % 1000 ≠ 0) :
    '.' ∈ (a.instantText time).toList := by
  rw [toList_instantText_of_fraction ha h hfraction]
  exact List.mem_flatMap.2 ⟨.fraction, by decide, List.mem_cons_self⟩

/-- No literal has a point, and every literal has two dashes. -/
theorem instant?_of_other (h : ¬ (time.HasDate ∧ time.toInt % 1000 = 0)) :
    a.instant? (a.instantText time) = none := by
  rw [Option.eq_none_iff_forall_ne_some]
  intro time' hread
  obtain ⟨p, hp, s, hnames, -⟩ := (instant?_eq_some_iff ha).1 hread
  have hmarks : ∀ p ∈ literals, p.count (.mark '.') = 0 ∧ p.count (.mark '-') = 2 := by decide
  obtain ⟨hpoints, hdashes⟩ := hmarks p hp
  by_cases hdate : time.HasDate
  · have hpoint := point_mem_of_fraction ha hdate fun hwhole => h ⟨hdate, hwhole⟩
    rw [← List.count_pos_iff, count_eq_of_matches (by decide) hnames.matched, hpoints] at hpoint
    contradiction
  · have hcount := count_le_of_matches '-' hnames.matched
    rw [hdashes, toList_instantText ha, if_neg hdate] at hcount
    have hone := count_dash_toString time.toInt
    omega

theorem instant?_instantText (time : Millis) : a.instant? (a.instantText time) =
    if time.HasDate ∧ time.toInt % 1000 = 0 then some time else none := by
  split
  case isTrue h => exact instant?_of_whole ha h.1 h.2
  case isFalse h => exact instant?_of_other ha h

end

end Almanac

/-! ## Different instants -/

theorem Pattern.text_toMilli (s : Stamp) : toMilli.text s =
    toSecond.text s ++ '.' :: padded 3 (s.nanosecond % 1000000000 / 1000000) := by
  simp [toMilli, text, Item.text]

namespace Stamp

variable {s t : Stamp}

/-- The last whole second. -/
def toWhole (s : Stamp) : Stamp :=
  { s with nanosecond := 0 }

theorem eq_of_toWhole_eq (h : s.toWhole = t.toWhole) (hnano : s.nanosecond = t.nanosecond) :
    s = t := by
  cases s
  cases t
  simp_all [toWhole]

theorem valid_toWhole (hs : s.Valid) : s.toWhole.Valid :=
  { hs with nanosecond := .inl (by simp [toWhole]) }

theorem text_toWhole (h : s.nanosecond < 1000000000) :
    toSecond.text s.toWhole = toSecond.text s := by
  have hsecond : s.toWhole.part .second = s.part .second := by
    simp only [part, toWhole]
    omega
  simp only [toSecond, toMinute, day, text, List.flatMap_append, List.flatMap_cons,
    List.flatMap_nil, Item.text, hsecond]
  rfl

/-- Up to the second the text tells the stamp. -/
theorem toWhole_eq_of_text_eq (hs : s.Valid) (ht : t.Valid) (hs' : s.nanosecond < 1000000000)
    (ht' : t.nanosecond < 1000000000) (h : toSecond.text s = toSecond.text t) :
    s.toWhole = t.toWhole := by
  have hread {s : Stamp} (hs : s.Valid) (hs' : s.nanosecond < 1000000000) :
      Almanac.gregorian.readStamp? toSecond (.ofList (toSecond.text s)) = some s.toWhole := by
    have hnames := names_text_toSecond (valid_toWhole hs) rfl
    rw [text_toWhole hs'] at hnames
    rwa [Almanac.documented_gregorian.readStamp? _ (by decide), String.toList_ofList]
  have hsame := hread hs hs'
  rw [h, hread ht ht'] at hsame
  exact (Option.some.inj hsame).symm

end Stamp

namespace Almanac

variable {a : Almanac} (ha : a.Documented) {s t : Millis}

include ha

/-- The point and three digits end the text, and what is before them tells date and second. -/
theorem eq_of_fraction (hs : s.HasDate) (ht : t.HasDate) (hs' : s.toInt % 1000 ≠ 0)
    (ht' : t.toInt % 1000 ≠ 0) (h : a.instantText s = a.instantText t) : s = t := by
  have htext := congrArg String.toList h
  rw [toList_instantText_of_fraction ha hs hs', toList_instantText_of_fraction ha ht ht',
    text_toMilli, text_toMilli] at htext
  have hlength (s : Stamp) : (padded 3 (s.nanosecond % 1000000000 / 1000000)).length = 3 :=
    length_padded (by decide) (by omega)
  obtain ⟨hwhole, hdigits⟩ := List.append_inj' htext (by
    rw [List.length_cons, List.length_cons, hlength, hlength])
  have hfraction := congrArg (Nat.ofDigitChars 10 · 0) (List.cons.inj hdigits).2
  simp only [ofDigitChars_padded] at hfraction
  have hsecond := Stamp.toWhole_eq_of_text_eq (Stamp.valid_ofMillis_iff.2 hs)
    (Stamp.valid_ofMillis_iff.2 ht) (Stamp.nanosecond_ofMillis_lt _)
    (Stamp.nanosecond_ofMillis_lt _) hwhole
  have hnano : (Stamp.ofMillis s.toInt).nanosecond = (Stamp.ofMillis t.toInt).nanosecond := by
    simp only [Stamp.ofMillis] at hfraction ⊢
    omega
  have hstamp := Stamp.eq_of_toWhole_eq hsecond hnano
  rw [← Int64.toInt_inj, ← Stamp.millis_ofMillis s.toInt, hstamp, Stamp.millis_ofMillis]

theorem eq_of_whole (hs : s.HasDate ∧ s.toInt % 1000 = 0)
    (h : a.instantText s = a.instantText t) : s = t := by
  have hread := instant?_instantText ha s
  rw [h, instant?_instantText ha, if_pos hs] at hread
  split at hread
  case isTrue => exact (Option.some.inj hread).symm
  case isFalse => simp at hread

/-- Without a date there is no point in the text. -/
theorem ne_of_hasDate (hs : s.HasDate) (hs' : s.toInt % 1000 ≠ 0) (ht : ¬ t.HasDate) :
    a.instantText s ≠ a.instantText t := by
  intro h
  have hpoint := point_mem_of_fraction ha hs hs'
  rw [h, toList_instantText ha, if_neg ht, toList_toString, List.mem_append] at hpoint
  rcases hpoint with hpoint | hpoint
  · split at hpoint <;> simp at hpoint
  · exact absurd ((isDigits_toDigits _).digits '.' hpoint) (by decide)

theorem instantText_injective : Function.Injective a.instantText := by
  intro s t h
  by_cases hs : s.HasDate ∧ s.toInt % 1000 = 0
  · exact eq_of_whole ha hs h
  · by_cases ht : t.HasDate ∧ t.toInt % 1000 = 0
    · exact (eq_of_whole ha ht h.symm).symm
    · by_cases hsdate : s.HasDate
      · have hsfraction : s.toInt % 1000 ≠ 0 := fun hwhole => hs ⟨hsdate, hwhole⟩
        by_cases htdate : t.HasDate
        · exact eq_of_fraction ha hsdate htdate hsfraction (fun hwhole => ht ⟨htdate, hwhole⟩) h
        · exact absurd h (ne_of_hasDate ha hsdate hsfraction htdate)
      · by_cases htdate : t.HasDate
        · exact absurd h.symm (ne_of_hasDate ha htdate (fun hwhole => ht ⟨htdate, hwhole⟩) hsdate)
        · rw [← String.toList_inj, toList_instantText ha, toList_instantText ha, if_neg hsdate,
            if_neg htdate, String.toList_inj] at h
          exact Int64.toInt_inj.1 (toString_injective h)

end Almanac

/-- With every almanac that is as documented, a whole second on a date of the calendar is read back
from its text and every other text of an instant is refused, so no instant is taken for another
one; and no two instants have the same text.  The dates of the calendar are those of the years from
-262143 to 262142. -/
theorem Moment.instant_text_read_back_or_refused (a : Almanac) (ha : a.Documented) :
    (∀ time : Millis, a.parse (a.instantText time) =
      if time.HasDate ∧ time.toInt % 1000 = 0 then .ok (.fixed time)
      else .error (.malformedInstant (a.instantText time))) ∧
    (∀ time : Millis, time.HasDate ↔ ∃ d : Date, d.Valid ∧ InCalendar d.year ∧
      d.dayNumber = time.toInt / 86400000) ∧
    Function.Injective a.instantText := by
  refine ⟨fun time => ?_, fun time => Millis.hasDate_iff, Almanac.instantText_injective ha⟩
  rw [Almanac.parse_instantText ha, Almanac.instant?_instantText ha]
  by_cases h : time.HasDate ∧ time.toInt % 1000 = 0
  · rw [if_pos h, if_pos h, Option.elim_some]
  · rw [if_neg h, if_neg h, Option.elim_none]

theorem Moment.instant_text_read_back_or_refused_of_gregorian :
    let a := Almanac.gregorian
    let leap : Millis := -62162035201000
    let later : Millis := -62162035200999
    let far : Millis := 8210266876800000
    a.Documented ∧ a.instantText leap = "0000-02-29T23:59:59" ∧
      a.parse (a.instantText leap) = .ok (.fixed leap) ∧
      a.instantText later = "0000-02-29T23:59:59.001" ∧
      a.parse (a.instantText later) = .error (.malformedInstant "0000-02-29T23:59:59.001") ∧
      a.parse (a.instantText far) = .error (.malformedInstant "8210266876800000") ∧
      a.instantText leap ≠ a.instantText later := by
  intro a leap later far
  have ha : a.Documented := Almanac.documented_gregorian
  obtain ⟨hread, -, hinjective⟩ := instant_text_read_back_or_refused a ha
  have hleap : a.instantText leap = "0000-02-29T23:59:59" := by decide +kernel
  have hlater : a.instantText later = "0000-02-29T23:59:59.001" := by decide +kernel
  have hfar : a.instantText far = "8210266876800000" := by decide +kernel
  have hback := hread leap
  have hrefused := hread later
  have hnone := hread far
  rw [if_pos (by decide +kernel)] at hback
  rw [if_neg (by decide +kernel), hlater] at hrefused
  rw [if_neg (by decide +kernel), hfar] at hnone
  refine ⟨ha, hleap, hback, hlater, ?_, ?_, fun h => ?_⟩
  · rw [hlater]
    exact hrefused
  · rw [hfar]
    exact hnone
  · exact absurd (hinjective h) (by decide)

end TemporalPattern
