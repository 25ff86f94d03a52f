import Mathlib.Data.List.TakeWhile
import TemporalPattern.Proofs.CalendarReach
import TemporalPattern.Proofs.Patterns

/-!
# The Gregorian almanac is as documented

Its reader takes the longest run of digits that fits.  In a pattern where every number is followed
by a mark or by the end, that is the only way to split a text, so the reader finds the numbers of
exactly the texts that have the form of the pattern.
-/

namespace TemporalPattern

namespace Pattern

variable {value : Stamp.Part → Int} {p q : Pattern} {cs ds rest : List Char}

/-! ## Numbers -/

theorem exists_of_number? {width n : Nat} (h : number? width cs = some (n, rest)) :
    ∃ ds, IsNumber 1 width ds n ∧ cs = ds ++ rest := by
  have hprefix : (cs.takeWhile Char.isDigit).take width <+: cs :=
    (List.take_prefix _ _).trans (List.takeWhile_prefix _)
  unfold number? at h
  dsimp only at h
  split at h
  case isTrue => simp at h
  case isFalse hne =>
    obtain ⟨rfl, rfl⟩ := Prod.mk.inj (Option.some.inj h)
    refine ⟨(cs.takeWhile Char.isDigit).take width, ⟨?_, ?_, ?_, rfl⟩, ?_⟩
    · rw [Nat.succ_le_iff, List.length_pos_iff]
      simpa using hne
    · exact List.length_take_le _ _
    · intro c hc
      exact List.mem_takeWhile_imp (List.mem_of_mem_take hc)
    · exact List.prefix_iff_eq_append.1 hprefix |>.symm

theorem number?_append {width n : Nat} (h : IsNumber 1 width ds n) (hrest : EndsDigits rest) :
    number? width (ds ++ rest) = some (n, rest) := by
  have htake : ((ds ++ rest).takeWhile Char.isDigit).take width = ds := by
    rw [List.takeWhile_append_of_pos h.digits, hrest.takeWhile, List.append_nil,
      List.take_of_length_le h.most]
  have hne : ds.isEmpty = false := by simp [(h.isDigits Nat.one_pos).ne_nil]
  simp only [number?, htake, hne, List.drop_left, h.value]
  rfl

theorem exists_of_map_number? {width : Nat} {f : Nat → Int} {k : Int}
    (h : (number? width cs).map (fun (n, rest) => (f n, rest)) = some (k, rest)) :
    ∃ ds n, IsNumber 1 width ds n ∧ k = f n ∧ cs = ds ++ rest := by
  obtain ⟨⟨n, _⟩, hn, hk⟩ := Option.map_eq_some_iff.1 h
  obtain ⟨rfl, rfl⟩ := Prod.mk.inj hk
  obtain ⟨ds, hds, hcs⟩ := exists_of_number? hn
  exact ⟨ds, n, hds, rfl, hcs⟩

theorem exists_of_year? {year : Int} (h : year? cs = some (year, rest)) :
    ∃ ds, IsYear ds year ∧ cs = ds ++ rest := by
  unfold year? at h
  split at h
  case h_1 =>
    obtain ⟨ds, n, hds, rfl, rfl⟩ := exists_of_map_number? (f := fun n => -n) h
    exact ⟨'-' :: ds, .negative hds.of_length, rfl⟩
  case h_2 =>
    obtain ⟨ds, n, hds, rfl, rfl⟩ := exists_of_map_number? (f := Nat.cast) h
    exact ⟨'+' :: ds, .positive hds.of_length, rfl⟩
  case h_3 =>
    obtain ⟨ds, n, hds, rfl, hcs⟩ := exists_of_map_number? (f := Nat.cast) h
    exact ⟨ds, .plain hds, hcs⟩

/-- After a sign the number is as wide as the rest of the text. -/
theorem number?_append_of_length {n : Nat} (h : IsNumber 1 ds.length ds n)
    (hrest : EndsDigits rest) : number? (ds ++ rest).length (ds ++ rest) = some (n, rest) := by
  apply number?_append _ hrest
  exact { h with most := by simp }

theorem year?_append {year : Int} (h : IsYear ds year) (hrest : EndsDigits rest) :
    year? (ds ++ rest) = some (year, rest) := by
  cases h with
  | plain h =>
      have hdigits := h.isDigits Nat.one_pos
      obtain ⟨c, cs, rfl⟩ := List.exists_cons_of_ne_nil hdigits.ne_nil
      have hc := hdigits.digits c List.mem_cons_self
      unfold year?
      split
      case h_1 hsign =>
        obtain ⟨rfl, -⟩ := List.cons.inj hsign
        contradiction
      case h_2 hsign =>
        obtain ⟨rfl, -⟩ := List.cons.inj hsign
        contradiction
      case h_3 => rw [number?_append h hrest, Option.map_some]
  | negative h => rw [List.cons_append, year?, number?_append_of_length h hrest, Option.map_some]
  | positive h => rw [List.cons_append, year?, number?_append_of_length h hrest, Option.map_some]

/-! ## Parts after blanks -/

theorem exists_blanks {P : List Char → Prop} (h : ∃ ds, P ds ∧ Text.dropBlanks cs = ds ++ rest) :
    ∃ ds, AfterBlanks P ds ∧ cs = ds ++ rest := by
  obtain ⟨ds, hds, hdrop⟩ := h
  refine ⟨cs.takeWhile Text.isBlank ++ ds, ⟨_, ds, fun _ => List.mem_takeWhile_imp, hds, rfl⟩, ?_⟩
  rw [List.append_assoc, ← hdrop, Text.dropBlanks, List.takeWhile_append_dropWhile]

/-- Blanks are dropped up to a text that begins without one. -/
theorem dropBlanks_append {blanks : List Char} (hblanks : ∀ c ∈ blanks, Text.isBlank c)
    (hcs : ∀ c ∈ cs.head?, Text.isBlank c = false) : Text.dropBlanks (blanks ++ cs) = cs := by
  rw [Text.dropBlanks, List.dropWhile_append_of_pos hblanks]
  cases cs with
  | nil => rfl
  | cons c cs =>
      rw [List.dropWhile_cons_of_neg]
      simp [hcs c rfl]

theorem not_blank_head {least most n : Nat} (h : IsNumber least most ds n) (hleast : 0 < least) :
    ∀ c ∈ (ds ++ rest).head?, Text.isBlank c = false := by
  have hdigits := h.isDigits hleast
  obtain ⟨c, cs, rfl⟩ := List.exists_cons_of_ne_nil hdigits.ne_nil
  rintro _ ⟨⟩
  exact isBlank_of_isDigit (hdigits.digits c List.mem_cons_self)

theorem not_blank_head_of_isYear {year : Int} (h : IsYear ds year) :
    ∀ c ∈ (ds ++ rest).head?, Text.isBlank c = false := by
  cases h with
  | plain h => exact not_blank_head h Nat.one_pos
  | negative h =>
      rintro _ ⟨⟩
      decide
  | positive h =>
      rintro _ ⟨⟩
      decide

theorem part?_of_ne_year {r : Stamp.Part} (hr : r ≠ .year) : part? r cs =
    (number? 2 (Text.dropBlanks cs)).map fun (n, rest) => ((n : Int), rest) := by
  cases r <;> first | contradiction | rfl

theorem exists_of_part? {r : Stamp.Part} {k : Int} (h : part? r cs = some (k, rest)) :
    ∃ ds, Spells r ds k ∧ cs = ds ++ rest := by
  by_cases hr : r = .year
  · subst hr
    exact exists_blanks (exists_of_year? h)
  · rw [part?_of_ne_year hr] at h
    obtain ⟨ds, n, hds, rfl, hdrop⟩ := exists_of_map_number? (f := Nat.cast) h
    obtain ⟨ds, hds, hcs⟩ := exists_blanks (P := (IsNumber 1 2 · n)) ⟨ds, hds, hdrop⟩
    exact ⟨ds, (spells_of_ne_year hr).2 ⟨n, hds, rfl⟩, hcs⟩

theorem part?_append {r : Stamp.Part} {k : Int} (h : Spells r ds k) (hrest : EndsDigits rest) :
    part? r (ds ++ rest) = some (k, rest) := by
  by_cases hr : r = .year
  · subst hr
    obtain ⟨blanks, ds, hblanks, hds, rfl⟩ := h
    rw [List.append_assoc, part?, dropBlanks_append hblanks (not_blank_head_of_isYear hds)]
    exact year?_append hds hrest
  · obtain ⟨n, ⟨blanks, ds, hblanks, hds, rfl⟩, rfl⟩ := (spells_of_ne_year hr).1 h
    rw [List.append_assoc, part?_of_ne_year hr,
      dropBlanks_append hblanks (not_blank_head hds Nat.one_pos), number?_append hds hrest,
      Option.map_some]

theorem mark?_eq_some_iff {mark : Char} : mark? mark cs = some rest ↔ cs = mark :: rest := by
  cases cs with
  | nil => simp [mark?]
  | cons c cs =>
      rw [mark?, Option.ite_none_right_eq_some, Option.some_inj, List.cons.injEq]

/-! ## Whole texts -/

/-- Every part occurs once, and what follows it is a mark, or the end.  No mark is a digit. -/
def IsReadable : Pattern → Prop
  | [] => True
  | .part r :: q => .part r ∉ q ∧ (∀ item ∈ q.head?, ∃ c, item = .mark c) ∧ IsReadable q
  | .mark c :: q => c.isDigit = false ∧ IsReadable q
  | .fraction :: _ => False

theorem endsDigits_of_matches (hq : q.IsReadable) (hhead : ∀ item ∈ q.head?, ∃ c, item = .mark c)
    (h : Matches value q cs) : EndsDigits cs := by
  cases h with
  | nil => exact endsDigits_nil
  | part =>
      obtain ⟨c, hc⟩ := hhead _ rfl
      contradiction
  | mark _ => exact endsDigits_cons hq.1 _

theorem assign_self (r : Stamp.Part) (k : Int) (value : Stamp.Part → Int) :
    assign r k value r = k :=
  if_pos rfl

theorem assign_of_ne {r r' : Stamp.Part} {k : Int} (h : r' ≠ r) : assign r k value r' = value r' :=
  if_neg h

theorem assign_assign (r : Stamp.Part) (k : Int) (value : Stamp.Part → Int) :
    assign r (value r) (assign r k value) = value := by
  funext r'
  by_cases h : r' = r
  · rw [h, assign_self]
  · rw [assign_of_ne h, assign_of_ne h]

/-- A part that the pattern leaves out does not matter. -/
theorem Matches.assign {r : Stamp.Part} (h : Matches value p cs) (hr : .part r ∉ p) (k : Int) :
    Matches (assign r k value) p cs := by
  induction h with
  | nil => exact .nil
  | @part r' q ds cs hds _ ih =>
      rw [List.mem_cons, not_or, Item.part.injEq] at hr
      have hvalue : Pattern.assign r k value r' = value r' := assign_of_ne (Ne.symm hr.1)
      rw [← hvalue] at hds
      exact .part hds (ih hr.2)
  | mark _ ih => exact .mark (ih fun hmem => hr (List.mem_cons_of_mem _ hmem))

theorem read?_eq_some_iff (hp : p.IsReadable) :
    p.read? cs = some value ↔ Matches value p cs ∧ ∀ r, .part r ∉ p → value r = 0 := by
  induction p generalizing cs value with
  | nil =>
      simp only [read?, List.isEmpty_iff, Option.ite_none_right_eq_some, Option.some_inj,
        matches_nil]
      refine and_congr_right fun _ => ?_
      rw [eq_comm, funext_iff]
      simp
  | cons item q ih =>
      cases item with
      | fraction => exact hp.elim
      | mark c =>
          simp only [read?, Option.bind_eq_bind, Option.bind_eq_some_iff, mark?_eq_some_iff,
            ih hp.2, matches_mark]
          constructor
          · rintro ⟨rest, rfl, hq, hzero⟩
            exact ⟨⟨rest, hq, rfl⟩, by simpa using hzero⟩
          · rintro ⟨⟨rest, hq, rfl⟩, hzero⟩
            exact ⟨rest, rfl, hq, by simpa using hzero⟩
      | part r =>
          obtain ⟨hnew, hhead, hq⟩ := hp
          simp only [read?, Option.bind_eq_bind, Option.bind_eq_some_iff, ih hq, matches_part]
          constructor
          · rintro ⟨⟨k, rest⟩, hk, later, ⟨hmatch, hzero⟩, hvalue⟩
            obtain rfl := Option.some.inj hvalue
            obtain ⟨ds, hds, rfl⟩ := exists_of_part? hk
            rw [← assign_self r k later] at hds
            refine ⟨⟨ds, rest, hds, hmatch.assign hnew k, rfl⟩, fun r' hr' => ?_⟩
            rw [List.mem_cons, not_or, Item.part.injEq] at hr'
            rw [assign_of_ne hr'.1, hzero r' hr'.2]
          · rintro ⟨⟨ds, rest, hr, hmatch, rfl⟩, hzero⟩
            have hends := endsDigits_of_matches hq hhead hmatch
            refine ⟨(value r, rest), part?_append hr hends, assign r 0 value,
              ⟨hmatch.assign hnew 0, fun r' hr' => ?_⟩, ?_⟩
            · by_cases hne : r' = r
              · rw [hne, assign_self]
              · rw [assign_of_ne hne, hzero r' (by simp [hne, hr'])]
            · rw [Option.pure_def, assign_assign]

theorem nonneg_of_matches (h : Matches value p cs) {r : Stamp.Part} (hr : r ≠ .year)
    (hmem : .part r ∈ p) : 0 ≤ value r := by
  induction h with
  | nil => contradiction
  | @part r' q ds cs hds _ ih =>
      rcases List.mem_cons.1 hmem with heq | hmem
      · obtain rfl := Item.part.inj heq
        obtain ⟨n, -, hn⟩ := (spells_of_ne_year hr).1 hds
        rw [hn]
        exact Int.natCast_nonneg n
      · exact ih hmem
  | mark _ ih => exact ih (by simpa using hmem)

end Pattern

/-! ## Stamps -/

namespace Stamp

variable {s : Stamp} {value : Part → Int}

theorem check?_eq_some_iff {s' : Stamp} : s.check? = some s' ↔ s'.Valid ∧ s' = s := by
  rw [check?, Option.ite_none_right_eq_some, Option.some_inj]
  constructor
  · rintro ⟨h, rfl⟩
    exact ⟨h, rfl⟩
  · rintro ⟨h, rfl⟩
    exact ⟨h, rfl⟩

theorem part_ofParts (h : ∀ r, r ≠ .year → 0 ≤ value r) : (ofParts value).part = value := by
  funext r
  cases r with
  | year => rfl
  | second =>
      have hnonneg := h .second (by decide)
      simp only [part, ofParts]
      split <;> omega
  | month | day | hour | minute => exact Int.toNat_of_nonneg (h _ (by decide))

theorem whole_ofParts (value : Part → Int) : (ofParts value).nanosecond % 1000000000 = 0 := by
  simp only [ofParts]
  split <;> rfl

theorem ofParts_part (hs : s.Valid) (hwhole : s.nanosecond % 1000000000 = 0) :
    ofParts s.part = s := by
  obtain ⟨-, -, -, -, hsecond, hnano⟩ := hs
  unfold ofParts
  by_cases hleap : s.part .second = 60
  · simp only [if_pos hleap]
    obtain ⟨date, hour, minute, second, nanosecond⟩ := s
    simp only [part, Int.toNat_natCast, Stamp.mk.injEq, true_and] at *
    omega
  · simp only [if_neg hleap]
    obtain ⟨date, hour, minute, second, nanosecond⟩ := s
    simp only [part, Int.toNat_natCast, Stamp.mk.injEq, true_and] at *
    omega

/-- The reader of a pattern finds the stamp that a text stands for. -/
theorem stamp?_eq_some_iff {p : Pattern} (hp : p.IsReadable) {text : String} :
    p.stamp? text = some s ↔ p.Names s text.toList := by
  rw [Pattern.stamp?, Option.bind_eq_some_iff]
  constructor
  · rintro ⟨value, hread, hcheck⟩
    obtain ⟨hmatch, hzero⟩ := (Pattern.read?_eq_some_iff hp).1 hread
    obtain ⟨hvalid, rfl⟩ := check?_eq_some_iff.1 hcheck
    have hparts : (ofParts value).part = value := by
      apply part_ofParts
      intro r hr
      by_cases hmem : .part r ∈ p
      · exact Pattern.nonneg_of_matches hmatch hr hmem
      · exact Int.le_of_eq (hzero r hmem).symm
    refine ⟨hvalid, ?_, ?_, whole_ofParts value⟩
    · rwa [hparts]
    · rwa [hparts]
  · intro h
    refine ⟨s.part, (Pattern.read?_eq_some_iff hp).2 ⟨h.matched, h.unnamed⟩, ?_⟩
    rw [ofParts_part h.valid h.whole]
    exact check?_eq_some_iff.2 ⟨h.valid, rfl⟩

theorem millis_ofMillis (n : Int) : (ofMillis n).millis = n := by
  have hday : (Date.ofDayNumber (n / 86400000)).dayNumber = n / 86400000 :=
    (Date.ofDayNumber_spec _).2
  simp only [millis, ofMillis, hday]
  omega

theorem valid_ofMillis_iff {n : Int} :
    (ofMillis n).Valid ↔ InCalendar (Date.ofDayNumber (n / 86400000)).year := by
  constructor
  · exact fun h => h.year
  · intro h
    refine ⟨h, (Date.ofDayNumber_spec _).1, ?_, ?_, ?_, .inl ?_⟩ <;> simp only [ofMillis] <;> omega

/-- The milliseconds tell the stamp, apart from leap seconds and smaller units. -/
theorem eq_ofMillis (hs : s.Valid) (hsecond : s.nanosecond < 1000000000)
    (hmillis : s.nanosecond % 1000000 = 0) : s = ofMillis s.millis := by
  obtain ⟨-, hdate, hhour, hminute, hlast, -⟩ := hs
  have hnumber : s.millis / 86400000 = s.date.dayNumber := by
    unfold millis
    omega
  have hday : s.date = Date.ofDayNumber (s.millis / 86400000) := by
    apply Date.eq_of_dayNumber_eq hdate (Date.ofDayNumber_spec _).1
    rw [(Date.ofDayNumber_spec _).2, hnumber]
  have hrest : (s.millis % 86400000).toNat =
      1000 * (3600 * s.hour + 60 * s.minute + s.second) + s.nanosecond / 1000000 := by
    unfold millis
    omega
  rw [ofMillis, hrest, ← hday]
  obtain ⟨date, hour, minute, second, nanosecond⟩ := s
  simp only [Stamp.mk.injEq, true_and] at *
  omega

end Stamp

/-! ## The almanac -/

theorem Almanac.documented_gregorian : gregorian.Documented where
  readDate? text date := by
    have hday : Pattern.day.IsReadable := by simp [Pattern.day, Pattern.IsReadable]
    simp only [gregorian, Option.map_eq_some_iff, Stamp.stamp?_eq_some_iff hday]
    constructor
    · rintro ⟨s, hs, rfl⟩
      rwa [← hs.eq_midnight]
    · intro h
      exact ⟨.midnight date, h, rfl⟩
  readStamp? p hp text s := by
    have hreadable : p.IsReadable := by
      rcases List.mem_pair.1 hp with rfl | rfl <;>
        simp [Pattern.toSecond, Pattern.toMinute, Pattern.day, Pattern.IsReadable]
    exact Stamp.stamp?_eq_some_iff hreadable
  at? _ _ _ _ _ := Stamp.check?_eq_some_iff
  millis _ hs := hs.toInt_ofInt_millis
  stamp? time s := by
    simp only [gregorian, Stamp.check?_eq_some_iff]
    constructor
    · rintro ⟨hs, rfl⟩
      refine ⟨hs, Stamp.millis_ofMillis time.toInt, ?_, ?_⟩ <;> simp only [Stamp.ofMillis] <;> omega
    · rintro ⟨hs, hmillis, hsecond, hmilli⟩
      refine ⟨hs, ?_⟩
      rw [← hmillis]
      exact Stamp.eq_ofMillis hs hsecond hmilli
  write _ _ _ := rfl

end TemporalPattern
