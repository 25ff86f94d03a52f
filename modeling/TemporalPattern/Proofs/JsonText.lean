import TemporalPattern.Json.TextLayer
import TemporalPattern.Proofs.Numerals
import TemporalPattern.Proofs.Result

/-!
# Documents are read as they are written

`Json.write` and `Json.read?` are a faithful text layer: the text of a document is read back as that
document with its floating point numbers as each of them is read alone, if its integers have 64 bits
and its brackets are not nested too deeply.  Every second step of reading passes a character, so any
fuel beyond twice the length of a text is enough for it.
-/

namespace TemporalPattern

namespace Json

/-! ## Documents -/

@[elab_as_elim]
theorem induction {motive : Json → Prop} (null : motive null) (bool : ∀ b, motive (bool b))
    (int : ∀ n, motive (int n)) (float32 : ∀ x, motive (float32 x))
    (float64 : ∀ x, motive (float64 x)) (text : ∀ s, motive (text s))
    (array : ∀ items, (∀ j ∈ items, motive j) → motive (array items))
    (object : ∀ fields, (∀ field ∈ fields, motive field.2) → motive (object fields))
    (unreadable : motive unreadable) (j : Json) : motive j :=
  @Json.rec motive (fun js => ∀ j ∈ js, motive j) (fun fields => ∀ field ∈ fields, motive field.2)
    (fun field => motive field.2) null bool int float32 float64 text array object unreadable
    (by simp)
    (fun _ _ hj hjs => List.forall_mem_cons.2 ⟨hj, hjs⟩) (by simp)
    (fun _ _ hfield hfields => List.forall_mem_cons.2 ⟨hfield, hfields⟩) (fun _ _ hj => hj) j

variable {items : List Json} {fields : List (String × Json)}

theorem depth_array_le {n : Nat} :
    (array items).depth ≤ n ↔ 0 < n ∧ ∀ j ∈ items, j.depth ≤ n - 1 := by
  have heach : depthEach items ≤ n - 1 ↔ ∀ j ∈ items, j.depth ≤ n - 1 := by
    induction items with
    | nil => simp [depthEach]
    | cons j js ih => rw [depthEach, Nat.max_le, ih, List.forall_mem_cons]
  rw [← heach, depth]
  omega

theorem depth_object_le {n : Nat} :
    (object fields).depth ≤ n ↔ 0 < n ∧ ∀ field ∈ fields, field.2.depth ≤ n - 1 := by
  have heach : depthFields fields ≤ n - 1 ↔ ∀ field ∈ fields, field.2.depth ≤ n - 1 := by
    induction fields with
    | nil => simp [depthFields]
    | cons field fields ih => rw [depthFields, Nat.max_le, ih, List.forall_mem_cons]
  rw [← heach, depth]
  omega

@[simp] theorem readable_array : (array items).Readable ↔ ∀ j ∈ items, j.Readable := by
  rw [Readable]
  induction items with
  | nil => simp [ReadableEach]
  | cons j js ih => rw [ReadableEach, ih, List.forall_mem_cons]

@[simp] theorem readable_object :
    (object fields).Readable ↔ ∀ field ∈ fields, field.2.Readable := by
  rw [Readable]
  induction fields with
  | nil => simp [ReadableFields]
  | cons field fields ih => rw [ReadableFields, ih, List.forall_mem_cons]

@[simp] theorem mapFloats_text (f : Json → Json) (s : String) : (text s).mapFloats f = text s :=
  rfl

@[simp] theorem mapFloats_array (f : Json → Json) (items : List Json) :
    (array items).mapFloats f = array (items.map (mapFloats f)) := by
  rw [mapFloats, mapFloatsEach_eq]

@[simp] theorem mapFloats_object (f : Json → Json) (fields : List (String × Json)) :
    (object fields).mapFloats f =
      object (fields.map fun field => (field.1, field.2.mapFloats f)) := by
  rw [mapFloats, mapFloatsFields_eq]

/-! ## Strings -/

theorem hexDigit?_digitChar : ∀ k < 16, hexDigit? (Nat.digitChar k) = some k := by
  decide

theorem units?_escape (c : Char) (cs : List Char) :
    units? (escape c ++ cs) = (units? cs).map fun (units, rest) => (c.toNat :: units, rest) := by
  unfold escape
  split
  case h_1 | h_2 | h_3 | h_4 | h_5 | h_6 | h_7 =>
    cases hcs : units? cs <;> simp [units?, unescape?, hcs]
  case h_8 hquote hbackslash _ _ _ _ _ =>
    split
    case isTrue hcontrol =>
      have hhigh := hexDigit?_digitChar (c.toNat / 16) (by omega)
      have hlow := hexDigit?_digitChar (c.toNat % 16) (by omega)
      have hzero : hexDigit? '0' = some 0 := by decide
      have hunit : 16 * (c.toNat / 16) + c.toNat % 16 = c.toNat := Nat.div_add_mod _ _
      cases hcs : units? cs <;> simp [units?, hzero, hhigh, hlow, hunit, hcs]
    case isFalse hplain =>
      rw [List.singleton_append, units?.eq_5 _ _ hquote]
      · cases hcs : units? cs <;> simp [hplain]
      · exact fun _ _ _ _ _ hc _ => hbackslash hc
      · exact fun _ _ hc _ => hbackslash hc

theorem units?_flatMap_escape (cs rest : List Char) :
    units? (cs.flatMap escape ++ '"' :: rest) = some (cs.map Char.toNat, rest) := by
  induction cs with
  | nil => rfl
  | cons c cs ih =>
      rw [List.flatMap_cons, List.append_assoc, units?_escape, ih]
      rfl

/-- No character is half of a surrogate pair. -/
theorem not_surrogate (c : Char) : isLead c.toNat = false ∧ isTrail c.toNat = false := by
  have hvalid : c.toNat < 0xd800 ∨ (0xdfff < c.toNat ∧ c.toNat < 0x110000) := c.valid
  simp only [isLead, isTrail, Bool.and_eq_false_iff, decide_eq_false_iff_not]
  omega

theorem characters?_map_toNat (cs : List Char) : characters? (cs.map Char.toNat) = some cs := by
  induction cs with
  | nil => rfl
  | cons c cs ih =>
      obtain ⟨hlead, htrail⟩ := not_surrogate c
      cases cs with
      | nil => simp [characters?, hlead, htrail]
      | cons d ds =>
          rw [List.map_cons] at ih
          simp [characters?, hlead, htrail, ih]

theorem string?_escape (s : String) (rest : List Char) :
    string? (s.toList.flatMap escape ++ '"' :: rest) = some (some s, rest) := by
  simp [string?, units?_flatMap_escape, characters?_map_toNat]

theorem dropBlanks_cons {c : Char} (hc : isBlank c = false) (cs : List Char) :
    dropBlanks (c :: cs) = c :: cs := by
  rw [dropBlanks, List.dropWhile_cons_of_neg]
  simp [hc]

/-! ## Words, numbers and strings -/

/-- A text without brackets is read as a document, whatever follows it. -/
def ReadsAs (s : String) (j : Json) : Prop :=
  ∀ fuel room rest, 0 < fuel → Numeral.Ends rest →
    value? fuel room (s.toList ++ rest) = some (j, rest)

theorem ReadsAs.read? {s : String} {j : Json} (h : ReadsAs s j) : read? s = some j := by
  have hvalue := h (2 * s.toList.length + 2) maxDepth [] (Nat.succ_pos _) Numeral.ends_nil
  rw [List.append_nil] at hvalue
  simp only [Json.read?, hvalue]
  rfl

theorem word?_append (word : String) (rest : List Char) :
    word? word (word.toList ++ rest) = some rest := by
  simp [word?, ← String.length_toList]

theorem readsAs_null : ReadsAs "null" null := by
  intro fuel room rest hfuel _
  obtain ⟨fuel, rfl⟩ : ∃ k, fuel = k + 1 := ⟨fuel - 1, by omega⟩
  have htext : "null".toList ++ rest = 'n' :: ("ull".toList ++ rest) := rfl
  have hopen : isBlank 'n' = false := by decide
  simp only [htext, value?, dropBlanks_cons hopen, word?_append, Option.map_some]

theorem readsAs_bool (b : Bool) : ReadsAs (toString b) (bool b) := by
  intro fuel room rest hfuel _
  obtain ⟨fuel, rfl⟩ : ∃ k, fuel = k + 1 := ⟨fuel - 1, by omega⟩
  cases b with
  | false =>
      have htext : (toString false).toList ++ rest = 'f' :: ("alse".toList ++ rest) := rfl
      have hopen : isBlank 'f' = false := by decide
      simp only [htext, value?, dropBlanks_cons hopen, word?_append, Option.map_some]
  | true =>
      have htext : (toString true).toList ++ rest = 't' :: ("rue".toList ++ rest) := rfl
      have hopen : isBlank 't' = false := by decide
      simp only [htext, value?, dropBlanks_cons hopen, word?_append, Option.map_some]

theorem toList_quote (s : String) :
    (quote s).toList = '"' :: (s.toList.flatMap escape ++ ['"']) := by
  simp [quote]

theorem readsAs_text (s : String) : ReadsAs (quote s) (text s) := by
  intro fuel room rest hfuel _
  obtain ⟨fuel, rfl⟩ : ∃ k, fuel = k + 1 := ⟨fuel - 1, by omega⟩
  simp [toList_quote, value?, dropBlanks_cons, isBlank, string?_escape]

theorem ne_of_opens_numeral {c d : Char} (hc : c = '-' ∨ c.isDigit) (hd : d ≠ '-')
    (hd' : d.isDigit = false) : c ≠ d := by
  rintro rfl
  exact hc.elim hd fun hdigit => by simp [hd'] at hdigit

theorem isBlank_of_opens_numeral {c : Char} (hc : c = '-' ∨ c.isDigit) : isBlank c = false := by
  have hne (d : Char) (hd : d ≠ '-') (hd' : d.isDigit = false) : c ≠ d :=
    ne_of_opens_numeral hc hd hd'
  simp [isBlank, hne ' ' (by decide) (by decide), hne '\n' (by decide) (by decide),
    hne '\r' (by decide) (by decide), hne '\t' (by decide) (by decide)]

theorem readsAs_numeral {s : String} {n : Numeral} (hn : n.WellFormed) (htext : n.text = s.toList) :
    ReadsAs s (ofNumeral n) := by
  obtain ⟨c, cs, hcons, hc⟩ := Numeral.exists_text_eq_cons hn
  have hne (d : Char) (hd : d ≠ '-') (hd' : d.isDigit = false) : c ≠ d :=
    ne_of_opens_numeral hc hd hd'
  intro fuel room rest hfuel hrest
  obtain ⟨fuel, rfl⟩ : ∃ k, fuel = k + 1 := ⟨fuel - 1, by omega⟩
  have hdrop : dropBlanks (n.text ++ rest) = n.text ++ rest := by
    rw [hcons, List.cons_append, dropBlanks_cons (isBlank_of_opens_numeral hc)]
  rw [← htext, value?, hdrop]
  -- A numeral is what is left when no other alternative begins with its first character.
  split
  case h_7 => rw [Numeral.read?_text hn hrest, Option.map_some]
  all_goals
    rename_i _ _ hother
    rw [hcons] at hother
    exact absurd (List.cons.inj hother).1 (hne _ (by decide) (by decide))

theorem readsAs_int (t : Int64) : ReadsAs (toString t.toInt) (int t.toInt) := by
  have hnumeral : ofNumeral (.ofInt t.toInt) = int t.toInt := by
    rw [ofNumeral, Numeral.integer?_ofInt]
  rw [← hnumeral]
  exact readsAs_numeral (Numeral.wellFormed_ofInt _) (Numeral.text_ofInt _)

/-- What is written for a floating point number is a numeral of no integer, or null. -/
theorem write_float_cases {f : FloatFormat} (least greatest : Int) (x : Binary f) :
    (x.isFinite ∧ ∃ n : Numeral, n.WellFormed ∧
      n.text = ((Layout.json least greatest).write x).toList ∧ n.integer? = none) ∨
    (¬ x.isFinite ∧ (Layout.json least greatest).write x = "null") := by
  by_cases hfinite : x.isFinite
  · exact .inl ⟨hfinite, Layout.exists_numeral_write rfl hfinite⟩
  · refine .inr ⟨hfinite, ?_⟩
    unfold Layout.write
    unfold Binary.isFinite at hfinite
    cases hx : x.unpack with
    | nan => rfl
    | infinite negative => cases negative <;> rfl
    | finite negative significand exponent => simp [hx] at hfinite

/-- A finite number is read as one of 64 bits or is out of range, and any other one is null. -/
theorem exists_readsAs_write {f : FloatFormat} (least greatest : Int) (x : Binary f) :
    ∃ j, ReadsAs ((Layout.json least greatest).write x) j ∧
      (x.isFinite → j = unreadable ∨ ∃ y, j = float64 y) ∧ (¬ x.isFinite → j = null) := by
  rcases write_float_cases least greatest x with ⟨hfinite, n, hn, htext, hinteger⟩ | ⟨hx, hnull⟩
  · refine ⟨ofNumeral n, readsAs_numeral hn htext, fun _ => ?_, fun h => absurd hfinite h⟩
    rw [ofNumeral, hinteger]
    cases n.toFloat64? with
    | none => exact .inl rfl
    | some y => exact .inr ⟨y, rfl⟩
  · rw [hnull]
    exact ⟨null, readsAs_null, fun h => absurd h hx, fun _ => rfl⟩

/-- The text of a document begins with neither a blank nor a closing bracket. -/
theorem exists_write_eq_cons {j : Json} (hj : j.Readable) :
    ∃ c cs, j.write.toList = c :: cs ∧ isBlank c = false ∧ c ≠ ']' := by
  have hnumeral {s : String} {n : Numeral} (hn : n.WellFormed) (htext : n.text = s.toList) :
      ∃ c cs, s.toList = c :: cs ∧ isBlank c = false ∧ c ≠ ']' := by
    obtain ⟨c, cs, hcons, hc⟩ := Numeral.exists_text_eq_cons hn
    exact ⟨c, cs, htext ▸ hcons, isBlank_of_opens_numeral hc,
      ne_of_opens_numeral hc (by decide) (by decide)⟩
  have hfloat {f : FloatFormat} (least greatest : Int) (x : Binary f) :
      ∃ c cs, ((Layout.json least greatest).write x).toList = c :: cs ∧ isBlank c = false ∧
        c ≠ ']' := by
    rcases write_float_cases least greatest x with ⟨-, n, hn, htext, -⟩ | ⟨-, hnull⟩
    · exact hnumeral hn htext
    · exact ⟨'n', _, congrArg String.toList hnull, by decide⟩
  cases j with
  | null => exact ⟨'n', _, rfl, by decide⟩
  | bool b => cases b <;> exact ⟨_, _, rfl, by decide⟩
  | int n => exact hnumeral (Numeral.wellFormed_ofInt n) (Numeral.text_ofInt n)
  | float32 x => exact hfloat _ _ x
  | float64 x => exact hfloat _ _ x
  | text s =>
      refine ⟨'"', s.toList.flatMap escape ++ ['"'], ?_, by decide⟩
      exact toList_quote s
  | array items =>
      refine ⟨'[', (String.intercalate "," (writeEach items)).toList ++ [']'], ?_, by decide⟩
      simp [write]
  | object fields =>
      refine ⟨'\x7b', (String.intercalate "," (writeFields fields)).toList ++ ['\x7d'], ?_,
        by decide⟩
      simp [write]
  | unreadable => exact hj.elim

/-! ## Documents of every kind -/

theorem writeEach_eq (js : List Json) : writeEach js = js.map write := by
  induction js with
  | nil => rfl
  | cons j js ih => rw [writeEach, ih, List.map_cons]

theorem writeFields_eq (fields : List (String × Json)) :
    writeFields fields = fields.map fun field => quote field.1 ++ ":" ++ field.2.write := by
  induction fields with
  | nil => rfl
  | cons field fields ih => rw [writeFields, ih, List.map_cons]

/-- With enough fuel and room a document is read back from its text, whatever follows it. -/
def IsReadBack (j : Json) : Prop :=
  ∀ fuel room rest, 2 * j.write.toList.length < fuel → j.depth ≤ room → Numeral.Ends rest →
    value? fuel room (j.write.toList ++ rest) = some (TextLayer.json.reread j, rest)

theorem ReadsAs.isReadBack {s : String} {j k : Json} (h : ReadsAs s k) (hwrite : j.write = s)
    (hreread : TextLayer.json.reread j = k) : IsReadBack j := by
  intro fuel room rest hfuel _ hrest
  rw [hwrite, hreread]
  exact h fuel room rest (by omega) hrest

theorem ends_of_not_digit {c : Char} (hc : c.isDigit = false ∧ c ≠ '.' ∧ c ≠ 'e' ∧ c ≠ 'E')
    (cs : List Char) : Numeral.Ends (c :: cs) := by
  rintro d ⟨⟩
  exact hc

/-- The text between the brackets of an array. -/
def itemsText (items : List Json) : List Char :=
  [','].intercalate (items.map fun j => j.write.toList)

theorem itemsText_singleton (j : Json) : itemsText [j] = j.write.toList := by
  simp [itemsText]

theorem itemsText_cons_cons (j j' : Json) (js : List Json) :
    itemsText (j :: j' :: js) = j.write.toList ++ ',' :: itemsText (j' :: js) := by
  simp [itemsText, List.intercalate_cons_cons]

theorem toList_write_array (items : List Json) :
    (array items).write.toList = '[' :: (itemsText items ++ [']']) := by
  simp [write, writeEach_eq, itemsText, Function.comp_def]

theorem items?_itemsText (fuel room : Nat) {items : List Json} {rest : List Char}
    (hread : ∀ j ∈ items, IsReadBack j) (hne : items ≠ [])
    (hfuel : 2 * (itemsText items).length + 1 < fuel) (hroom : ∀ j ∈ items, j.depth ≤ room) :
    items? fuel room (itemsText items ++ ']' :: rest) =
      some (items.map TextLayer.json.reread, rest) := by
  induction items generalizing fuel with
  | nil => exact absurd rfl hne
  | cons j js ih =>
      obtain ⟨fuel, rfl⟩ : ∃ k, fuel = k + 1 := ⟨fuel - 1, by omega⟩
      have hj := hread j List.mem_cons_self
      have hdepth := hroom j List.mem_cons_self
      cases js with
      | nil =>
          -- The bracket ends the item even if that is a number.
          rw [itemsText_singleton] at hfuel ⊢
          rw [items?, hj fuel room _ (by omega) hdepth (ends_of_not_digit (by decide) rest)]
          rfl
      | cons j' js =>
          rw [itemsText_cons_cons] at hfuel ⊢
          rw [List.length_append, List.length_cons] at hfuel
          have hvalue := hj fuel room (',' :: (itemsText (j' :: js) ++ ']' :: rest)) (by omega)
            hdepth (ends_of_not_digit (by decide) _)
          have hitems := ih fuel (fun k hk => hread k (List.mem_cons_of_mem _ hk))
            (List.cons_ne_nil _ _) (by omega) fun k hk => hroom k (List.mem_cons_of_mem _ hk)
          rw [List.append_assoc, List.cons_append, items?, hvalue]
          simp [dropBlanks_cons, isBlank, hitems]

/-- The text between the brackets of an object. -/
def fieldsText (fields : List (String × Json)) : List Char :=
  [','].intercalate (fields.map fun field => (quote field.1 ++ ":" ++ field.2.write).toList)

theorem fieldsText_singleton (name : String) (j : Json) :
    fieldsText [(name, j)] =
      '"' :: (name.toList.flatMap escape ++ '"' :: ':' :: j.write.toList) := by
  simp [fieldsText, toList_quote]

theorem fieldsText_cons_cons (name : String) (j : Json) (field : String × Json)
    (fields : List (String × Json)) :
    fieldsText ((name, j) :: field :: fields) =
      '"' :: (name.toList.flatMap escape ++ '"' :: ':' :: (j.write.toList ++
        ',' :: fieldsText (field :: fields))) := by
  simp [fieldsText, toList_quote, List.intercalate_cons_cons]

theorem toList_write_object (fields : List (String × Json)) :
    (object fields).write.toList = '\x7b' :: (fieldsText fields ++ ['\x7d']) := by
  simp [write, writeFields_eq, fieldsText, Function.comp_def]

theorem fields?_fieldsText (fuel room : Nat) {fields : List (String × Json)} {rest : List Char}
    (hread : ∀ field ∈ fields, IsReadBack field.2) (hne : fields ≠ [])
    (hfuel : 2 * (fieldsText fields).length + 1 < fuel)
    (hroom : ∀ field ∈ fields, field.2.depth ≤ room) :
    fields? fuel room (fieldsText fields ++ '\x7d' :: rest) =
      some (fields.map fun field => (some field.1, TextLayer.json.reread field.2), rest) := by
  induction fields generalizing fuel with
  | nil => exact absurd rfl hne
  | cons field fields ih =>
      obtain ⟨name, j⟩ := field
      obtain ⟨fuel, rfl⟩ : ∃ k, fuel = k + 1 := ⟨fuel - 1, by omega⟩
      have hj : IsReadBack j := hread (name, j) List.mem_cons_self
      have hdepth : j.depth ≤ room := hroom (name, j) List.mem_cons_self
      cases fields with
      | nil =>
          rw [fieldsText_singleton] at hfuel ⊢
          simp only [List.length_cons, List.length_append] at hfuel
          have hvalue := hj fuel room ('\x7d' :: rest) (by omega) hdepth
            (ends_of_not_digit (by decide) _)
          simp [fields?, dropBlanks_cons, isBlank, string?_escape, hvalue]
      | cons field fields =>
          rw [fieldsText_cons_cons] at hfuel ⊢
          simp only [List.length_cons, List.length_append] at hfuel
          have hvalue := hj fuel room (',' :: (fieldsText (field :: fields) ++ '\x7d' :: rest))
            (by omega) hdepth (ends_of_not_digit (by decide) _)
          have hfields := ih fuel (fun k hk => hread k (List.mem_cons_of_mem _ hk))
            (List.cons_ne_nil _ _) (by omega) fun k hk => hroom k (List.mem_cons_of_mem _ hk)
          simp [fields?, dropBlanks_cons, isBlank, string?_escape, hvalue, hfields]

theorem ofFields_map_some (f : Json → Json) (fields : List (String × Json)) :
    ofFields (fields.map fun field => (some field.1, f field.2)) =
      object (fields.map fun field => (field.1, f field.2)) := by
  have hnames : (fields.map fun field => (some field.1, f field.2)) =
      (fields.map fun field => (field.1, f field.2)).map fun field => (some field.1, field.2) := by
    rw [List.map_map]
    rfl
  rw [ofFields, hnames, mapM_map_eq_some_self.2]
  exact fun field _ => rfl

theorem nested_of_pos {room : Nat} (h : 0 < room) (j : Json) : nested room j = j :=
  if_neg h.ne'

theorem exists_itemsText_eq_cons {j : Json} (hj : j.Readable) (js : List Json) :
    ∃ c cs, itemsText (j :: js) = c :: cs ∧ isBlank c = false ∧ c ≠ ']' := by
  obtain ⟨c, cs, htext, hc⟩ := exists_write_eq_cons hj
  cases js with
  | nil => exact ⟨c, cs, by rw [itemsText_singleton, htext], hc⟩
  | cons j' js => exact ⟨c, _, by rw [itemsText_cons_cons, htext, List.cons_append], hc⟩

theorem exists_fieldsText_eq_cons (field : String × Json) (fields : List (String × Json)) :
    ∃ cs, fieldsText (field :: fields) = '"' :: cs := by
  obtain ⟨name, j⟩ := field
  cases fields with
  | nil => exact ⟨_, fieldsText_singleton name j⟩
  | cons field fields => exact ⟨_, fieldsText_cons_cons name j field fields⟩

theorem isReadBack_array {items : List Json} (hreadable : ∀ j ∈ items, j.Readable)
    (hread : ∀ j ∈ items, IsReadBack j) : IsReadBack (array items) := by
  intro fuel room rest hfuel hdepth hrest
  obtain ⟨hpos, hroom⟩ := depth_array_le.1 hdepth
  rw [toList_write_array] at hfuel ⊢
  simp only [List.length_cons, List.length_append, List.length_nil] at hfuel
  obtain ⟨fuel, rfl⟩ : ∃ k, fuel = k + 1 := ⟨fuel - 1, by omega⟩
  rw [TextLayer.reread, mapFloats_array]
  cases items with
  | nil => simp [value?, itemsText, dropBlanks_cons, isBlank, nested_of_pos hpos]
  | cons j js =>
      obtain ⟨c, cs, htext, hblank, hc⟩ :=
        exists_itemsText_eq_cons (hreadable j List.mem_cons_self) js
      have hitems : items? fuel (room - 1) (itemsText (j :: js) ++ ']' :: rest) =
          some ((j :: js).map TextLayer.json.reread, rest) :=
        items?_itemsText fuel (room - 1) hread (List.cons_ne_nil j js) (by omega) hroom
      rw [htext] at hitems ⊢
      simp only [List.cons_append, List.append_assoc, List.nil_append] at hitems ⊢
      have hopen : isBlank '[' = false := by decide
      simp only [value?, dropBlanks_cons hopen, dropBlanks_cons hblank]
      -- No item begins with a closing bracket, so the array is not taken for an empty one.
      split
      case h_1 _ _ hclose => exact absurd (List.cons.inj hclose).1 hc
      case h_2 =>
        rw [hitems, Option.map_some, nested_of_pos hpos]
        rfl

theorem isReadBack_object {fields : List (String × Json)}
    (hread : ∀ field ∈ fields, IsReadBack field.2) : IsReadBack (object fields) := by
  intro fuel room rest hfuel hdepth hrest
  obtain ⟨hpos, hroom⟩ := depth_object_le.1 hdepth
  rw [toList_write_object] at hfuel ⊢
  simp only [List.length_cons, List.length_append, List.length_nil] at hfuel
  obtain ⟨fuel, rfl⟩ : ∃ k, fuel = k + 1 := ⟨fuel - 1, by omega⟩
  rw [TextLayer.reread, mapFloats_object]
  cases fields with
  | nil => simp [value?, fieldsText, dropBlanks_cons, isBlank, nested_of_pos hpos]
  | cons field fields =>
      obtain ⟨cs, htext⟩ := exists_fieldsText_eq_cons field fields
      have hfields : fields? fuel (room - 1) (fieldsText (field :: fields) ++ '\x7d' :: rest) =
          some ((field :: fields).map fun field =>
            (some field.1, TextLayer.json.reread field.2), rest) :=
        fields?_fieldsText fuel (room - 1) hread (List.cons_ne_nil _ _) (by omega) hroom
      rw [htext] at hfields ⊢
      simp only [List.cons_append, List.append_assoc, List.nil_append] at hfields ⊢
      have hopen : isBlank '\x7b' = false := by decide
      have hquote : isBlank '"' = false := by decide
      simp only [value?, dropBlanks_cons hopen, dropBlanks_cons hquote]
      split
      case h_1 _ _ hclose => exact absurd (List.cons.inj hclose).1 (by decide)
      case h_2 =>
        rw [hfields, Option.map_some, ofFields_map_some, nested_of_pos hpos]
        rfl

/-- A floating point number is read within a document as it is read alone. -/
theorem isReadBack_float {x j : Json} (hx : ReadsAs x.write j)
    (hreread : TextLayer.json.reread x = (read? x.write).getD unreadable) : IsReadBack x := by
  rw [hx.read?, Option.getD_some] at hreread
  exact hx.isReadBack rfl hreread

theorem isReadBack {j : Json} (hj : j.Readable) : IsReadBack j := by
  induction j using induction with
  | null => exact readsAs_null.isReadBack rfl rfl
  | bool b => exact (readsAs_bool b).isReadBack rfl rfl
  | int n =>
      obtain ⟨t, rfl⟩ := hj
      exact (readsAs_int t).isReadBack rfl rfl
  | float32 x =>
      obtain ⟨j, hx, -⟩ := exists_readsAs_write (-6) 12 x
      exact isReadBack_float hx rfl
  | float64 x =>
      obtain ⟨j, hx, -⟩ := exists_readsAs_write (-5) 15 x
      exact isReadBack_float hx rfl
  | text s => exact (readsAs_text s).isReadBack rfl rfl
  | array items ih =>
      have hitems := readable_array.1 hj
      exact isReadBack_array hitems fun j hmem => ih j hmem (hitems j hmem)
  | object fields ih =>
      have hfields := readable_object.1 hj
      exact isReadBack_object fun field hmem => ih field hmem (hfields field hmem)
  | unreadable => exact hj.elim

end Json

/-- The text layer that is written and read here is faithful. -/
theorem TextLayer.faithful_json : json.Faithful where
  read?_write j hj hdepth := by
    have hvalue := Json.isReadBack hj (2 * j.write.toList.length + 2) Json.maxDepth [] (by omega)
      hdepth Numeral.ends_nil
    rw [List.append_nil] at hvalue
    show Json.read? j.write = some (json.reread j)
    simp only [Json.read?, hvalue]
    rfl
  reread_finite x hx := by
    obtain ⟨j, hread, hfinite, -⟩ := Json.exists_readsAs_write (-6) 12 x
    have hreread : json.reread (.float32 x) = j := congrArg (Option.getD · _) hread.read?
    rw [hreread]
    exact hfinite hx
  reread_not_finite x hx := by
    obtain ⟨j, hread, -, hnull⟩ := Json.exists_readsAs_write (-6) 12 x
    have hreread : json.reread (.float32 x) = j := congrArg (Option.getD · _) hread.read?
    rw [hreread]
    exact hnull hx

end TemporalPattern
