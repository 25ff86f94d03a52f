import TemporalPattern.Proofs.JsonTerms

/-!
# Terms handed over as text

A term is written as text and read back from it.  The text carries no types, so a number is read
with the first type that takes it: the 32-bit integers, the 64-bit integers, and then the 32-bit
floating point numbers, which take every number that is left.  The rest of a term can always be told
from its text: whatever its shape, it arrives unchanged if each of its values would arrive alone.
All this is the same with every faithful text layer.
-/

namespace TemporalPattern

namespace TextLayer

variable {T : TextLayer}

theorem Faithful.read?_write_bind {α : Type} {j : Json} (hT : T.Faithful) (hj : j.Readable)
    (hdepth : j.depth ≤ T.maxDepth) (decode : Json → Option α) :
    (T.read? (T.write j)).bind decode = decode (T.reread j) := by
  rw [hT.read?_write j hj hdepth, Option.bind_some]

theorem Faithful.read?_write_float32 (hT : T.Faithful) (x : Binary .binary32) :
    T.read? (T.write (.float32 x)) = some (T.reread (.float32 x)) :=
  hT.read?_write _ trivial (Nat.zero_le _)

/-- What a text layer keeps is what survives the replacement of floating point numbers by it. -/
theorem Faithful.survives_iff_keeps (hT : T.Faithful) (v : Value) :
    v.Survives (fun x => (T.read? (T.write x)).getD .unreadable) ↔ T.Keeps v := by
  cases v with
  | text s | bool b => exact iff_of_true rfl trivial
  | int32 n => exact iff_of_true (Value.survives_int32 n) trivial
  | int64 n => exact Value.survives_int64_iff n
  | float64 x => exact iff_of_false (Value.ofJson?_ne_float64 _ x) id
  | float32 x =>
      show Value.ofJson? (T.reread (.float32 x)) = some (.float32 x) ↔ T.IsLossless x
      rw [IsLossless, hT.read?_write_float32 x]
      by_cases hx : x.isFinite
      · rcases hT.reread_finite x hx with hread | ⟨y, hread⟩
        · simp [hread, Value.ofJson?]
        · simp [hread, Value.ofJson?]
      · simp [hT.reread_not_finite x hx, Value.ofJson?]

theorem Faithful.read_back_iff_keeps (hT : T.Faithful) (v : Value) :
    (T.read? (T.write v.toJson)).bind Value.ofJson? = some v ↔ T.Keeps v := by
  have hdepth : v.toJson.depth = 0 := by
    cases v <;> rfl
  rw [hT.read?_write_bind v.readable_toJson (by omega), ← hT.survives_iff_keeps]
  rfl

/-- With a text that gives its number exactly, a value is kept if its type can be told. -/
theorem Faithful.keeps_iff_isTold (hT : T.Faithful) {v : Value}
    (hv : ∀ x, v = .float32 x → x.isFinite → T.IsLossless x) : T.Keeps v ↔ v.IsTold := by
  cases v with
  | text _ | bool _ | int32 _ | int64 _ | float64 _ => exact Iff.rfl
  | float32 x =>
      refine ⟨fun h => ?_, hv x rfl⟩
      by_contra hx
      obtain ⟨y, hread, -⟩ : T.IsLossless x := h
      rw [hT.read?_write_float32 x, hT.reread_not_finite x hx] at hread
      simp at hread

end TextLayer

/-- With every faithful text layer, what is handed over arrives unchanged exactly if every value in
it is kept, and a value whose text gives its number exactly is kept exactly if its type can be
told. -/
theorem handed_over_unchanged_iff_values_kept {T : TextLayer} (hT : T.Faithful) (n : NormalForm)
    (p : Predicate) (o : Operand) (hn : n.toJson.depth ≤ T.maxDepth)
    (hp : (Predicate.toJson p).depth ≤ T.maxDepth) (ho : o.toJson.depth ≤ T.maxDepth) :
    ((T.read? (T.write n.toJson)).bind NormalForm.ofJson? = some n ↔ ∀ v ∈ n.values, T.Keeps v) ∧
    ((T.read? (T.write (Predicate.toJson p))).bind Predicate.ofJson? = some p ↔
      ∀ v ∈ p.values, T.Keeps v) ∧
    ((T.read? (T.write o.toJson)).bind Operand.ofJson? = some o ↔ ∀ v ∈ o.values, T.Keeps v) ∧
    ∀ v, (∀ x, v = .float32 x → x.isFinite → T.IsLossless x) → (T.Keeps v ↔ v.IsTold) := by
  rw [hT.read?_write_bind n.readable_toJson hn, hT.read?_write_bind p.readable_toJson hp,
    hT.read?_write_bind o.readable_toJson ho]
  simp only [← hT.survives_iff_keeps]
  exact ⟨n.ofJson?_mapFloats_iff, p.ofJson?_mapFloats_iff, o.ofJson?_mapFloats_iff,
    fun v hv => (hT.survives_iff_keeps v).trans (hT.keeps_iff_isTold hv)⟩

theorem handed_over_unchanged_iff_values_kept_of_quarter :
    let T : TextLayer := .json
    let x : Binary .binary32 := ⟨0x3e800000⟩
    let c : Comparison := ⟨.property "a" "x", .eq, .value (.int64 4294967296)⟩
    let d : Comparison := ⟨.property "a" "x", .lt, .value (.float32 x)⟩
    let n : NormalForm := ⟨[⟨[.positive c, .negative d]⟩]⟩
    let p : Predicate := .or (.atom c) (.not (.atom d))
    T.Faithful ∧ T.IsLossless x ∧
    (T.read? (T.write n.toJson)).bind NormalForm.ofJson? = some n ∧
    (T.read? (T.write (Predicate.toJson p))).bind Predicate.ofJson? = some p ∧
    (T.read? (T.write d.rhs.toJson)).bind Operand.ofJson? = some d.rhs := by
  intro T x c d n p
  have hT : T.Faithful := TextLayer.faithful_json
  have hlossless : T.IsLossless x := (hT.read_back_iff_keeps (.float32 x)).1 (by decide +kernel)
  obtain ⟨hn, hp, ho, hkeeps⟩ :=
    handed_over_unchanged_iff_values_kept hT n p d.rhs (by decide) (by decide) (by decide)
  have hint : T.Keeps (.int64 4294967296) := by
    rw [TextLayer.Keeps]
    decide
  have hfloat : T.Keeps (.float32 x) := by
    have hfinite : x.isFinite := by decide
    refine (hkeeps (.float32 x) ?_).2 hfinite
    rintro _ ⟨⟩ -
    exact hlossless
  refine ⟨hT, hlossless, hn.2 ?_, hp.2 ?_, ho.2 ?_⟩
  · simp [NormalForm.values, n, Cnf.atoms, Literal.atom, Comparison.values, c, d, Operand.values,
      hint, hfloat]
  · simp [Predicate.values, p, Formula.atoms, Comparison.values, c, d, Operand.values, hint, hfloat]
  · simp [d, Operand.values, hfloat]

/-- A finite literal of 64 bits arrives as one of 32 bits, with another value. -/
theorem float64_literal_not_handed_over :
    let T : TextLayer := .json
    let x : Binary .binary64 := ⟨0x3fd3333333333334⟩
    let v : Value := .float64 x
    let n : NormalForm := ⟨[⟨[.positive ⟨.property "a" "x", .eq, .value v⟩]⟩]⟩
    x.unpack = .finite false 0x13333333333334 (-54) ∧ n.toJson.depth ≤ T.maxDepth ∧
    (T.read? (T.write n.toJson)).bind NormalForm.ofJson? ≠ some n ∧
    (T.read? (T.write v.toJson)).bind Value.ofJson? = some (.float32 ⟨0x3e99999a⟩) := by
  intro T x v n
  have hdepth : n.toJson.depth ≤ T.maxDepth := by decide
  have hv : v ∈ n.values := by
    simp [n, NormalForm.values, Cnf.atoms, Literal.atom, Comparison.values, Operand.values]
  refine ⟨by decide, hdepth, fun hread => ?_, by decide +kernel⟩
  rw [TextLayer.faithful_json.read?_write_bind n.readable_toJson hdepth] at hread
  exact (TextLayer.faithful_json.survives_iff_keeps v).1 (n.ofJson?_mapFloats_iff.1 hread v hv)

/-! ## The shape of a term -/

/-- With every faithful text layer, time points of every shape are recovered from their texts, and
so are predicates and normal forms of every shape if each value in them is recovered from a text of
its own. -/
theorem shape_is_recovered_from_text {T : TextLayer} (hT : T.Faithful) (t : TimePoint)
    (p : Predicate) (n : NormalForm) (htime : t.toJson.depth ≤ T.maxDepth)
    (hpredicate : (Predicate.toJson p).depth ≤ T.maxDepth) (hnormal : n.toJson.depth ≤ T.maxDepth)
    (hpvalues : ∀ v ∈ p.values, (T.read? (T.write v.toJson)).bind Value.ofJson? = some v)
    (hnvalues : ∀ v ∈ n.values, (T.read? (T.write v.toJson)).bind Value.ofJson? = some v) :
    (T.read? (T.write t.toJson)).bind TimePoint.ofJson? = some t ∧
    (T.read? (T.write (Predicate.toJson p))).bind Predicate.ofJson? = some p ∧
    (T.read? (T.write n.toJson)).bind NormalForm.ofJson? = some n := by
  simp only [hT.read_back_iff_keeps, ← hT.survives_iff_keeps] at hpvalues hnvalues
  have htime' : T.reread t.toJson = t.toJson := t.mapFloats_toJson _
  rw [hT.read?_write_bind t.readable_toJson htime,
    hT.read?_write_bind p.readable_toJson hpredicate,
    hT.read?_write_bind n.readable_toJson hnormal, htime']
  exact ⟨t.ofJson?_toJson, p.ofJson?_mapFloats_iff.2 hpvalues, n.ofJson?_mapFloats_iff.2 hnvalues⟩

theorem shape_is_recovered_from_text_of_nested_terms :
    let T : TextLayer := .json
    let s : TimePoint := .selector "a\"\\\n" ⟨.transaction, .stop⟩
    let t : TimePoint := .duration (.duration (.aggregate .max []) (.plus s Int64.minValue))
      (.aggregate .min [.literal Int64.maxValue])
    let v : Value := .text "\x7f\u00e9,]"
    let c : Comparison := ⟨.property "" "\x7b", .neq, .value v⟩
    let d : Comparison := ⟨.time t, .lte, .value (.bool true)⟩
    let p : Predicate := .xor (.not (.atom c)) (.or (.atom d) (.atom c))
    let n : NormalForm := ⟨[⟨[]⟩, ⟨[.negative c, .positive d]⟩]⟩
    T.Faithful ∧ (T.read? (T.write t.toJson)).bind TimePoint.ofJson? = some t ∧
    (T.read? (T.write (Predicate.toJson p))).bind Predicate.ofJson? = some p ∧
    (T.read? (T.write n.toJson)).bind NormalForm.ofJson? = some n := by
  intro T s t v c d p n
  have hT : T.Faithful := TextLayer.faithful_json
  have htext : (T.read? (T.write v.toJson)).bind Value.ofJson? = some v :=
    (hT.read_back_iff_keeps v).2 trivial
  have hbool : (T.read? (T.write (Value.bool true).toJson)).bind Value.ofJson? =
      some (.bool true) :=
    (hT.read_back_iff_keeps (.bool true)).2 trivial
  refine ⟨hT, shape_is_recovered_from_text hT t p n (by decide) (by decide) (by decide) ?_ ?_⟩
  · simp [Predicate.values, p, Formula.atoms, Comparison.values, c, d, Operand.values, htext, hbool]
  · simp [NormalForm.values, n, Cnf.atoms, Literal.atom, Comparison.values, c, d, Operand.values,
      htext, hbool]

end TemporalPattern
