import Mathlib.Data.List.Nodup
import TemporalPattern.Json.Decode
import TemporalPattern.Proofs.JsonText
import TemporalPattern.Proofs.Terms

/-!
# Terms are read as they are written

The documents of terms tell alternatives, names and times apart, so a term is read back from its
document up to the values in it.  Whatever becomes of the floating point numbers in a document on
the way, a term survives if each of its values does.
-/

namespace TemporalPattern

/-! ## Records -/

namespace Json

variable {α : Type}

theorem lookup_of_mem {fields : List (String × α)} (h : (fields.map Prod.fst).Nodup)
    {field : String × α} (hmem : field ∈ fields) : fields.lookup field.1 = some field.2 := by
  obtain ⟨before, after, rfl⟩ := List.append_of_mem hmem
  rw [List.map_append, List.map_cons, List.nodup_middle, List.nodup_cons] at h
  refine List.lookup_eq_some_iff.2 ⟨before, after, rfl, fun other hother => ?_⟩
  rw [bne_iff_ne]
  intro heq
  apply h.1
  rw [heq]
  exact List.mem_append_left _ (List.mem_map_of_mem hother)

/-- A record is read whole if no name occurs twice in it. -/
theorem select?_names (fields : List (String × α)) (h : (fields.map Prod.fst).Nodup) :
    select? (fields.map Prod.fst) fields = some (fields.map fun field => some field.2) := by
  have hcount (name : String) : fields.countP (·.1 = name) ≤ 1 := by
    have hle := List.nodup_iff_count_le_one.1 h name
    rw [List.count, List.countP_map] at hle
    exact hle
  rw [select?, if_pos (by simpa using fun name _ _ => hcount name), List.map_map]
  congr 1
  exact List.map_congr_left fun field hmem => lookup_of_mem h hmem

end Json

/-! ## Numbers and names -/

@[simp] theorem Json.readable_int (t : Int64) : (int t.toInt).Readable :=
  ⟨t, rfl⟩

@[simp] theorem Json.readable_text (s : String) : (text s).Readable :=
  trivial

@[simp] theorem Json.readable_variant {name : String} {contents : Json} :
    (variant name contents).Readable ↔ contents.Readable := by
  simp [variant, readable_object]

@[simp] theorem Json.mapFloats_variant (f : Json → Json) (name : String) (contents : Json) :
    (variant name contents).mapFloats f = variant name (contents.mapFloats f) :=
  mapFloats_object f _

@[simp] theorem TimeField.ofJson?_jsonName (field : TimeField) :
    ofJson? (.text field.jsonName) = some field := by
  obtain ⟨axis, side⟩ := field
  cases axis <;> cases side <;> rfl

@[simp] theorem Comparator.ofJson?_jsonName (op : Comparator) :
    ofJson? (.text op.jsonName) = some op := by
  cases op <;> rfl

/-! ## Time points -/

@[simp] theorem Millis.ofJson?_toJson (t : Millis) : ofJson? t.toJson = some t := by
  have hfields : Json.record? ["millis"] (toJson t) = some [some (.int t.toInt)] :=
    Json.select?_names [_] (by simp)
  simp [ofJson?, hfields, Json.int64?, ofInt?_toInt]

@[simp] theorem Millis.readable_toJson (t : Millis) : (toJson t).Readable := by
  simp [toJson]

/-- There are no floating point numbers in the document of a time. -/
@[simp] theorem Millis.mapFloats_toJson (f : Json → Json) (t : Millis) :
    (toJson t).mapFloats f = toJson t :=
  Json.mapFloats_object f _

namespace TimePoint

theorem ofJsonEach_eq (js : List Json) : ofJsonEach js = js.mapM ofJson? := by
  induction js with
  | nil => rfl
  | cons j js ih => simp [ofJsonEach, ih]

@[simp] theorem ofJson?_toJson (p : TimePoint) : ofJson? p.toJson = some p := by
  induction p using induction with
  | literal time => rw [toJson, Json.variant, ofJson?, Millis.ofJson?_toJson, Option.map_some]
  | selector name field =>
      have hfields : Json.record? ["variable", "field"]
          (.object [("variable", .text name), ("field", .text field.jsonName)]) =
            some [some (.text name), some (.text field.jsonName)] :=
        Json.select?_names [_, _] (by simp)
      simp [toJson, Json.variant, ofJson?, selectorOfJson?, hfields, Json.text?]
  | constant length =>
      rw [toJson, Json.variant, ofJson?, Millis.ofJson?_toJson, Option.map_some]
  | duration start stop hstart hstop =>
      have hfields : Json.select? ["from", "to"] [("from", some start), ("to", some stop)] =
          some [some (some start), some (some stop)] :=
        Json.select?_names [_, _] (by simp)
      simp [toJson, Json.variant, ofJson?, ofJsonFields, hstart, hstop, hfields]
  | plus point length hpoint =>
      have hfields : Json.select? ["point", "constant"]
          [("point", some point), ("constant", ofJson? length.toJson)] =
            some [some (some point), some (ofJson? length.toJson)] :=
        Json.select?_names [_, _] (by simp)
      have hnames :
          ([("point", point.toJson), ("constant", length.toJson)].map Prod.fst).Nodup := by simp
      have hlength : List.lookup "constant"
          [("point", point.toJson), ("constant", length.toJson)] = some length.toJson :=
        Json.lookup_of_mem hnames (List.mem_cons_of_mem _ List.mem_cons_self)
      simp [toJson, Json.variant, ofJson?, ofJsonFields, hpoint, hfields, hlength]
  | aggregate choice args ih =>
      have hargs : ofJsonEach (toJsonEach args) = some args := by
        rw [ofJsonEach_eq, toJsonEach_eq, mapM_map_eq_some_self]
        exact ih
      cases choice with
      | max => simp [toJson, Json.variant, Aggregate.jsonName, ofJson?, hargs]
      | min => simp [toJson, Json.variant, Aggregate.jsonName, ofJson?, hargs]

@[simp] theorem readable_toJson (p : TimePoint) : p.toJson.Readable := by
  induction p using induction with
  | literal time => exact Json.readable_variant.2 (Millis.readable_toJson time)
  | selector name field =>
      simp [toJson]
  | constant length => exact Json.readable_variant.2 (Millis.readable_toJson length)
  | duration start stop hstart hstop =>
      simp [toJson, hstart, hstop]
  | plus point length hpoint =>
      simp [toJson, hpoint]
  | aggregate choice args ih =>
      rw [toJson, Json.readable_variant, Json.readable_array, toJsonEach_eq, List.forall_mem_map]
      exact ih

@[simp] theorem mapFloats_toJson (f : Json → Json) (p : TimePoint) :
    p.toJson.mapFloats f = p.toJson := by
  induction p using induction with
  | literal time => rw [toJson, Json.mapFloats_variant, Millis.mapFloats_toJson]
  | selector name field => simp [toJson]
  | constant length => rw [toJson, Json.mapFloats_variant, Millis.mapFloats_toJson]
  | duration start stop hstart hstop => simp [toJson, hstart, hstop]
  | plus point length hpoint => simp [toJson, hpoint]
  | aggregate choice args ih =>
      rw [toJson, Json.mapFloats_variant, Json.mapFloats_array, toJsonEach_eq, List.map_map]
      congr 2
      exact List.map_congr_left ih

end TimePoint

/-! ## Values -/

namespace Value

/-- A value is read back from its document in which floating point numbers are replaced. -/
def Survives (f : Json → Json) (v : Value) : Prop :=
  ofJson? (v.toJson.mapFloats f) = some v

variable {f : Json → Json}

/-- A document of no value of 64 bits is read as one. -/
theorem ofJson?_ne_float64 (j : Json) (x : Binary .binary64) : ofJson? j ≠ some (float64 x) := by
  cases j with
  | int k =>
      rw [ofJson?, ne_eq, Option.some_inj]
      unfold ofInt
      grind
  | _ => simp [ofJson?]

theorem survives_int32 (n : Int32) : (int32 n).Survives f := by
  have hfits : Int32.minValue.toInt ≤ n.toInt ∧ n.toInt ≤ Int32.maxValue.toInt :=
    ⟨n.minValue_le_toInt, n.toInt_le⟩
  show some (ofInt n.toInt) = some (int32 n)
  rw [ofInt, if_pos hfits, Int32.ofInt_toInt]

/-- A number that fits 32 bits is read with these. -/
theorem survives_int64_iff (n : Int64) : (int64 n).Survives f ↔
    ¬ (Int32.minValue.toInt ≤ n.toInt ∧ n.toInt ≤ Int32.maxValue.toInt) := by
  show some (ofInt n.toInt) = some (int64 n) ↔ _
  rw [ofInt, Millis.ofInt?_toInt]
  split <;> simp_all

@[simp] theorem readable_toJson (v : Value) : v.toJson.Readable := by
  cases v with
  | int32 n => exact ⟨n.toInt64, Int32.toInt_toInt64 n⟩
  | int64 n => exact ⟨n, rfl⟩
  | text _ | bool _ | float32 _ | float64 _ => exact trivial

end Value

/-! ## Comparisons -/

namespace Operand

variable {f : Json → Json}

theorem ofJson?_mapFloats_iff (o : Operand) :
    ofJson? (o.toJson.mapFloats f) = some o ↔ ∀ v ∈ o.values, v.Survives f := by
  cases o with
  | value v =>
      rw [toJson, Json.mapFloats_variant, Json.variant, ofJson?, Option.map_eq_some_iff]
      simp [values, Value.Survives]
  | element name => simp [toJson, Json.variant, ofJson?, Json.text?, values]
  | property name key =>
      have hfields : Json.record? ["variable", "key"]
          (.object [("variable", .text name), ("key", .text key)]) =
            some [some (.text name), some (.text key)] :=
        Json.select?_names [_, _] (by simp)
      simp [toJson, Json.variant, ofJson?, propertyOfJson?, hfields, Json.text?, values]
  | time point =>
      rw [toJson, Json.mapFloats_variant, TimePoint.mapFloats_toJson, Json.variant, ofJson?,
        TimePoint.ofJson?_toJson]
      simp [values]

@[simp] theorem readable_toJson (o : Operand) : o.toJson.Readable := by
  cases o with
  | value v => exact Json.readable_variant.2 v.readable_toJson
  | element name => exact Json.readable_variant.2 (Json.readable_text name)
  | property name key =>
      simp [toJson]
  | time point => exact Json.readable_variant.2 point.readable_toJson

end Operand

namespace Comparison

variable {f : Json → Json}

theorem ofJson?_mapFloats_iff (c : Comparison) :
    ofJson? (c.toJson.mapFloats f) = some c ↔ ∀ v ∈ c.values, v.Survives f := by
  have hread : ofJson? (c.toJson.mapFloats f) = do
      return ⟨← Operand.ofJson? (c.lhs.toJson.mapFloats f), c.op,
        ← Operand.ofJson? (c.rhs.toJson.mapFloats f)⟩ := by
    have hfields : (c.toJson.mapFloats f).record? ["lhs", "op", "rhs"] =
        some [some (c.lhs.toJson.mapFloats f), some (.text c.op.jsonName),
          some (c.rhs.toJson.mapFloats f)] := by
      rw [toJson, Json.mapFloats_object]
      exact Json.select?_names [_, _, _] (by simp)
    simp [ofJson?, hfields]
  rw [hread, values, List.forall_mem_append, ← Operand.ofJson?_mapFloats_iff,
    ← Operand.ofJson?_mapFloats_iff]
  obtain ⟨lhs, op, rhs⟩ := c
  simp [Option.bind_eq_some_iff]

@[simp] theorem readable_toJson (c : Comparison) : c.toJson.Readable := by
  simp [toJson]

end Comparison

/-! ## Predicates and normal forms -/

namespace Predicate

variable {f : Json → Json}

theorem ofJson?_mapFloats_iff (p : Predicate) :
    ofJson? ((toJson p).mapFloats f) = some p ↔ ∀ v ∈ p.values, v.Survives f := by
  simp only [values, List.forall_mem_flatMap]
  induction p with
  | atom c =>
      rw [toJson, Json.mapFloats_variant, Json.variant, ofJson?, Option.map_eq_some_iff]
      simp [Formula.atoms, Comparison.ofJson?_mapFloats_iff]
  | not p ih =>
      rw [Formula.atoms, ← ih, toJson, Json.mapFloats_variant, Json.variant, ofJson?]
      simp [Option.bind_eq_some_iff]
  | and p q hp hq | or p q hp hq | xor p q hp hq =>
      rw [Formula.atoms, List.forall_mem_append, ← hp, ← hq, toJson, Json.mapFloats_variant,
        Json.mapFloats_array, List.map_cons, List.map_cons, List.map_nil, Json.variant, ofJson?]
      simp [Option.bind_eq_some_iff]

theorem readable_toJson (p : Predicate) : (toJson p).Readable := by
  induction p with
  | atom c => exact Json.readable_variant.2 c.readable_toJson
  | not p ih => exact Json.readable_variant.2 ih
  | and p q hp hq | or p q hp hq | xor p q hp hq =>
      rw [toJson, Json.readable_variant, Json.readable_array]
      simp [hp, hq]

end Predicate

namespace NormalForm

variable {f : Json → Json}

theorem literalOfJson?_mapFloats_iff (l : Literal Comparison) :
    literalOfJson? ((literalToJson l).mapFloats f) = some l ↔
      ∀ v ∈ l.atom.values, v.Survives f := by
  cases l with
  | positive c | negative c =>
      rw [literalToJson, Json.mapFloats_variant, Json.variant, literalOfJson?,
        Option.map_eq_some_iff]
      simp [Literal.atom, Comparison.ofJson?_mapFloats_iff]

theorem clauseOfJson?_mapFloats_iff (c : Clause Comparison) :
    clauseOfJson? ((Json.array (c.literals.map literalToJson)).mapFloats f) = some c ↔
      ∀ l ∈ c.literals, ∀ v ∈ l.atom.values, v.Survives f := by
  have hread : clauseOfJson? ((Json.array (c.literals.map literalToJson)).mapFloats f) =
      ((c.literals.map fun l => (literalToJson l).mapFloats f).mapM literalOfJson?).map
        Clause.mk := by
    simp [clauseOfJson?, Json.array?, Option.map_eq_bind, Function.comp_def]
  obtain ⟨literals⟩ := c
  rw [hread, Option.map_eq_some_iff]
  simp only [Clause.mk.injEq, exists_eq_right, mapM_map_eq_some_self, literalOfJson?_mapFloats_iff]

theorem ofJson?_mapFloats_iff (n : NormalForm) :
    ofJson? (n.toJson.mapFloats f) = some n ↔ ∀ v ∈ n.values, v.Survives f := by
  have hread : ofJson? (n.toJson.mapFloats f) = ((n.clauses.map fun c =>
      (Json.array (c.literals.map literalToJson)).mapFloats f).mapM clauseOfJson?).map
        Cnf.mk := by
    have hfields : (n.toJson.mapFloats f).record? ["clauses"] =
        some [some ((Json.array (n.clauses.map fun c =>
          .array (c.literals.map literalToJson))).mapFloats f)] := by
      rw [toJson, Json.mapFloats_object]
      exact Json.select?_names [_] (by simp)
    simp [ofJson?, hfields, Json.array?, Option.map_eq_bind, Function.comp_def]
  obtain ⟨clauses⟩ := n
  rw [hread, Option.map_eq_some_iff]
  simp only [Cnf.mk.injEq, exists_eq_right, mapM_map_eq_some_self, clauseOfJson?_mapFloats_iff,
    values, Cnf.atoms, List.forall_mem_flatMap, List.forall_mem_map]

@[simp] theorem readable_literalToJson (l : Literal Comparison) : (literalToJson l).Readable := by
  cases l with
  | positive c | negative c => exact Json.readable_variant.2 c.readable_toJson

theorem readable_toJson (n : NormalForm) : n.toJson.Readable := by
  simp [toJson]

end NormalForm
end TemporalPattern
