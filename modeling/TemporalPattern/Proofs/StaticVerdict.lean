import TemporalPattern.Proofs.Almanac
import TemporalPattern.Proofs.Elaboration
import TemporalPattern.Proofs.TermBounds
import TemporalPattern.Proofs.Verdicts
import TemporalPattern.Query

/-!
# The static verdict of a query

The bounds of ordinary terms are right as long as their literals are near the epoch, and so are the
verdicts on ordinary comparisons.  A compiled query consists of such comparisons; if it has a
verdict without any data, then that is its truth under all data.
-/

namespace TemporalPattern

/-! ## Ordinary terms -/

namespace TimePoint

variable {good : Millis → Prop} {p : TimePoint} {t : Timeline}

/-- The bounds of an instant are among its literals. -/
theorem all_bounds (hp : p.IsInstant good) : p.bounds.All good := by
  induction hp with
  | literal htime => exact Bounds.all_exact htime
  | selector name field => exact Bounds.all_unknown
  | aggregate choice _ _ ih =>
      rw [bounds, boundsEach_eq]
      exact Bounds.all_aggregate choice (List.forall_mem_map.2 ih)

theorem regular_of_isInstant (hp : p.IsInstant good) (t : Timeline) : p.Regular t := by
  induction hp with
  | literal _ => exact .literal _
  | selector name field => exact .selector name field
  | aggregate choice _ _ ih => exact .aggregate choice ih

theorem nonneg_of_not_mayBeNegative (hp : p.IsInstant good) (ht : t.FromEpoch)
    (h : p.mayBeNegative = false) : 0 ≤ p.value t := by
  induction hp with
  | @literal time _ =>
      have hle : ¬ time < 0 := of_decide_eq_false h
      rw [Int64.lt_iff_toInt_lt, not_lt] at hle
      exact hle
  | selector name field => exact (ht name field).1
  | @aggregate choice args hne _ ih =>
      rw [mayBeNegative, mayBeNegativeSome_eq, List.any_eq_false] at h
      have hvalues : args.map (·.value t) ≠ [] := by simpa using hne
      obtain ⟨q, hq, hchoice⟩ := List.mem_map.1 (Aggregate.choose_mem choice hvalues)
      rw [value_aggregate, ← hchoice]
      exact ih q hq (Bool.eq_false_of_not_eq_true (h q hq))

theorem regular_of_isOrdinary (hp : p.IsOrdinary Millis.NearEpoch) (ht : t.FromEpoch) :
    p.Regular t := by
  cases hp with
  | instant hp => exact regular_of_isInstant hp t
  | constant length => exact .constant length
  | @duration start stop hstart hstop =>
      have hstart' := regular_of_isInstant hstart t
      have hstop' := regular_of_isInstant hstop t
      apply Regular.duration hstart' hstop'
      · -- the bounds are literals, and those are too near the epoch for the difference to saturate
        intro hknown
        obtain ⟨l, u, hl, hu⟩ := Bounds.exists_of_lower_difference hknown
        calc Millis.least ≤ l.toInt - u.toInt :=
              Millis.least_le_sub_of_nearEpoch ((all_bounds hstart).upper u hu)
                ((all_bounds hstop).lower l hl)
          _ ≤ stop.value t - start.value t :=
              Int.sub_le_sub ((contains_bounds hstop').lower l hl)
                ((contains_bounds hstart').upper u hu)
      · intro hupper hlower
        have hnegative := Bounds.eq_false_of_upper_difference hupper hlower
        exact nonneg_of_not_mayBeNegative hstart ht hnegative

end TimePoint

/-- The verdict on an ordinary comparison is right under all data. -/
theorem Comparison.isRight_evaluate {c : Comparison} (hc : c.IsOrdinary Millis.NearEpoch)
    {r : Reading} (hr : r.timeline.FromEpoch) : c.evaluate.IsRight (r.Satisfies c) := by
  obtain ⟨lhs, op, rhs⟩ := c
  obtain ⟨hlhs, hrhs⟩ := hc
  cases lhs with
  | time p =>
      cases rhs with
      | time q =>
          exact Comparator.isRight_verdictOnTimes
            (TimePoint.contains_bounds (TimePoint.regular_of_isOrdinary hlhs hr))
            (TimePoint.contains_bounds (TimePoint.regular_of_isOrdinary hrhs hr))
      | value _ | element _ | property _ _ => exact Verdict.isRight_none _
  | value v =>
      cases rhs with
      | value w =>
          intro b hb
          have hverdict : op.verdictOnValues v w = some b := hb
          simp only [Reading.Satisfies, hverdict, Option.elim_some]
      | time _ | element _ | property _ _ => exact Verdict.isRight_none _
  | element _ | property _ _ => cases rhs <;> exact Verdict.isRight_none _

/-! ## Queries -/

theorem Element.isOrdinary_of_mem_atoms {s : Settings} {e : Element} {c : Comparison}
    {good : Millis → Prop} (h : c ∈ (e.normalForm s).atoms) : c.IsOrdinary good := by
  rw [normalForm_eq, Cnf.mem_atoms_foldl_and] at h
  rcases h with h | ⟨n, hn, h⟩
  · simp [Cnf.top, Cnf.atoms] at h
  · obtain ⟨c', hc', rfl⟩ := List.mem_map.1 hn
    obtain rfl : c = c' := by simpa [Cnf.ofLiteral, Cnf.atoms, Literal.atom] using h
    rcases List.mem_append.1 hc' with hc' | hc'
    · obtain ⟨label, -, rfl⟩ := List.mem_map.1 hc'
      exact ⟨trivial, trivial⟩
    · obtain ⟨field, -, rfl⟩ := List.mem_map.1 hc'
      exact ⟨trivial, trivial⟩

namespace Query

theorem isOrdinary_of_compile {s : Settings} {now : Millis} {q : Query} {n : NormalForm}
    (hnow : now.NearEpoch) (h : q.compile s now = .ok n) :
    ∀ c ∈ n.atoms, c.IsOrdinary Millis.NearEpoch := by
  have himplied : ∀ c ∈ (q.implied s).atoms, c.IsOrdinary Millis.NearEpoch := by
    intro c hc
    rw [implied, Cnf.mem_atoms_foldl_and] at hc
    rcases hc with hc | ⟨n, hn, hc⟩
    · simp [Cnf.top, Cnf.atoms] at hc
    · obtain ⟨e, -, rfl⟩ := List.mem_map.1 hn
      exact Element.isOrdinary_of_mem_atoms hc
  unfold compile at h
  split at h
  case h_1 f _ =>
    simp only [bind_eq_ok, pure_eq_ok] at h
    obtain ⟨m, hm, rfl⟩ := h
    obtain ⟨p, hp, p', hp', rfl⟩ := Filter.compile_eq_ok.1 hm
    have hordinary : p'.IsOrdinary Millis.NearEpoch := by
      apply Predicate.isOrdinary_of_normalize _ hp'
      apply Filter.isOrdinary_of_elaborate _ hp
      intro text moment hmoment
      exact Almanac.nearEpoch_of_parse Almanac.documented_gregorian hnow hmoment
    intro c hc
    rcases Cnf.mem_atoms_and.1 hc with hc | hc
    · exact himplied c hc
    · exact hordinary c ((Formula.mem_atoms_normalForm true).1 hc)
  case h_2 =>
    obtain rfl := Except.ok.inj h
    exact himplied

/-- If a compiled query has a static verdict, that is its truth under all data: whatever instants
from the epoch on the time fields have, however two given values compare where that is decided, and
whatever is the case with all other comparisons.  The current instant stands for itself in a query,
so like a literal it has to be on a date of the calendar. -/
theorem static_verdict_is_right {s : Settings} {now : Millis} {q : Query} {n : NormalForm}
    {b : Bool} (hnow : now.HasDate) (h : q.compile s now = .ok n) (hb : n.evaluate = some b)
    {r : Reading} (hr : r.timeline.FromEpoch) : n.Holds r.Satisfies ↔ b = true := by
  have hatoms := isOrdinary_of_compile (Millis.nearEpoch_of_hasDate hnow) h
  apply Cnf.isRight_evaluate _ b hb
  intro c hc
  exact Comparison.isRight_evaluate (hatoms c hc) hr

/-- What an element has in common with the current instant does not last a day, though nothing is
known of the element. -/
theorem static_verdict_is_right_about_a_day :
    ∃ n, compile {} 86400000 ⟨[⟨"a", .vertex, none, []⟩],
        some (.intervalCall (.merge (.selector (some "a") .valid)
            (.literal (.literal "now") (.literal "now"))) "lengthAtLeast"
          [.length (.components ⟨1, 0, 0, 0, 0⟩)])⟩ = .ok n ∧
      n.evaluate = some false ∧ Millis.HasDate 86400000 ∧
      Timeline.FromEpoch (fun _ _ => 90000000) ∧
      (n.Holds (Reading.mk (fun _ _ => 90000000) fun _ => True).Satisfies ↔ false = true) := by
  have hverdict : (compile {} 86400000 ⟨[⟨"a", .vertex, none, []⟩],
      some (.intervalCall (.merge (.selector (some "a") .valid)
          (.literal (.literal "now") (.literal "now"))) "lengthAtLeast"
        [.length (.components ⟨1, 0, 0, 0, 0⟩)])⟩).map NormalForm.evaluate = .ok (some false) := by
    decide +kernel
  obtain ⟨n, hn, hb⟩ := map_eq_ok.1 hverdict
  have hnow : Millis.HasDate 86400000 := by decide
  have htimeline : Timeline.FromEpoch fun _ _ => 90000000 := by
    intro _ _
    show (0 : Int) ≤ 90000000 ∧ 90000000 ≤ Millis.greatest
    decide
  exact ⟨n, hn, hb, hnow, htimeline, static_verdict_is_right hnow hn hb htimeline⟩

end Query
end TemporalPattern
