import TemporalPattern.Proofs.IntervalPoints
import TemporalPattern.Proofs.Lengths
import TemporalPattern.Proofs.TermBounds
import TemporalPattern.Proofs.Unfolding
import TemporalPattern.Proofs.Verdicts

/-!
# Closed terms

A term without selectors has the same value on all data.  As long as the values of its parts are
words, and none of them the largest one, nothing overflows on the way, no bound saturates and none
is taken for having no bound.  Evaluation and both bounds then give the exact value, and comparisons
of such terms are decided by it before and after unfolding.
-/

namespace TemporalPattern

/-! ## Single values as bounds -/

theorem Millis.BelowGreatest.ne_maxValue {m : Millis} (h : BelowGreatest m.toInt) :
    m ≠ Int64.maxValue := by
  rintro rfl
  exact absurd h.2 (by decide)

theorem Millis.BelowGreatest.exists_toInt_eq {n : Int} (h : BelowGreatest n) :
    ∃ m : Millis, m.toInt = n :=
  Millis.exists_toInt_eq.2 ⟨h.1, h.2.le⟩

@[simp] theorem Millis.clamp_toInt (m : Millis) : clamp m.toInt = m :=
  Int64.toInt_inj.1 (toInt_clamp_of_fits (least_le_toInt m) (toInt_le_greatest m))

namespace Bounds

/-- The bounds that leave one value. -/
def single (m : Millis) : Bounds :=
  ⟨some m, some m⟩

theorem capped_self (m : Millis) : capped (some m) (some m) = single m := by
  have hmin : min m m = if m ≤ m then m else m := rfl
  rw [ite_self] at hmin
  rw [capped, hmin, single]

theorem finite?_of_ne {m : Millis} (h : m ≠ Int64.maxValue) : finite? m = some m :=
  if_neg h

theorem exact_eq_single {m : Millis} (h : m ≠ Int64.maxValue) : exact m = single m := by
  rw [exact, finite?_of_ne h, capped_self]

variable {a b m : Millis}

theorem difference_single (startMayBeNegative : Bool) (h : m.toInt = b.toInt - a.toInt)
    (hm : m ≠ Int64.maxValue) :
    difference startMayBeNegative (single a) (single b) = single m := by
  have hlower : Millis.clamp (b.toInt - a.toInt) = m := by rw [← h, Millis.clamp_toInt]
  have hupper : (Millis.ofInt? (b.toInt - a.toInt)).bind finite? = some m := by
    rw [← h, Millis.ofInt?_toInt, Option.bind_some, finite?_of_ne hm]
  calc difference startMayBeNegative (single a) (single b)
      = capped (some (Millis.clamp (b.toInt - a.toInt)))
          ((Millis.ofInt? (b.toInt - a.toInt)).bind finite?) := rfl
    _ = capped (some m) (some m) := by rw [hlower, hupper]
    _ = single m := capped_self m

theorem shift_single {length : Millis} (h : m.toInt = a.toInt + length.toInt)
    (hm : m ≠ Int64.maxValue) : shift length (single a) = single m := by
  have hlater : Millis.clamp (a.toInt + length.toInt) = m := by rw [← h, Millis.clamp_toInt]
  calc shift length (single a)
      = capped (some (Millis.clamp (a.toInt + length.toInt)))
          (finite? (Millis.clamp (a.toInt + length.toInt))) := rfl
    _ = capped (some m) (some m) := by rw [hlater, finite?_of_ne hm]
    _ = single m := capped_self m

theorem aggregate_single (choice : Aggregate) {ms : List Millis} (h : choice.choose? ms = some m) :
    choice.bounds (ms.map single) = single m := by
  have hsome {side : Bounds → Option Millis} (hside : ∀ x, side (single x) = some x) :
      (ms.map single).filterMap side = ms := by
    calc (ms.map single).filterMap side = ms.filterMap some := by
          rw [List.filterMap_map]
          exact List.filterMap_congr fun x _ => hside x
      _ = ms := List.filterMap_some
  have hall {side : Bounds → Option Millis} (hside : ∀ x, side (single x) = some x) :
      (ms.map single).mapM side = some ms :=
    mapM_map_eq_some_self.2 fun x _ => hside x
  have hlower (x : Millis) : (single x).lower = some x := rfl
  have hupper (x : Millis) : (single x).upper = some x := rfl
  cases choice with
  | max =>
      calc latest (ms.map single) = capped ms.max? ms.max? := by
            rw [latest, hsome hlower, hall hupper, Option.bind_some]
        _ = single m := by rw [show ms.max? = some m from h, capped_self]
  | min =>
      calc earliest (ms.map single) = capped ms.min? ms.min? := by
            rw [earliest, hall hlower, hsome hupper, Option.bind_some]
        _ = single m := by rw [show ms.min? = some m from h, capped_self]

end Bounds

/-! ## Terms -/

theorem Aggregate.exists_choose? (choice : Aggregate) {times : List Millis} (h : times ≠ []) :
    ∃ m, choice.choose? times = some m := by
  cases choice with
  | max => exact Option.isSome_iff_exists.1 (List.isSome_max?_of_ne_nil h)
  | min => exact Option.isSome_iff_exists.1 (List.isSome_min?_of_ne_nil h)

namespace TimePoint

theorem not_reachesEmpty_of_isClosed {p : TimePoint} (hp : p.IsClosed) : ¬ p.ReachesEmpty := by
  induction hp with
  | literal _ | constant _ | duration _ _ _ | plus _ _ => exact nofun
  | aggregate choice hne _ ih =>
      intro hreach
      cases hreach with
      | empty => exact hne rfl
      | through hmem hreach => exact ih _ hmem hreach

/-- A term evaluates to a word, which its bounds leave as the only value. -/
structure IsExactly (p : TimePoint) (m : Millis) : Prop where
  evaluate : p.evaluate = some m
  bounds : p.bounds = .single m
  ne_maxValue : m ≠ Int64.maxValue

namespace IsExactly

variable {start stop point : TimePoint} {a b m length : Millis}

theorem literal (h : m ≠ Int64.maxValue) : (TimePoint.literal m).IsExactly m :=
  ⟨rfl, Bounds.exact_eq_single h, h⟩

theorem constant (h : m ≠ Int64.maxValue) : (TimePoint.constant m).IsExactly m :=
  ⟨rfl, Bounds.exact_eq_single h, h⟩

theorem duration (hstart : start.IsExactly a) (hstop : stop.IsExactly b)
    (hm : m.toInt = b.toInt - a.toInt) (h : m ≠ Int64.maxValue) :
    (TimePoint.duration start stop).IsExactly m where
  evaluate := by
    simp only [TimePoint.evaluate, hstart.evaluate, hstop.evaluate, Option.bind_eq_bind,
      Option.bind_some]
    exact Millis.ofInt?_eq_some_iff.2 hm
  bounds := by
    rw [TimePoint.bounds, hstart.bounds, hstop.bounds]
    exact Bounds.difference_single _ hm h
  ne_maxValue := h

theorem plus (hpoint : point.IsExactly a) (hm : m.toInt = a.toInt + length.toInt)
    (h : m ≠ Int64.maxValue) : (TimePoint.plus point length).IsExactly m where
  evaluate := by
    simp only [TimePoint.evaluate, hpoint.evaluate, Option.bind_eq_bind, Option.bind_some]
    exact Millis.ofInt?_eq_some_iff.2 hm
  bounds := by
    rw [TimePoint.bounds, hpoint.bounds]
    exact Bounds.shift_single hm h
  ne_maxValue := h

theorem aggregate {choice : Aggregate} {args : List TimePoint} {word : TimePoint → Millis}
    (hargs : ∀ p ∈ args, p.IsExactly (word p)) (hm : choice.choose? (args.map word) = some m) :
    (TimePoint.aggregate choice args).IsExactly m where
  evaluate := by
    have hwords : args.mapM TimePoint.evaluate = some (args.map word) := by
      rw [mapM_eq_some, List.map_map]
      exact List.map_congr_left fun p hp => (hargs p hp).evaluate
    simp only [TimePoint.evaluate, evaluateEach_eq, hwords, Option.bind_eq_bind, Option.bind_some]
    exact hm
  bounds := by
    have hsingles : args.map TimePoint.bounds = (args.map word).map Bounds.single := by
      rw [List.map_map]
      exact List.map_congr_left fun p hp => (hargs p hp).bounds
    rw [TimePoint.bounds, boundsEach_eq, hsingles]
    exact Bounds.aggregate_single choice hm
  ne_maxValue := by
    obtain ⟨p, hp, rfl⟩ := List.mem_map.1 (Aggregate.choose?_mem hm)
    exact (hargs p hp).ne_maxValue

end IsExactly

theorem exists_isExactly_of_isClosed {p : TimePoint} (hp : p.IsClosed) : ∃ m, p.IsExactly m := by
  induction hp with
  | literal hfits => exact ⟨_, .literal hfits.ne_maxValue⟩
  | constant hfits => exact ⟨_, .constant hfits.ne_maxValue⟩
  | @duration start stop _ _ hfits ihstart ihstop =>
      obtain ⟨a, ha⟩ := ihstart
      obtain ⟨b, hb⟩ := ihstop
      obtain ⟨m, hm⟩ := hfits.exists_toInt_eq
      have hdifference : m.toInt = b.toInt - a.toInt := by
        rw [hm, value, value_of_evaluate ha.evaluate, value_of_evaluate hb.evaluate]
      rw [← hm] at hfits
      exact ⟨m, ha.duration hb hdifference hfits.ne_maxValue⟩
  | @plus point length _ hfits ih =>
      obtain ⟨a, ha⟩ := ih
      obtain ⟨m, hm⟩ := hfits.exists_toInt_eq
      have hsum : m.toInt = a.toInt + length.toInt := by
        rw [hm, value, value_of_evaluate ha.evaluate]
      rw [← hm] at hfits
      exact ⟨m, ha.plus hsum hfits.ne_maxValue⟩
  | @aggregate choice args hne _ ih =>
      choose! word hword using ih
      have hwords : args.map word ≠ [] := by simpa using hne
      obtain ⟨m, hm⟩ := Aggregate.exists_choose? choice hwords
      exact ⟨m, .aggregate hword hm⟩

end TimePoint

/-! ## Comparisons -/

/-- Whether an operand is a closed term. -/
def Operand.IsClosed : Operand → Prop
  | time p => p.IsClosed
  | _ => False

theorem Operand.not_reachesEmpty_of_isClosed {o : Operand} (ho : o.IsClosed) :
    ¬ o.ReachesEmpty := by
  cases o with
  | time p => exact TimePoint.not_reachesEmpty_of_isClosed ho
  | value _ | element _ | property _ _ => exact ho.elim

namespace Comparison

theorem passedOn_isClosed : PassedOn Operand.IsClosed := by
  intro choice args hagg p hp
  cases hagg with
  | aggregate _ _ hargs => exact hargs p hp

variable {c : Comparison}

/-- A comparison of closed terms is decided by their exact values. -/
theorem evaluate_of_isClosed (hl : c.lhs.IsClosed) (hr : c.rhs.IsClosed) (t : Timeline) :
    c.evaluate = .ofTruth ((Valuation.ofTimeline t).Satisfies c) := by
  obtain ⟨lhs, op, rhs⟩ := c
  cases lhs with
  | time p =>
      cases rhs with
      | time q =>
          obtain ⟨m, hm, -⟩ := TimePoint.exists_isExactly_of_isClosed hl
          obtain ⟨n, hn, -⟩ := TimePoint.exists_isExactly_of_isClosed hr
          have hsatisfies : (Valuation.ofTimeline t).Satisfies ⟨.time p, op, .time q⟩ ↔
              op.holds (compare m n) = true := by
            rw [← Millis.compare_toInt, ← TimePoint.value_of_evaluate hm t,
              ← TimePoint.value_of_evaluate hn t]
            exact Comparator.relates_iff_holds
          rw [Verdict.ofTruth_eq_some.2 hsatisfies]
          show op.verdictOnTimes p q = _
          rw [Comparator.verdictOnTimes, hm, hn]
      | value _ | element _ | property _ _ => exact hr.elim
  | value _ | element _ | property _ _ => exact hl.elim

theorem exists_unfoldAggregates_of_isClosed (hl : c.lhs.IsClosed) (hr : c.rhs.IsClosed) :
    ∃ f, c.unfoldAggregates = .ok f := by
  cases h : c.unfoldAggregates with
  | ok f => exact ⟨f, rfl⟩
  | error e =>
      rcases (unfoldAggregates_eq_error h).1 with hreach | hreach
      · exact absurd hreach (Operand.not_reachesEmpty_of_isClosed hl)
      · exact absurd hreach (Operand.not_reachesEmpty_of_isClosed hr)

/-- The comparisons of an unfolding are of closed terms as well, so nothing in it stays open. -/
theorem evaluate_unfoldAggregates_of_isClosed {f : Predicate} (hl : c.lhs.IsClosed)
    (hr : c.rhs.IsClosed) (h : c.unfoldAggregates = .ok f) (t : Timeline) :
    Predicate.evaluate f = .ofTruth ((Valuation.ofTimeline t).Satisfies c) := by
  have hclosed := operands_of_unfoldAggregates passedOn_isClosed h hl hr
  calc Predicate.evaluate f
      = Formula.evaluate (fun d => .ofTruth ((Valuation.ofTimeline t).Satisfies d)) f :=
        Formula.evaluate_congr fun d hd => evaluate_of_isClosed (hclosed d hd).1 (hclosed d hd).2 t
    _ = .ofTruth (f.Holds (Valuation.ofTimeline t).Satisfies) := Formula.evaluate_ofTruth _ f
    _ = .ofTruth ((Valuation.ofTimeline t).Satisfies c) := by
        rw [holds_unfoldAggregates h]

end Comparison

/-- A closed term has its exact value as its value, as its lower and as its upper bound.  A
comparison of two such terms is decided by their exact order, and so are its unfolding and the
normal form of that. -/
theorem TimePoint.closed_terms_are_exact :
    (∀ p : TimePoint, p.IsClosed →
      ∃ m : Millis, (∀ t, p.value t = m.toInt) ∧ p.evaluate = some m ∧
        p.knownLowerBound = some m ∧ p.upperBound = m) ∧
    ∀ (p q : TimePoint) (op : Comparator), p.IsClosed → q.IsClosed → ∀ t : Timeline,
      (Comparison.ofTimes p op q).evaluate = .ofTruth (op.Relates (p.value t) (q.value t)) ∧
      ∃ f, (Comparison.ofTimes p op q).unfoldAggregates = .ok f ∧
        Predicate.evaluate f = .ofTruth (op.Relates (p.value t) (q.value t)) ∧
        NormalForm.evaluate f.toCnf = .ofTruth (op.Relates (p.value t) (q.value t)) := by
  constructor
  · intro p hp
    obtain ⟨m, hm, hbounds, -⟩ := exists_isExactly_of_isClosed hp
    refine ⟨m, value_of_evaluate hm, hm, ?_, ?_⟩
    · rw [knownLowerBound, hbounds]
      rfl
    · rw [upperBound, hbounds]
      rfl
  · intro p q op hp hq t
    obtain ⟨f, hf⟩ :=
      Comparison.exists_unfoldAggregates_of_isClosed (c := .ofTimes p op q) hp hq
    have hevaluate := Comparison.evaluate_of_isClosed (c := .ofTimes p op q) hp hq t
    have hunfolded :=
      Comparison.evaluate_unfoldAggregates_of_isClosed (c := .ofTimes p op q) hp hq hf t
    refine ⟨hevaluate, f, hf, hunfolded, ?_⟩
    exact (Formula.evaluate_toCnf Comparison.evaluate f).trans hunfolded

/-- A length of minus seven milliseconds on both sides, reached through aggregates of lengths, of
constants and of a point that is shifted back. -/
theorem TimePoint.closed_terms_are_exact_of_negative_length :
    let p : TimePoint := .aggregate .max
      [.duration (.literal 12) (.aggregate .min [.literal 5, .constant 40]),
        .plus (.literal 3) (-20)]
    let q : TimePoint := .aggregate .min [.literal 100, .duration (.literal 50) (.literal 43)]
    p.IsClosed ∧ q.IsClosed ∧ p.value .epoch = -7 ∧ q.value .epoch = -7 ∧
    (∃ m : Millis, (∀ t, p.value t = m.toInt) ∧ p.evaluate = some m ∧
      p.knownLowerBound = some m ∧ p.upperBound = m) ∧
    (Comparison.ofTimes p .eq q).evaluate = some true ∧
    ∃ f, (Comparison.ofTimes p .eq q).unfoldAggregates = .ok f ∧
      Predicate.evaluate f = some true ∧ NormalForm.evaluate f.toCnf = some true := by
  intro p q
  have hpair (choice : Aggregate) {a b : TimePoint} (ha : a.IsClosed) (hb : b.IsClosed) :
      (aggregate choice [a, b]).IsClosed := .aggregate choice (by simp) (by simp [ha, hb])
  have hstop : IsClosed (.aggregate .min [.literal 5, .constant 40]) :=
    hpair .min (.literal (by decide)) (.constant (by decide))
  have hlength : IsClosed (.duration (.literal 12) (.aggregate .min [.literal 5, .constant 40])) :=
    .duration (.literal (by decide)) hstop (by decide)
  have hp : p.IsClosed := hpair .max hlength (.plus (.literal (by decide)) (by decide))
  have hq : q.IsClosed := by
    apply hpair .min (.literal (by decide))
    exact .duration (.literal (by decide)) (.literal (by decide)) (by decide)
  obtain ⟨hterm, hcomparison⟩ := closed_terms_are_exact
  obtain ⟨hevaluate, f, hf, hunfolded, hnormal⟩ := hcomparison p q .eq hp hq .epoch
  have hequal : Verdict.ofTruth (p.value .epoch = q.value .epoch) = some true :=
    Verdict.ofTruth_eq_some.2 (by decide)
  exact ⟨hp, hq, by decide, by decide, hterm p hp, hevaluate.trans hequal, f, hf,
    hunfolded.trans hequal, hnormal.trans hequal⟩

end TemporalPattern
