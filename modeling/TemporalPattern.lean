import TemporalPattern.Filter.Accepted
import TemporalPattern.Filter.Reference
import TemporalPattern.Interval.Expression
import TemporalPattern.Json.Decode
import TemporalPattern.Query.Valuation
import TemporalPattern.Settings.Load
import TemporalPattern.Value.Exact
import TemporalPattern.Proofs.Formula
import TemporalPattern.Proofs.Kleene
import TemporalPattern.Proofs.NormalForm
import TemporalPattern.Proofs.Extremes
import TemporalPattern.Proofs.Unfolding
import TemporalPattern.Proofs.Resolution
import TemporalPattern.Proofs.QueryMeaning
import TemporalPattern.Proofs.Bounds
import TemporalPattern.Proofs.Verdicts
import TemporalPattern.Proofs.Ordinary
import TemporalPattern.Proofs.Elaboration
import TemporalPattern.Proofs.Calendar
import TemporalPattern.Proofs.CalendarReach
import TemporalPattern.Proofs.StaticVerdict
import TemporalPattern.Proofs.IntervalPoints
import TemporalPattern.Proofs.Acceptance
import TemporalPattern.Proofs.RelationLaws
import TemporalPattern.Proofs.WrittenNames
import TemporalPattern.Proofs.Totality
import TemporalPattern.Proofs.References
import TemporalPattern.Proofs.KeptReferences
import TemporalPattern.Proofs.FixedForm
import TemporalPattern.Proofs.WrittenReferences
import TemporalPattern.Proofs.NamedReferences
import TemporalPattern.Proofs.Digits
import TemporalPattern.Proofs.Numerals
import TemporalPattern.Proofs.JsonText
import TemporalPattern.Proofs.JsonTerms
import TemporalPattern.Proofs.HandOver
import TemporalPattern.Proofs.Patterns
import TemporalPattern.Proofs.Gregorian
import TemporalPattern.Proofs.Almanac
import TemporalPattern.Proofs.InstantText
import TemporalPattern.Proofs.InstantLiterals
import TemporalPattern.Proofs.TermBounds
import TemporalPattern.Proofs.Switching
import TemporalPattern.Proofs.Negation
import TemporalPattern.Proofs.NormalFormLaws
import TemporalPattern.Proofs.ClosedTerms
import TemporalPattern.Proofs.WholePattern
import TemporalPattern.Proofs.CarriedConditions
import TemporalPattern.Proofs.OwnFormula
import TemporalPattern.Proofs.Rounding
import TemporalPattern.Proofs.Conversion
import TemporalPattern.Proofs.NumberOrder
import TemporalPattern.Proofs.MixedUnits
import TemporalPattern.Proofs.Layering
