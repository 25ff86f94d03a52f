/-!
# Milliseconds

Instants and lengths of time are 64-bit counts of milliseconds. Arithmetic is done on integers and
brought back by one of two rules: `ofInt?` refuses what does not fit, `clamp` stops at the ends.
-/

namespace TemporalPattern

/-- A signed 64-bit number of milliseconds, since the epoch or as a length. -/
abbrev Millis := Int64

namespace Millis

/-- The smallest value. -/
def least : Int := -9223372036854775808

/-- The largest value. -/
def greatest : Int := 9223372036854775807

/-- Whether twice the instant is still a 64-bit number. -/
def NearEpoch (time : Millis) : Prop :=
  least ≤ 2 * time.toInt ∧ 2 * time.toInt ≤ greatest

/-- The word of value `n`, if there is one. -/
def ofInt? (n : Int) : Option Millis :=
  if least ≤ n ∧ n ≤ greatest then some (.ofInt n) else none

/-- The sum of two words, unless there is no word of that value. -/
def add? (s t : Millis) : Option Millis :=
  ofInt? (s.toInt + t.toInt)

/-- The sum of words that are added one after the other. Fails at the first sum that does not
fit. -/
def sum? (terms : List Millis) : Option Millis :=
  terms.foldlM add? 0

/-- The word nearest to `n`. -/
def clamp (n : Int) : Millis :=
  .ofInt (max least (min n greatest))

theorem least_le_toInt (t : Millis) : least ≤ t.toInt :=
  t.le_toInt

theorem toInt_le_greatest (t : Millis) : t.toInt ≤ greatest := by
  have := t.toInt_lt
  unfold greatest
  omega

theorem toInt_ofInt_of_fits {n : Int} (h : least ≤ n) (h' : n ≤ greatest) :
    (Int64.ofInt n).toInt = n := by
  unfold least at h
  unfold greatest at h'
  exact Int64.toInt_ofInt_of_le (by omega) (by omega)

theorem ofInt?_eq_some_iff {n : Int} {t : Millis} : ofInt? n = some t ↔ t.toInt = n := by
  unfold ofInt?
  split
  case isTrue h =>
    rw [Option.some_inj, ← Int64.toInt_inj, toInt_ofInt_of_fits h.1 h.2]
    exact eq_comm
  case isFalse h =>
    refine iff_of_false (by simp) fun e => h ?_
    rw [← e]
    exact ⟨least_le_toInt t, toInt_le_greatest t⟩

@[simp] theorem ofInt?_toInt (t : Millis) : ofInt? t.toInt = some t :=
  ofInt?_eq_some_iff.2 rfl

theorem add?_eq_some_iff {s t u : Millis} : add? s t = some u ↔ u.toInt = s.toInt + t.toInt :=
  ofInt?_eq_some_iff

theorem toInt_clamp (n : Int) : (clamp n).toInt = max least (min n greatest) := by
  apply toInt_ofInt_of_fits <;> simp only [least, greatest] <;> omega

theorem toInt_clamp_of_fits {n : Int} (h : least ≤ n) (h' : n ≤ greatest) :
    (clamp n).toInt = n := by
  rw [toInt_clamp, Int.min_eq_left h', Int.max_eq_right h]

theorem toInt_max (s t : Millis) : (max s t).toInt = max s.toInt t.toInt := by
  have hmax : max s t = if s ≤ t then t else s := rfl
  rw [hmax]
  split
  case isTrue hle => exact (Int.max_eq_right (Int64.le_iff_toInt_le.1 hle)).symm
  case isFalse hle =>
    rw [Int64.le_iff_toInt_le] at hle
    omega

theorem toInt_min (s t : Millis) : (min s t).toInt = min s.toInt t.toInt := by
  have hmin : min s t = if s ≤ t then s else t := rfl
  rw [hmin]
  split
  case isTrue hle => exact (Int.min_eq_left (Int64.le_iff_toInt_le.1 hle)).symm
  case isFalse hle =>
    rw [Int64.le_iff_toInt_le] at hle
    omega

end Millis
end TemporalPattern
