/-!
# Named fields

Lists of values under names. A name has one place, that of its first mention, and one value, that
of its last.
-/

namespace TemporalPattern

abbrev Fields (α : Type) := List (String × α)

namespace Fields

variable {α : Type}

/-- Gives a name a value: in its old place if there is one, else at the end. -/
def assign (name : String) (value : α) : Fields α → Fields α
  | [] => [(name, value)]
  | (n, v) :: rest => if n = name then (name, value) :: rest else (n, v) :: assign name value rest

/-- The fields of a list in which names may be repeated. -/
def ofList (entries : List (String × α)) : Fields α :=
  entries.foldl (fun fields (name, value) => assign name value fields) []

theorem lookup_assign (name key : String) (value : α) (fields : Fields α) :
    (assign name value fields).lookup key =
      if key = name then some value else fields.lookup key := by
  have lookup_cons (n : String) (v : α) (rest : Fields α) :
      List.lookup key ((n, v) :: rest) = if key = n then some v else rest.lookup key := by
    rw [List.lookup_cons]
    by_cases h : key = n
    · simp [h]
    · rw [beq_false_of_ne h, if_neg h]
  induction fields with
  | nil => rw [assign, lookup_cons]
  | cons field rest ih =>
    obtain ⟨n, v⟩ := field
    by_cases hn : n = name
    · rw [assign, if_pos hn, lookup_cons, lookup_cons, hn]
      split <;> rfl
    · rw [assign, if_neg hn, lookup_cons, lookup_cons, ih]
      by_cases h : key = n
      · rw [if_pos h, if_pos h, if_neg (h ▸ hn)]
      · rw [if_neg h, if_neg h]

end Fields
end TemporalPattern
