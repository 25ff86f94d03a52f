import Mathlib.Data.List.Induction
import TemporalPattern.Settings.Load

/-!
# Precedence of settings

A file is laid over the given settings entry by entry.  What comes of the entry under a name depends
on the fields of the file that lead to this name only, one after another over what was given, and
the last of them decides.
-/

namespace TemporalPattern

namespace Entry

/-! ## One entry over another -/

/-- What is left of two entries under one name. An empty table leaves everything as it is. -/
def laidOver : Entry → Option Entry → Entry
  | table incoming, under? => mergeFields incoming (under?.getD (table []))
  | value, _ => value

theorem merge_eq (name : String) (value root : Entry) :
    merge name value root = root.put name (value.laidOver (root.get? name)) := by
  cases value <;> rfl

/-- The rest of a path leads into what is under its first name. -/
def laidOverAt (path : List PathStep) (value : Entry) (under? : Option Entry) : Entry :=
  match path with
  | [] => value.laidOver under?
  | step :: path => mergeAt (step :: path) value (under?.getD null)

theorem get?_congr {name key : String} (h : name.toLower = key.toLower) (e : Entry) :
    e.get? name = e.get? key := by
  rw [get?, get?, h]

/-- An entry that is laid over what a path leads to is seen under the first name of the path. -/
theorem get?_mergeAt (s key : String) (path : List PathStep) (value root : Entry) :
    (mergeAt (.name s :: path) value root).get? key =
      if key.toLower = s.toLower then some (laidOverAt path value (root.get? key))
      else root.get? key := by
  have hput : mergeAt (.name s :: path) value root =
      root.put s (laidOverAt path value (root.get? s)) := by
    cases path with
    | nil => exact merge_eq s value root
    | cons step path => rfl
  rw [hput, get?_put]
  by_cases h : key.toLower = s.toLower
  · rw [if_pos h, if_pos h, get?_congr h]
  · rw [if_neg h, if_neg h]

/-! ## A file over an entry -/

/-- The path from that name on. -/
def restOf (name : String) : List PathStep :=
  (pathOf name).tail

theorem exists_pathOf (name : String) :
    ∃ s, pathOf name = .name s :: restOf name ∧ topName name = s.toLower := by
  obtain ⟨s, path, hpath⟩ : ∃ s path, pathOf name = .name s :: path := by
    simp only [pathOf]
    split
    · exact ⟨_, _, rfl⟩
    · exact ⟨_, _, rfl⟩
  exact ⟨s, by rw [restOf, hpath, List.tail_cons], by rw [topName, hpath]⟩

/-- Of a file only the fields that lead to a name are seen under this name. -/
theorem get?_overlay (file : Fields Entry) (root : Entry) (key : String) :
    (overlay file root).get? key =
      (file.filter fun field => topName field.1 = key.toLower).foldl
        (fun under? field => some (laidOverAt (restOf field.1) field.2 under?))
        (root.get? key) := by
  induction file generalizing root with
  | nil => rfl
  | cons field file ih =>
      obtain ⟨s, hpath, htop⟩ := exists_pathOf field.1
      have hstep : overlay (field :: file) root =
          overlay file (mergeAt (.name s :: restOf field.1) field.2 root) := by
        rw [← hpath]
        rfl
      rw [hstep, ih, get?_mergeAt]
      by_cases h : key.toLower = s.toLower
      · rw [if_pos h, List.filter_cons_of_pos (by simp [htop, h]), List.foldl_cons]
      · rw [if_neg h, List.filter_cons_of_neg (by simpa [htop] using Ne.symm h)]

/-! ## Scalars -/

theorem exists_mergeFields_table (incoming fields : Fields Entry) :
    ∃ merged, mergeFields incoming (table fields) = table merged := by
  induction incoming generalizing fields with
  | nil => exact ⟨fields, rfl⟩
  | cons field incoming ih =>
      rw [mergeFields, merge_eq, put]
      exact ih _

theorem exists_mergeFields_cons (field : String × Entry) (incoming : Fields Entry) (root : Entry) :
    ∃ merged, mergeFields (field :: incoming) root = table merged := by
  rw [mergeFields, merge_eq, put]
  exact exists_mergeFields_table incoming _

theorem eq_scalar_of_laidOver {value : Entry} {under? : Option Entry} {text : String}
    (h : value.laidOver under? = scalar text) :
    value = scalar text ∨ value.isEmptyTable ∧ under? = some (scalar text) := by
  cases value with
  | table incoming =>
      cases incoming with
      | nil =>
          cases under? with
          | none => exact absurd h (by simp [laidOver, mergeFields])
          | some under => exact .inr ⟨rfl, congrArg some h⟩
      | cons field incoming =>
          obtain ⟨merged, hmerged⟩ :=
            exists_mergeFields_cons field incoming (under?.getD (table []))
          rw [laidOver, hmerged] at h
          simp at h
  | null | scalar _ | list _ => exact .inl h

/-- What a longer path leads into is a table or a list. -/
theorem eq_scalar_of_laidOverAt {path : List PathStep} {value : Entry} {under? : Option Entry}
    {text : String} (h : laidOverAt path value under? = scalar text) :
    value = scalar text ∨ value.isEmptyTable ∧ under? = some (scalar text) := by
  cases path with
  | nil => exact eq_scalar_of_laidOver h
  | cons step path =>
      rw [laidOverAt] at h
      cases step with
      | name s =>
          cases path with
          | nil => simp [mergeAt, merge_eq, put] at h
          | cons step path => simp [mergeAt, put] at h
      | index i => simp [mergeAt] at h

/-- A scalar under a name is that of the file, or else the one that was there before. -/
theorem or_get?_of_overlay {file : Fields Entry} {root : Entry} {key text : String}
    (h : (overlay file root).get? key = some (scalar text)) :
    (lastUnder? key file).or (root.get? key) = some (scalar text) := by
  rw [get?_overlay] at h
  have hlast : lastUnder? key file =
      ((file.filter fun field => topName field.1 = key.toLower).filter
        fun field => !field.2.isEmptyTable).getLast?.map Prod.snd := by
    simp [lastUnder?, List.filter_filter, Bool.and_comm]
  rw [hlast]
  generalize file.filter (fun field => topName field.1 = key.toLower) = fields at h
  -- The last field decides, unless it is an empty table.
  induction fields using List.reverseRecOn with
  | nil => exact h
  | append_singleton fields field ih =>
      rw [List.foldl_append, List.foldl_cons, List.foldl_nil, Option.some_inj] at h
      rcases eq_scalar_of_laidOverAt h with hvalue | ⟨hempty, hbefore⟩
      · have hkept : [field].filter (fun field => !field.2.isEmptyTable) = [field] := by
          simp [hvalue, isEmptyTable]
        rw [List.filter_append, hkept, List.getLast?_concat, Option.map_some, Option.some_or,
          hvalue]
      · have hdropped : [field].filter (fun field => !field.2.isEmptyTable) = [] := by
          simp [hempty]
        rw [List.filter_append, hdropped, List.append_nil]
        exact ih hbefore

end Entry

/-! ## Settings -/

namespace Settings

theorem scalar?_eq_some {e? : Option Entry} {text : String} (h : scalar? e? = some text) :
    e? = some (.scalar text) := by
  unfold scalar? at h
  split at h
  case h_1 text' => rw [Option.some.inj h]
  case h_2 => simp at h

theorem get?_toEntry (s : Settings) {label : String × (Settings → String)} (h : label ∈ labels) :
    s.toEntry.get? label.1 = some (.scalar (label.2 s)) := by
  have hlower : ∀ label ∈ labels, label.1.toLower = label.1 := by decide +kernel
  rw [Entry.get?, hlower label h]
  simp only [labels, List.mem_cons, List.not_mem_nil, or_false] at h
  rcases h with rfl | rfl | rfl
  · rfl
  · rfl
  · rfl

theorem get?_label {e : Entry} {s : Settings} (hs : ofEntry? e = some s)
    {label : String × (Settings → String)} (h : label ∈ labels) :
    e.get? label.1 = some (.scalar (label.2 s)) := by
  unfold ofEntry? at hs
  simp only [Option.bind_eq_bind, Option.bind_eq_some_iff] at hs
  obtain ⟨graph, hgraph, vertex, hvertex, edge, hedge, level, -, hs⟩ := hs
  obtain rfl := Option.some.inj hs
  simp only [labels, List.mem_cons, List.not_mem_nil, or_false] at h
  rcases h with rfl | rfl | rfl
  · exact scalar?_eq_some hgraph
  · exact scalar?_eq_some hvertex
  · exact scalar?_eq_some hedge

/-- A label that is loaded is the one in the file; if there is none it is the given one, and if
nothing is given the default. -/
theorem label_of_load? {given? : Option Settings} {file : SettingsFile} {s : Settings}
    (h : load? given? (some file) = some s) :
    ∃ fields, file.read? = some fields ∧ ∀ label ∈ labels,
      (Entry.lastUnder? label.1 fields).or (some (.scalar (label.2 (given?.getD {})))) =
        some (.scalar (label.2 s)) := by
  rw [load?, Option.bind_eq_bind, Option.bind_eq_some_iff] at h
  obtain ⟨fields, hread, hs⟩ := h
  refine ⟨fields, hread, fun label hlabel => ?_⟩
  rw [← get?_toEntry _ hlabel]
  exact Entry.or_get?_of_overlay (get?_label hs hlabel)

end Settings
end TemporalPattern
