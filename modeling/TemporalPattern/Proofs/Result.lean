import Mathlib.Data.List.Forall2

/-!
# Results that may be errors or missing

A computation in steps ends well exactly if every step does, and its error is that of some step.
These lemmas take such computations apart, so that no other module has to look into the monads.
-/

namespace TemporalPattern

variable {ε α β : Type} {x : Except ε α} {g : α → Except ε β}

theorem bind_eq_ok {b : β} : x >>= g = .ok b ↔ ∃ a, x = .ok a ∧ g a = .ok b := by
  cases x with
  | error e => simp [bind, Except.bind]
  | ok a => simp [bind, Except.bind]

theorem bind_eq_error {e : ε} :
    x >>= g = .error e ↔ x = .error e ∨ ∃ a, x = .ok a ∧ g a = .error e := by
  cases x with
  | error e' => simp [bind, Except.bind]
  | ok a => simp [bind, Except.bind]

/-- A computation in two steps has a result if the first step has one from which the second has. -/
theorem exists_bind_eq_ok :
    (∃ b, x >>= g = .ok b) ↔ ∃ a, x = .ok a ∧ ∃ b, g a = .ok b := by
  simp only [bind_eq_ok]
  constructor
  · rintro ⟨b, a, ha, hb⟩
    exact ⟨a, ha, b, hb⟩
  · rintro ⟨a, ha, b, hb⟩
    exact ⟨b, a, ha, hb⟩

theorem map_eq_ok {k : α → β} {b : β} : x.map k = .ok b ↔ ∃ a, x = .ok a ∧ k a = b := by
  cases x with
  | error e => simp [Except.map]
  | ok a => simp [Except.map]

@[simp] theorem pure_eq_ok {a b : α} : (pure a : Except ε α) = .ok b ↔ a = b := by
  simp [pure, Except.pure]

@[simp] theorem pure_ne_error {a : α} {e : ε} : (pure a : Except ε α) ≠ .error e := by
  simp [pure, Except.pure]

/-- A computation fails if it has no result. -/
theorem exists_eq_error_iff : (∃ e, x = .error e) ↔ ¬ ∃ a, x = .ok a := by
  cases x with
  | error e => simp
  | ok a => simp

/-- A list is processed element by element. -/
theorem mapM_eq_ok {f : α → Except ε β} {as : List α} {bs : List β} :
    as.mapM f = .ok bs ↔ List.Forall₂ (fun a b => f a = .ok b) as bs := by
  induction as generalizing bs with
  | nil => rw [List.mapM_nil, pure_eq_ok, List.forall₂_nil_left_iff, eq_comm]
  | cons a as ih =>
      simp only [List.mapM_cons, bind_eq_ok, pure_eq_ok, List.forall₂_cons_left_iff]
      constructor
      · rintro ⟨b, hb, bs', hbs, rfl⟩
        exact ⟨b, bs', hb, ih.1 hbs, rfl⟩
      · rintro ⟨b, bs', hb, hbs, rfl⟩
        exact ⟨b, hb, bs', ih.2 hbs, rfl⟩

/-- A list has a result if every element has one. -/
theorem exists_mapM_eq_ok {f : α → Except ε β} {as : List α} :
    (∃ bs, as.mapM f = .ok bs) ↔ ∀ a ∈ as, ∃ b, f a = .ok b := by
  induction as with
  | nil => simp
  | cons a as ih =>
      simp only [List.mapM_cons, exists_bind_eq_ok, pure_eq_ok, exists_eq', and_true,
        exists_and_right, ih, List.forall_mem_cons]

/-- An error is that of some element. -/
theorem exists_of_mapM_eq_error {f : α → Except ε β} {as : List α} {e : ε}
    (h : as.mapM f = .error e) : ∃ a ∈ as, f a = .error e := by
  induction as with
  | nil => simp at h
  | cons a as ih =>
      simp only [List.mapM_cons, bind_eq_error, pure_ne_error, and_false, exists_false,
        or_false] at h
      rcases h with ha | ⟨_, _, has⟩
      · exact ⟨a, List.mem_cons_self, ha⟩
      · obtain ⟨b, hb, he⟩ := ih has
        exact ⟨b, List.mem_cons_of_mem _ hb, he⟩

theorem mapM_congr {f f' : α → Except ε β} {as : List α} (h : ∀ a ∈ as, f a = f' a) :
    as.mapM f = as.mapM f' := by
  induction as with
  | nil => rfl
  | cons a as ih =>
      rw [List.mapM_cons, List.mapM_cons, h a List.mem_cons_self,
        ih fun b hb => h b (List.mem_cons_of_mem _ hb)]

theorem exists_of_mem_mapM {f : α → Except ε β} {as : List α} {bs : List β}
    (h : as.mapM f = .ok bs) {b : β} (hb : b ∈ bs) : ∃ a ∈ as, f a = .ok b := by
  rw [mapM_eq_ok] at h
  induction h with
  | nil => simp at hb
  | cons hab _ ih =>
      rcases List.mem_cons.1 hb with rfl | hb
      · exact ⟨_, List.mem_cons_self, hab⟩
      · obtain ⟨a, ha, hab'⟩ := ih hb
        exact ⟨a, List.mem_cons_of_mem _ ha, hab'⟩

theorem map_eq_of_mapM {γ : Type} {f : α → Except ε β} {as : List α} {bs : List β} {k : α → γ}
    {k' : β → γ} (h : as.mapM f = .ok bs) (hk : ∀ a ∈ as, ∀ b, f a = .ok b → k' b = k a) :
    bs.map k' = as.map k := by
  rw [mapM_eq_ok] at h
  induction h with
  | nil => rfl
  | cons hab _ ih =>
      rw [List.map_cons, List.map_cons, hk _ List.mem_cons_self _ hab,
        ih fun a ha => hk a (List.mem_cons_of_mem _ ha)]

theorem flatMap_eq_of_mapM {γ : Type} {f : α → Except ε β} {as : List α} {bs : List β}
    {k : α → List γ} {k' : β → List γ} (h : as.mapM f = .ok bs)
    (hk : ∀ a ∈ as, ∀ b, f a = .ok b → k' b = k a) : bs.flatMap k' = as.flatMap k := by
  rw [List.flatMap_def, List.flatMap_def, map_eq_of_mapM h hk]

theorem exists_mem_mapM_iff {f : α → Except ε β} {as : List α} {bs : List β} {P : α → Prop}
    {P' : β → Prop} (h : as.mapM f = .ok bs)
    (hP : ∀ a ∈ as, ∀ b, f a = .ok b → (P' b ↔ P a)) : (∃ b ∈ bs, P' b) ↔ ∃ a ∈ as, P a := by
  rw [mapM_eq_ok] at h
  induction h with
  | nil => simp
  | cons hab _ ih =>
      rw [List.exists_mem_cons_iff, List.exists_mem_cons_iff, hP _ List.mem_cons_self _ hab,
        ih fun a ha => hP a (List.mem_cons_of_mem _ ha)]

/-- A list of values, none of them missing. -/
theorem mapM_eq_some {f : α → Option β} {as : List α} {bs : List β} :
    as.mapM f = some bs ↔ as.map f = bs.map some := by
  induction as generalizing bs with
  | nil => cases bs <;> simp
  | cons a as ih =>
      simp only [List.mapM_cons, Option.bind_eq_bind, Option.bind_eq_some_iff, Option.pure_def,
        Option.some.injEq, ih, List.map_cons]
      constructor
      · rintro ⟨b, hb, bs', hbs, rfl⟩
        rw [hb, hbs, List.map_cons]
      · intro h
        obtain ⟨b, bs', rfl, hb, hbs⟩ := List.map_eq_cons_iff.1 h.symm
        exact ⟨b, hb.symm, bs', hbs.symm, rfl⟩

/-- A list has values if none is missing. -/
theorem exists_mapM_eq_some {f : α → Option β} {as : List α} :
    (∃ bs, as.mapM f = some bs) ↔ ∀ a ∈ as, ∃ b, f a = some b := by
  induction as with
  | nil => simp
  | cons a as ih =>
      simp only [List.mapM_cons, Option.bind_eq_bind, Option.bind_eq_some_iff, Option.pure_def,
        Option.some.injEq, List.forall_mem_cons, ← ih]
      constructor
      · rintro ⟨_, b, hb, bs, hbs, -⟩
        exact ⟨⟨b, hb⟩, bs, hbs⟩
      · rintro ⟨⟨b, hb⟩, bs, hbs⟩
        exact ⟨b :: bs, b, hb, bs, hbs, rfl⟩

theorem mapM_map_eq_some_self {f : β → Option α} {k : α → β} {as : List α} :
    (as.map k).mapM f = some as ↔ ∀ a ∈ as, f (k a) = some a := by
  rw [mapM_eq_some, List.map_map, List.map_inj_left]
  rfl

theorem map_eq_of_mapM_eq_some {γ : Type} {f : α → Option β} {as : List α} {bs : List β}
    {k : α → γ} {k' : β → γ} (h : as.mapM f = some bs)
    (hk : ∀ a ∈ as, ∀ b, f a = some b → k' b = k a) : bs.map k' = as.map k := by
  rw [mapM_eq_some] at h
  induction as generalizing bs with
  | nil =>
      rw [List.map_eq_nil_iff.1 h.symm]
      rfl
  | cons a as ih =>
      obtain ⟨b, bs', rfl, hb, hbs⟩ := List.map_eq_cons_iff.1 h.symm
      rw [List.map_cons, List.map_cons, hk a List.mem_cons_self b hb.symm,
        ih hbs.symm fun a ha => hk a (List.mem_cons_of_mem _ ha)]

/-! ## What an error can be -/

/-- Every error of a computation is one of the given faults. -/
def FailsOnly (Fault : ε → Prop) (x : Except ε α) : Prop :=
  ∀ e, x = .error e → Fault e

section

variable {Fault Fault' : ε → Prop}

theorem failsOnly_ok (a : α) : FailsOnly Fault (.ok a : Except ε α) := by
  intro e h
  simp at h

theorem failsOnly_error {e : ε} (he : Fault e) : FailsOnly Fault (.error e : Except ε α) := by
  intro e' h
  rwa [← Except.error.inj h]

theorem FailsOnly.mono (hx : FailsOnly Fault x) (hfault : ∀ e, Fault e → Fault' e) :
    FailsOnly Fault' x :=
  fun e he => hfault e (hx e he)

theorem FailsOnly.bind (hx : FailsOnly Fault x) (hg : ∀ a, x = .ok a → FailsOnly Fault (g a)) :
    FailsOnly Fault (x >>= g) := by
  intro e he
  rcases bind_eq_error.1 he with hxe | ⟨a, ha, hge⟩
  · exact hx e hxe
  · exact hg a ha e hge

theorem failsOnly_mapM {f : α → Except ε β} {as : List α} (h : ∀ a ∈ as, FailsOnly Fault (f a)) :
    FailsOnly Fault (as.mapM f) := by
  intro e he
  obtain ⟨a, ha, hfe⟩ := exists_of_mapM_eq_error he
  exact h a ha e hfe

end

end TemporalPattern
