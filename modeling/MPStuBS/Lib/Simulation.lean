import MPStuBS.Lib.Run

/-!
# Forward simulation

A system with small steps performs operations of an abstract system, each of
which takes several of its steps, while other steps of it belong to none. The
state of the small system lists the operations completed so far (`emitted`).
`Simulation` asks for one step: what the step adds to the list, the related
abstract state can perform (`obs` is what the list shows of an abstract label),
and the states are related again. Then the whole list can be performed from the
start (`Simulation.run`), and what the abstract system keeps in all its runs
holds of the related state (`Simulation.invariant`).
-/

set_option autoImplicit false

namespace MPStuBS.Lib.Run

universe u v w x y

variable {σ : Type u} {ι : Type v} {τ : Type w} {κ : Type x} {μ : Type y}
  {step : σ → ι → Option σ} {ok : σ → ι → Prop} {astep : τ → κ → Option τ}
  {aok : τ → κ → Prop}

theorem exec_append {s t u : σ} {is js : List ι} (h : exec step s is = some t)
    (h' : exec step t js = some u) : exec step s (is ++ js) = some u := by
  induction is generalizing s with
  | nil =>
      obtain rfl : s = t := Option.some.inj h
      exact h'
  | cons i is ih =>
      cases hs : step s i with
      | none => simp [exec, hs] at h
      | some v =>
          simp only [exec, hs] at h
          simp only [List.cons_append, exec, hs]
          exact ih h

theorem exec_append_cases {is js : List ι} : ∀ {s u : σ}, exec step s (is ++ js) = some u →
    ∃ t, exec step s is = some t ∧ exec step t js = some u := by
  induction is with
  | nil => exact fun h => ⟨_, rfl, h⟩
  | cons i is ih =>
      intro s u h
      cases hs : step s i with
      | none => simp [exec, hs] at h
      | some v =>
          simp only [List.cons_append, exec, hs] at h ⊢
          exact ih h

theorem exec_cons_cases {s u : σ} {i : ι} {is : List ι} (h : exec step s (i :: is) = some u) :
    ∃ t, step s i = some t ∧ exec step t is = some u := by
  cases hs : step s i with
  | none => simp [exec, hs] at h
  | some t =>
      simp only [exec, hs] at h
      exact ⟨t, rfl, h⟩

theorem exec_single {s t : σ} {i : ι} (h : step s i = some t) : exec step s [i] = some t := by
  simp only [exec, h]

/-- Every listed label satisfies `ok` when its turn comes. -/
def ExecOk (step : σ → ι → Option σ) (ok : σ → ι → Prop) : σ → List ι → Prop
  | _, [] => True
  | s, i :: is => ok s i ∧ ∀ t, step s i = some t → ExecOk step ok t is

theorem ExecOk.append {is js : List ι} : ∀ {s t : σ}, ExecOk step ok s is →
    exec step s is = some t → ExecOk step ok t js → ExecOk step ok s (is ++ js) := by
  induction is with
  | nil =>
      intro s t _ h h'
      obtain rfl : s = t := Option.some.inj h
      exact h'
  | cons i is ih =>
      rintro s t ⟨hi, his⟩ h h'
      refine ⟨hi, fun u hu => ?_⟩
      simp only [exec, hu] at h
      exact ih (his u hu) h h'

/-- Performing admitted labels is an admitted run. -/
theorem runs_of_execOk {is : List ι} : ∀ {s t : σ}, ExecOk step ok s is →
    exec step s is = some t → Runs step ok s t := by
  induction is with
  | nil =>
      intro s t _ h
      obtain rfl : s = t := Option.some.inj h
      exact .refl
  | cons i is ih =>
      rintro s t ⟨hi, his⟩ h
      cases hs : step s i with
      | none => simp [exec, hs] at h
      | some u =>
          simp only [exec, hs] at h
          exact (Runs.refl.tail hi hs).trans (ih (his u hs) h)

/-- Each admitted step of the small system is matched by the admitted abstract labels that it adds
to the list. -/
structure Simulation (step : σ → ι → Option σ) (ok : σ → ι → Prop) (astep : τ → κ → Option τ)
    (aok : τ → κ → Prop) (emitted : σ → List μ) (obs : κ → μ) (R : σ → τ → Prop) : Prop where
  matched : ∀ {s s' : σ} {t : τ} {i : ι}, R s t → ok s i → step s i = some s' →
    ∃ js t', emitted s' = emitted s ++ js.map obs ∧ ExecOk astep aok t js ∧
      exec astep t js = some t' ∧ R s' t'

namespace Simulation

variable {emitted : σ → List μ} {obs : κ → μ} {R : σ → τ → Prop}

/-- A run performs the operations that it lists. -/
theorem run (h : Simulation step ok astep aok emitted obs R) {s s' : σ} {t : τ} (hR : R s t)
    (hruns : Runs step ok s s') : ∃ js t', emitted s' = emitted s ++ js.map obs ∧
      ExecOk astep aok t js ∧ exec astep t js = some t' ∧ R s' t' := by
  induction hruns with
  | refl => exact ⟨[], t, (List.append_nil _).symm, trivial, rfl, hR⟩
  | tail _ hok hst ih =>
      obtain ⟨js, t', hjs, hadm, hexec, hR'⟩ := ih
      obtain ⟨ks, t'', hks, hadm', hexec', hR''⟩ := h.matched hR' hok hst
      refine ⟨js ++ ks, t'', ?_, hadm.append hexec hadm', exec_append hexec hexec', hR''⟩
      rw [hks, hjs, List.map_append, List.append_assoc]

/-- What holds in all admitted abstract runs holds of the abstract state at the end. -/
theorem invariant (h : Simulation step ok astep aok emitted obs R) {I : τ → Prop} {t : τ}
    (hI : ∀ t', Runs astep aok t t' → I t') {s s' : σ} (hR : R s t)
    (hruns : Runs step ok s s') : ∃ t', R s' t' ∧ I t' := by
  obtain ⟨js, t', -, hadm, hexec, hR'⟩ := h.run hR hruns
  exact ⟨t', hR', hI t' (runs_of_execOk hadm hexec)⟩

end Simulation

end MPStuBS.Lib.Run
