import Mathlib.Logic.Relation

/-!
# Runs of a labelled step function

A system is a partial function `step : σ → ι → Option σ`: in state `s` the label
`i` is either impossible or leads to one next state. `Runs step ok s t` says that
some sequence of steps leads from `s` to `t`, each taken in a state and with a
label that satisfy `ok`; `Reaches` leaves the steps free. A property that holds
at the start and is kept by every admitted step holds in every state reached
(`Runs.invariant`). `exec` performs a given list of labels, and `recording` writes a history
beside a run.
-/

set_option autoImplicit false

namespace MPStuBS.Lib.Run

universe u v w

variable {σ : Type u} {ι : Type v} {step : σ → ι → Option σ} {ok ok' : σ → ι → Prop}

/-- Some sequence of admitted steps leads from `s` to the indexed state. -/
inductive Runs (step : σ → ι → Option σ) (ok : σ → ι → Prop) (s : σ) : σ → Prop
  | refl : Runs step ok s s
  | tail {t u : σ} {i : ι} : Runs step ok s t → ok t i → step t i = some u → Runs step ok s u

/-- Some sequence of steps leads from `s` to `t`. -/
abbrev Reaches (step : σ → ι → Option σ) (s t : σ) : Prop := Runs step (fun _ _ => True) s t

/-- What holds at the start and is kept by every admitted step holds in every state reached. -/
theorem Runs.invariant {s t : σ} (h : Runs step ok s t) {I : σ → Prop} (h0 : I s)
    (hstep : ∀ (a b : σ) (i : ι), I a → ok a i → step a i = some b → I b) : I t := by
  induction h with
  | refl => exact h0
  | tail _ hok hst ih => exact hstep _ _ _ ih hok hst

/-- A run under a stronger admission condition is a run under a weaker one. -/
theorem Runs.mono {s t : σ} (h : Runs step ok s t) (himp : ∀ a i, ok a i → ok' a i) :
    Runs step ok' s t := by
  induction h with
  | refl => exact Runs.refl
  | tail _ hok hst ih => exact ih.tail (himp _ _ hok) hst

theorem Runs.trans {s t u : σ} (h : Runs step ok s t) (h' : Runs step ok t u) :
    Runs step ok s u := by
  induction h' with
  | refl => exact h
  | tail _ hok hst ih => exact ih.tail hok hst

/-! ## Recorded runs -/

section Record

variable {η : Type w} {record : σ → ι → η → η}

/-- The steps of a system beside a history, which every step adds to. -/
def recording (step : σ → ι → Option σ) (record : σ → ι → η → η) (p : σ × η) (i : ι) :
    Option (σ × η) :=
  (step p.1 i).map fun t => (t, record p.1 i p.2)

theorem recording_eq_some {p q : σ × η} {i : ι} :
    recording step record p i = some q ↔ step p.1 i = some q.1 ∧ record p.1 i p.2 = q.2 := by
  rw [recording, Option.map_eq_some_iff]
  constructor
  · rintro ⟨t, ht, rfl⟩
    exact ⟨ht, rfl⟩
  · rintro ⟨ht, hq⟩
    exact ⟨q.1, ht, Prod.ext rfl hq⟩

/-- Every run has a history. -/
theorem Runs.recorded {s t : σ} (h : Runs step ok s t) (record : σ → ι → η → η) (h₀ : η) :
    ∃ hist, Runs (recording step record) (fun p i => ok p.1 i) (s, h₀) (t, hist) := by
  induction h with
  | refl => exact ⟨h₀, .refl⟩
  | tail _ hok hst ih =>
      obtain ⟨hist, hruns⟩ := ih
      exact ⟨_, hruns.tail hok (recording_eq_some.2 ⟨hst, rfl⟩)⟩

end Record

/-- The state after the listed labels, if each is possible when its turn comes. -/
def exec (step : σ → ι → Option σ) (s : σ) : List ι → Option σ
  | [] => some s
  | i :: is =>
      match step s i with
      | none => none
      | some t => exec step t is

theorem exec_eq_foldlM {is : List ι} : ∀ {s : σ}, exec step s is = is.foldlM step s := by
  induction is with
  | nil => exact rfl
  | cons i is ih =>
      intro s
      rw [List.foldlM_cons, exec]
      cases step s i with
      | none => rfl
      | some t => exact ih

/-- Executing labels under a test that only admitted steps pass is an admitted run. -/
theorem runs_of_exec_if {test : σ → ι → Bool} (htest : ∀ a i, test a i = true → ok a i)
    {is : List ι} : ∀ {s t : σ},
      exec (fun a i => if test a i then step a i else none) s is = some t → Runs step ok s t := by
  induction is with
  | nil =>
      intro s t h
      obtain rfl : s = t := Option.some.inj h
      exact Runs.refl
  | cons i is ih =>
      intro s t h
      cases htst : test s i with
      | false => simp [exec, htst] at h
      | true =>
          cases hs : step s i with
          | none => simp [exec, htst, hs] at h
          | some u =>
              simp only [exec, htst, hs, if_true] at h
              exact (Runs.refl.tail (htest s i htst) hs).trans (ih h)

/-- Executing labels is a run. -/
theorem reaches_of_exec {is : List ι} : ∀ {s t : σ}, exec step s is = some t →
    Reaches step s t := by
  induction is with
  | nil =>
      intro s t h
      obtain rfl : s = t := Option.some.inj h
      exact Runs.refl
  | cons i is ih =>
      intro s t h
      cases hs : step s i with
      | none => simp [exec, hs] at h
      | some u =>
          simp only [exec, hs] at h
          exact (Runs.refl.tail trivial hs).trans (ih h)

end MPStuBS.Lib.Run
