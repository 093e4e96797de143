import MPStuBS.Lib.Run

/-!
# Progress in infinite runs

An `Execution` is an infinite run. `Execution.eventually` is the rule for what
must happen in it: as long as the goal is not reached, a rank that cannot fall
forever falls with every helpful step and is kept by all others, and there is
always a helpful step to come. `exists_execution` gives the runs in which a
schedule chooses the labels.
-/

set_option autoImplicit false

namespace MPStuBS.Lib.Run

universe u v w

variable {σ : Type u} {ι : Type v} {α : Type w} {step : σ → ι → Option σ} {ok : σ → ι → Prop}

/-- An infinite run. -/
structure Execution (step : σ → ι → Option σ) where
  state : Nat → σ
  label : Nat → ι
  step_eq : ∀ n, step (state n) (label n) = some (state (n + 1))

namespace Execution

variable (x : Execution step)

/-- What holds at the start and is kept by every admitted step holds at all times. -/
theorem invariant {I : σ → Prop} (h0 : I (x.state 0)) (hok : ∀ n, ok (x.state n) (x.label n))
    (hstep : ∀ a b i, I a → ok a i → step a i = some b → I b) (n : Nat) : I (x.state n) := by
  induction n with
  | zero => exact h0
  | succ n ih => exact hstep _ _ _ ih (hok n) (x.step_eq n)

/-- A rank that every helpful step lowers and no other step loses: the goal is reached. -/
theorem eventually {r : α → α → Prop} (hr : WellFounded r) {I : α → σ → Prop}
    {helpful goal : Nat → Prop} (hoften : ∀ n, ∃ k, n ≤ k ∧ helpful k) {n₀ : Nat}
    (hstep : ∀ n a, n₀ ≤ n → ¬ goal n → I a (x.state n) →
      (∃ b, r b a ∧ I b (x.state (n + 1))) ∨ ¬ helpful n ∧ I a (x.state (n + 1)))
    {a : α} (ha : I a (x.state n₀)) : ∃ n, n₀ ≤ n ∧ goal n := by
  have hrank : ∀ a n, n₀ ≤ n → I a (x.state n) → ∃ k, n₀ ≤ k ∧ goal k := by
    intro a
    induction a using hr.induction with
    | _ a ih =>
        intro n hn ha
        obtain ⟨k, hk, hhelpful⟩ := hoften n
        obtain ⟨d, rfl⟩ := Nat.exists_eq_add_of_le hk
        -- up to the next helpful step the rank is kept, or it falls
        induction d generalizing n with
        | zero =>
            by_cases hgoal : goal n
            · exact ⟨n, hn, hgoal⟩
            · rcases hstep n a hn hgoal ha with ⟨b, hb, hI⟩ | ⟨hnot, -⟩
              · exact ih b hb (n + 1) (Nat.le_succ_of_le hn) hI
              · exact absurd hhelpful hnot
        | succ d ihd =>
            by_cases hgoal : goal n
            · exact ⟨n, hn, hgoal⟩
            · rcases hstep n a hn hgoal ha with ⟨b, hb, hI⟩ | ⟨-, hI⟩
              · exact ih b hb (n + 1) (Nat.le_succ_of_le hn) hI
              · have hshift : n + 1 + d = n + (d + 1) := by omega
                exact ihd (n + 1) (Nat.le_succ_of_le hn) hI (Nat.le_add_right _ d)
                  (hshift.symm ▸ hhelpful)
  exact hrank a n₀ (Nat.le_refl n₀) ha

end Execution

/-- Where a schedule always chooses a possible step, it has an infinite run. -/
theorem exists_execution {J : σ → Prop} {schedule : Nat → σ → ι}
    (hJ : ∀ n s, J s → ∃ t, step s (schedule n s) = some t ∧ J t) {s : σ} (h0 : J s) :
    ∃ x : Execution step, x.state 0 = s ∧
      ∀ n, J (x.state n) ∧ x.label n = schedule n (x.state n) := by
  have hnext : ∀ n (p : { s // J s }), ∃ q : { s // J s },
      step p.1 (schedule n p.1) = some q.1 := by
    intro n p
    obtain ⟨t, ht, hJt⟩ := hJ n p.1 p.2
    exact ⟨⟨t, hJt⟩, ht⟩
  let states : Nat → { s // J s } := fun n => Nat.rec ⟨s, h0⟩ (fun n p => (hnext n p).choose) n
  refine ⟨⟨fun n => (states n).1, fun n => schedule n (states n).1, fun n => ?_⟩, rfl, fun n => ?_⟩
  · exact (hnext n (states n)).choose_spec
  · exact ⟨(states n).2, rfl⟩

end MPStuBS.Lib.Run
