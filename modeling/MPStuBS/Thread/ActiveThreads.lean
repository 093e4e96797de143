import MPStuBS.Thread.Placement

/-!
# Null threads

The pointers in `life` are null at first. An operation that uses no null pointer makes a
thread the active one of its CPU or leaves the pointers alone (`Sched.exec_life`), so a
CPU that has been scheduled, and has not halted and is not lost, has an active thread.

`Scheduler::schedule` and `Scheduler::resume` halt the CPU if the ready list gives
them no thread. `Scheduler::exit` hands the null pointer to `Dispatcher::dispatch`.
-/

set_option autoImplicit false

namespace MPStuBS.Thread

open MPStuBS.Object MPStuBS.Lib.Run

namespace Sched

variable {s s' : Sched} {c : Cpu} {fuel online : Nat} {o : Outcome Sched}

/-! ## The active threads -/

theorem relist_life (s : Sched) (curr : ThreadPtr) : (s.relist curr).life = s.life := by
  cases hk : s.killFlag curr <;> simp only [relist, hk] <;> rfl

theorem skipDying_life : ∀ {fuel : Nat} {s s' : Sched} {next out : Option ThreadPtr},
    skipDying fuel s next = some (out, s') → s'.life = s.life := by
  intro fuel
  induction fuel with
  | zero =>
      intro s s' next out h
      cases h
  | succ fuel ih =>
      intro s s' next out h
      cases next with
      | none =>
          obtain ⟨-, rfl⟩ := Prod.mk.inj (Option.some.inj h)
          rfl
      | some t =>
          cases hk : s.killFlag t with
          | true =>
              simp only [skipDying, hk, if_true] at h
              have hrest : s'.life = s.dequeueJob.2.life := ih h
              exact hrest
          | false =>
              simp only [skipDying, hk] at h
              obtain ⟨-, rfl⟩ := Prod.mk.inj (Option.some.inj h)
              rfl

/-- `resume` halts the CPU, or makes a thread the active one. -/
theorem resume_life (h : s.resume fuel c = some o) :
    (∃ s', o = .die s' ∧ s'.life = s.life) ∨
      ∃ s' t, o = .done s' (.dispatched t) ∧ s'.life = Function.update s.life c (some t) := by
  rcases resume_cases h with ⟨-, rfl⟩ | ⟨curr, out, s₁, hlife, hskip, hout⟩
  · exact .inl ⟨s, rfl, rfl⟩
  · have hrelist : (s.relist curr).dequeueJob.2.life = s.life := relist_life s curr
    have hlife₁ : s₁.life = s.life := (skipDying_life hskip).trans hrelist
    rcases hout with ⟨rfl, rfl⟩ | ⟨t, rfl, rfl⟩
    · exact .inl ⟨s₁, rfl, hlife₁⟩
    · have hcurr : s₁.life c = some curr := by rw [hlife₁, hlife]
      refine .inr ⟨_, t, dispatch_of_active hcurr, ?_⟩
      show Function.update s₁.life c (some t) = _
      rw [hlife₁]

/-- What an operation does to the active threads, and which operations can use a null pointer. -/
theorem exec_life {op : SchedOp} (h : s.exec fuel online c op = some o) :
    (∃ s', o = .die s' ∧ s'.life = s.life) ∨
      (∃ s' t, o = .done s' (.dispatched t) ∧ s'.life = Function.update s.life c (some t)) ∨
      (∃ s' act, o = .done s' act ∧ s'.life = s.life ∧ op ≠ .schedule) ∨
      (s.life c = none ∧ (op = .exit ∨ op = .assassin) ∧ ∃ s' act, o = .fault s' act ∧
        ∀ d, d ≠ c → s'.life d = s.life d) ∨
      op = .exit ∧ s.jobs.head = none ∧
        ∃ s', o = .lost s' ∧ s'.life = Function.update s.life c none := by
  cases exec_move h with
  | ready that => exact .inr (.inr (.inl ⟨_, _, rfl, rfl, by simp⟩))
  | resetKillFlag that => exact .inr (.inr (.inl ⟨_, _, rfl, rfl, by simp⟩))
  | kill that m hact => exact .inr (.inr (.inl ⟨_, _, rfl, rfl, by simp⟩))
  | schedule hhead => exact .inr (.inl ⟨_, _, rfl, rfl⟩)
  | scheduleDie hhead => exact .inl ⟨_, rfl, rfl⟩
  | exit hlife hhead => exact .inr (.inl ⟨_, _, rfl, rfl⟩)
  | exitFault hlife hhead =>
      refine .inr (.inr (.inr (.inl ⟨hlife, .inl rfl, _, _, rfl, fun d hd => ?_⟩)))
      exact Function.update_of_ne hd _ s.life
  | exitLost hhead => exact .inr (.inr (.inr (.inr ⟨rfl, hhead, _, rfl, rfl⟩)))
  | resume hop hresume =>
      rcases resume_life hresume with hdie | hdispatched
      · exact .inl hdie
      · exact .inr (.inl hdispatched)
  | assassinIdle => exact .inr (.inr (.inl ⟨_, _, rfl, rfl, by simp⟩))
  | assassinFault hlife =>
      exact .inr (.inr (.inr (.inl ⟨hlife, .inr rfl, _, _, rfl, fun d _ => rfl⟩)))

/-- The other CPUs keep their active threads. -/
theorem exec_life_of_ne {op : SchedOp} (h : s.exec fuel online c op = some o) {d : Cpu}
    (hd : d ≠ c) : o.data.life d = s.life d := by
  rcases exec_life h with ⟨t, rfl, hlife⟩ | ⟨t, u, rfl, hlife⟩ | ⟨t, act, rfl, hlife, -⟩ |
    ⟨-, -, t, act, rfl, hlife⟩ | ⟨-, -, t, rfl, hlife⟩
  · exact congrFun hlife d
  · exact (congrFun hlife d).trans (Function.update_of_ne hd _ s.life)
  · exact congrFun hlife d
  · exact hlife d hd
  · exact (congrFun hlife d).trans (Function.update_of_ne hd _ s.life)

end Sched

namespace Placement

variable {p p' : Placement} {i : Nat × Cpu × SchedOp} {online : Nat}

/-- The operations of a CPU that has not halted; those that expect an active thread come after
`schedule`. -/
def ScheduledOk (p : Placement) (i : Nat × Cpu × SchedOp) : Prop :=
  p.halted i.2.1 = false ∧
    match i.2.2 with
    | .resume | .exit | .watch | .assassin => p.scheduled i.2.1 = true
    | _ => True

/-- A CPU that has been scheduled and goes on has an active thread. -/
def Active (p : Placement) : Prop :=
  ∀ c, p.scheduled c = true → p.halted c = false → p.sched.life c ≠ none

theorem record_scheduled_of_ne (p : Placement) {c d : Cpu} (op : SchedOp) (hd : d ≠ c) :
    (p.record c op).scheduled d = p.scheduled d := by
  by_cases hop : op = .schedule
  · subst hop
    exact Function.update_of_ne hd true p.scheduled
  · rw [p.record_scheduled c hop]

/-- The operations that use the active thread without a test find one. -/
theorem Active.ne_none (h : p.Active) (hok : p.ScheduledOk i)
    (hop : i.2.2 = .exit ∨ i.2.2 = .assassin) : p.sched.life i.2.1 ≠ none := by
  obtain ⟨fuel, c, op⟩ := i
  obtain ⟨hrunning, hscheduled⟩ := hok
  rcases hop with rfl | rfl
  · exact h c hscheduled hrunning
  · exact h c hscheduled hrunning

/-- An operation leaves its CPU stopped or with an active thread, if it has been scheduled. -/
theorem Active.step (h : p.Active) (hok : p.ScheduledOk i) (hstep : step online p i = some p') :
    p'.Active := by
  obtain ⟨fuel, c, op⟩ := i
  obtain ⟨o, hexec, rfl⟩ := Option.map_eq_some_iff.1 hstep
  intro d hscheduled hhalted
  by_cases hd : d = c
  · subst hd
    show o.data.life d ≠ none
    rcases Sched.exec_life hexec with ⟨t, rfl, -⟩ | ⟨t, u, rfl, hlife⟩ |
      ⟨t, act, rfl, hlife, hne⟩ | ⟨hnone, hfault, -⟩ | ⟨-, -, t, rfl, -⟩
    · simp [after, Outcome.stops] at hhalted
    · show t.life d ≠ none
      rw [hlife, Function.update_self]
      simp
    · have hscheduled' : p.scheduled d = true := p.record_scheduled d hne ▸ hscheduled
      show t.life d ≠ none
      rw [hlife]
      exact h d hscheduled' hok.1
    -- `exit` and the assassin come after `schedule`
    · exact absurd hnone (h.ne_none hok hfault)
    · simp [after, Outcome.stops] at hhalted
  · have hscheduled' : p.scheduled d = true := record_scheduled_of_ne p op hd ▸ hscheduled
    have hhalted' : p.halted d = false := by
      simp only [after] at hhalted
      split at hhalted
      · rwa [Function.update_of_ne hd] at hhalted
      · exact hhalted
    show o.data.life d ≠ none
    rw [Sched.exec_life_of_ne hexec hd]
    exact h d hscheduled' hhalted'

theorem Active.of_runs (h : Runs (Placement.step online) ScheduledOk init p) : p.Active := by
  refine h.invariant (I := Active) ?_ fun q q' i hq hok hstep => hq.step hok hstep
  intro c hscheduled
  cases hscheduled

/-- An operation dereferences a null pointer, or hands one to `dispatch`, exactly if it is an `exit`
with an empty ready list. -/
theorem exec_usesNull_iff (online : Nat) (h : p.Active) (hok : p.ScheduledOk i) :
    (∃ o, p.sched.exec i.1 online i.2.1 i.2.2 = some o ∧ o.usesNull = true) ↔
      i.2.2 = .exit ∧ p.sched.jobs.head = none := by
  obtain ⟨fuel, c, op⟩ := i
  constructor
  · rintro ⟨o, hexec, hnull⟩
    rcases Sched.exec_life hexec with ⟨t, rfl, -⟩ | ⟨t, u, rfl, -⟩ | ⟨t, act, rfl, -⟩ |
      ⟨hnone, hfault, -⟩ | ⟨hexit, hhead, -⟩
    · cases hnull
    · cases hnull
    · cases hnull
    · exact absurd hnone (h.ne_none hok hfault)
    · exact ⟨hexit, hhead⟩
  · rintro ⟨hexit, hhead⟩
    obtain rfl : op = .exit := hexit
    have hnext : p.sched.dequeueJob.1 = none := QueueMem.dequeue_fst.trans hhead
    refine ⟨p.sched.exit c, rfl, ?_⟩
    rw [Sched.exit, hnext, Sched.dispatch_none]
    rfl

/-! ## The result -/

/-- In every run an operation dereferences no null pointer and hands none to `dispatch`, except an
`exit` with an empty ready list, which does. -/
theorem no_null_thread_iff (h : Runs (Placement.step online) ScheduledOk init p)
    (hok : p.ScheduledOk i) :
    (∀ o, p.sched.exec i.1 online i.2.1 i.2.2 = some o → o.usesNull = false) ↔
      ¬ (i.2.2 = .exit ∧ p.sched.jobs.head = none) := by
  rw [← exec_usesNull_iff online (Active.of_runs h) hok]
  simp

/-- With a second thread on the ready list the first one can exit. -/
theorem no_null_thread_twoThreads : ∃ p, Runs (step 1) ScheduledOk init p ∧
    p.sched.life 0 = some 1 ∧ ∀ o, p.sched.exec 0 1 0 .exit = some o → o.usesNull = false := by
  have hready : Runs (step 1) ScheduledOk init _ :=
    (Runs.refl.tail (i := (0, 0, .ready 1)) ⟨rfl, trivial⟩ rfl).tail (i := (0, 0, .ready 2))
      ⟨rfl, trivial⟩ rfl
  have hruns := hready.tail (i := (0, 0, .schedule)) ⟨rfl, trivial⟩ rfl
  refine ⟨_, hruns, rfl, (no_null_thread_iff (i := (0, 0, .exit)) hruns ⟨rfl, rfl⟩).2 ?_⟩
  rintro ⟨-, hnone⟩
  cases hnone

/-- The exit of the only thread hands a null pointer to `dispatch`. -/
theorem last_exit_dispatches_null : ¬ ∀ online p i,
    Runs (Placement.step online) ScheduledOk init p → p.ScheduledOk i →
      ∀ o, p.sched.exec i.1 online i.2.1 i.2.2 = some o → o.usesNull = false := by
  intro h
  have hruns : Runs (step 1) ScheduledOk init _ :=
    (Runs.refl.tail (i := (0, 0, .ready 1)) ⟨rfl, trivial⟩ rfl).tail (i := (0, 0, .schedule))
      ⟨rfl, trivial⟩ rfl
  have hnull := h 1 _ (0, 0, .exit) hruns ⟨rfl, rfl⟩ _ rfl
  cases hnull

end Placement

end MPStuBS.Thread
