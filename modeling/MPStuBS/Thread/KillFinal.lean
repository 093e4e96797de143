import MPStuBS.Thread.Scheduler
import MPStuBS.Lib.Run

/-!
# Killed threads

`Scheduler::kill` marks a thread and takes it off the ready list. `resume` puts
no marked thread back and skips marked ones, but `exit` and `schedule` dispatch
whatever is first, and `ready` lists any thread. So a killed thread is
dispatched exactly when `exit` or `schedule` finds it at the head of the list
(`kill_final_iff`), which takes a `ready` after the `kill`
(`killed_thread_dispatched`).
-/

set_option autoImplicit false

namespace MPStuBS.Thread.Sched

open MPStuBS.Object MPStuBS.Lib

/-- The data after an operation on CPU `i.1`. There are none when the operation does not return. -/
def step (fuel online : Nat) (s : Sched) (i : Cpu × SchedOp) : Option Sched :=
  (s.exec fuel online i.1 i.2).map Outcome.data

/-! ## The kill flags -/

/-- The kill flag of `t` after an operation. -/
def markKill (t : ThreadPtr) (b : Bool) : SchedOp → Bool
  | .kill that => if that = t then true else b
  | .resetKillFlag that => if that = t then false else b
  | _ => b

/-- One of the operations killed `t`, and none has reset its flag since. -/
def killedBy (t : ThreadPtr) (ops : List (Cpu × SchedOp)) : Bool :=
  ops.foldl (fun b i => markKill t b i.2) false

theorem skipDying_killFlag {fuel : Nat} : ∀ {s s' : Sched} {next out : Option ThreadPtr},
    skipDying fuel s next = some (out, s') →
      s'.killFlag = s.killFlag ∧ ∀ t, out = some t → s.killFlag t = false := by
  induction fuel with
  | zero =>
      intro s s' next out h
      cases h
  | succ fuel ih =>
      intro s s' next out h
      cases next with
      | none =>
          obtain ⟨rfl, rfl⟩ := Prod.mk.inj (Option.some.inj h)
          exact ⟨rfl, fun t ht => by cases ht⟩
      | some t =>
          cases hk : s.killFlag t with
          | true =>
              simp only [skipDying, hk, if_true] at h
              obtain ⟨hflag, hout⟩ := ih h
              exact ⟨hflag, hout⟩
          | false =>
              simp only [skipDying, hk] at h
              obtain ⟨rfl, rfl⟩ := Prod.mk.inj (Option.some.inj h)
              refine ⟨rfl, fun u hu => ?_⟩
              obtain rfl := Option.some.inj hu
              exact hk

theorem relist_killFlag (s : Sched) (curr : ThreadPtr) :
    (s.relist curr).killFlag = s.killFlag := by
  cases hk : s.killFlag curr <;> simp only [relist, hk] <;> rfl

/-- `resume` keeps the kill flags and dispatches no dying thread. -/
theorem resume_killFlag {fuel : Nat} {s : Sched} {c : Cpu} {o : Outcome Sched}
    (h : s.resume fuel c = some o) :
    o.data.killFlag = s.killFlag ∧ ∀ u, o.dispatched? = some u → s.killFlag u = false := by
  rcases resume_cases h with ⟨-, rfl⟩ | ⟨curr, out, s₁, -, hskip, hout'⟩
  · exact ⟨rfl, nofun⟩
  · have hrelist : (s.relist curr).dequeueJob.2.killFlag = s.killFlag := relist_killFlag s curr
    obtain ⟨hflag, hout⟩ := skipDying_killFlag hskip
    rcases hout' with ⟨rfl, rfl⟩ | ⟨t, rfl, rfl⟩
    · exact ⟨hflag.trans hrelist, nofun⟩
    · rw [dispatch_data, dispatch_dispatched]
      refine ⟨hflag.trans hrelist, fun u hu => ?_⟩
      -- `dispatch` takes the thread that the loop found
      rw [← hrelist]
      exact hout u hu

/-- What an operation does to the kill flags, and the threads it can dispatch: one that is not
dying, or the first of the ready list. -/
theorem exec_killFlag {fuel online : Nat} {s : Sched} {c : Cpu} {op : SchedOp} {o : Outcome Sched}
    (h : s.exec fuel online c op = some o) :
    (∀ t, o.data.killFlag t = markKill t (s.killFlag t) op) ∧
      ∀ u, o.dispatched? = some u →
        s.killFlag u = false ∨ (op = .schedule ∨ op = .exit) ∧ s.jobs.head = some u := by
  cases exec_move h with
  | ready that => exact ⟨fun t => rfl, nofun⟩
  | resetKillFlag that =>
      refine ⟨fun t => ?_, nofun⟩
      by_cases ht : that = t
      · subst ht
        simp [Outcome.data, resetKillFlag, markKill]
      · simp [Outcome.data, resetKillFlag, markKill, ht, Ne.symm ht]
  | @kill that m act hact =>
      refine ⟨fun t => ?_, fun u hu => ?_⟩
      · by_cases ht : that = t
        · subst ht
          simp [Outcome.data, setKillFlag, setJobs, markKill]
        · simp [Outcome.data, setKillFlag, setJobs, markKill, ht, Ne.symm ht]
      · cases act with
        | dispatched t => exact absurd rfl (hact t)
        | _ => cases hu
  -- `schedule` and `exit` look at no flag
  | schedule hhead =>
      refine ⟨fun t => rfl, fun u hu => ?_⟩
      obtain rfl := Option.some.inj hu
      exact .inr ⟨.inl rfl, hhead⟩
  | scheduleDie hhead => exact ⟨fun t => rfl, nofun⟩
  | exit hlife hhead =>
      refine ⟨fun t => rfl, fun u hu => ?_⟩
      obtain rfl := Option.some.inj hu
      exact .inr ⟨.inr rfl, hhead⟩
  | exitFault hlife hhead =>
      refine ⟨fun t => rfl, fun u hu => ?_⟩
      obtain rfl := Option.some.inj hu
      exact .inr ⟨.inr rfl, hhead⟩
  | exitLost hhead => exact ⟨fun t => rfl, nofun⟩
  | resume hop hresume =>
      obtain ⟨hflag, hout⟩ := resume_killFlag hresume
      refine ⟨fun t => ?_, fun u hu => .inl (hout u hu)⟩
      rw [hflag]
      rcases hop with rfl | rfl | rfl <;> rfl
  | assassinIdle => exact ⟨fun t => rfl, nofun⟩
  | assassinFault hlife => exact ⟨fun t => rfl, nofun⟩

theorem step_killFlag {fuel online : Nat} {s s' : Sched} {i : Cpu × SchedOp}
    (h : s.step fuel online i = some s') (t : ThreadPtr) :
    s'.killFlag t = markKill t (s.killFlag t) i.2 := by
  obtain ⟨o, hexec, rfl⟩ := Option.map_eq_some_iff.1 h
  exact (exec_killFlag hexec).1 t

/-- In every run the kill flag says whether the thread has been killed. -/
theorem killFlag_eq_killedBy {fuel online : Nat} {ops : List (Cpu × SchedOp)} {s : Sched}
    (h : Run.exec (step fuel online) init ops = some s) (t : ThreadPtr) :
    s.killFlag t = killedBy t ops := by
  -- from any state, by induction on the operations
  have hgen : ∀ (ops : List (Cpu × SchedOp)) {s₀ s₁ : Sched},
      Run.exec (step fuel online) s₀ ops = some s₁ →
        s₁.killFlag t = ops.foldl (fun b i => markKill t b i.2) (s₀.killFlag t) := by
    intro ops
    induction ops with
    | nil =>
        intro s₀ s₁ hrun
        obtain rfl := Option.some.inj hrun
        rfl
    | cons i ops ih =>
        intro s₀ s₁ hrun
        cases hstep : s₀.step fuel online i with
        | none => simp [Run.exec, hstep] at hrun
        | some s₂ =>
            simp only [Run.exec, hstep] at hrun
            rw [List.foldl_cons, ← step_killFlag hstep t]
            exact ih hrun
  exact hgen ops h

/-! ## The result -/

/-- The condition on an operation: `schedule` and `exit` find no dying thread at the head of the
ready list. -/
def HeadNotDying (s : Sched) (op : SchedOp) : Prop :=
  op = .schedule ∨ op = .exit → ∀ u, s.jobs.head = some u → s.killFlag u = false

/-- Kill is final in a run if and only if no `schedule` or `exit` of it finds a dying thread at the
head of the ready list. An `exit` on a CPU without an active thread is one of them. -/
theorem kill_final_iff (fuel online : Nat) (ops : List (Cpu × SchedOp)) :
    (∀ before c op after s o u, ops = before ++ (c, op) :: after →
      Run.exec (step fuel online) init before = some s → s.exec fuel online c op = some o →
        o.dispatched? = some u → killedBy u before = false) ↔
      ∀ before c op after s, ops = before ++ (c, op) :: after →
        Run.exec (step fuel online) init before = some s → s.HeadNotDying op := by
  constructor
  -- the operation would dispatch the first thread of the list, which must not be killed
  · intro hfinal before c op after s hops hrun hop u hu
    rw [killFlag_eq_killedBy hrun]
    have hfst : s.dequeueJob.1 = some u := QueueMem.dequeue_fst.trans hu
    rcases hop with rfl | rfl
    · refine hfinal before c .schedule after s (s.schedule c) u hops hrun rfl ?_
      simp only [schedule, hfst]
      rfl
    · refine hfinal before c .exit after s (s.exit c) u hops hrun rfl ?_
      exact (dispatch_dispatched _ c _).trans hfst
  -- a dispatched thread is not dying, or is the first of the list and the condition applies
  · intro hhead before c op after s o u hops hrun hexec hu
    rw [← killFlag_eq_killedBy hrun]
    rcases (exec_killFlag hexec).2 u hu with hk | ⟨hop, hfirst⟩
    · exact hk
    · exact hhead before c op after s hops hrun hop u hfirst

/-- A killed thread is made ready again, and `schedule` starts it. -/
theorem killed_thread_dispatched : ¬ ∀ fuel online ops before c op after s o u,
    ops = before ++ (c, op) :: after → Run.exec (step fuel online) init before = some s →
      s.exec fuel online c op = some o → o.dispatched? = some u → killedBy u before = false := by
  intro hclaim
  have hrun : ∃ s, Run.exec (step 3 4) init [(0, .ready 1), (0, .kill 1), (0, .ready 1)] = some s ∧
      ∃ o, s.exec 3 4 1 .schedule = some o ∧ o.dispatched? = some 1 := ⟨_, rfl, _, rfl, rfl⟩
  obtain ⟨s, hs, o, ho, hdispatched⟩ := hrun
  have hfinal := hclaim 3 4 _ _ 1 .schedule [] s o 1 rfl hs ho hdispatched
  cases hfinal

end MPStuBS.Thread.Sched
