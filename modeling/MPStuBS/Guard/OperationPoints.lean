import MPStuBS.Guard.HaltedCpu
import MPStuBS.Thread.LoopBounds
import MPStuBS.Thread.ActiveThreads

/-!
# Operations of the scheduler in progress

The scheduler is there twice: as the operations of `Sched.exec`, each executed as
a whole, and as the statements of `schedStep`. `SchedPc.Midway` says of a point
between two statements how far an operation has come: the data are those at which
the operation, begun with the data `s`, ends up with what the remaining
statements do. A statement brings the operation to its next point, or to the
end that `Sched.exec` gives it (`schedStep_advances`).
-/

set_option autoImplicit false

namespace MPStuBS.Guard

open MPStuBS.Object MPStuBS.Machine MPStuBS.Thread MPStuBS.Thread.Sched

/-- The operation that starts at a point of the scheduler. -/
def SchedPc.entry? : SchedPc → Option SchedOp
  | .resume => some .resume
  | .exit => some .exit
  | .kill that => some (.kill that)
  | .ready that => some (.ready that)
  | .schedule => some .schedule
  | _ => none

/-- The operation, begun with the data `s` and executed as a whole, ends in `o`. -/
def Ends (online : Nat) (c : Cpu) (op : SchedOp) (s : Sched) (o : Outcome Sched) : Prop :=
  ∃ fuel, s.exec fuel online c op = some o

/-- CPU `c` began operation `op` with the data `s`, and at this point of it the data are `σ`. -/
def SchedPc.Midway (online : Nat) (c : Cpu) (op : SchedOp) (s σ : Sched) : SchedPc → Prop
  | .resume => op = .resume ∧ σ = s
  | .resumeRelist curr => op = .resume ∧ σ = s ∧ s.life c = curr
  | .resumeDequeue => op = .resume ∧ ∃ curr, s.life c = some curr ∧ σ = s.relist curr
  -- the loop has `n` rounds behind it
  | .resumeSkip next => op = .resume ∧ ∃ curr n, s.life c = some curr ∧
      ∀ fuel, skipDying (fuel + n) (s.relist curr).dequeueJob.2 (s.relist curr).dequeueJob.1 =
        skipDying fuel σ next
  | .dispatch next => σ.life = s.life ∧ Ends online c op s (σ.dispatch c next)
  | .dispatchDisable old next | .dispatchSet old next =>
      s.life c = old ∧ σ.life = s.life ∧ Ends online c op s (σ.dispatch c next)
  | .dispatchEnable old next | .dispatchSwitch old next =>
      s.life c = old ∧ ∃ σ₀ : Sched, σ = σ₀.setActive c next ∧ σ₀.life = s.life ∧
        Ends online c op s (σ₀.dispatch c next)
  | .dispatched => False
  | .exit => op = .exit ∧ σ = s
  | .kill that => op = .kill that ∧ σ = s
  | .killRemove that prev current => op = .kill that ∧ σ = s.setKillFlag that ∧
      ∃ n, ∀ fuel, σ.jobsMem.remove (fuel + n) that QueueMem.sameItem =
        σ.jobsMem.removeFrom QueueMem.sameItem that fuel prev current
  | .killNotify => ∃ dest, Ends online c op s (.done σ (.ipi dest))
  | .ready that => op = .ready that ∧ σ = s
  | .schedule => op = .schedule ∧ σ = s
  | .activate first | .goDisable first | .goSet first => Ends online c op s (σ.go c first)
  | .goEnable first | .goJump first => Ends online c op s (.done σ (.dispatched first))
  | .work => False

section Points

variable {online : Nat} {c : Cpu} {op : SchedOp} {s : Sched} {k : Kernel} {intr : Bool}
  {sp : SchedPc}

/-- An operation at its first point has done nothing yet. -/
theorem SchedPc.midway_of_entry (h : sp.entry? = some op) (s : Sched) :
    sp.Midway online c op s s := by
  cases sp with
  | resume => exact ⟨(Option.some.inj h).symm, rfl⟩
  | exit => exact ⟨(Option.some.inj h).symm, rfl⟩
  | kill that => exact ⟨(Option.some.inj h).symm, rfl⟩
  | ready that => exact ⟨(Option.some.inj h).symm, rfl⟩
  | schedule => exact ⟨(Option.some.inj h).symm, rfl⟩
  | _ => cases h

/-- The statement brings the operation to its next point or to its end. -/
def Effect.Advances (online : Nat) (c : Cpu) (op : SchedOp) (s : Sched) (k : Kernel)
    (e : Effect SchedPc) : Prop :=
  match e.ctl with
  | .next sp => sp.Midway online c op s e.kernel.sched
  | .ret => ∃ act, (∀ u, act ≠ .dispatched u) ∧ Ends online c op s (.done e.kernel.sched act)
  | .die => Ends online c op s (.die e.kernel.sched)
  | .wild => e.kernel.sched = k.sched
  | .switch old next _ =>
      s.life c = some old ∧ Ends online c op s (.done e.kernel.sched (.dispatched next))
  | .start next =>
      ∃ o, Ends online c op s o ∧ o.data = e.kernel.sched ∧ o.dispatched? = some next

/-- The active threads after an operation, unless the CPU is lost. -/
theorem Ends.life {o : Outcome Sched} (h : Ends online c op s o) (hlost : ∀ σ, o ≠ .lost σ) :
    (∀ t, o.dispatched? = some t → o.data.life = Function.update s.life c (some t)) ∧
      (o.dispatched? = none → o.data.life = s.life) := by
  obtain ⟨fuel, hexec⟩ := h
  cases exec_move hexec with
  | ready that => exact ⟨nofun, fun _ => rfl⟩
  | resetKillFlag that => exact ⟨nofun, fun _ => rfl⟩
  | @kill that m act hact =>
      refine ⟨fun t ht => ?_, fun _ => rfl⟩
      cases act with
      | dispatched u => exact absurd rfl (hact u)
      | _ => cases ht
  | schedule hhead =>
      refine ⟨fun t ht => ?_, nofun⟩
      obtain rfl := Option.some.inj ht
      rfl
  | scheduleDie hhead => exact ⟨nofun, fun _ => rfl⟩
  | exit hlife hhead =>
      refine ⟨fun t ht => ?_, nofun⟩
      obtain rfl := Option.some.inj ht
      rfl
  | exitFault hlife hhead =>
      refine ⟨fun t ht => ?_, nofun⟩
      obtain rfl := Option.some.inj ht
      rfl
  | exitLost hhead => exact absurd rfl (hlost _)
  | resume hop hresume =>
      rcases resume_life hresume with ⟨σ, rfl, hlife⟩ | ⟨σ, u, rfl, hlife⟩
      · exact ⟨nofun, fun _ => hlife⟩
      · refine ⟨fun t ht => ?_, nofun⟩
        obtain rfl := Option.some.inj ht
        exact hlife
  | assassinIdle => exact ⟨nofun, fun _ => rfl⟩
  | assassinFault hlife => exact ⟨nofun, fun _ => rfl⟩

/-- What the loop of `resume` finds decides how `resume` ends. -/
theorem ends_of_skipDying {curr : ThreadPtr} {fuel : Nat} {out : Option ThreadPtr} {σ : Sched}
    (hlife : s.life c = some curr)
    (hskip : skipDying fuel (s.relist curr).dequeueJob.2 (s.relist curr).dequeueJob.1 =
      some (out, σ)) :
    σ.life = s.life ∧ Ends online c .resume s
      (match out with
        | none => .die σ
        | some t => σ.dispatch c (some t)) := by
  have hrelist : (s.relist curr).dequeueJob.2.life = s.life := relist_life s curr
  refine ⟨(skipDying_life hskip).trans hrelist, fuel, ?_⟩
  show s.resume fuel c = _
  cases out with
  | none => simp only [Sched.resume, hlife, hskip]
  | some t => simp only [Sched.resume, hlife, hskip]

theorem advances_resumeSkip {next : Option ThreadPtr}
    (h : (SchedPc.resumeSkip next).Midway online c op s k.sched) :
    (schedStep c k intr (.resumeSkip next)).Advances online c op s k := by
  obtain ⟨rfl, curr, n, hlife, hrounds⟩ := h
  cases next with
  | none => exact (ends_of_skipDying hlife (hrounds 1)).2
  | some t =>
      cases hk : k.sched.killFlag t with
      | true =>
          simp only [schedStep, hk, if_true]
          refine ⟨rfl, curr, n + 1, hlife, fun fuel => ?_⟩
          rw [← Nat.add_assoc, Nat.add_right_comm, hrounds]
          simp only [skipDying, hk, if_true]
          rfl
      | false =>
          have hskip := (hrounds 1).trans
            (show skipDying 1 k.sched (some t) = some (some t, k.sched) by simp [skipDying, hk])
          simp only [schedStep, hk]
          exact ends_of_skipDying hlife hskip

theorem advances_killRemove {that : ThreadPtr} {prev : Slot ThreadPtr}
    {current : Option ThreadPtr}
    (h : (SchedPc.killRemove that prev current).Midway online c op s k.sched) :
    (schedStep c k intr (.killRemove that prev current)).Advances online c op s k := by
  obtain ⟨rfl, hσ, n, hrounds⟩ := h
  -- what the loop returns is what `kill` goes on with
  have hends : ∀ {out : Option ThreadPtr} {m : QueueMem ThreadPtr},
      k.sched.jobsMem.removeStep QueueMem.sameItem that prev current = .done out m →
        (s.setKillFlag that).jobsMem.remove (1 + n) that QueueMem.sameItem = some (out, m) := by
    intro out m hstep
    rw [← hσ, hrounds 1]
    simp only [QueueMem.removeFrom, hstep]
  cases hstep : k.sched.jobsMem.removeStep QueueMem.sameItem that prev current with
  | done out m =>
      have hrem := hends hstep
      cases out with
      | none =>
          simp only [schedStep, hstep]
          refine ⟨killDest s.life that online, 1 + n, ?_⟩
          show s.kill (1 + n) that online = _
          simp only [Sched.kill, hrem]
          rw [← hσ]
          rfl
      | some t =>
          simp only [schedStep, hstep]
          refine ⟨.nothing, by simp, 1 + n, ?_⟩
          show s.kill (1 + n) that online = _
          simp only [Sched.kill, hrem]
          rw [← hσ]
          rfl
  | more prev' current' =>
      simp only [schedStep, hstep]
      refine ⟨rfl, hσ, n + 1, fun fuel => ?_⟩
      rw [← Nat.add_assoc, Nat.add_right_comm, hrounds]
      simp only [QueueMem.removeFrom, hstep]

theorem advances_schedule (h : SchedPc.schedule.Midway online c op s k.sched) :
    (schedStep c k intr .schedule).Advances online c op s k := by
  obtain ⟨rfl, hσ⟩ := h
  cases hd : k.sched.dequeueJob.1 with
  | none =>
      simp only [schedStep, hd]
      refine ⟨0, ?_⟩
      show some (s.schedule c) = _
      rw [← hσ, Sched.schedule, hd]
      rfl
  | some first =>
      simp only [schedStep, hd]
      refine ⟨0, ?_⟩
      show some (s.schedule c) = _
      rw [← hσ, Sched.schedule, hd]
      rfl

/-- `toc_switch` is reached with two threads, or without an old one, or the CPU follows a null
pointer. -/
theorem advances_dispatchSwitch {old next : Option ThreadPtr}
    (h : (SchedPc.dispatchSwitch old next).Midway online c op s k.sched) :
    (schedStep c k intr (.dispatchSwitch old next)).Advances online c op s k := by
  obtain ⟨hlife, σ₀, hσ, hlife₀, hends⟩ := h
  cases next with
  | none => cases old <;> exact rfl
  | some next =>
      cases old with
      | none => exact ⟨_, hends, (dispatch_data σ₀ c _).trans hσ.symm, dispatch_dispatched σ₀ c _⟩
      | some old =>
          refine ⟨hlife, ?_⟩
          show Ends online c op s (.done k.sched (.dispatched next))
          rw [hσ, ← dispatch_of_active ((congrFun hlife₀ c).trans hlife)]
          exact hends

/-- Every statement of the scheduler brings the operation further. -/
theorem schedStep_advances (h : sp.Midway online c op s k.sched) :
    (schedStep c k intr sp).Advances online c op s k := by
  cases sp with
  | resume =>
      obtain ⟨rfl, hσ⟩ := h
      exact ⟨rfl, hσ, by rw [hσ]⟩
  | resumeRelist curr =>
      obtain ⟨rfl, hσ, hlife⟩ := h
      cases curr with
      | none =>
          refine ⟨0, ?_⟩
          show s.resume 0 c = some (.die k.sched)
          simp only [Sched.resume, hlife, hσ]
      | some curr => exact ⟨rfl, curr, hlife, by rw [← hσ]; rfl⟩
  | resumeDequeue =>
      obtain ⟨rfl, curr, hlife, hσ⟩ := h
      refine ⟨rfl, curr, 0, hlife, fun fuel => ?_⟩
      rw [← hσ]
      rfl
  | resumeSkip next => exact advances_resumeSkip h
  | dispatch next =>
      obtain ⟨hlife, hends⟩ := h
      exact ⟨(congrFun hlife c).symm, hlife, hends⟩
  | dispatchDisable old next => exact h
  | dispatchSet old next =>
      obtain ⟨hold, hlife, hends⟩ := h
      exact ⟨hold, k.sched, rfl, hlife, hends⟩
  | dispatchEnable old next => exact h
  | dispatchSwitch old next => exact advances_dispatchSwitch h
  | dispatched => exact h.elim
  | exit =>
      obtain ⟨rfl, hσ⟩ := h
      refine ⟨by rw [← hσ]; rfl, 0, ?_⟩
      rw [← hσ]
      rfl
  | kill that =>
      obtain ⟨rfl, hσ⟩ := h
      refine ⟨rfl, by rw [← hσ]; rfl, 0, fun fuel => rfl⟩
  | killRemove that prev current => exact advances_killRemove h
  | killNotify =>
      obtain ⟨dest, hends⟩ := h
      exact ⟨.ipi dest, by simp, hends⟩
  | ready that =>
      obtain ⟨rfl, hσ⟩ := h
      refine ⟨.nothing, by simp, 0, ?_⟩
      rw [← hσ]
      rfl
  | schedule => exact advances_schedule h
  | activate first => exact h
  | goDisable first => exact h
  | goSet first => exact h
  | goEnable first => exact h
  | goJump first => exact ⟨_, h, rfl, rfl⟩
  | work => exact h.elim

/-- An operation that calls `ready` consists of a single statement. -/
theorem SchedPc.eq_ready_of_midway {that : ThreadPtr} {σ : Sched}
    (h : sp.Midway online c (.ready that) s σ) : sp = .ready that ∧ σ = s := by
  -- any other end of the operation would be one of `ready` too
  have hends : ∀ {o : Outcome Sched}, Ends online c (.ready that) s o →
      o = .done (s.enqueueJob that) .nothing := by
    rintro o ⟨fuel, ho⟩
    exact (Option.some.inj ho).symm
  have hdone : ∀ {σ : Sched} {first : ThreadPtr},
      ¬ Ends online c (.ready that) s (.done σ (.dispatched first)) := by
    intro σ first he
    cases (Outcome.done.inj (hends he)).2
  have hdispatch : ∀ {σ : Sched} {next : Option ThreadPtr},
      ¬ Ends online c (.ready that) s (σ.dispatch c next) := by
    intro σ next he
    unfold Sched.dispatch at he
    split at he
    case h_1 => exact hdone he
    case h_2 => cases hends he
    case h_3 => cases hends he
  cases sp with
  | ready t =>
      obtain ⟨ht, hσ⟩ := h
      exact ⟨by rw [SchedOp.ready.inj ht], hσ⟩
  | dispatch next => exact (hdispatch h.2).elim
  | dispatchDisable old next => exact (hdispatch h.2.2).elim
  | dispatchSet old next => exact (hdispatch h.2.2).elim
  | dispatchEnable old next =>
      obtain ⟨-, σ₀, -, -, he⟩ := h
      exact (hdispatch he).elim
  | dispatchSwitch old next =>
      obtain ⟨-, σ₀, -, -, he⟩ := h
      exact (hdispatch he).elim
  | killNotify =>
      obtain ⟨dest, he⟩ := h
      cases (Outcome.done.inj (hends he)).2
  | dispatched => exact h.elim
  | work => exact h.elim
  | activate first => exact (hdone h).elim
  | goDisable first => exact (hdone h).elim
  | goSet first => exact (hdone h).elim
  | goEnable first => exact (hdone h).elim
  | goJump first => exact (hdone h).elim
  | killRemove t prev current => cases h.1
  | resume => cases h.1
  | resumeRelist curr => cases h.1
  | resumeDequeue => cases h.1
  | resumeSkip next => cases h.1
  | exit => cases h.1
  | kill t => cases h.1
  | schedule => cases h.1

end Points

end MPStuBS.Guard
