import MPStuBS.Guard.Stack

/-!
# Calls of the scheduler

An activation that is inside the scheduler executes its statements
(`activationStep_sched`): from a guarded section, or from an epilogue that
`relay` or `leave` runs. Any other statement leaves the data of the scheduler
alone, switches no thread and halts the CPU at most at the end of user code
(`activationStep_other`). So all thread switches happen in the scheduler
(`activationStep_switch`).
-/

set_option autoImplicit false

namespace MPStuBS.Guard

open MPStuBS.Object MPStuBS.Machine MPStuBS.Thread MPStuBS.Lib.Run

/-! ## Program points -/

def EpiloguePc.schedPc? : EpiloguePc → Option SchedPc
  | .sched pc => some pc
  | _ => none

def LeavePc.schedPc? : LeavePc → Option SchedPc
  | .epilogue _ pc => pc.schedPc?
  | _ => none

def GuardianPc.schedPc? : GuardianPc → Option SchedPc
  | .epilogue pc => pc.schedPc?
  | .leave pc => pc.schedPc?
  | _ => none

/-- The point of the scheduler at which an activation is. -/
def Activation.schedPc? : Activation → Option SchedPc
  | .secure (.body pc) => some pc
  | .secure (.leave pc) => pc.schedPc?
  | .kickoff pc => pc.schedPc?
  | .guardian _ pc => pc.schedPc?
  | _ => none

/-- The entry points of the scheduler. -/
def SchedPc.isEntry : SchedPc → Bool
  | .resume => true
  | .exit => true
  | .kill _ => true
  | .ready _ => true
  | .schedule => true
  | .work => true
  | _ => false

/-! ## Statements inside the scheduler -/

/-- What does not lead into the scheduler leads to none but its entry points. -/
theorem SchedPc.isEntry_of_none (sp : SchedPc) (h : none = some sp) : sp.isEntry = true := by
  cases h

theorem Effect.lift_lift {Pc Pc' Pc'' : Type} (e : Effect Pc) (f : Pc → Pc') (g : Pc' → Pc'')
    (r : Control Pc') (r' : Control Pc'') :
    (e.lift f r).lift g r' = e.lift (fun pc => g (f pc)) (r.lift g r') := by
  obtain ⟨k', intr, ctl⟩ := e
  cases ctl <;> rfl

/-- The effect is that of a statement of the scheduler, seen by its callers up to `inside`; after
the return they go on outside of the scheduler. -/
def Effect.IsSched {Pc : Type} (c : Cpu) (k : Kernel) (intr : Bool) (pc : SchedPc)
    (inside : Pc → Option SchedPc) (e : Effect Pc) : Prop :=
  ∃ (f : SchedPc → Pc) (pc₀ : Pc), e = (schedStep c k intr pc).lift f (.next pc₀) ∧
    (∀ pc', inside (f pc') = some pc') ∧ inside pc₀ = none

theorem Effect.IsSched.lift {Pc Pc' : Type} {c : Cpu} {k : Kernel} {intr : Bool} {pc : SchedPc}
    {inside : Pc → Option SchedPc} {inside' : Pc' → Option SchedPc} {e : Effect Pc}
    (h : e.IsSched c k intr pc inside) (g : Pc → Pc') (r : Control Pc')
    (hg : ∀ pc, inside' (g pc) = inside pc) : (e.lift g r).IsSched c k intr pc inside' := by
  obtain ⟨f, pc₀, rfl, hf, h₀⟩ := h
  refine ⟨fun pc => g (f pc), g pc₀, Effect.lift_lift _ _ _ _ _, ?_, ?_⟩
  · intro pc'
    rw [hg, hf]
  · rw [hg, h₀]

variable {c : Cpu} {k : Kernel} {intr : Bool}

theorem leaveStep_sched {pc : LeavePc} {sp : SchedPc} (h : pc.schedPc? = some sp) :
    (leaveStep c k intr pc).IsSched c k intr sp LeavePc.schedPc? := by
  cases pc with
  | epilogue item pc =>
      cases pc with
      | sched pc =>
          obtain rfl := Option.some.inj h
          refine ⟨fun pc => .epilogue item (.sched pc), .disableInt, ?_, fun _ => rfl, rfl⟩
          exact Effect.lift_lift _ _ _ _ _
      | _ => simp [LeavePc.schedPc?, EpiloguePc.schedPc?] at h
  | _ => simp [LeavePc.schedPc?] at h

theorem guardianStep_sched {g : Gate} {answer : Bool} {pc : GuardianPc} {sp : SchedPc}
    (h : pc.schedPc? = some sp) :
    (guardianStep c k intr g answer pc).IsSched c k intr sp GuardianPc.schedPc? := by
  cases pc with
  | epilogue pc =>
      cases pc with
      | sched pc =>
          obtain rfl := Option.some.inj h
          refine ⟨fun pc => .epilogue (.sched pc), .leave .disableInt, ?_, fun _ => rfl, rfl⟩
          exact Effect.lift_lift _ _ _ _ _
      | _ => simp [GuardianPc.schedPc?, EpiloguePc.schedPc?] at h
  | leave pc =>
      have hl : (leaveStep c k intr pc).IsSched c k intr sp LeavePc.schedPc? :=
        leaveStep_sched h
      exact hl.lift _ _ fun _ => rfl
  | _ => simp [GuardianPc.schedPc?] at h

/-- An activation inside the scheduler executes a statement of it. -/
theorem activationStep_sched {a : Activation} {sp : SchedPc} {ch : Choice} {e : Effect Activation}
    (hsp : a.schedPc? = some sp) (h : activationStep c k intr a ch = some e) :
    e.IsSched c k intr sp Activation.schedPc? := by
  rcases activationStep_cases h with ⟨g, pc, answer, rfl, -, rfl⟩ | ha
  · have hg : (guardianStep c k intr g answer pc).IsSched c k intr sp GuardianPc.schedPc? :=
      guardianStep_sched hsp
    exact hg.lift _ _ fun _ => rfl
  · rcases activationStep_thread ha h with ⟨op, rfl, -, rfl⟩ | ⟨rfl, -, rfl⟩ | ⟨answer, -, h⟩
    · simp [Activation.schedPc?] at hsp
    · simp [Activation.schedPc?] at hsp
    · rcases h with ⟨op, pc, rfl, rfl⟩ | ⟨pc, rfl, rfl⟩ | ⟨pc, rfl, rfl⟩ | ⟨pc, rfl, rfl⟩
      · simp [Activation.schedPc?] at hsp
      · -- the operation of a guarded section, which leaves the guard afterwards
        obtain rfl := Option.some.inj hsp
        exact ⟨fun pc => .secure (.body pc), .secure (.leave .disableInt), rfl, fun _ => rfl, rfl⟩
      · have hl : (leaveStep c k intr pc).IsSched c k intr sp LeavePc.schedPc? :=
          leaveStep_sched hsp
        exact hl.lift _ _ fun _ => rfl
      · have hl : (leaveStep c k intr pc).IsSched c k intr sp LeavePc.schedPc? :=
          leaveStep_sched hsp
        exact hl.lift _ _ fun _ => rfl

/-- Inside the scheduler the environment decides nothing. -/
theorem activationStep_stmt {a : Activation} {sp : SchedPc} {ch : Choice} {e : Effect Activation}
    (hsp : a.schedPc? = some sp) (h : activationStep c k intr a ch = some e) :
    ∃ answer, ch = .stmt answer := by
  rcases activationStep_cases h with ⟨g, pc, answer, -, hch, -⟩ | ha
  · exact ⟨answer, hch⟩
  · rcases activationStep_thread ha h with ⟨op, rfl, -, -⟩ | ⟨rfl, -, -⟩ | ⟨answer, hch, -⟩
    · cases hsp
    · cases hsp
    · exact ⟨answer, hch⟩

/-! ## All other statements -/

/-- The statement leaves the data of the scheduler alone, and if it leads into the scheduler then to
an entry point. -/
def Effect.Outside {Pc : Type} (k : Kernel) (inside : Pc → Option SchedPc) (e : Effect Pc) :
    Prop :=
  e.kernel.sched = k.sched ∧
    match e.ctl with
    | .next pc => ∀ sp, inside pc = some sp → sp.isEntry = true
    | .ret => True
    | .die => False
    | .wild => True
    | .switch _ _ _ => False
    | .start _ => False

theorem Effect.Outside.lift {Pc Pc' : Type} {inside : Pc → Option SchedPc}
    {inside' : Pc' → Option SchedPc} {e : Effect Pc} (h : e.Outside k inside) (f : Pc → Pc')
    (pc₀ : Pc') (hf : ∀ pc, inside' (f pc) = inside pc)
    (h₀ : ∀ sp, inside' pc₀ = some sp → sp.isEntry = true) :
    (e.lift f (.next pc₀)).Outside k inside' := by
  obtain ⟨k', intr', ctl⟩ := e
  refine ⟨h.1, ?_⟩
  cases ctl with
  | next pc =>
      intro sp hsp
      exact h.2 sp ((hf pc).symm.trans hsp)
  | ret => exact h₀
  | _ => exact h.2

theorem Effect.Outside.liftRet {Pc Pc' : Type} {inside : Pc → Option SchedPc}
    {inside' : Pc' → Option SchedPc} {e : Effect Pc} (h : e.Outside k inside) (f : Pc → Pc')
    (hf : ∀ pc, inside' (f pc) = inside pc) : (e.lift f .ret).Outside k inside' := by
  obtain ⟨k', intr', ctl⟩ := e
  refine ⟨h.1, ?_⟩
  cases ctl with
  | next pc =>
      intro sp hsp
      exact h.2 sp ((hf pc).symm.trans hsp)
  | _ => exact h.2

theorem epilogueStep_outside {g : Gate} {pc : EpiloguePc} (h : pc.schedPc? = none) :
    (epilogueStep c k intr g pc).Outside k EpiloguePc.schedPc? := by
  have hentry : ∀ sp, EpiloguePc.schedPc? (.sched .resume) = some sp → sp.isEntry = true := by
    intro sp hsp
    obtain rfl := Option.some.inj hsp
    rfl
  cases pc with
  | start =>
      cases g with
      | watch => exact ⟨rfl, hentry⟩
      | assassin => exact ⟨rfl, fun sp hsp => by cases hsp⟩
      | _ => exact ⟨rfl, trivial⟩
  | assassinCheck current =>
      cases current with
      | none => exact ⟨rfl, trivial⟩
      | some t =>
          cases ht : k.sched.killFlag t with
          | true =>
              simp only [epilogueStep, ht, if_true]
              exact ⟨rfl, hentry⟩
          | false =>
              simp only [epilogueStep, ht]
              exact ⟨rfl, trivial⟩
  | sched pc => simp [EpiloguePc.schedPc?] at h

theorem enterStep_outside (pc : EnterPc) :
    (enterStep c k intr pc).Outside k fun _ => none := by
  have hnone := SchedPc.isEntry_of_none
  cases pc with
  | spin current =>
      by_cases ht : k.sLock.turn = current
      · simp only [enterStep, ht, if_true]
        exact ⟨rfl, trivial⟩
      · simp only [enterStep, ht]
        exact ⟨rfl, hnone⟩
  | _ => exact ⟨rfl, hnone⟩

theorem leaveStep_outside {pc : LeavePc} (h : pc.schedPc? = none) :
    (leaveStep c k intr pc).Outside k LeavePc.schedPc? := by
  have hnone := SchedPc.isEntry_of_none
  cases pc with
  | dequeue =>
      cases hd : (k.queues.mem c).dequeue.1 <;> simp only [leaveStep, hd] <;> exact ⟨rfl, hnone⟩
  -- an epilogue that has not reached the scheduler yet, or never does
  | epilogue item pc =>
      have he : (epilogueStep c k intr item pc).Outside k EpiloguePc.schedPc? :=
        epilogueStep_outside h
      exact he.lift _ _ (fun _ => rfl) hnone
  | enableIntReturn => exact ⟨rfl, trivial⟩
  | _ => exact ⟨rfl, hnone⟩

theorem guardianStep_outside {g : Gate} {answer : Bool} {pc : GuardianPc}
    (h : pc.schedPc? = none) :
    (guardianStep c k intr g answer pc).Outside k GuardianPc.schedPc? := by
  have hnone := SchedPc.isEntry_of_none
  cases pc with
  | prologue => cases answer <;> exact ⟨rfl, hnone⟩
  | testFlag => cases hf : k.flag c <;> simp only [guardianStep, hf] <;> exact ⟨rfl, hnone⟩
  | setQueued currCpu =>
      cases hq : k.queueFlag g <;> simp only [guardianStep, hq] <;> exact ⟨rfl, hnone⟩
  | enter pc =>
      simp only [guardianStep]
      exact (enterStep_outside pc).lift _ _ (fun _ => rfl) hnone
  | epilogue pc =>
      have he : (epilogueStep c k intr g pc).Outside k EpiloguePc.schedPc? :=
        epilogueStep_outside h
      exact he.lift _ _ (fun _ => rfl) hnone
  | leave pc =>
      have hl : (leaveStep c k intr pc).Outside k LeavePc.schedPc? := leaveStep_outside h
      exact hl.lift _ _ (fun _ => rfl) hnone
  | iret via => exact ⟨rfl, trivial⟩
  | _ => exact ⟨rfl, hnone⟩

/-- An activation outside of the scheduler leaves its data alone and halts the CPU at most at the
end of user code. -/
theorem activationStep_other {a : Activation} {ch : Choice} {e : Effect Activation}
    (hsp : a.schedPc? = none) (h : activationStep c k intr a ch = some e) :
    e.Outside k Activation.schedPc? ∨ a = .user ∧ e = ⟨k, false, .die⟩ := by
  rcases activationStep_cases h with ⟨g, pc, answer, rfl, -, rfl⟩ | ha
  · have hg : (guardianStep c k intr g answer pc).Outside k GuardianPc.schedPc? :=
      guardianStep_outside hsp
    exact Or.inl (hg.liftRet _ fun _ => rfl)
  · rcases activationStep_thread ha h with ⟨op, rfl, -, rfl⟩ | ⟨rfl, -, rfl⟩ | ⟨answer, -, h⟩
    · exact Or.inl ⟨rfl, SchedPc.isEntry_of_none⟩
    · exact Or.inr ⟨rfl, rfl⟩
    · refine Or.inl ?_
      rcases h with ⟨op, pc, rfl, rfl⟩ | ⟨pc, rfl, rfl⟩ | ⟨pc, rfl, rfl⟩ | ⟨pc, rfl, rfl⟩
      · -- behind `enter` the guarded section starts its operation
        refine (enterStep_outside pc).lift _ _ (fun _ => rfl) ?_
        intro sp hsp
        obtain rfl := Option.some.inj hsp
        cases op <;> rfl
      · simp [Activation.schedPc?] at hsp
      · have hl : (leaveStep c k intr pc).Outside k LeavePc.schedPc? := leaveStep_outside hsp
        exact hl.lift _ _ (fun _ => rfl) SchedPc.isEntry_of_none
      · have hl : (leaveStep c k intr pc).Outside k LeavePc.schedPc? := leaveStep_outside hsp
        exact hl.lift _ _ (fun _ => rfl) SchedPc.isEntry_of_none

/-! ## Thread switches -/

theorem Activation.phase?_of_schedPc? {a : Activation} {sp : SchedPc}
    (h : a.schedPc? = some sp) : a.phase? = some .owning := by
  have hleave : ∀ {pc : LeavePc}, pc.schedPc? = some sp → pc.phase = .owning := by
    intro pc hpc
    cases pc with
    | epilogue item pc => rfl
    | _ => simp [LeavePc.schedPc?] at hpc
  cases a with
  | user => simp [Activation.schedPc?] at h
  | secure pc =>
      cases pc with
      | enter op pc => simp [Activation.schedPc?] at h
      | body pc => rfl
      | leave pc => exact congrArg some (hleave h)
  | kickoff pc => exact congrArg some (hleave h)
  | guardian g pc =>
      cases pc with
      | epilogue pc => rfl
      | leave pc => exact congrArg some (hleave h)
      | _ => simp [Activation.schedPc?, GuardianPc.schedPc?] at h

/-- The scheduler switches threads in `Dispatcher::dispatch` only. -/
theorem schedStep_switch {pc pc' : SchedPc} {old next : ThreadPtr}
    (h : (schedStep c k intr pc).ctl = .switch old next pc') :
    pc = .dispatchSwitch (some old) (some next) ∧ pc' = .dispatched := by
  cases pc with
  | dispatchSwitch o n =>
      cases o <;> cases n <;> simp [schedStep] at h
      obtain ⟨rfl, rfl, rfl⟩ := h
      exact ⟨rfl, rfl⟩
  | resumeRelist curr => cases curr <;> simp [schedStep] at h
  | resumeSkip n =>
      cases n with
      | none => simp [schedStep] at h
      | some t => cases ht : k.sched.killFlag t <;> simp [schedStep, ht] at h
  | killRemove that prev current =>
      simp only [schedStep] at h
      split at h <;> cases h
  | schedule =>
      simp only [schedStep] at h
      split at h <;> cases h
  | _ => simp [schedStep] at h

/-- A thread that is switched away goes on in `Dispatcher::dispatch`. -/
theorem activationStep_switch {a a' : Activation} {ch : Choice} {e : Effect Activation}
    {old next : ThreadPtr} (h : activationStep c k intr a ch = some e)
    (hsw : e.ctl = .switch old next a') :
    a.schedPc? = some (.dispatchSwitch (some old) (some next)) ∧
      a'.schedPc? = some .dispatched := by
  cases hsp : a.schedPc? with
  | none =>
      rcases activationStep_other hsp h with hout | ⟨-, rfl⟩
      · have hctl := hout.2
        rw [hsw] at hctl
        exact hctl.elim
      · cases hsw
  | some sp =>
      obtain ⟨f, pc₀, rfl, hf, -⟩ := activationStep_sched hsp h
      cases hctl : (schedStep c k intr sp).ctl with
      | switch o n cont =>
          simp only [Effect.lift, hctl, Control.lift, Control.switch.injEq] at hsw
          obtain ⟨rfl, rfl, rfl⟩ := hsw
          obtain ⟨rfl, rfl⟩ := schedStep_switch hctl
          exact ⟨rfl, hf _⟩
      | _ => simp [Effect.lift, hctl, Control.lift] at hsw

end MPStuBS.Guard
