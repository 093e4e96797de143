import MPStuBS.Guard.MutualExclusion
import MPStuBS.Thread.Runnable

/-!
# Halted CPUs and the lock

`Scheduler::resume` and `schedule` halt the CPU when they find no thread, and
they run with the lock. The other CPUs then wait for it forever
(`halted_with_lock`).

`MayProceed` admits the steps at which they find one: `resume` starts with an
active thread and a runnable one on the ready list, `schedule` with a nonempty
list. In runs of such steps no CPU halts with the lock
(`halted_without_lock`). What `resume` relies on at its later points is
`SchedPc.PointOk`; it stays true while the CPU is interrupted there, because
only the owner of the lock touches the data of the scheduler.
-/

set_option autoImplicit false

namespace MPStuBS.Guard

open MPStuBS.Object MPStuBS.Machine MPStuBS.Thread MPStuBS.Lib.Run

/-! ## The scheduler finds a thread -/

/-- What the points of `resume` rely on. -/
def SchedPc.PointOk (s : Sched) : SchedPc → Prop
  | .resumeRelist curr => ∃ t, curr = some t ∧ (s.relist t).HasRunnable
  | .resumeDequeue => s.HasRunnable
  | .resumeSkip next => ∃ t, next = some t ∧ (s.killFlag t = false ∨ s.HasRunnable)
  | _ => True

theorem SchedPc.pointOk_of_isEntry {pc : SchedPc} (h : pc.isEntry = true) (s : Sched) :
    pc.PointOk s := by
  cases pc with
  | resumeRelist curr => cases h
  | resumeDequeue => cases h
  | resumeSkip next => cases h
  | _ => trivial

/-- A statement of the scheduler does not halt the CPU, if the entries find what they need. -/
theorem schedStep_proceeds {c : Cpu} {k : Kernel} (intr : Bool) {pc : SchedPc}
    (hpoint : pc.PointOk k.sched) (hresume : pc = .resume → k.sched.CanResume c)
    (hschedule : pc = .schedule → k.sched.jobs.head ≠ none) :
    (schedStep c k intr pc).ctl ≠ .die ∧
      ∀ pc', (schedStep c k intr pc).ctl.target? = some pc' →
        pc'.PointOk (schedStep c k intr pc).kernel.sched := by
  cases pc with
  | resume =>
      refine ⟨by simp [schedStep], fun pc' hpc' => ?_⟩
      obtain rfl := Option.some.inj hpc'
      obtain ⟨t, ht, -⟩ := hresume rfl
      exact ⟨t, ht, (hresume rfl).relist ht⟩
  | resumeRelist curr =>
      obtain ⟨t, rfl, ht⟩ := hpoint
      refine ⟨by simp [schedStep], fun pc' hpc' => ?_⟩
      obtain rfl := Option.some.inj hpc'
      exact ht
  | resumeDequeue =>
      obtain ⟨x, hx, hrun⟩ := Sched.HasRunnable.dequeueJob hpoint
      refine ⟨by simp [schedStep], fun pc' hpc' => ?_⟩
      obtain rfl := Option.some.inj hpc'
      exact ⟨x, hx, hrun⟩
  | resumeSkip next =>
      -- a dying thread is dropped, another one is dispatched
      obtain ⟨t, rfl, ht⟩ := hpoint
      cases hk : k.sched.killFlag t with
      | true =>
          rcases ht with ht | ht
          · simp [hk] at ht
          · obtain ⟨x, hx, hrun⟩ := ht.dequeueJob
            simp only [schedStep, hk, if_true]
            refine ⟨by simp, fun pc' hpc' => ?_⟩
            obtain rfl := Option.some.inj hpc'
            exact ⟨x, hx, hrun⟩
      | false =>
          simp only [schedStep, hk]
          refine ⟨by simp, fun pc' hpc' => ?_⟩
          obtain rfl := Option.some.inj hpc'
          trivial
  | schedule =>
      have hfst : k.sched.dequeueJob.1 = k.sched.jobs.head := QueueMem.dequeue_fst
      cases hd : k.sched.dequeueJob.1 with
      | none => exact absurd (hfst.symm.trans hd) (hschedule rfl)
      | some first =>
          simp only [schedStep, hd]
          refine ⟨by simp, fun pc' hpc' => ?_⟩
          obtain rfl := Option.some.inj hpc'
          trivial
  | dispatchSwitch old next =>
      cases next with
      | none => exact ⟨by simp [schedStep], fun pc' hpc' => by cases old <;> cases hpc'⟩
      | some next =>
          cases old with
          | none => exact ⟨by simp [schedStep], fun pc' hpc' => by cases hpc'⟩
          | some old =>
              refine ⟨by simp [schedStep], fun pc' hpc' => ?_⟩
              obtain rfl := Option.some.inj hpc'
              trivial
  | killRemove that prev current =>
      simp only [schedStep]
      split <;>
        · refine ⟨by simp, fun pc' hpc' => ?_⟩
          cases hpc'
          try trivial
  | dispatched => exact ⟨by simp [schedStep], fun pc' hpc' => by cases hpc'⟩
  | killNotify => exact ⟨by simp [schedStep], fun pc' hpc' => by cases hpc'⟩
  | ready that => exact ⟨by simp [schedStep], fun pc' hpc' => by cases hpc'⟩
  | goJump first => exact ⟨by simp [schedStep], fun pc' hpc' => by cases hpc'⟩
  | work => exact ⟨by simp [schedStep], fun pc' hpc' => by cases hpc'⟩
  | _ =>
      refine ⟨by simp [schedStep], fun pc' hpc' => ?_⟩
      obtain rfl := Option.some.inj hpc'
      trivial

/-! ## The scheduler point of a stack -/

/-- The point of the scheduler at which a stack is: that of the innermost activation with a phase of
its own. -/
def stackSched : List Activation → Option SchedPc
  | [] => none
  | a :: below => if a.phase?.isSome then a.schedPc? else stackSched below

theorem stackSched_owning {s : List Activation} {sp : SchedPc} (h : stackSched s = some sp) :
    stackPhase s = .owning := by
  induction s with
  | nil => cases h
  | cons a below ih =>
      cases hp : a.phase? with
      | none =>
          rw [stackPhase_cons_of_none hp]
          simp only [stackSched, hp, Option.isSome_none] at h
          exact ih h
      | some p =>
          simp only [stackSched, hp, Option.isSome_some, if_true] at h
          exact stackPhase_cons_of_some (Activation.phase?_of_schedPc? h) below

theorem stackSched_cons {a : Activation} {sp : SchedPc} (h : a.schedPc? = some sp)
    (below : List Activation) : stackSched (a :: below) = some sp := by
  simp [stackSched, Activation.phase?_of_schedPc? h, h]

/-- A handler is in the guard itself only above code outside of it. -/
theorem stackSched_below_none {a : Activation} {below : List Activation} (hs : StackOk (a :: below))
    (ha : a.phase?.isSome = true) : stackSched below = none := by
  cases hs with
  | bottom hb => rfl
  | @handler g pc below hbelow hmasked hdirect hdeferred =>
      have hfree := hdirect (GuardianPc.direct_of_phase? ha)
      cases hsp : stackSched below with
      | none => rfl
      | some sp =>
          rw [stackSched_owning hsp] at hfree
          cases hfree

theorem stackSched_below {a : Activation} {below : List Activation} {sp : SchedPc}
    (hs : StackOk (a :: below)) (h : stackSched below = some sp) :
    stackSched (a :: below) = some sp := by
  cases hp : a.phase? with
  | none => simp [stackSched, hp, h]
  | some p =>
      rw [stackSched_below_none hs (by rw [hp]; rfl)] at h
      cases h

/-- A statement outside of the scheduler leads to an entry of it, or leaves the point of the stack
as it was. -/
theorem stackSched_target {c : Cpu} {k : Kernel} {intr : Bool} {a a' : Activation}
    {below : List Activation} {ch : Choice} {e : Effect Activation} (hs : StackOk (a :: below))
    (hsp : a.schedPc? = none) (he : activationStep c k intr a ch = some e)
    (ht : e.ctl = .next a') {sp : SchedPc} (h : stackSched (a' :: below) = some sp) :
    sp.isEntry = true ∨ stackSched (a :: below) = some sp := by
  cases hp : a'.phase? with
  | none =>
      simp only [stackSched, hp, Option.isSome_none] at h
      exact Or.inr (stackSched_below hs h)
  | some p =>
      simp only [stackSched, hp, Option.isSome_some, if_true] at h
      rcases activationStep_other hsp he with hout | ⟨-, rfl⟩
      · have hctl := hout.2
        rw [ht] at hctl
        exact Or.inl (hctl sp h)
      · cases ht

/-- An activation inside the scheduler, seen from the whole activation. -/
theorem activationStep_proceeds {c : Cpu} {k : Kernel} {intr : Bool} {a : Activation}
    {sp : SchedPc} {ch : Choice} {e : Effect Activation} (hsp : a.schedPc? = some sp)
    (he : activationStep c k intr a ch = some e) (hpoint : sp.PointOk k.sched)
    (hresume : sp = .resume → k.sched.CanResume c)
    (hschedule : sp = .schedule → k.sched.jobs.head ≠ none) :
    e.ctl ≠ .die ∧ ∀ a' sp', e.ctl.target? = some a' → a'.schedPc? = some sp' →
      sp'.PointOk e.kernel.sched := by
  obtain ⟨f, a₀, rfl, hf, h₀⟩ := activationStep_sched hsp he
  obtain ⟨hdie, htarget⟩ := schedStep_proceeds intr hpoint hresume hschedule
  refine ⟨?_, fun a' sp' ht hsp' => ?_⟩
  -- the callers hand a halt of the scheduler on, and add none
  · cases hctl : (schedStep c k intr sp).ctl with
    | die => exact absurd hctl hdie
    | _ => simp [Effect.lift, hctl, Control.lift]
  · rcases Control.target?_lift ht with ⟨pc', hpc', rfl⟩ | rfl
    · rw [hf pc'] at hsp'
      obtain rfl := Option.some.inj hsp'
      exact htarget pc' hpc'
    · rw [h₀] at hsp'
      cases hsp'

namespace Multiprocessor

/-- The condition on a step: `resume` finds a thread to switch to, `schedule` one to start. -/
def MayProceed (m : Multiprocessor) (i : Cpu × Choice) : Prop :=
  ∀ answer a, i.2 = .stmt answer → m.Executes i.1 a →
    (a.schedPc? = some .resume → m.kernel.sched.CanResume i.1) ∧
      (a.schedPc? = some .schedule → m.kernel.sched.jobs.head ≠ none)

/-- The invariant of such runs. -/
structure ProceedInv (m : Multiprocessor) : Prop where
  guard : m.GuardInv
  point : ∀ c sp, (m.cpu c).status = .running → stackSched (m.cpu c).stack = some sp →
    sp.PointOk m.kernel.sched
  saved : ∀ t sp, stackSched (m.regs t) = some sp → sp = .dispatched
  halted : ∀ c, (m.cpu c).status = .halted → m.phase c = .free

theorem proceedInv_boot (on : Cpu → Bool) : (boot on).ProceedInv where
  guard := guardInv_boot on
  point c sp _ hsp := by cases hsp
  saved t sp hsp := by cases hsp
  halted c _ := rfl

/-- One CPU goes on with a new stack, and the data of the scheduler changes only if no other CPU is
inside the scheduler. -/
theorem ProceedInv.setCpu {m m' : Multiprocessor} (h : m.ProceedInv) {c : Cpu} {s : CpuState}
    (hguard : m'.GuardInv) (hcpu : m'.cpu = Function.update m.cpu c s)
    (hpoint : ∀ sp, s.status = .running → stackSched s.stack = some sp →
      sp.PointOk m'.kernel.sched)
    (hframe : ∀ d, d ≠ c → m.phase d = .owning → m'.kernel.sched = m.kernel.sched)
    (hsaved : ∀ t sp, stackSched (m'.regs t) = some sp → sp = .dispatched)
    (hhalted : s.status = .halted → stackPhase s.stack = .free) : m'.ProceedInv := by
  have hself : m'.cpu c = s := by rw [hcpu, Function.update_self]
  have hother : ∀ d, d ≠ c → m'.cpu d = m.cpu d := fun d hd => by
    rw [hcpu, Function.update_of_ne hd]
  refine ⟨hguard, ?_, hsaved, ?_⟩
  · intro d sp hst hsp
    by_cases hd : d = c
    · subst hd
      rw [hself] at hst hsp
      exact hpoint sp hst hsp
    · rw [hother d hd] at hst hsp
      rw [hframe d hd (stackSched_owning hsp)]
      exact h.point d sp hst hsp
  · intro d hd
    by_cases hdc : d = c
    · subst hdc
      rw [Multiprocessor.phase, hself]
      rw [hself] at hd
      exact hhalted hd
    · rw [Multiprocessor.phase, hother d hdc]
      rw [hother d hdc] at hd
      exact h.halted d hd

theorem ProceedInv.accept {m : Multiprocessor} (h : m.ProceedInv) {c : Cpu}
    (hst : (m.cpu c).status = .running) (hi : (m.cpu c).intr = true) (g : Gate) :
    (m.accept c g).ProceedInv := by
  refine h.setCpu (h.guard.accept hst hi g) rfl ?_ (fun _ _ _ => rfl) h.saved ?_
  · intro sp _ hsp
    exact h.point c sp hst hsp
  · intro hhalt
    cases hhalt

/-- A statement outside of the scheduler. -/
theorem ProceedInv.apply_other {m : Multiprocessor} (h : m.ProceedInv) {c : Cpu} {a : Activation}
    {below : List Activation} {ch : Choice} {e : Effect Activation}
    (hst : (m.cpu c).status = .running) (hs : (m.cpu c).stack = a :: below)
    (he : activationStep c m.kernel (m.cpu c).intr a ch = some e) (hsp : a.schedPc? = none) :
    (m.apply c a below e).ProceedInv := by
  have hguard := h.guard.apply hst hs he
  have hok : StackOk (a :: below) := hs ▸ h.guard.stack c
  -- the data is unchanged, so what held for the stack still holds
  have hold : ∀ sp, stackSched (a :: below) = some sp → sp.PointOk m.kernel.sched := by
    intro sp hsp'
    exact h.point c sp hst (hs ▸ hsp')
  have htarget := fun a' ht => @stackSched_target c m.kernel (m.cpu c).intr a a' below ch e hok hsp
    he ht
  rcases activationStep_other hsp he with hout | ⟨rfl, rfl⟩
  · obtain ⟨k', intr', ctl⟩ := e
    obtain ⟨hsched, hctl⟩ := hout
    have hsched : k'.sched = m.kernel.sched := hsched
    have hframe : ∀ d, d ≠ c → m.phase d = .owning → k'.sched = m.kernel.sched :=
      fun _ _ _ => hsched
    cases ctl with
    | next a' =>
        refine h.setCpu hguard rfl ?_ hframe h.saved fun hhalt => by cases hhalt
        intro sp _ hsp'
        show sp.PointOk k'.sched
        rw [hsched]
        rcases htarget a' rfl hsp' with hentry | hsame
        · exact SchedPc.pointOk_of_isEntry hentry _
        · exact hold sp hsame
    | ret =>
        refine h.setCpu hguard rfl ?_ hframe h.saved fun hhalt => by cases hhalt
        intro sp _ hsp'
        show sp.PointOk k'.sched
        rw [hsched]
        exact hold sp (stackSched_below hok hsp')
    | die => exact hctl.elim
    | wild =>
        exact h.setCpu hguard rfl (fun _ hr => by cases hr) hframe h.saved fun hr => by cases hr
    | switch old next a' => exact hctl.elim
    | start next => exact hctl.elim
  · -- user code comes to its end: the CPU is outside of the guard
    exact h.setCpu hguard rfl (fun _ hr => by cases hr) (fun _ _ _ => rfl) h.saved fun _ => rfl

/-- A statement of the scheduler. -/
theorem ProceedInv.apply_sched {m : Multiprocessor} (h : m.ProceedInv) {c : Cpu} {a : Activation}
    {below : List Activation} {ch : Choice} {e : Effect Activation} {sp : SchedPc}
    (hst : (m.cpu c).status = .running) (hs : (m.cpu c).stack = a :: below)
    (he : activationStep c m.kernel (m.cpu c).intr a ch = some e) (hsp : a.schedPc? = some sp)
    (hresume : sp = .resume → m.kernel.sched.CanResume c)
    (hschedule : sp = .schedule → m.kernel.sched.jobs.head ≠ none) :
    (m.apply c a below e).ProceedInv := by
  have hguard := h.guard.apply hst hs he
  have hok : StackOk (a :: below) := hs ▸ h.guard.stack c
  have hpoint : sp.PointOk m.kernel.sched := by
    apply h.point c sp hst
    rw [hs]
    exact stackSched_cons hsp below
  -- the CPU owns the lock, so no other CPU is inside the scheduler
  have hframe : ∀ (k' : Kernel) d, d ≠ c → m.phase d = .owning →
      k'.sched = m.kernel.sched := by
    intro k' d hd hphase
    have hown : m.phase c = .owning := by
      rw [Multiprocessor.phase, hs]
      exact stackPhase_cons_of_some (Activation.phase?_of_schedPc? hsp) below
    exact absurd (h.guard.tracks.owner_unique (by rw [hphase]; rfl) (by rw [hown]; rfl)) hd
  have hbelow : stackSched below = none :=
    stackSched_below_none hok (by rw [Activation.phase?_of_schedPc? hsp]; rfl)
  obtain ⟨hdie, htarget⟩ := activationStep_proceeds hsp he hpoint hresume hschedule
  have hsaved : ∀ {regs : ThreadPtr → List Activation} {t : ThreadPtr} {sp' : SchedPc},
      (∀ sp', stackSched (regs t) = some sp' → sp' = .dispatched) →
        stackSched (regs t) = some sp' → ∀ s : Sched, sp'.PointOk s := by
    intro regs t sp' hreg hsp' s
    obtain rfl := hreg sp' hsp'
    trivial
  obtain ⟨k', intr', ctl⟩ := e
  cases ctl with
  | next a' =>
      refine h.setCpu hguard rfl ?_ (hframe k') h.saved fun hhalt => by cases hhalt
      intro sp' _ hsp'
      cases hp : a'.phase? with
      | none =>
          simp only [stackSched, hp, Option.isSome_none, hbelow] at hsp'
          cases hsp'
      | some p =>
          simp only [stackSched, hp, Option.isSome_some, if_true] at hsp'
          exact htarget a' sp' rfl hsp'
  | ret =>
      refine h.setCpu hguard rfl ?_ (hframe k') h.saved fun hhalt => by cases hhalt
      intro sp' _ hsp'
      rw [hbelow] at hsp'
      cases hsp'
  | die => exact absurd rfl hdie
  | wild =>
      exact h.setCpu hguard rfl (fun _ hr => by cases hr) (hframe k') h.saved fun hr => by cases hr
  | switch old next a' =>
      -- every suspended thread will return from `toc_switch`, which relies on nothing
      have hregs : ∀ t sp', stackSched (Function.update m.regs old (a' :: below) t) = some sp' →
          sp' = .dispatched := by
        intro t sp' hsp'
        by_cases ht : t = old
        · subst ht
          rw [Function.update_self, stackSched_cons (activationStep_switch he rfl).2] at hsp'
          exact (Option.some.inj hsp').symm
        · rw [Function.update_of_ne ht] at hsp'
          exact h.saved t sp' hsp'
      refine h.setCpu hguard rfl ?_ (hframe k') hregs fun hhalt => by cases hhalt
      intro sp' _ hsp'
      exact hsaved (hregs next) hsp' _
  | start next =>
      refine h.setCpu hguard rfl ?_ (hframe k') h.saved fun hhalt => by cases hhalt
      intro sp' _ hsp'
      exact hsaved (h.saved next) hsp' _

theorem ProceedInv.step {m m' : Multiprocessor} {i : Cpu × Choice} (h : m.ProceedInv)
    (hok : m.MayProceed i) (hstep : Multiprocessor.step m i = some m') : m'.ProceedInv := by
  obtain ⟨c, ch⟩ := i
  obtain ⟨hst, hcases⟩ := step_cases hstep
  rcases hcases with ⟨g, rfl, hi, rfl⟩ | ⟨a, below, e, hs, he, rfl⟩
  · exact h.accept hst hi g
  · cases hsp : a.schedPc? with
    | none => exact h.apply_other hst hs he hsp
    | some sp =>
        obtain ⟨answer, hch⟩ := activationStep_stmt hsp he
        obtain ⟨hresume, hschedule⟩ := hok answer a hch ⟨hst, by rw [hs]; rfl⟩
        refine h.apply_sched hst hs he hsp ?_ ?_
        · rintro rfl
          exact hresume hsp
        · rintro rfl
          exact hschedule hsp

/-- In runs in which `resume` and `schedule` find a thread, no CPU has halted with the lock. -/
theorem halted_without_lock {on : Cpu → Bool} {m : Multiprocessor}
    (h : Runs step MayProceed (boot on) m) (c : Cpu) (hc : (m.cpu c).status = .halted) :
    m.kernel.acquired c = false := by
  have hinv : m.ProceedInv := by
    apply Runs.invariant h
    · exact proceedInv_boot on
    · intro a b i ha hok hstep
      exact ha.step hok hstep
  rw [hinv.guard.tracks.acquired, hinv.halted c hc]
  rfl

/-- A test for `MayProceed`: the first thread of the ready list is there and, for `resume`, it is
not dying. -/
def firstRunnable (m : Multiprocessor) (i : Cpu × Choice) : Bool :=
  match (m.cpu i.1).stack.head?.bind Activation.schedPc? with
  | some .resume =>
      (m.kernel.sched.life i.1).isSome &&
        m.kernel.sched.jobs.head.any fun u => !m.kernel.sched.killFlag u
  | some .schedule => m.kernel.sched.jobs.head.isSome
  | _ => true

theorem mayProceed_of_firstRunnable {m : Multiprocessor} {i : Cpu × Choice}
    (h : m.firstRunnable i = true) : m.MayProceed i := by
  rintro answer a - hexec
  refine ⟨fun hsp => ?_, fun hsp => ?_⟩
  · simp only [firstRunnable, hexec.2, Option.bind_some, hsp, Bool.and_eq_true,
      Option.isSome_iff_exists, Option.any_eq_true] at h
    obtain ⟨⟨t, ht⟩, u, hu, hk⟩ := h
    exact ⟨t, ht, Or.inl ⟨u, ⟨[], hu⟩, by simpa using hk⟩⟩
  · simp only [firstRunnable, hexec.2, Option.bind_some, hsp] at h
    intro hnone
    rw [hnone] at h
    cases h

/-- CPU 3 halts outside of the guard, and CPU 0 switches threads with the lock. -/
theorem halted_without_lock_timer : ∃ m, Runs step MayProceed (boot fun _ => true) m ∧
    (m.cpu 3).status = .halted ∧ m.kernel.acquired 0 = true ∧ m.kernel.acquired 3 = false := by
  have hrun : ∃ m, exec (fun m i => if m.firstRunnable i then step m i else none)
      (boot fun _ => true)
      ((3, .finish) :: startTwo 0 ++ (0, .accept .watch) :: List.replicate 18 (0, .stmt true)) =
        some m ∧ (m.cpu 3).status = .halted ∧ m.kernel.acquired 0 = true := ⟨_, rfl, rfl, rfl⟩
  obtain ⟨m, hm, h3, h0⟩ := hrun
  have hruns : Runs step MayProceed (boot fun _ => true) m :=
    runs_of_exec_if (fun _ _ => mayProceed_of_firstRunnable) hm
  exact ⟨m, hruns, h3, h0, halted_without_lock hruns 3 h3⟩

/-- One thread for two CPUs: CPU 1 finds the ready list empty in `schedule` and halts with the
lock. -/
theorem halted_with_lock : ¬ ∀ (on : Cpu → Bool) (m : Multiprocessor), Reachable on m →
    ∀ c, (m.cpu c).status = .halted → m.kernel.acquired c = false := by
  intro hclaim
  have hrun : ∃ m, exec step (boot fun _ => true)
      ((0, .secure (.ready 1)) :: List.replicate 12 (0, .stmt true) ++
        (0, .secure .schedule) :: List.replicate 17 (0, .stmt true) ++
          (1, .secure .schedule) :: List.replicate 6 (1, .stmt true)) = some m ∧
      (m.cpu 1).status = .halted ∧ m.kernel.acquired 1 = true := ⟨_, rfl, rfl, rfl⟩
  obtain ⟨m, hm, h1, hacq⟩ := hrun
  have hfree := hclaim _ m (reaches_of_exec hm) 1 h1
  rw [hacq] at hfree
  cases hfree

end Multiprocessor

end MPStuBS.Guard
