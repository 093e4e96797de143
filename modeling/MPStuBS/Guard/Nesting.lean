import MPStuBS.Guard.MutualExclusion

/-!
# Nesting of interrupt handlers

An interrupt pushes an activation of `guardian` on the stack of the interrupted
thread. By design there are two levels: an epilogue, and a prologue that
interrupts it. But a handler is exposed at two points at which it has enabled
interrupts without the level flag: before `enter` sets the flag, and at its very
end, after `relay` has returned. Interrupts that arrive there pile up without
bound (`nesting_unbounded`).

`Covered` admits the steps in which no interrupt arrives on top of an exposed
handler. In runs of such steps every stack carries at most two handlers
(`nesting_bounded`).
-/

set_option autoImplicit false

namespace MPStuBS.Guard

open MPStuBS.Object MPStuBS.Machine MPStuBS.Thread MPStuBS.Lib.Run

/-- The points at which a handler has enabled interrupts and does not hold the level flag. -/
def GuardianPc.exposed : GuardianPc → Bool
  | .enter .disableInt => true
  | .iret _ => true
  | _ => false

/-- A handler at an exposed point. -/
def Activation.exposed : Activation → Bool
  | .guardian _ pc => pc.exposed
  | _ => false

/-- The number of handlers on a stack. -/
def handlers (s : List Activation) : Nat := s.countP Activation.isHandler

@[simp] theorem handlers_guardian (g : Gate) (pc : GuardianPc) (below : List Activation) :
    handlers (.guardian g pc :: below) = handlers below + 1 :=
  List.countP_cons_of_pos rfl

theorem handlers_thread {a : Activation} (ha : a.isHandler = false) : handlers [a] = 0 := by
  simp [handlers, ha]

/-- An interruptible point of a handler that is not exposed is on epilogue level. -/
theorem GuardianPc.phase?_of_unexposed {pc : GuardianPc} (hmasked : pc.masked = false)
    (hexposed : pc.exposed = false) : ∃ p, pc.phase? = some p ∧ p.flag = true := by
  cases pc with
  | enter pc =>
      cases pc with
      | disableInt => cases hexposed
      | setFlag => cases hmasked
      | enableInt => cases hmasked
      | lock => exact ⟨_, rfl, rfl⟩
      | spin current => exact ⟨_, rfl, rfl⟩
  | epilogue pc => exact ⟨_, rfl, rfl⟩
  | leave pc =>
      cases pc with
      -- `leave` is called with the flag set
      | disableInt => exact ⟨_, rfl, rfl⟩
      | epilogue item pc => exact ⟨_, rfl, rfl⟩
      | _ => cases hmasked
  | iret via => cases hexposed
  | _ => cases hmasked

/-- No handler of the stack interrupted an exposed one. -/
def NestOk : List Activation → Prop
  | [] => True
  | a :: below =>
      (a.isHandler = true → ∀ b, below.head? = some b → b.exposed = false) ∧ NestOk below

/-- Below a handler on the direct path there is only the code of a thread. -/
theorem NestOk.handlers_below {g : Gate} {pc : GuardianPc} {below : List Activation}
    (h : NestOk (.guardian g pc :: below)) (hs : StackOk (.guardian g pc :: below))
    (hdirect : pc.direct = true) : handlers below = 0 := by
  have hfree := hs.below_free hdirect
  cases hs with
  | bottom ha => cases ha
  | handler hbelow hmasked _ _ =>
      cases hbelow with
      | bottom hb => exact handlers_thread hb
      | @handler g' pc' below' hbelow' hmasked' hdirect' hdeferred' =>
          exfalso
          -- the handler below would be on epilogue level, where the flag is set
          obtain ⟨p, hp, hflag⟩ := GuardianPc.phase?_of_unexposed hmasked (h.1 rfl _ rfl)
          have ha : (Activation.guardian g' pc').phase? = some p := hp
          have hphase := stackPhase_cons_of_some ha below'
          rw [hphase] at hfree
          rw [hfree] at hflag
          cases hflag

/-- At most two handlers: one on epilogue level, and one that interrupted it. -/
theorem NestOk.handlers_le {s : List Activation} (h : NestOk s) (hs : StackOk s) :
    handlers s ≤ 2 := by
  cases hs with
  | bottom ha => simp [handlers_thread ha]
  | @handler g pc below hbelow hmasked hdirect hdeferred =>
      rw [handlers_guardian]
      cases hbelow with
      | bottom hb => simp [handlers_thread hb]
      | @handler g' pc' below' hbelow' hmasked' hdirect' hdeferred' =>
          obtain ⟨p, hp, -⟩ := GuardianPc.phase?_of_unexposed hmasked (h.1 rfl _ rfl)
          have hzero : handlers below' = 0 :=
            h.2.handlers_below (.handler hbelow' hmasked' hdirect' hdeferred')
              (GuardianPc.direct_of_phase? (by rw [hp]; rfl))
          rw [handlers_guardian, hzero]

/-- A handler goes on as a handler, the code of a thread as code of a thread. -/
theorem NestOk.target {c : Cpu} {k : Kernel} {intr : Bool} {a a' : Activation}
    {below : List Activation} {ch : Choice} {e : Effect Activation} (h : NestOk (a :: below))
    (he : activationStep c k intr a ch = some e) (ht : e.ctl.target? = some a') :
    NestOk (a' :: below) := by
  refine ⟨fun ha' => ?_, h.2⟩
  cases ha : a.isHandler with
  | true => exact h.1 ha
  | false =>
      rw [(activationStep_isHandler ha he).2 a' ht] at ha'
      cases ha'

namespace Multiprocessor

/-- The condition on a step: an interrupt does not arrive on top of an exposed handler. -/
def covered (m : Multiprocessor) (i : Cpu × Choice) : Bool :=
  match (m.cpu i.1).stack, i.2 with
  | a :: _, .accept _ => !a.exposed
  | _, _ => true

/-- The steps in which no exposed handler is interrupted. -/
def Covered (m : Multiprocessor) (i : Cpu × Choice) : Prop := m.covered i = true

/-- The invariant of the runs of such steps. -/
structure NestInv (m : Multiprocessor) : Prop where
  guard : m.GuardInv
  stack : ∀ c, NestOk (m.cpu c).stack
  saved : ∀ t, NestOk (m.regs t)

theorem nestInv_boot (on : Cpu → Bool) : (boot on).NestInv where
  guard := guardInv_boot on
  stack _ := ⟨fun ha => Bool.noConfusion ha, trivial⟩
  saved _ := ⟨fun ha => Bool.noConfusion ha, trivial⟩

theorem NestInv.step {m m' : Multiprocessor} {i : Cpu × Choice} (h : m.NestInv)
    (hok : m.Covered i) (hstep : Multiprocessor.step m i = some m') : m'.NestInv := by
  obtain ⟨c, ch⟩ := i
  have hkeep : ∀ a below e a', (m.cpu c).stack = a :: below →
      activationStep c m.kernel (m.cpu c).intr a ch = some e → e.ctl.target? = some a' →
        NestOk (a' :: below) := by
    intro a below e a' hs he ht
    have hnest : NestOk (a :: below) := hs ▸ h.stack c
    exact hnest.target he ht
  obtain ⟨hstack, hsaved⟩ := stacks_step (Q := NestOk) (R := NestOk) hstep
    (fun _ hnest => hnest) (fun _ _ hnest => hnest.2) h.stack h.saved
    (by
      -- the interrupted activation is not exposed, by the condition on the step
      rintro g rfl
      refine ⟨fun _ b hb => ?_, h.stack c⟩
      obtain ⟨below, hs⟩ := List.head?_eq_some_iff.1 hb
      have hcov : m.covered (c, .accept g) = true := hok
      simpa [covered, hs] using hcov)
    (fun a below e a' hs he ht => hkeep a below e a' hs he (by rw [ht]; rfl))
    (fun a below e old next a' hs he ht => hkeep a below e a' hs he (by rw [ht]; rfl))
  exact ⟨h.guard.step hstep, hstack, hsaved⟩

/-- In runs in which no exposed handler is interrupted, no stack carries more than two handlers,
neither on a CPU nor in a thread that does not run. -/
theorem nesting_bounded {on : Cpu → Bool} {m : Multiprocessor}
    (h : Runs step Covered (boot on) m) :
    (∀ c, handlers (m.cpu c).stack ≤ 2) ∧ ∀ t, handlers (m.regs t) ≤ 2 := by
  have hinv : m.NestInv := by
    apply Runs.invariant h
    · exact nestInv_boot on
    · intro a b i ha hok hstep
      exact ha.step hok hstep
  constructor
  · intro c
    exact (hinv.stack c).handlers_le (hinv.guard.stack c)
  · intro t
    exact (hinv.saved t).handlers_le (hinv.guard.saved t).stackOk

/-- Two levels are reached: a keyboard interrupt during the epilogue of the timer. -/
theorem nesting_bounded_timer : ∃ m, Runs step Covered (boot fun _ => true) m ∧
    handlers (m.cpu 0).stack = 2 ∧
      (∀ c, handlers (m.cpu c).stack ≤ 2) ∧ ∀ t, handlers (m.regs t) ≤ 2 := by
  have hrun : ∃ m, exec (fun m i => if m.covered i then step m i else none) (boot fun _ => true)
      (startTwo 0 ++ (0, .accept .watch) :: List.replicate 9 (0, .stmt true) ++
        [(0, .accept .keyboard)]) = some m ∧ handlers (m.cpu 0).stack = 2 :=
    ⟨_, rfl, rfl⟩
  obtain ⟨m, hm, htwo⟩ := hrun
  have hruns : Runs step Covered (boot fun _ => true) m :=
    runs_of_exec_if (fun _ _ htest => htest) hm
  exact ⟨m, hruns, htwo, nesting_bounded hruns⟩

/-! ## Interrupts before the flag is set -/

/-- CPU `c` takes a step at which the innermost activation goes on at once. -/
theorem step_next (answer : Bool) {m : Multiprocessor} {c : Cpu} {intr intr' : Bool}
    {a a' : Activation} {below : List Activation} {k k' : Kernel} (hk : m.kernel = k)
    (hcpu : m.cpu c = ⟨.running, intr, a :: below⟩)
    (he : activationStep c k intr a (.stmt answer) = some ⟨k', intr', .next a'⟩) :
    ∃ m', step m (c, .stmt answer) = some m' ∧ m'.kernel = k' ∧
      m'.cpu c = ⟨.running, intr', a' :: below⟩ := by
  subst hk
  refine ⟨m.apply c a below ⟨k', intr', .next a'⟩, ?_, rfl, Function.update_self c _ m.cpu⟩
  simp only [step, hcpu, he]
  rfl

/-- A CPU that executes outside of the guard, with interrupts enabled, can be interrupted by the
keyboard once more, and then it is again outside of the guard with interrupts enabled. -/
theorem one_more_handler {m : Multiprocessor} {c : Cpu} (hst : (m.cpu c).status = .running)
    (hi : (m.cpu c).intr = true) (hf : m.kernel.flag c = false) :
    ∃ m', Reaches step m m' ∧ (m'.cpu c).status = .running ∧ (m'.cpu c).intr = true ∧
      m'.kernel.flag c = false ∧ handlers (m'.cpu c).stack = handlers (m.cpu c).stack + 1 := by
  have hacc : step m (c, .accept .keyboard) = some (m.accept c .keyboard) := by
    simp [step, hst, hi]
  have hcpu : (m.accept c .keyboard).cpu c =
      ⟨.running, false, .guardian .keyboard .prologue :: (m.cpu c).stack⟩ :=
    Function.update_self c _ m.cpu
  obtain ⟨m₁, h₁, hk₁, hcpu₁⟩ := step_next true rfl hcpu rfl
  obtain ⟨m₂, h₂, hk₂, hcpu₂⟩ := step_next true hk₁ hcpu₁ rfl
  -- the flag is clear: `relay` enables interrupts and calls `enter`
  have htest : ∀ k : Kernel, k.flag c = false →
      activationStep c k false (.guardian .keyboard .testFlag) (.stmt true) =
        some ⟨k, false, .next (.guardian .keyboard .enableInt)⟩ := by
    intro k hk
    simp [activationStep, guardianStep, hk, Effect.lift, Control.lift]
  obtain ⟨m₃, h₃, hk₃, hcpu₃⟩ := step_next true hk₂ hcpu₂ (htest _ hf)
  obtain ⟨m₄, h₄, hk₄, hcpu₄⟩ := step_next true hk₃ hcpu₃ rfl
  have hrun : exec step m [(c, .accept .keyboard), (c, .stmt true), (c, .stmt true),
      (c, .stmt true), (c, .stmt true)] = some m₄ := by
    simp only [exec, hacc, h₁, h₂, h₃, h₄]
  refine ⟨m₄, reaches_of_exec hrun, ?_⟩
  rw [hcpu₄, hk₄]
  exact ⟨rfl, rfl, hf, handlers_guardian _ _ _⟩

/-- Any number of handlers can pile up on one stack. -/
theorem nesting_unbounded (n : Nat) : ∃ m, Reachable (fun _ => true) m ∧
    (m.cpu 0).status = .running ∧ (m.cpu 0).intr = true ∧ m.kernel.flag 0 = false ∧
      handlers (m.cpu 0).stack = n := by
  induction n with
  | zero =>
      -- a CPU in user code after its first guarded section
      have hrun : ∃ m, exec step (boot fun _ => true)
          ((0, .secure .work) :: List.replicate 12 (0, .stmt true)) = some m ∧
          (m.cpu 0).status = .running ∧ (m.cpu 0).intr = true ∧ m.kernel.flag 0 = false ∧
            handlers (m.cpu 0).stack = 0 :=
        ⟨_, rfl, rfl, rfl, rfl, rfl⟩
      obtain ⟨m, hm, hstate⟩ := hrun
      exact ⟨m, reaches_of_exec hm, hstate⟩
  | succ n ih =>
      obtain ⟨m, hm, hst, hi, hf, hn⟩ := ih
      obtain ⟨m', hm', hst', hi', hf', hn'⟩ := one_more_handler hst hi hf
      exact ⟨m', hm.trans hm', hst', hi', hf', by rw [hn', hn]⟩

/-- So two handlers are no bound. -/
theorem three_handlers : ¬ ∀ (on : Cpu → Bool) (m : Multiprocessor), Reachable on m →
    ∀ c, handlers (m.cpu c).stack ≤ 2 := by
  intro hclaim
  obtain ⟨m, hm, -, -, -, hn⟩ := nesting_unbounded 3
  have hle := hclaim _ m hm 0
  omega

end Multiprocessor

end MPStuBS.Guard
