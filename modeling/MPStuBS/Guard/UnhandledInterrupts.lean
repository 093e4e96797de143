import MPStuBS.Guard.Nesting
import MPStuBS.Machine.IrqEntry

/-!
# Unhandled interrupts

The constructor of the plugbox puts the gate `panic` into every entry, so this gate is
asked for a vector that no `assign` was made for (`Plugbox.report_unassigned`). The class
`Panic` stops the CPU in its method `trigger`. But `guardian` hands a gate to `relay`,
which calls `prologue` and `epilogue`, and of these `Panic` has the ones of `Gate`: no
epilogue is wanted. So the handler acknowledges the interrupt, enables interrupts and
returns (`unhandled_interrupt_returns`). What its return leads to after an exception with an
error code is shown in `IrqEntry`.
-/

set_option autoImplicit false

namespace MPStuBS.Guard

open MPStuBS.Object MPStuBS.Machine MPStuBS.Thread MPStuBS.Lib.Run

/-! ## The plugbox -/

/-- The table of the gates, as pointers. -/
structure Plugbox where
  gateobjs : Nat → Option Gate

namespace Plugbox

/-- The constructor. -/
def init : Plugbox := ⟨fun _ => some .panic⟩

/-- `Plugbox::assign` -/
def assign (p : Plugbox) (vector : BitVec 32) (gate : Option Gate) : Plugbox :=
  if vector.toNat ≤ 255 then ⟨Function.update p.gateobjs vector.toNat gate⟩ else p

/-- `Plugbox::report`; `none` is the null pointer. -/
def report (p : Plugbox) (vector : BitVec 32) : Option Gate :=
  if vector.toNat ≤ 255 then p.gateobjs vector.toNat else none

/-- The plugbox after these calls of `assign`. -/
def after (history : List (BitVec 32 × Option Gate)) : Plugbox :=
  history.foldl (fun p a => p.assign a.1 a.2) init

theorem report_assign_of_ne (p : Plugbox) {vector vector' : BitVec 32} (gate : Option Gate)
    (h : vector ≠ vector') : (p.assign vector gate).report vector' = p.report vector' := by
  unfold assign
  split
  · have hne : vector'.toNat ≠ vector.toNat := fun heq => h (BitVec.eq_of_toNat_eq heq.symm)
    simp only [report, Function.update_of_ne hne]
  · rfl

/-- A vector that no `assign` was made for still has the gate of the constructor. -/
theorem report_unassigned {history : List (BitVec 32 × Option Gate)} {vector : BitVec 32}
    (hvector : vector.toNat ≤ 255) (h : ∀ a ∈ history, a.1 ≠ vector) :
    (after history).report vector = some .panic := by
  have hkeep : ∀ p : Plugbox,
      (history.foldl (fun p a => p.assign a.1 a.2) p).report vector = p.report vector := by
    induction history with
    | nil => exact fun _ => rfl
    | cons a history ih =>
        intro p
        rw [List.foldl_cons, ih fun b hb => h b (List.mem_cons_of_mem a hb)]
        exact p.report_assign_of_ne a.2 (h a List.mem_cons_self)
  rw [after, hkeep, report, if_pos hvector]
  rfl

end Plugbox

/-! ## The handler of the gate `panic` -/

/-- The points of a handler whose prologue wants no epilogue. -/
def GuardianPc.unhandled : GuardianPc → Bool
  | .prologue => true
  | .ackIRQLast via | .enableIntLast via | .iret via => via = .noEpilogue
  | _ => false

/-- Such a handler does not halt the CPU. -/
theorem guardianStep_unhandled {c : Cpu} {k : Kernel} {intr : Bool} {g : Gate} {pc : GuardianPc}
    (h : pc.unhandled = true) : (guardianStep c k intr g false pc).ctl ≠ .die ∧
      ∀ pc', (guardianStep c k intr g false pc).ctl.target? = some pc' → pc'.unhandled = true := by
  have hnext : ∀ {ctl : Control GuardianPc} (pc₀ : GuardianPc), ctl = .next pc₀ →
      pc₀.unhandled = true →
        ctl ≠ .die ∧ ∀ pc', ctl.target? = some pc' → pc'.unhandled = true := by
    rintro - pc₀ rfl h₀
    refine ⟨by simp, fun pc' hpc' => ?_⟩
    obtain rfl := Option.some.inj hpc'
    exact h₀
  cases pc with
  | prologue => exact hnext (.ackIRQLast .noEpilogue) rfl rfl
  | ackIRQLast via => exact hnext (.enableIntLast via) rfl h
  | enableIntLast via => exact hnext (.iret via) rfl h
  | iret via => exact ⟨by simp [guardianStep], fun pc' hpc' => by cases hpc'⟩
  | _ => cases h

/-- The handlers of the gate `panic` are at these points. -/
def PanicOk (s : List Activation) : Prop :=
  ∀ pc, Activation.guardian .panic pc ∈ s → pc.unhandled = true

theorem panicOk_nil : PanicOk [] := fun _ hpc => absurd hpc List.not_mem_nil

theorem PanicOk.cons {a : Activation} {below : List Activation} (h : PanicOk below)
    (ha : ∀ pc, a = .guardian .panic pc → pc.unhandled = true) : PanicOk (a :: below) := by
  intro pc hpc
  rcases List.mem_cons.1 hpc with hpc | hpc
  · exact ha pc hpc.symm
  · exact h pc hpc

/-- The handler of an interrupt begins. -/
theorem PanicOk.prologue {below : List Activation} (h : PanicOk below) (g : Gate) :
    PanicOk (.guardian g .prologue :: below) := by
  refine h.cons fun pc heq => ?_
  obtain rfl := (Activation.guardian.inj heq).2
  rfl

theorem PanicOk.tail {a : Activation} {below : List Activation} (h : PanicOk (a :: below)) :
    PanicOk below :=
  fun pc hpc => h pc (List.mem_cons_of_mem a hpc)

section Statements

variable {c : Cpu} {k : Kernel} {intr : Bool} {below : List Activation} {ch : Choice}
  {e : Effect Activation}

/-- A statement of a handler of the gate `panic`, whose prologue answers false. -/
theorem activationStep_panic {pc : GuardianPc} (h : pc.unhandled = true)
    (he : activationStep c k intr (.guardian .panic pc) ch = some e) :
    e = (guardianStep c k intr .panic false pc).lift (.guardian .panic) .ret := by
  obtain ⟨answer, -, hanswer, rfl⟩ := activationStep_guardian he
  cases pc with
  | prologue =>
      have hfalse : answer = false := by simpa [Gate.prologueAnswers] using hanswer rfl
      rw [hfalse]
  | ackIRQLast via => rfl
  | enableIntLast via => rfl
  | iret via => rfl
  | _ => cases h

theorem activationStep_panic_ne_die {pc : GuardianPc} (h : pc.unhandled = true)
    (he : activationStep c k intr (.guardian .panic pc) ch = some e) : e.ctl ≠ .die := by
  have hdie : (guardianStep c k intr .panic false pc).ctl ≠ .die := (guardianStep_unhandled h).1
  rw [activationStep_panic h he]
  intro hlift
  apply hdie
  simp only [Effect.lift] at hlift
  cases hctl : (guardianStep c k intr .panic false pc).ctl with
  | die => rfl
  | _ =>
      rw [hctl] at hlift
      cases hlift

theorem PanicOk.target {a a' : Activation} (h : PanicOk (a :: below))
    (he : activationStep c k intr a ch = some e) (ht : e.ctl.target? = some a') :
    PanicOk (a' :: below) := by
  refine h.tail.cons ?_
  rintro pc' rfl
  cases a with
  | guardian g pc =>
      obtain ⟨answer, -, -, hlift⟩ := activationStep_guardian he
      -- the gate stays the same
      have hgate : g = .panic := by
        rw [hlift] at ht
        obtain ⟨pc₀, -, heq⟩ := Control.target?_liftRet ht
        exact (Activation.guardian.inj heq).1.symm
      subst hgate
      have hpc := h pc List.mem_cons_self
      rw [activationStep_panic hpc he] at ht
      obtain ⟨pc₀, hpc₀, heq⟩ := Control.target?_liftRet ht
      obtain rfl := (Activation.guardian.inj heq).2
      exact (guardianStep_unhandled hpc).2 pc' hpc₀
  | _ =>
      have hthread := (activationStep_isHandler rfl he).2 _ ht
      cases hthread

end Statements

namespace Multiprocessor

/-- The invariant of the handlers of the gate `panic`. -/
structure PanicInv (m : Multiprocessor) : Prop where
  stack : ∀ c, PanicOk (m.cpu c).stack
  saved : ∀ t, PanicOk (m.regs t)
  halted : ∀ c, (m.cpu c).status = .halted → ∀ pc,
    (m.cpu c).stack.head? ≠ some (.guardian .panic pc)

theorem panicInv_boot (on : Cpu → Bool) : (boot on).PanicInv where
  stack _ := panicOk_nil.cons fun _ ha => nomatch ha
  saved _ := panicOk_nil.cons fun _ ha => nomatch ha
  halted _ _ _ ha := nomatch ha

/-- An interrupt or an exception arrives. -/
theorem PanicInv.accept {m : Multiprocessor} (h : m.PanicInv) (c : Cpu) (g : Gate) :
    (m.accept c g).PanicInv := by
  constructor
  · apply (Function.forall_update_iff m.cpu fun _ s => PanicOk s.stack).2
    exact ⟨(h.stack c).prologue g, fun d _ => h.stack d⟩
  · exact h.saved
  · apply (Function.forall_update_iff m.cpu fun _ s => s.status = .halted → ∀ pc,
      s.stack.head? ≠ some (.guardian .panic pc)).2
    refine ⟨?_, fun d _ => h.halted d⟩
    intro hst
    cases hst

theorem PanicInv.step {m m' : Multiprocessor} {i : Cpu × Choice} (h : m.PanicInv)
    (hstep : Multiprocessor.step m i = some m') : m'.PanicInv := by
  obtain ⟨c, ch⟩ := i
  obtain ⟨hstack, hsaved⟩ := stacks_step (Q := PanicOk) (R := PanicOk) hstep (fun _ hs => hs)
    (fun _ _ hs => hs.tail) h.stack h.saved
    (fun g _ => (h.stack c).prologue g)
    (fun a below e a' hs he ht => by
      have hok : PanicOk (a :: below) := hs ▸ h.stack c
      exact hok.target he (by rw [ht]; rfl))
    (fun a below e old next a' hs he ht => by
      have hok : PanicOk (a :: below) := hs ▸ h.stack c
      exact hok.target he (by rw [ht]; rfl))
  refine ⟨hstack, hsaved, ?_⟩
  obtain ⟨-, hcases⟩ := step_cases hstep
  rcases hcases with ⟨g, rfl, -, rfl⟩ | ⟨a, below, e, hs, he, rfl⟩
  · exact (h.accept c g).halted
  · have hset : ∀ s : CpuState, (s.status = .halted → ∀ pc,
          s.stack.head? ≠ some (.guardian .panic pc)) →
        ∀ d, (Function.update m.cpu c s d).status = .halted → ∀ pc,
          (Function.update m.cpu c s d).stack.head? ≠ some (.guardian .panic pc) := by
      intro s hs
      apply (Function.forall_update_iff m.cpu fun _ s => s.status = .halted → ∀ pc,
        s.stack.head? ≠ some (.guardian .panic pc)).2
      exact ⟨hs, fun d _ => h.halted d⟩
    obtain ⟨k', intr', ctl⟩ := e
    cases ctl with
    | die =>
        apply hset
        rintro - pc hpc
        obtain rfl := Option.some.inj hpc
        have hok : PanicOk (.guardian .panic pc :: below) := hs ▸ h.stack c
        exact activationStep_panic_ne_die (hok pc List.mem_cons_self) he rfl
    | _ => exact hset _ fun hst => nomatch hst

/-- CPU `c` has halted in a handler of the gate, above the code that it interrupted. -/
def HaltedIn (m : Multiprocessor) (c : Cpu) (g : Gate) (interrupted : List Activation) : Prop :=
  (m.cpu c).status = .halted ∧ ∃ pc, (m.cpu c).stack = .guardian g pc :: interrupted

/-- The handler of the gate stops CPU `c`: it comes to `CPU::die()`, and in no run does the CPU get
back to the interrupted code. -/
structure StopsCpu (m : Multiprocessor) (c : Cpu) (g : Gate) : Prop where
  halts : ∃ m', Reaches step (m.accept c g) m' ∧ m'.HaltedIn c g (m.cpu c).stack
  stays : ∀ m', Reaches step (m.accept c g) m' → (m'.cpu c).status = .running →
    (m'.cpu c).stack ≠ (m.cpu c).stack

/-- CPU `c` takes a step at which the innermost activation returns. -/
theorem step_ret (answer : Bool) {m : Multiprocessor} {c : Cpu} {intr intr' : Bool}
    {a : Activation} {below : List Activation} {k k' : Kernel} (hk : m.kernel = k)
    (hcpu : m.cpu c = ⟨.running, intr, a :: below⟩)
    (he : activationStep c k intr a (.stmt answer) = some ⟨k', intr', .ret⟩) :
    ∃ m', step m (c, .stmt answer) = some m' ∧ m'.cpu c = ⟨.running, intr', below⟩ := by
  subst hk
  refine ⟨m.apply c a below ⟨k', intr', .ret⟩, ?_, Function.update_self c _ m.cpu⟩
  simp only [step, hcpu, he]
  rfl

/-- The three statements of `relay` for this gate, after which `guardian` returns. -/
theorem panic_relays (m : Multiprocessor) (c : Cpu) : ∃ m',
    exec step (m.accept c .panic) (List.replicate 3 (c, .stmt false)) = some m' ∧
      m'.cpu c = ⟨.running, true, .guardian .panic (.iret .noEpilogue) :: (m.cpu c).stack⟩ := by
  have hcpu : (m.accept c .panic).cpu c =
      ⟨.running, false, .guardian .panic .prologue :: (m.cpu c).stack⟩ :=
    Function.update_self c _ m.cpu
  obtain ⟨m₁, h₁, hk₁, hcpu₁⟩ := step_next false rfl hcpu rfl
  obtain ⟨m₂, h₂, hk₂, hcpu₂⟩ := step_next false hk₁ hcpu₁ rfl
  obtain ⟨m₃, h₃, -, hcpu₃⟩ := step_next false hk₂ hcpu₂ rfl
  refine ⟨m₃, ?_, hcpu₃⟩
  simp only [List.replicate, exec, h₁, h₂, h₃]

/-- With the `iret` of the entry point the CPU is back in the interrupted code. -/
theorem panic_returns (m : Multiprocessor) (c : Cpu) : ∃ m',
    Reaches step (m.accept c .panic) m' ∧ (m'.cpu c).status = .running ∧
      (m'.cpu c).stack = (m.cpu c).stack := by
  obtain ⟨m₃, h₃, hcpu₃⟩ := panic_relays m c
  obtain ⟨m₄, h₄, hcpu₄⟩ := step_ret false rfl hcpu₃ rfl
  refine ⟨m₄, (reaches_of_exec h₃).tail trivial h₄, ?_⟩
  rw [hcpu₄]
  exact ⟨rfl, rfl⟩

/-- The handler of a vector that no `assign` was made for never halts the CPU, in no run from any
state of the guard. Its three statements end with the return of `guardian`, and where the CPU has
pushed no error code the entry point then returns to the interrupted code. -/
theorem unhandled_interrupt_returns {history : List (BitVec 32 × Option Gate)}
    {vector : BitVec 32} (hvector : vector.toNat ≤ 255) (h : ∀ a ∈ history, a.1 ≠ vector)
    {on : Cpu → Bool} {m : Multiprocessor} (hm : Reachable on m) (c : Cpu) :
    ∃ g, (Plugbox.after history).report vector = some g ∧
      (∀ m', Reaches step (m.accept c g) m' → ¬ m'.HaltedIn c g (m.cpu c).stack) ∧
      (∃ m', exec step (m.accept c g) (List.replicate 3 (c, .stmt false)) = some m' ∧
        m'.cpu c = ⟨.running, true, .guardian g (.iret .noEpilogue) :: (m.cpu c).stack⟩) ∧
      ((irqs.getD vector.toNat (0, false)).2 = false → ∃ m', Reaches step (m.accept c g) m' ∧
        (m'.cpu c).status = .running ∧ (m'.cpu c).stack = (m.cpu c).stack) ∧
      ¬ m.StopsCpu c g := by
  have hinv : m.PanicInv :=
    Runs.invariant hm (panicInv_boot on) fun _ _ _ ha _ hstep => ha.step hstep
  have hnever : ∀ m', Reaches step (m.accept c .panic) m' →
      ¬ m'.HaltedIn c .panic (m.cpu c).stack := by
    rintro m' hm' ⟨hst, pc, hs⟩
    have hinv' : m'.PanicInv :=
      Runs.invariant hm' (hinv.accept c .panic) fun _ _ _ ha _ hstep => ha.step hstep
    apply hinv'.halted c hst pc
    rw [hs]
    rfl
  refine ⟨.panic, Plugbox.report_unassigned hvector h, hnever, panic_relays m c,
    fun _ => panic_returns m c, fun hstops => ?_⟩
  obtain ⟨m', hm', hhalted⟩ := hstops.halts
  exact hnever m' hm' hhalted

/-- A breakpoint in the boot code, where the timer and the keyboard have gates. -/
theorem unhandled_interrupt_returns_breakpoint : ∃ g,
    (Plugbox.after [(32, some .watch), (33, some .keyboard)]).report 3 = some g ∧
      (∀ m', Reaches step ((boot fun _ => true).accept 0 g) m' → ¬ m'.HaltedIn 0 g [.user]) ∧
      (∃ m', exec step ((boot fun _ => true).accept 0 g) (List.replicate 3 (0, .stmt false)) =
        some m' ∧ m'.cpu 0 = ⟨.running, true, [.guardian g (.iret .noEpilogue), .user]⟩) ∧
      ((irqs.getD 3 (0, false)).2 = false → ∃ m',
        Reaches step ((boot fun _ => true).accept 0 g) m' ∧ (m'.cpu 0).status = .running ∧
          (m'.cpu 0).stack = [.user]) ∧
      ¬ (boot fun _ => true).StopsCpu 0 g :=
  unhandled_interrupt_returns (by decide) (by decide) .refl 0

/-- So an unhandled interrupt does not stop the CPU: after a breakpoint the boot code goes on. -/
theorem unhandled_interrupt_silent : ¬ ∀ (history : List (BitVec 32 × Option Gate))
    (vector : BitVec 32), vector.toNat ≤ 255 → (∀ a ∈ history, a.1 ≠ vector) →
      ∀ (on : Cpu → Bool) (m : Multiprocessor), Reachable on m → ∀ c g,
        (Plugbox.after history).report vector = some g → m.StopsCpu c g := by
  intro hclaim
  obtain ⟨m', hm', hst, hs⟩ := panic_returns (boot fun _ => true) 0
  have hstops := hclaim [] 3 (by decide) (fun _ ha => nomatch ha) (fun _ => true) _ .refl 0 .panic
    rfl
  exact hstops.stays m' hm' hst hs

end Multiprocessor

end MPStuBS.Guard
