import MPStuBS.Guard.Kernel
import MPStuBS.Lib.Run

/-!
# The multiprocessor

Up to four CPUs execute the kernel. A CPU has an interrupt flag and a stack of
activations: the innermost one runs, the others are interrupted. While the flag
is set, an interrupt may arrive before every statement; it pushes a `guardian`
activation and clears the flag. A thread that is switched away leaves its stack
in `regs`, the register set in the thread object, and the CPU goes on with the
stack of the next thread.

`Multiprocessor.step m c ch` is one step of CPU `c`; the CPUs take turns in any order.
A CPU that is off, has halted in `CPU::die()` or went wild takes no step. The stack of a thread is a
value: two CPUs that run one thread, as after a second `ready` for it, get a copy each.
-/

set_option autoImplicit false

namespace MPStuBS.Guard

open MPStuBS.Object MPStuBS.Machine MPStuBS.Thread MPStuBS.Lib.Run

/-- Whether a CPU executes code. -/
inductive Status where
  | off
  | running
  | halted
  | wild
  deriving DecidableEq

/-- A CPU: the interrupt flag and the activations on the current stack, the innermost first. -/
structure CpuState where
  status : Status
  intr : Bool
  stack : List Activation

/-- The CPUs, the shared data, and the stacks of the threads that do not run. -/
structure Multiprocessor where
  cpu : Cpu → CpuState
  kernel : Kernel
  regs : ThreadPtr → List Activation

namespace Multiprocessor

/-- The boot code runs with interrupts disabled on the CPUs that are on. Every thread is prepared
by `toc_settle` to start in `kickoff`. -/
def boot (on : Cpu → Bool) : Multiprocessor where
  cpu c := ⟨if on c then .running else .off, false, [.user]⟩
  kernel := Kernel.init
  regs _ := [.kickoff .disableInt]

/-- CPU `c` replaced. -/
def setCpu (m : Multiprocessor) (c : Cpu) (s : CpuState) : Multiprocessor :=
  { m with cpu := Function.update m.cpu c s }

/-- An interrupt of gate `g` arrives: the flags are saved and interrupts disabled, and `guardian`
starts on the current stack. -/
def accept (m : Multiprocessor) (c : Cpu) (g : Gate) : Multiprocessor :=
  let k := { m.kernel with taken := Function.update m.kernel.taken c (m.kernel.taken c + 1) }
  { m with kernel := k }.setCpu c ⟨.running, false, .guardian g .prologue :: (m.cpu c).stack⟩

/-- The effect of a statement of CPU `c`, whose interrupted activations are `below`. -/
def apply (m : Multiprocessor) (c : Cpu) (a : Activation) (below : List Activation)
    (e : Effect Activation) : Multiprocessor :=
  match e.ctl with
  | .next a' => { m with kernel := e.kernel }.setCpu c ⟨.running, e.intr, a' :: below⟩
  | .ret => { m with kernel := e.kernel }.setCpu c ⟨.running, e.intr, below⟩
  | .die => { m with kernel := e.kernel }.setCpu c ⟨.halted, e.intr, a :: below⟩
  | .wild => { m with kernel := e.kernel }.setCpu c ⟨.wild, e.intr, a :: below⟩
  | .switch old next a' =>
      let regs := Function.update m.regs old (a' :: below)
      { m with kernel := e.kernel, regs := regs }.setCpu c ⟨.running, e.intr, regs next⟩
  | .start next => { m with kernel := e.kernel }.setCpu c ⟨.running, e.intr, m.regs next⟩

/-- One step of CPU `c`. -/
def step (m : Multiprocessor) (i : Cpu × Choice) : Option Multiprocessor :=
  match (m.cpu i.1).status with
  | .running =>
      match i.2 with
      | .accept g => if (m.cpu i.1).intr then some (m.accept i.1 g) else none
      | ch =>
          match (m.cpu i.1).stack with
          | [] => none
          | a :: below =>
              (activationStep i.1 m.kernel (m.cpu i.1).intr a ch).map (m.apply i.1 a below)
  | _ => none

/-- CPU `c` executes a statement of activation `a` next, unless an interrupt arrives. -/
def Executes (m : Multiprocessor) (c : Cpu) (a : Activation) : Prop :=
  (m.cpu c).status = .running ∧ (m.cpu c).stack.head? = some a

/-- The states that a run from the boot state reaches. -/
abbrev Reachable (on : Cpu → Bool) (m : Multiprocessor) : Prop := Reaches step (boot on) m

/-- A CPU makes two threads ready and starts the first one, which leaves the guard. -/
def startTwo (c : Cpu) : List (Cpu × Choice) :=
  (c, .secure (.ready 1)) :: List.replicate 12 (c, .stmt true) ++
    (c, .secure (.ready 2)) :: List.replicate 12 (c, .stmt true) ++
      (c, .secure .schedule) :: List.replicate 17 (c, .stmt true)

end Multiprocessor

end MPStuBS.Guard
