import MPStuBS.Guard.Kernel
import MPStuBS.Machine.ApBoot

/-!
# From the boot loop into the kernel

`main` and `main_ap` with what they share: the hand-shake of `bootCPU` and
`setupThisProcessor` (`BootState`), and the barrier, where every CPU increments `i`
under `ticketlock` and spins until `i` is 4. Behind the barrier a CPU enters the
guard and calls `scheduler.schedule()`. The boot CPU runs guarded sections and
handles interrupts before the barrier as well; the other CPUs have their interrupts
disabled until then.

What a CPU executes in the kernel is an `Activation` of the guard's model. Which
way its statements go depends on the data of the kernel, and these are not modelled
here: a step takes the data as it is (`Env`), and behind an activation that has come
to its end, or that has switched to another thread, lies any activation. What is
followed here is the index of every access to the arrays `queues`, `flag` and `life`,
which the executing CPU computes with `getCPUID`.
-/

set_option autoImplicit false

namespace MPStuBS.Main

open MPStuBS.Machine MPStuBS.Guard MPStuBS.Thread

/-! ## Accesses to the arrays with an element for each CPU -/

/-- `Guard::queues`, `Guard::flag` and `Dispatcher::life`. -/
inductive PerCpuArray where
  | queues
  | flag
  | life
  deriving DecidableEq

/-- The number of elements that the array is declared with. -/
def PerCpuArray.length : PerCpuArray → Nat
  | .queues => 4
  | .flag => 4
  | .life => 4

/-- An access to an element. -/
structure Access where
  array : PerCpuArray
  index : Nat

/-- The arrays that a statement of the scheduler indexes with `getCPUID()`. -/
def schedArrays : SchedPc → List PerCpuArray
  | .resume => [.life]
  | .dispatch _ => [.life]
  | .dispatchSet _ _ => [.life]
  | .goSet _ => [.life]
  | _ => []

/-- The arrays that a statement of an epilogue indexes. -/
def epilogueArrays (g : Gate) : EpiloguePc → List PerCpuArray
  | .start =>
      match g with
      | .assassin => [.life]
      | _ => []
  | .assassinCheck _ => []
  | .sched pc => schedArrays pc

/-- The arrays that a statement of `Guard::enter` indexes. -/
def enterArrays : EnterPc → List PerCpuArray
  | .setFlag => [.flag]
  | _ => []

/-- The arrays that a statement of `Guard::leave` indexes. -/
def leaveArrays : LeavePc → List PerCpuArray
  | .dequeue => [.queues]
  | .clearFlag => [.flag]
  | .epilogue g pc => epilogueArrays g pc
  | _ => []

/-- The arrays that a statement of `guardian` and `Guard::relay` indexes. -/
def guardianArrays (g : Gate) : GuardianPc → List PerCpuArray
  | .testFlag => [.flag]
  | .enqueue _ => [.queues]
  | .enter pc => enterArrays pc
  | .epilogue pc => epilogueArrays g pc
  | .leave pc => leaveArrays pc
  | _ => []

/-- The arrays that the next statement of an activation indexes. -/
def activationArrays : Activation → List PerCpuArray
  | .user => []
  | .secure (.enter _ pc) => enterArrays pc
  | .secure (.body pc) => schedArrays pc
  | .secure (.leave pc) => leaveArrays pc
  -- `kickoff` begins with `leave`
  | .kickoff pc => leaveArrays pc
  | .guardian g pc => guardianArrays g pc

/-- The loop of `kill` stands in front of this statement: `running[target]` for the targets below
`limit` up to the CPU `found` that runs the thread. -/
def runningAccesses (limit found : Nat) : Activation → List Access
  | .secure (.body .killNotify) =>
      (List.range (min limit (found + 1))).map fun target => ⟨.life, target⟩
  | _ => []

/-! ## The state -/

/-- The places of a CPU in `main` and `main_ap`. `setup` is everything up to the barrier, `load` and
`store` are the halves of `i++`, `unlock` and `unlockStore` those of `_turn++`. -/
inductive Place where
  | setup
  | lock
  | spin (current : Ticket)
  | load
  | store (loaded : Int)
  | unlock
  | unlockStore (loaded : Ticket)
  | wait
  | kernel
  deriving DecidableEq

/-- The shared variables, the places of the CPUs, and the activations that they execute. -/
structure StartUp where
  boot : BootState
  i : Int
  ticketlock : Ticketlock
  place : Nat → Place
  activation : Nat → Activation

/-- The data that a statement of the kernel finds, what an interrupt, user code or a prologue
decides, the activation that lies behind this one, and the CPU that runs the thread to be killed. -/
structure Env where
  cpu : Cpu
  kernel : Kernel
  intr : Bool
  choice : Choice
  behind : Activation
  found : Nat

/-- Who takes the next step. -/
inductive Label where
  | boot (delivered : Bool)
  | ap (j : Nat)
  | main (j : Nat)
  | kernel (j : Nat) (env : Env)

namespace StartUp

/-- The boot CPU, number 0, has set itself up: `setupThisProcessor` took the number 0. -/
def init (P : Platform) : StartUp where
  boot := .init (Function.update (fun _ => 0) (P.lapicId 0) 0) (Function.update (fun _ => 0) 0 1)
  i := 0
  ticketlock := .init
  place _ := .setup
  activation _ := .user

/-- The place of a CPU replaced. -/
def goto (s : StartUp) (j : Nat) (pc : Place) : StartUp :=
  { s with place := Function.update s.place j pc }

/-- `APICSystem::getCPUID` on CPU `j`, after the detection. -/
def getCPUID (P : Platform) (s : StartUp) (j : Nat) : Nat := (s.boot.cpuID (P.lapicId j)).toNat

/-- CPU `j` has come to the barrier: the boot loop is over, or the processor is set up. -/
def atBarrier (P : Platform) (s : StartUp) (j : Nat) : Bool :=
  if j = 0 then
    match s.boot.boot with
    | .call i => !decide (i < P.cpuCount)
    | _ => false
  else
    match s.boot.ap j with
    | .up _ => true
    | _ => false

/-- CPU `j` may execute statements of the kernel. -/
def inKernel (s : StartUp) (j : Nat) : Bool := j == 0 || s.place j == .kernel

/-- CPU `j` is not in the middle of a guarded section or of an interrupt. -/
def inMain (s : StartUp) (j : Nat) : Bool :=
  match s.activation j with
  | .user => true
  | _ => false

/-- One step of CPU `j` in `main` or `main_ap`. -/
def mainStep (P : Platform) (s : StartUp) (j : Nat) : Option StartUp :=
  match s.place j with
  | .setup => if s.atBarrier P j then some (s.goto j .lock) else none
  | .lock =>
      some ({ s with ticketlock := s.ticketlock.fetchAndAdd }.goto j
        (.spin s.ticketlock.ticketnumber))
  -- `lock` returns when it is the turn of the ticket
  | .spin current => if s.ticketlock.turn = current then some (s.goto j .load) else some s
  | .load => some (s.goto j (.store s.i))
  | .store loaded => some ({ s with i := loaded + 1 }.goto j .unlock)
  | .unlock => some (s.goto j (.unlockStore s.ticketlock.turn))
  | .unlockStore loaded =>
      some ({ s with ticketlock := s.ticketlock.storeTurn loaded }.goto j .wait)
  | .wait =>
      -- `while (i != 4)`: nobody passes when `i` has gone beyond 4
      if s.i ≠ 4 then some s
      else
        some ({ s with activation :=
          Function.update s.activation j (.secure (.enter .schedule .disableInt)) }.goto j .kernel)
  | .kernel => none

/-- The activation that follows: the next statement, or what lies behind. -/
def follow (control : Control Activation) (behind : Activation) : Option Activation :=
  match control with
  | .next a => some a
  | .ret => some behind
  -- another thread goes on, at the point where it was switched away
  | .switch _ _ _ => some behind
  | .start _ => some behind
  | .die => none
  | .wild => none

/-- The next activation on a CPU that executes `a`. -/
def nextActivation (a : Activation) (env : Env) : Option Activation :=
  match env.choice with
  | .accept g => some (.guardian g .prologue)
  | choice =>
      match activationStep env.cpu env.kernel env.intr a choice with
      | some effect => follow effect.ctl env.behind
      | none => none

/-- One statement of CPU `j` in the kernel. -/
def kernelStep (s : StartUp) (j : Nat) (env : Env) : Option StartUp :=
  match nextActivation (s.activation j) env with
  | some a => some { s with activation := Function.update s.activation j a }
  | none => none

/-- One step. -/
def step (P : Platform) (s : StartUp) : Label → Option StartUp
  | .boot delivered =>
      if s.place 0 = .setup ∧ s.inMain 0 = true then
        (s.boot.bootStep P delivered).map fun m => { s with boot := m }
      else none
  | .ap j => if j = 0 then none else (s.boot.apStep P j).map fun m => { s with boot := m }
  | .main j => if s.inMain j then s.mainStep P j else none
  | .kernel j env => if s.inKernel j then s.kernelStep j env else none

/-- The accesses to the arrays in a step. -/
def accesses (P : Platform) (s : StartUp) : Label → List Access
  | .kernel j env =>
      if s.inKernel j then
        match env.choice with
        | .accept _ => []
        | _ =>
            ((activationArrays (s.activation j)).map fun array => ⟨array, s.getCPUID P j⟩) ++
              runningAccesses s.boot.onlineCPUs env.found (s.activation j)
      else []
  | _ => []

end StartUp

end MPStuBS.Main
