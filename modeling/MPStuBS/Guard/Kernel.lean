import MPStuBS.Machine.Ticketlock
import MPStuBS.Thread.Scheduler

/-!
# The guard, statement by statement

The code between two interrupts: `Guard::enter`, `leave` and `relay`,
`guardian`, the epilogues of the gates, and the scheduler that they call. Every
function has a type of program points and a step function that executes the
statement at a point (`schedStep`, `epilogueStep`, `enterStep`, `leaveStep`,
`guardianStep`). A call is a program point that contains the program point of
the callee, so a control flow up to the next interrupt is one value, an
`Activation`.

A statement may change the data of the kernel (`Kernel`) and the interrupt flag
of its CPU, and it hands over control (`Control`): to the next point, back to
the caller, to `CPU::die()`, or, through `toc_switch` and `toc_go`, to another
thread.

Output on the debug streams is left out: it touches none of this data.
-/

set_option autoImplicit false

namespace MPStuBS.Guard

open MPStuBS.Object MPStuBS.Machine MPStuBS.Thread

/-- The gates of the system; `device` stands for any further one. -/
inductive Gate where
  | watch
  | assassin
  | keyboard
  | panic
  | device (id : Nat)
  deriving DecidableEq

/-- The answers that the prologue of a gate can give. `Panic` inherits `Gate::prologue`. -/
def Gate.prologueAnswers : Gate → Bool → Bool
  | .watch, b => b
  | .assassin, b => b
  | .keyboard, b => b
  | .panic, b => !b
  | .device _, _ => true

/-- The data that the guard, the gates and the scheduler share. `queues` holds the queue of every
CPU and the link fields of the gates, `queueFlag` is the mark in every gate. The last four fields
record history and are read by no statement: the interrupts taken and the EOI writes of every CPU,
and whether a CPU is inside a call of `s_lock.lock()`, and between its return and
`s_lock.unlock()`. -/
structure Kernel where
  queues : Queues Cpu Gate
  queueFlag : Gate → Bool
  sLock : Ticketlock
  flag : Cpu → Bool
  sched : Sched
  taken : Cpu → Nat
  eoi : Cpu → Nat
  requested : Cpu → Bool
  acquired : Cpu → Bool

namespace Kernel

/-- The constructors of the global objects. -/
def init : Kernel where
  queues := Queues.init
  queueFlag _ := false
  sLock := Ticketlock.init
  flag _ := false
  sched := Sched.init
  taken _ := 0
  eoi _ := 0
  requested _ := false
  acquired _ := false

/-- `flag[c] = b`. -/
def setFlag (k : Kernel) (c : Cpu) (b : Bool) : Kernel :=
  { k with flag := Function.update k.flag c b }

/-- The mark of a gate, written by `set_queued` and `set_dequeued` under the gate's spinlock. -/
def setMark (k : Kernel) (g : Gate) (b : Bool) : Kernel :=
  { k with queueFlag := Function.update k.queueFlag g b }

/-- `lapic.ackIRQ()`. -/
def ackIRQ (k : Kernel) (c : Cpu) : Kernel :=
  { k with eoi := Function.update k.eoi c (k.eoi c + 1) }

/-- The scheduler's data replaced. -/
def setSched (k : Kernel) (s : Sched) : Kernel := { k with sched := s }

/-- The call of `s_lock.lock()`: the ticket is drawn. -/
def requestLock (k : Kernel) (c : Cpu) : Kernel :=
  { k with sLock := k.sLock.fetchAndAdd, requested := Function.update k.requested c true }

/-- The return of `s_lock.lock()`. -/
def acquireLock (k : Kernel) (c : Cpu) : Kernel :=
  { k with
    requested := Function.update k.requested c false
    acquired := Function.update k.acquired c true }

/-- The store in `s_lock.unlock()`. -/
def releaseLock (k : Kernel) (c : Cpu) (loaded : Ticket) : Kernel :=
  { k with sLock := k.sLock.storeTurn loaded, acquired := Function.update k.acquired c false }

@[simp] theorem setMark_self (k : Kernel) (g : Gate) (b : Bool) :
    (k.setMark g b).queueFlag g = b := by
  simp [setMark]

theorem setMark_of_ne (k : Kernel) {g x : Gate} (h : x ≠ g) (b : Bool) :
    (k.setMark g b).queueFlag x = k.queueFlag x := by
  simp [setMark, h]

end Kernel

/-- Where control goes after a statement. `switch` is `toc_switch` from thread `old`, which will go
on at `cont`, to thread `next`; `start` is `toc_go`, or `toc_switch` from a null pointer; `wild` is
a switch to a null pointer, or a read of an unknown value through one. -/
inductive Control (Pc : Type) where
  | next (pc : Pc)
  | ret
  | die
  | wild
  | switch (old next : ThreadPtr) (cont : Pc)
  | start (next : ThreadPtr)

/-- The control of a callee, seen by its caller. -/
def Control.lift {Pc Pc' : Type} (ctl : Control Pc) (f : Pc → Pc') (onRet : Control Pc') :
    Control Pc' :=
  match ctl with
  | .next pc => .next (f pc)
  | .ret => onRet
  | .die => .die
  | .wild => .wild
  | .switch t u cont => .switch t u (f cont)
  | .start t => .start t

/-- The effect of a statement: the data, the interrupt flag of the CPU, and the control. -/
structure Effect (Pc : Type) where
  kernel : Kernel
  intr : Bool
  ctl : Control Pc

/-- The effect of a statement of a callee, seen by its caller. -/
def Effect.lift {Pc Pc' : Type} (e : Effect Pc) (f : Pc → Pc') (onRet : Control Pc') :
    Effect Pc' :=
  ⟨e.kernel, e.intr, e.ctl.lift f onRet⟩

/-! ## The scheduler -/

/-- Program points of the scheduler and the dispatcher. `work` stands for guarded code that touches
neither the guard nor the scheduler, and is taken to return. -/
inductive SchedPc where
  | resume
  | resumeRelist (curr : Option ThreadPtr)
  | resumeDequeue
  | resumeSkip (next : Option ThreadPtr)
  | dispatch (next : Option ThreadPtr)
  | dispatchDisable (old next : Option ThreadPtr)
  | dispatchSet (old next : Option ThreadPtr)
  | dispatchEnable (old next : Option ThreadPtr)
  | dispatchSwitch (old next : Option ThreadPtr)
  | dispatched
  | exit
  | kill (that : ThreadPtr)
  | killRemove (that : ThreadPtr) (prev : Slot ThreadPtr) (current : Option ThreadPtr)
  | killNotify
  | ready (that : ThreadPtr)
  | schedule
  | activate (first : ThreadPtr)
  | goDisable (first : ThreadPtr)
  | goSet (first : ThreadPtr)
  | goEnable (first : ThreadPtr)
  | goJump (first : ThreadPtr)
  | work

/-- One statement of the scheduler on CPU `c`. `Dispatcher::active()` disables interrupts and
returns before it would enable them again. The interrupt that `kill` sends is not recorded: an
assassin interrupt may arrive at any time. -/
def schedStep (c : Cpu) (k : Kernel) (intr : Bool) : SchedPc → Effect SchedPc
  | .resume => ⟨k, false, .next (.resumeRelist (k.sched.life c))⟩
  | .resumeRelist none => ⟨k, false, .die⟩
  | .resumeRelist (some curr) => ⟨k.setSched (k.sched.relist curr), intr, .next .resumeDequeue⟩
  | .resumeDequeue =>
      ⟨k.setSched k.sched.dequeueJob.2, intr, .next (.resumeSkip k.sched.dequeueJob.1)⟩
  | .resumeSkip none => ⟨k, false, .die⟩
  | .resumeSkip (some t) =>
      if k.sched.killFlag t then
        ⟨k.setSched k.sched.dequeueJob.2, intr, .next (.resumeSkip k.sched.dequeueJob.1)⟩
      else ⟨k, intr, .next (.dispatch (some t))⟩
  | .dispatch next => ⟨k, false, .next (.dispatchDisable (k.sched.life c) next)⟩
  | .dispatchDisable old next => ⟨k, false, .next (.dispatchSet old next)⟩
  | .dispatchSet old next =>
      ⟨k.setSched (k.sched.setActive c next), intr, .next (.dispatchEnable old next)⟩
  | .dispatchEnable old next => ⟨k, true, .next (.dispatchSwitch old next)⟩
  | .dispatchSwitch (some old) (some next) => ⟨k, intr, .switch old next .dispatched⟩
  -- the registers are saved to the null pointer, where no thread finds them
  | .dispatchSwitch none (some next) => ⟨k, intr, .start next⟩
  | .dispatchSwitch _ none => ⟨k, intr, .wild⟩
  | .dispatched => ⟨k, intr, .ret⟩
  | .exit => ⟨k.setSched k.sched.dequeueJob.2, intr, .next (.dispatch k.sched.dequeueJob.1)⟩
  | .kill that =>
      ⟨k.setSched (k.sched.setKillFlag that), intr,
        .next (.killRemove that .head k.sched.jobs.head)⟩
  | .killRemove that prev current =>
      match k.sched.jobsMem.removeStep QueueMem.sameItem that prev current with
      | .done none m => ⟨k.setSched (k.sched.setJobs m), intr, .next .killNotify⟩
      | .done (some _) m => ⟨k.setSched (k.sched.setJobs m), intr, .ret⟩
      | .more prev' current' => ⟨k, intr, .next (.killRemove that prev' current')⟩
  -- the loop over `running`, and `sendCustomIPI`
  | .killNotify => ⟨k, intr, .ret⟩
  | .ready that => ⟨k.setSched (k.sched.enqueueJob that), intr, .ret⟩
  | .schedule =>
      match k.sched.dequeueJob.1 with
      | none => ⟨k.setSched k.sched.dequeueJob.2, false, .die⟩
      | some first => ⟨k.setSched k.sched.dequeueJob.2, intr, .next (.activate first)⟩
  | .activate first => ⟨k, intr, .next (.goDisable first)⟩
  | .goDisable first => ⟨k, false, .next (.goSet first)⟩
  | .goSet first => ⟨k.setSched (k.sched.setActive c (some first)), intr, .next (.goEnable first)⟩
  | .goEnable first => ⟨k, true, .next (.goJump first)⟩
  | .goJump first => ⟨k, intr, .start first⟩
  | .work => ⟨k, intr, .ret⟩

/-! ## Epilogues -/

/-- Program points of the epilogues. -/
inductive EpiloguePc where
  | start
  | assassinCheck (current : Option ThreadPtr)
  | sched (pc : SchedPc)

/-- One statement of the epilogue of gate `g`. The epilogues of the keyboard and of other devices
call neither the guard nor the scheduler, and are taken to return; that of the keyboard may wait in
`send_byte` until the controller takes a byte. `Gate::epilogue` is empty. -/
def epilogueStep (c : Cpu) (k : Kernel) (intr : Bool) (g : Gate) : EpiloguePc → Effect EpiloguePc
  | .start =>
      match g with
      | .watch => ⟨k, intr, .next (.sched .resume)⟩
      | .assassin => ⟨k, false, .next (.assassinCheck (k.sched.life c))⟩
      | .keyboard => ⟨k, intr, .ret⟩
      | .panic => ⟨k, intr, .ret⟩
      | .device _ => ⟨k, intr, .ret⟩
  | .assassinCheck none => ⟨k, intr, .wild⟩
  | .assassinCheck (some current) =>
      if k.sched.killFlag current then ⟨k, intr, .next (.sched .resume)⟩ else ⟨k, intr, .ret⟩
  | .sched pc => (schedStep c k intr pc).lift .sched .ret

/-! ## Guard::enter and Guard::leave -/

/-- Program points of `Guard::enter`; `spin` is the wait in `Ticketlock::lock`. -/
inductive EnterPc where
  | disableInt
  | setFlag
  | enableInt
  | lock
  | spin (current : Ticket)

/-- One statement of `Guard::enter`. -/
def enterStep (c : Cpu) (k : Kernel) (intr : Bool) : EnterPc → Effect EnterPc
  | .disableInt => ⟨k, false, .next .setFlag⟩
  | .setFlag => ⟨k.setFlag c true, intr, .next .enableInt⟩
  | .enableInt => ⟨k, true, .next .lock⟩
  | .lock => ⟨k.requestLock c, intr, .next (.spin k.sLock.ticketnumber)⟩
  | .spin current =>
      if k.sLock.turn = current then ⟨k.acquireLock c, intr, .ret⟩
      else ⟨k, intr, .next (.spin current)⟩

/-- Program points of `Guard::leave`; `unlockStore` is the second half of `_turn++`. -/
inductive LeavePc where
  | disableInt
  | dequeue
  | setDequeued (item : Gate)
  | enableInt (item : Gate)
  | epilogue (item : Gate) (pc : EpiloguePc)
  | clearFlag
  | unlock
  | unlockStore (loaded : Ticket)
  | enableIntReturn

/-- One statement of `Guard::leave`. -/
def leaveStep (c : Cpu) (k : Kernel) (intr : Bool) : LeavePc → Effect LeavePc
  | .disableInt => ⟨k, false, .next .dequeue⟩
  | .dequeue =>
      match (k.queues.mem c).dequeue.1 with
      | none => ⟨k, intr, .next .clearFlag⟩
      | some item =>
          ⟨{ k with queues := k.queues.put c (k.queues.mem c).dequeue.2 }, intr,
            .next (.setDequeued item)⟩
  | .setDequeued item => ⟨k.setMark item false, intr, .next (.enableInt item)⟩
  | .enableInt item => ⟨k, true, .next (.epilogue item .start)⟩
  -- the loop goes on with the next `disable_int`
  | .epilogue item pc => (epilogueStep c k intr item pc).lift (.epilogue item) (.next .disableInt)
  -- interrupts are off here and stay off until the lock is released
  | .clearFlag => ⟨k.setFlag c false, intr, .next .unlock⟩
  | .unlock => ⟨k, intr, .next (.unlockStore k.sLock.turn)⟩
  | .unlockStore loaded => ⟨k.releaseLock c loaded, intr, .next .enableIntReturn⟩
  | .enableIntReturn => ⟨k, true, .ret⟩

/-! ## guardian and Guard::relay -/

/-- How `relay` dealt with a request: the prologue wanted no epilogue, the gate was queued already,
the gate was put into the queue of this CPU, or the epilogue was run at once. -/
inductive Via where
  | noEpilogue
  | merged
  | queued
  | direct
  deriving DecidableEq

/-- Program points of `guardian`, which calls `relay` and returns to the interrupted code. -/
inductive GuardianPc where
  | prologue
  | ackIRQ
  | testFlag
  | setQueued (currCpu : Cpu)
  | enqueue (currCpu : Cpu)
  | ackIRQLast (via : Via)
  | enableIntLast (via : Via)
  | enableInt
  | enter (pc : EnterPc)
  | epilogue (pc : EpiloguePc)
  | leave (pc : LeavePc)
  | iret (via : Via)

/-- One statement of `guardian` for gate `g`, whose prologue answers `answer`. -/
def guardianStep (c : Cpu) (k : Kernel) (intr : Bool) (g : Gate) (answer : Bool) :
    GuardianPc → Effect GuardianPc
  | .prologue =>
      if answer then ⟨k, intr, .next .ackIRQ⟩ else ⟨k, intr, .next (.ackIRQLast .noEpilogue)⟩
  | .ackIRQ => ⟨k.ackIRQ c, intr, .next .testFlag⟩
  | .testFlag =>
      if k.flag c then ⟨k, intr, .next (.setQueued c)⟩ else ⟨k, intr, .next .enableInt⟩
  | .setQueued currCpu =>
      -- `set_queued` marks the gate either way and says whether it was marked before
      if k.queueFlag g then ⟨k.setMark g true, intr, .next (.ackIRQLast .merged)⟩
      else ⟨k.setMark g true, intr, .next (.enqueue currCpu)⟩
  | .enqueue currCpu =>
      ⟨{ k with queues := k.queues.put currCpu ((k.queues.mem currCpu).enqueue g) }, intr,
        .next (.ackIRQLast .queued)⟩
  | .ackIRQLast via => ⟨k.ackIRQ c, intr, .next (.enableIntLast via)⟩
  | .enableIntLast via => ⟨k, true, .next (.iret via)⟩
  -- from here to `disable_int` in `enter` the flag is clear and interrupts are on
  | .enableInt => ⟨k, true, .next (.enter .disableInt)⟩
  | .enter pc => (enterStep c k intr pc).lift .enter (.next (.epilogue .start))
  | .epilogue pc => (epilogueStep c k intr g pc).lift .epilogue (.next (.leave .disableInt))
  | .leave pc => (leaveStep c k intr pc).lift .leave (.next (.iret .direct))
  | .iret _ => ⟨k, true, .ret⟩

/-! ## Activations -/

/-- The operations that user code performs in a guarded section. -/
inductive UserOp where
  | exit
  | kill (that : ThreadPtr)
  | ready (that : ThreadPtr)
  | resume
  | schedule
  | work

/-- The first program point of an operation. -/
def UserOp.start : UserOp → SchedPc
  | .exit => .exit
  | .kill that => .kill that
  | .ready that => .ready that
  | .resume => .resume
  | .schedule => .schedule
  | .work => .work

/-- Program points of a section of user code guarded by a `Secure` object around the operation
`op`. -/
inductive SecurePc where
  | enter (op : UserOp) (pc : EnterPc)
  | body (pc : SchedPc)
  | leave (pc : LeavePc)

/-- A control flow up to the next interrupt: user code outside of the guard, a guarded section of
it, the start of a new thread in `Dispatcher::kickoff`, or the handling of an interrupt. -/
inductive Activation where
  | user
  | secure (pc : SecurePc)
  | kickoff (pc : LeavePc)
  | guardian (g : Gate) (pc : GuardianPc)

/-- What the environment decides: an interrupt arrives, user code enters a guarded section or comes
to its end, or the CPU executes its next statement, where a prologue gives an answer. -/
inductive Choice where
  | accept (g : Gate)
  | secure (op : UserOp)
  | finish
  | stmt (answer : Bool)

/-- One statement of an activation. User code that comes to its end dies: `action()` returns to
`enterpanic`, `main` to the endless `CPU::die()` of `kernel_init`. -/
def activationStep (c : Cpu) (k : Kernel) (intr : Bool) :
    Activation → Choice → Option (Effect Activation)
  | .user, .secure op => some ⟨k, intr, .next (.secure (.enter op .disableInt))⟩
  | .user, .finish => some ⟨k, false, .die⟩
  | .secure (.enter op pc), .stmt _ =>
      some ((enterStep c k intr pc).lift (fun pc => .secure (.enter op pc))
        (.next (.secure (.body op.start))))
  | .secure (.body pc), .stmt _ =>
      some ((schedStep c k intr pc).lift (fun pc => .secure (.body pc))
        (.next (.secure (.leave .disableInt))))
  | .secure (.leave pc), .stmt _ =>
      some ((leaveStep c k intr pc).lift (fun pc => .secure (.leave pc)) (.next .user))
  | .kickoff pc, .stmt _ => some ((leaveStep c k intr pc).lift .kickoff (.next .user))
  | .guardian g .prologue, .stmt answer =>
      if g.prologueAnswers answer then
        some ((guardianStep c k intr g answer .prologue).lift (.guardian g) .ret)
      else none
  | .guardian g pc, .stmt answer =>
      some ((guardianStep c k intr g answer pc).lift (.guardian g) .ret)
  | _, _ => none

end MPStuBS.Guard
