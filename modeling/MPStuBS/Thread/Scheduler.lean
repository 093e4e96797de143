import MPStuBS.Object.QueueFamily

/-!
# The scheduler

`Scheduler` and `Dispatcher` of `thread/`: the ready list `jobs`, an intrusive
queue of threads, the per-CPU pointer `life` to the active thread, and the kill
flag of every thread.

The first part is the data and the single statements that touch it. The second
part composes them to the operations of the scheduler and to the epilogues of
the timer (`Watch`) and of the kill interrupt (`Assassin`), each executed as a
whole: they run between `guard.enter()` and `guard.leave()`. The loops over the
ready list follow at most `fuel` links; `none` means that this bound did not
suffice.

An operation completes, or the CPU halts in `CPU::die()`, or it uses a null
pointer (`Outcome`). There is memory at address 0, so the CPU goes on after a
read or a write there: `exit` on a CPU without an active thread saves the
registers in that memory and switches to the next thread like any other `exit`.
A CPU that loads its registers from there executes something unknown.
-/

set_option autoImplicit false

namespace MPStuBS.Thread

open MPStuBS.Object

/-- The CPU ids, the indices of `life`, `queues` and `flag`. -/
abbrev Cpu := Fin 4

/-- Threads are known by their addresses; the null pointer is `none`. -/
abbrev ThreadPtr := Nat

/-- The data of the scheduler and of the threads it manages. -/
structure Sched where
  life : Cpu → Option ThreadPtr
  jobs : Queue ThreadPtr
  link : ThreadPtr → Option ThreadPtr
  killFlag : ThreadPtr → Bool

namespace Sched

/-- No thread known: `life` is null everywhere, the ready list is empty, the kill flags, static
data, are zero. -/
def init : Sched := ⟨fun _ => none, Queue.empty, fun _ => none, fun _ => false⟩

/-! ## Statements -/

/-- The ready list with the link fields of the threads. -/
def jobsMem (s : Sched) : QueueMem ThreadPtr := ⟨s.jobs, s.link⟩

/-- The ready list and the link fields replaced. -/
def setJobs (s : Sched) (m : QueueMem ThreadPtr) : Sched :=
  { s with jobs := m.queue, link := m.link }

/-- `jobs.enqueue(that)`. -/
def enqueueJob (s : Sched) (that : ThreadPtr) : Sched := s.setJobs (s.jobsMem.enqueue that)

/-- `jobs.dequeue()`. -/
def dequeueJob (s : Sched) : Option ThreadPtr × Sched :=
  (s.jobsMem.dequeue.1, s.setJobs s.jobsMem.dequeue.2)

/-- `life[curr_cpu] = t`, the assignment in `Dispatcher::setActive`. -/
def setActive (s : Sched) (c : Cpu) (t : Option ThreadPtr) : Sched :=
  { s with life := Function.update s.life c t }

/-- `t->set_kill_flag()`. -/
def setKillFlag (s : Sched) (t : ThreadPtr) : Sched :=
  { s with killFlag := Function.update s.killFlag t true }

/-- `t->reset_kill_flag()`. -/
def resetKillFlag (s : Sched) (t : ThreadPtr) : Sched :=
  { s with killFlag := Function.update s.killFlag t false }

/-- `if (!curr->dying()) jobs.enqueue(curr);` of `Scheduler::resume`. -/
def relist (s : Sched) (curr : ThreadPtr) : Sched :=
  if s.killFlag curr then s else s.enqueueJob curr

/-- `running[target]` for `running = Dispatcher::life`. -/
def running (life : Cpu → Option ThreadPtr) (target : Nat) : Option ThreadPtr :=
  if h : target < 4 then life ⟨target, h⟩ else none

/-- The search loop of `Scheduler::kill`: the first CPU below `limit` that runs the thread, else
`limit`. -/
def findRunning (life : Cpu → Option ThreadPtr) (that : ThreadPtr) (limit : Nat) : Nat :=
  -- the loop ends at the first match, or with `target` at the limit
  ((List.range limit).find? fun target => running life target == some that).getD limit

/-- The set of CPUs that `kill` sends the interrupt to. The mask `1 << target` is an
`unsigned char`. -/
def killDest (life : Cpu → Option ThreadPtr) (that : ThreadPtr) (online : Nat) : BitVec 8 :=
  BitVec.ofNat 8 (1 <<< findRunning life that online)

end Sched

/-! ## Operations -/

/-- What a completed operation did besides its effect on the data: it made a thread the newly
active one of the executing CPU, or it sent the assassin interrupt to a set of CPUs. -/
inductive Action where
  | nothing
  | dispatched (next : ThreadPtr)
  | ipi (dest : BitVec 8)
  deriving DecidableEq

/-- How an operation ends. In a `fault` a null pointer was used as the active thread, and the CPU
goes on; it is `lost` if it switched to a null pointer. -/
inductive Outcome (σ : Type) where
  | done (s : σ) (act : Action)
  | die (s : σ)
  | fault (s : σ) (act : Action)
  | lost (s : σ)

namespace Outcome

variable {σ : Type}

/-- The data after an operation. -/
def data : Outcome σ → σ
  | .done s _ => s
  | .die s => s
  | .fault s _ => s
  | .lost s => s

/-- The thread that an operation made the active one and went on with. -/
def dispatched? : Outcome σ → Option ThreadPtr
  | .done _ (.dispatched u) => some u
  | .fault _ (.dispatched u) => some u
  | _ => none

/-- The CPU executes no further operation. -/
def stops : Outcome σ → Bool
  | .die _ => true
  | .lost _ => true
  | _ => false

/-- A null pointer was dereferenced, or handed to `dispatch`. -/
def usesNull : Outcome σ → Bool
  | .fault _ _ => true
  | .lost _ => true
  | _ => false

end Outcome

/-- The guarded operations: the calls of user code, `reset_kill_flag`, and the epilogues of the
timer and of the kill interrupt. -/
inductive SchedOp where
  | ready (that : ThreadPtr)
  | schedule
  | resume
  | exit
  | kill (that : ThreadPtr)
  | resetKillFlag (that : ThreadPtr)
  | watch
  | assassin

namespace Sched

/-- `Dispatcher::dispatch`: the old thread, read from `life`, is switched away in favour of the
next, which is in `life` before `old->resume(next)` uses the two pointers. -/
def dispatch (s : Sched) (c : Cpu) (next : Option ThreadPtr) : Outcome Sched :=
  match s.life c, next with
  | some _, some t => .done (s.setActive c (some t)) (.dispatched t)
  -- `toc_switch` saves the registers to the null pointer and loads those of the next thread
  | none, some t => .fault (s.setActive c (some t)) (.dispatched t)
  | _, none => .lost (s.setActive c none)

/-- `Dispatcher::go`. -/
def go (s : Sched) (c : Cpu) (first : ThreadPtr) : Outcome Sched :=
  .done (s.setActive c (some first)) (.dispatched first)

/-- `Scheduler::exit`. -/
def exit (s : Sched) (c : Cpu) : Outcome Sched := s.dequeueJob.2.dispatch c s.dequeueJob.1

/-- `while (next && next->dying()) next = jobs.dequeue();` -/
def skipDying : Nat → Sched → Option ThreadPtr → Option (Option ThreadPtr × Sched)
  | 0, _, _ => none
  | _ + 1, s, none => some (none, s)
  | fuel + 1, s, some t =>
      if s.killFlag t then skipDying fuel s.dequeueJob.2 s.dequeueJob.1 else some (some t, s)

/-- `Scheduler::resume`. -/
def resume (fuel : Nat) (s : Sched) (c : Cpu) : Option (Outcome Sched) :=
  match s.life c with
  | none => some (.die s)
  | some curr =>
      match skipDying fuel (s.relist curr).dequeueJob.2 (s.relist curr).dequeueJob.1 with
      | none => none
      | some (none, s') => some (.die s')
      | some (some t, s') => some (s'.dispatch c (some t))

/-- `Scheduler::kill` on a system with `online` CPUs. -/
def kill (fuel : Nat) (s : Sched) (that : ThreadPtr) (online : Nat) : Option (Outcome Sched) :=
  match (s.setKillFlag that).jobsMem.remove fuel that QueueMem.sameItem with
  | none => none
  | some (some _, m) => some (.done ((s.setKillFlag that).setJobs m) .nothing)
  | some (none, m) =>
      some (.done ((s.setKillFlag that).setJobs m) (.ipi (killDest s.life that online)))

/-- `Scheduler::ready`. -/
def ready (s : Sched) (that : ThreadPtr) : Outcome Sched := .done (s.enqueueJob that) .nothing

/-- `Scheduler::schedule`. -/
def schedule (s : Sched) (c : Cpu) : Outcome Sched :=
  match s.dequeueJob.1 with
  | none => .die s.dequeueJob.2
  | some first => s.dequeueJob.2.go c first

/-- `Watch::epilogue`. -/
def watchEpilogue (fuel : Nat) (s : Sched) (c : Cpu) : Option (Outcome Sched) := s.resume fuel c

/-- `Assassin::epilogue`. What `dying()` reads through a null pointer is unknown; `resume` would
only halt the CPU there. -/
def assassinEpilogue (fuel : Nat) (s : Sched) (c : Cpu) : Option (Outcome Sched) :=
  match s.life c with
  | none => some (.fault s .nothing)
  | some current => if s.killFlag current then s.resume fuel c else some (.done s .nothing)

/-- One operation, executed by CPU `c` of a system with `online` CPUs. -/
def exec (fuel online : Nat) (s : Sched) (c : Cpu) : SchedOp → Option (Outcome Sched)
  | .ready that => some (s.ready that)
  | .schedule => some (s.schedule c)
  | .resume => s.resume fuel c
  | .exit => some (s.exit c)
  | .kill that => s.kill fuel that online
  | .resetKillFlag that => some (.done (s.resetKillFlag that) .nothing)
  | .watch => s.watchEpilogue fuel c
  | .assassin => s.assassinEpilogue fuel c

/-! ## The outcomes of an operation -/

/-- The outcomes, operation by operation; three of them resume. -/
inductive ExecMove (fuel : Nat) (s : Sched) (c : Cpu) : SchedOp → Outcome Sched → Prop
  | ready (that : ThreadPtr) : ExecMove fuel s c (.ready that) (.done (s.enqueueJob that) .nothing)
  | resetKillFlag (that : ThreadPtr) :
      ExecMove fuel s c (.resetKillFlag that) (.done (s.resetKillFlag that) .nothing)
  | kill (that : ThreadPtr) (m : QueueMem ThreadPtr) {act : Action}
      (hact : ∀ u, act ≠ .dispatched u) :
      ExecMove fuel s c (.kill that) (.done ((s.setKillFlag that).setJobs m) act)
  | schedule {first : ThreadPtr} (hhead : s.jobs.head = some first) :
      ExecMove fuel s c .schedule
        (.done (s.dequeueJob.2.setActive c (some first)) (.dispatched first))
  | scheduleDie (hhead : s.jobs.head = none) : ExecMove fuel s c .schedule (.die s.dequeueJob.2)
  | exit {old t : ThreadPtr} (hlife : s.life c = some old) (hhead : s.jobs.head = some t) :
      ExecMove fuel s c .exit (.done (s.dequeueJob.2.setActive c (some t)) (.dispatched t))
  | exitFault {t : ThreadPtr} (hlife : s.life c = none) (hhead : s.jobs.head = some t) :
      ExecMove fuel s c .exit
        (.fault (s.dequeueJob.2.setActive c (some t)) (.dispatched t))
  | exitLost (hhead : s.jobs.head = none) :
      ExecMove fuel s c .exit (.lost (s.dequeueJob.2.setActive c none))
  | resume {op : SchedOp} {o : Outcome Sched}
      (hop : op = .resume ∨ op = .watch ∨ op = .assassin) (h : s.resume fuel c = some o) :
      ExecMove fuel s c op o
  | assassinIdle : ExecMove fuel s c .assassin (.done s .nothing)
  | assassinFault (hlife : s.life c = none) :
      ExecMove fuel s c .assassin (.fault s .nothing)

section Moves

variable {fuel online : Nat} {s : Sched} {c : Cpu} {op : SchedOp} {o : Outcome Sched}

/-- `dispatch` stores the next thread, whether there is an old one or not. -/
theorem dispatch_data (s : Sched) (c : Cpu) (next : Option ThreadPtr) :
    (s.dispatch c next).data = s.setActive c next := by
  unfold dispatch
  split <;> rfl

theorem dispatch_dispatched (s : Sched) (c : Cpu) (next : Option ThreadPtr) :
    (s.dispatch c next).dispatched? = next := by
  unfold dispatch
  split <;> rfl

/-- A CPU that is to switch to a null pointer is lost. -/
theorem dispatch_none (s : Sched) (c : Cpu) :
    s.dispatch c none = .lost (s.setActive c none) := by
  unfold dispatch
  split
  case h_1 hnext => cases hnext
  case h_2 hnext => cases hnext
  case h_3 => rfl

/-- With an active thread and a next one, `dispatch` switches. -/
theorem dispatch_of_active {curr t : ThreadPtr} (hlife : s.life c = some curr) :
    s.dispatch c (some t) = .done (s.setActive c (some t)) (.dispatched t) := by
  simp only [dispatch, hlife]

theorem exec_move (h : s.exec fuel online c op = some o) : ExecMove fuel s c op o := by
  have hfst : s.dequeueJob.1 = s.jobs.head := QueueMem.dequeue_fst
  cases op with
  | ready that =>
      obtain rfl := Option.some.inj h
      exact .ready that
  | resetKillFlag that =>
      obtain rfl := Option.some.inj h
      exact .resetKillFlag that
  | kill that =>
      have hkill : s.kill fuel that online = some o := h
      unfold Sched.kill at hkill
      split at hkill
      case h_1 => cases hkill
      case h_2 =>
          obtain rfl := Option.some.inj hkill
          exact .kill that _ (by simp)
      case h_3 =>
          obtain rfl := Option.some.inj hkill
          exact .kill that _ (by simp)
  | schedule =>
      obtain rfl := Option.some.inj h
      unfold Sched.schedule
      split
      case h_1 hnone => exact .scheduleDie (hfst.symm.trans hnone)
      case h_2 first hhead => exact .schedule (hfst.symm.trans hhead)
  | exit =>
      obtain rfl := Option.some.inj h
      unfold Sched.exit dispatch
      split
      case h_1 old t hlife hhead => exact .exit hlife (hfst.symm.trans hhead)
      case h_2 t hlife hhead => exact .exitFault hlife (hfst.symm.trans hhead)
      case h_3 hhead => exact .exitLost (hfst.symm.trans hhead)
  | resume => exact .resume (.inl rfl) h
  | watch => exact .resume (.inr (.inl rfl)) h
  | assassin =>
      have hepilogue : s.assassinEpilogue fuel c = some o := h
      unfold assassinEpilogue at hepilogue
      split at hepilogue
      case h_1 hlife =>
          obtain rfl := Option.some.inj hepilogue
          exact .assassinFault hlife
      case h_2 current hlife =>
          split at hepilogue
          · exact .resume (.inr (.inr rfl)) hepilogue
          · obtain rfl := Option.some.inj hepilogue
            exact .assassinIdle

/-- `resume` halts the CPU without an active thread, or without one to dispatch behind the dying
ones. -/
theorem resume_cases (h : s.resume fuel c = some o) :
    s.life c = none ∧ o = .die s ∨
      ∃ curr out s₁, s.life c = some curr ∧
        skipDying fuel (s.relist curr).dequeueJob.2 (s.relist curr).dequeueJob.1 =
          some (out, s₁) ∧
        (out = none ∧ o = .die s₁ ∨ ∃ t, out = some t ∧ o = s₁.dispatch c (some t)) := by
  unfold Sched.resume at h
  split at h
  case h_1 hlife => exact .inl ⟨hlife, (Option.some.inj h).symm⟩
  case h_2 curr hlife =>
      split at h
      case h_1 => cases h
      case h_2 s₁ hskip =>
          exact .inr ⟨curr, none, s₁, hlife, hskip, .inl ⟨rfl, (Option.some.inj h).symm⟩⟩
      case h_3 t s₁ hskip =>
          exact .inr ⟨curr, some t, s₁, hlife, hskip, .inr ⟨t, rfl, (Option.some.inj h).symm⟩⟩

end Moves

end Sched

end MPStuBS.Thread
