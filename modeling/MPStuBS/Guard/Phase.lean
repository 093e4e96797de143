import MPStuBS.Guard.Multiprocessor

/-!
# Phases of the guard

Every program point of the guard belongs to a `Phase` of the protocol that
`enter` and `leave` follow: outside of the guard, marked by the level flag,
waiting for the lock with a ticket, owning the lock, and the steps of giving it
back. The handling of an interrupt that does not enter the guard itself is in
the phase of the code it interrupted, so the phase of a stack is that of its
innermost activation with a phase of its own (`stackPhase`).

`LockMove` lists the moves between phases together with what they do to the
level flags and the lock. Every statement makes one such move on its own CPU
(`schedStep_sound` to `guardianStep_sound`); in particular all thread switches
happen in the phase `owning` and touch neither flags nor lock. A point is
`masked` when interrupts are disabled there.
-/

set_option autoImplicit false

namespace MPStuBS.Guard

open MPStuBS.Object MPStuBS.Machine MPStuBS.Thread MPStuBS.Lib.TicketOrder

/-- The phases of the guard. -/
inductive Phase where
  | free
  | flagged
  | waiting (ticket : Ticket)
  | owning
  | unlocking
  | releasing (loaded : Ticket)
  deriving DecidableEq

namespace Phase

/-- The level flag of a CPU in this phase. -/
def flag : Phase → Bool
  | .free => false
  | .flagged => true
  | .waiting _ => true
  | .owning => true
  | .unlocking => false
  | .releasing _ => false

/-- The part of the phase that concerns the ticket lock. -/
def stage : Phase → Stage 32
  | .free => .outside
  | .flagged => .outside
  | .waiting ticket => .waiting ticket
  | .owning => .inside
  | .unlocking => .inside
  | .releasing loaded => .releasing loaded

/-- Inside a call of `s_lock.lock()`. -/
def requested : Phase → Bool
  | .waiting _ => true
  | _ => false

/-- Between the return of `s_lock.lock()` and `s_lock.unlock()`. -/
def acquired (p : Phase) : Bool := p.stage.holds

/-- The phases in which interrupts may be enabled. -/
def settled : Phase → Bool
  | .unlocking => false
  | .releasing _ => false
  | _ => true

end Phase

/-! ## Program points -/

def EnterPc.phase : EnterPc → Phase
  | .disableInt | .setFlag => .free
  | .enableInt | .lock => .flagged
  | .spin current => .waiting current

def EnterPc.masked : EnterPc → Bool
  | .setFlag | .enableInt => true
  | _ => false

def LeavePc.phase : LeavePc → Phase
  | .unlock => .unlocking
  | .unlockStore loaded => .releasing loaded
  | .enableIntReturn => .free
  | _ => .owning

def LeavePc.masked : LeavePc → Bool
  | .disableInt | .epilogue _ _ => false
  | _ => true

/-- The phase of the points at which `relay` deals with the request itself; the other points are in
the phase of the interrupted code. -/
def GuardianPc.phase? : GuardianPc → Option Phase
  | .enter pc => some pc.phase
  | .epilogue _ => some .owning
  | .leave pc => some pc.phase
  | _ => none

def GuardianPc.masked : GuardianPc → Bool
  | .enter pc => pc.masked
  | .epilogue _ => false
  | .leave pc => pc.masked
  | .iret _ => false
  | _ => true

/-- The points after `relay` found the level flag clear. -/
def GuardianPc.direct : GuardianPc → Bool
  | .enableInt | .enter _ | .epilogue _ | .leave _ => true
  | _ => false

/-- The points after `relay` found the level flag set. -/
def GuardianPc.deferred : GuardianPc → Bool
  | .setQueued _ | .enqueue _ => true
  | .ackIRQLast via | .enableIntLast via | .iret via => via = .merged ∨ via = .queued
  | _ => false

def Activation.phase? : Activation → Option Phase
  | .user => some .free
  | .secure (.enter _ pc) => some pc.phase
  | .secure (.body _) => some .owning
  | .secure (.leave pc) => some pc.phase
  | .kickoff pc => some pc.phase
  | .guardian _ pc => pc.phase?

def Activation.masked : Activation → Bool
  | .user => false
  | .secure (.enter _ pc) => pc.masked
  | .secure (.body _) => false
  | .secure (.leave pc) => pc.masked
  | .kickoff pc => pc.masked
  | .guardian _ pc => pc.masked

/-- The point of `enter` at which an activation is. -/
def Activation.enterPc? : Activation → Option EnterPc
  | .secure (.enter _ pc) => some pc
  | .guardian _ (.enter pc) => some pc
  | _ => none

/-- The point of `leave` at which an activation is. -/
def Activation.leavePc? : Activation → Option LeavePc
  | .secure (.leave pc) => some pc
  | .kickoff pc => some pc
  | .guardian _ (.leave pc) => some pc
  | _ => none

theorem Activation.phase?_of_enterPc? {a : Activation} {pc : EnterPc}
    (h : a.enterPc? = some pc) : a.phase? = some pc.phase := by
  cases a with
  | secure s =>
      cases s with
      | enter op pc =>
          obtain rfl := Option.some.inj h
          rfl
      | _ => simp [Activation.enterPc?] at h
  | guardian g s =>
      cases s with
      | enter pc =>
          obtain rfl := Option.some.inj h
          rfl
      | _ => simp [Activation.enterPc?] at h
  | _ => simp [Activation.enterPc?] at h

theorem Activation.phase?_of_leavePc? {a : Activation} {pc : LeavePc}
    (h : a.leavePc? = some pc) : a.phase? = some pc.phase := by
  cases a with
  | user => simp [Activation.leavePc?] at h
  | secure s =>
      cases s with
      | leave pc =>
          obtain rfl := Option.some.inj h
          rfl
      | _ => simp [Activation.leavePc?] at h
  | kickoff pc =>
      obtain rfl := Option.some.inj h
      rfl
  | guardian g s =>
      cases s with
      | leave pc =>
          obtain rfl := Option.some.inj h
          rfl
      | _ => simp [Activation.leavePc?] at h

/-- The phase of a stack: that of the innermost activation with a phase of its own. -/
def stackPhase : List Activation → Phase
  | [] => .free
  | a :: below => a.phase?.getD (stackPhase below)

/-! ## Moves between phases -/

/-- The statement changed neither the flags nor the lock. -/
structure LockSame (k k' : Kernel) : Prop where
  flag : k'.flag = k.flag
  sLock : k'.sLock = k.sLock
  requested : k'.requested = k.requested
  acquired : k'.acquired = k.acquired

theorem LockSame.refl (k : Kernel) : LockSame k k := ⟨rfl, rfl, rfl, rfl⟩

/-- The moves of CPU `c` between phases, with their effect on the flags and the lock. -/
inductive LockMove (c : Cpu) (k : Kernel) : Kernel → Phase → Phase → Prop
  | stay {k' : Kernel} (p : Phase) (h : LockSame k k') : LockMove c k k' p p
  | mark : LockMove c k (k.setFlag c true) .free .flagged
  | request : LockMove c k (k.requestLock c) .flagged (.waiting k.sLock.ticketnumber)
  | acquire : LockMove c k (k.acquireLock c) (.waiting k.sLock.turn) .owning
  | unmark : LockMove c k (k.setFlag c false) .owning .unlocking
  | load : LockMove c k k .unlocking (.releasing k.sLock.turn)
  | release (loaded : Ticket) : LockMove c k (k.releaseLock c loaded) (.releasing loaded) .free

/-- What a statement at a point of phase `p` does, when `phaseOf` and `maskedOf` describe the points
it can reach and `back` is the phase after the return. -/
def Effect.Sound {Pc : Type} (c : Cpu) (k : Kernel) (p : Phase) (phaseOf : Pc → Phase)
    (maskedOf : Pc → Bool) (back : Phase) (e : Effect Pc) : Prop :=
  match e.ctl with
  | .next pc => LockMove c k e.kernel p (phaseOf pc) ∧ (maskedOf pc = true → e.intr = false)
  | .ret => LockMove c k e.kernel p back
  | .die => LockSame k e.kernel
  | .wild => LockSame k e.kernel
  | .switch _ _ cont =>
      LockSame k e.kernel ∧ p = .owning ∧ phaseOf cont = .owning ∧ maskedOf cont = false
  | .start _ => LockSame k e.kernel ∧ p = .owning

section Lift

variable {Pc Pc' : Type} {c : Cpu} {k : Kernel} {p back back' : Phase} {phaseOf : Pc → Phase}
  {phaseOf' : Pc' → Phase} {maskedOf : Pc → Bool} {maskedOf' : Pc' → Bool} {e : Effect Pc}

/-- A statement of a callee, after which the caller goes on at `pc₀`. -/
theorem Effect.Sound.lift (h : e.Sound c k p phaseOf maskedOf back) (f : Pc → Pc')
    (pc₀ : Pc') (hf : ∀ pc, phaseOf' (f pc) = phaseOf pc)
    (hm : ∀ pc, maskedOf' (f pc) = maskedOf pc) (hback : phaseOf' pc₀ = back)
    (hm₀ : maskedOf' pc₀ = false) :
    (e.lift f (.next pc₀)).Sound c k p phaseOf' maskedOf' back' := by
  obtain ⟨k', intr, ctl⟩ := e
  cases ctl with
  | next pc =>
      refine ⟨?_, fun hpc => h.2 (by rw [← hm pc]; exact hpc)⟩
      show LockMove c k k' p (phaseOf' (f pc))
      rw [hf pc]
      exact h.1
  | ret =>
      refine ⟨?_, fun hpc => absurd hpc (by rw [hm₀]; simp)⟩
      show LockMove c k k' p (phaseOf' pc₀)
      rw [hback]
      exact h
  | die => exact h
  | wild => exact h
  | switch t u cont => exact ⟨h.1, h.2.1, (hf cont).trans h.2.2.1, (hm cont).trans h.2.2.2⟩
  | start t => exact h

/-- A statement of a callee whose return is that of the caller. -/
theorem Effect.Sound.liftRet (h : e.Sound c k p phaseOf maskedOf back) (f : Pc → Pc')
    (hf : ∀ pc, phaseOf' (f pc) = phaseOf pc) (hm : ∀ pc, maskedOf' (f pc) = maskedOf pc) :
    (e.lift f .ret).Sound c k p phaseOf' maskedOf' back := by
  obtain ⟨k', intr, ctl⟩ := e
  cases ctl with
  | next pc =>
      refine ⟨?_, fun hpc => h.2 (by rw [← hm pc]; exact hpc)⟩
      show LockMove c k k' p (phaseOf' (f pc))
      rw [hf pc]
      exact h.1
  | ret => exact h
  | die => exact h
  | wild => exact h
  | switch t u cont => exact ⟨h.1, h.2.1, (hf cont).trans h.2.2.1, (hm cont).trans h.2.2.2⟩
  | start t => exact h

end Lift

variable {c : Cpu} {k : Kernel} {intr : Bool}

theorem lockSame_setSched (k : Kernel) (s : Sched) : LockSame k (k.setSched s) :=
  ⟨rfl, rfl, rfl, rfl⟩

/-- The scheduler runs in phase `owning` and leaves the flags and the lock alone. -/
theorem schedStep_sound (pc : SchedPc) :
    (schedStep c k intr pc).Sound c k .owning (fun _ => .owning) (fun _ => false) .owning := by
  have hset : ∀ s, LockMove c k (k.setSched s) .owning .owning := fun s =>
    .stay .owning (lockSame_setSched k s)
  have hsame : LockMove c k k .owning .owning := .stay .owning (.refl k)
  -- every statement touches the scheduler only, so the lock stays where it is
  cases pc with
  | resume => exact ⟨hsame, by simp⟩
  | resumeRelist curr =>
      cases curr with
      | none => exact .refl k
      | some curr => exact ⟨hset _, by simp⟩
  | resumeDequeue => exact ⟨hset _, by simp⟩
  | resumeSkip next =>
      cases next with
      | none => exact .refl k
      | some t =>
          by_cases ht : k.sched.killFlag t = true
          · simp only [schedStep, ht, if_true]
            exact ⟨hset _, by simp⟩
          · simp only [schedStep, ht]
            exact ⟨hsame, by simp⟩
  | dispatch next => exact ⟨hsame, by simp⟩
  | dispatchDisable old next => exact ⟨hsame, by simp⟩
  | dispatchSet old next => exact ⟨hset _, by simp⟩
  | dispatchEnable old next => exact ⟨hsame, by simp⟩
  | dispatchSwitch old next =>
      cases next with
      | none => cases old <;> exact LockSame.refl k
      | some next =>
          cases old with
          | none => exact ⟨.refl k, rfl⟩
          | some old => exact ⟨.refl k, rfl, rfl, rfl⟩
  | dispatched => exact hsame
  | exit => exact ⟨hset _, by simp⟩
  | kill that => exact ⟨hset _, by simp⟩
  | killRemove that prev current =>
      cases hr : k.sched.jobsMem.removeStep QueueMem.sameItem that prev current with
      | done out m =>
          cases out with
          | none =>
              simp only [schedStep, hr]
              exact ⟨hset _, by simp⟩
          | some t =>
              simp only [schedStep, hr]
              exact hset _
      | more prev' current' =>
          simp only [schedStep, hr]
          exact ⟨hsame, by simp⟩
  | killNotify => exact hsame
  | ready that => exact hset _
  | schedule =>
      cases hd : k.sched.dequeueJob.1 with
      | none =>
          simp only [schedStep, hd]
          exact lockSame_setSched k _
      | some first =>
          simp only [schedStep, hd]
          exact ⟨hset _, by simp⟩
  | activate first => exact ⟨hsame, by simp⟩
  | goDisable first => exact ⟨hsame, by simp⟩
  | goSet first => exact ⟨hset _, by simp⟩
  | goEnable first => exact ⟨hsame, by simp⟩
  | goJump first => exact ⟨.refl k, rfl⟩
  | work => exact hsame

/-- Epilogues run in phase `owning` and leave the flags and the lock alone. -/
theorem epilogueStep_sound (g : Gate) (pc : EpiloguePc) :
    (epilogueStep c k intr g pc).Sound c k .owning (fun _ => .owning) (fun _ => false)
      .owning := by
  have hsame : LockMove c k k .owning .owning := .stay .owning (.refl k)
  cases pc with
  | start =>
      cases g with
      | watch => exact ⟨hsame, by simp⟩
      | assassin => exact ⟨hsame, by simp⟩
      | keyboard => exact hsame
      | panic => exact hsame
      | device id => exact hsame
  | assassinCheck current =>
      cases current with
      | none => exact .refl k
      | some t =>
          by_cases ht : k.sched.killFlag t = true
          · simp only [epilogueStep, ht, if_true]
            exact ⟨hsame, by simp⟩
          · simp only [epilogueStep, ht]
            exact hsame
  | sched pc => exact (schedStep_sound pc).liftRet _ (fun _ => rfl) fun _ => rfl

/-- `enter` marks the CPU, draws a ticket, and returns with the lock. -/
theorem enterStep_sound (pc : EnterPc) (hmask : pc.masked = true → intr = false) :
    (enterStep c k intr pc).Sound c k pc.phase EnterPc.phase EnterPc.masked .owning := by
  cases pc with
  | disableInt => exact ⟨.stay .free (.refl k), fun _ => rfl⟩
  | setFlag => exact ⟨.mark, fun _ => hmask rfl⟩
  | enableInt => exact ⟨.stay .flagged (.refl k), fun h => absurd h (by simp [EnterPc.masked])⟩
  | lock => exact ⟨.request, fun h => absurd h (by simp [EnterPc.masked])⟩
  | spin current =>
      by_cases ht : k.sLock.turn = current
      -- the ticket is up
      · simp only [enterStep, ht, if_true]
        subst ht
        exact LockMove.acquire
      · simp only [enterStep, ht]
        exact ⟨.stay (.waiting current) (.refl k), fun h => absurd h (by simp [EnterPc.masked])⟩

/-- `leave` runs the queued epilogues with the lock and then gives up the mark and the lock. -/
theorem leaveStep_sound (pc : LeavePc) (hmask : pc.masked = true → intr = false) :
    (leaveStep c k intr pc).Sound c k pc.phase LeavePc.phase LeavePc.masked .free := by
  cases pc with
  | disableInt => exact ⟨.stay .owning (.refl k), fun _ => rfl⟩
  | dequeue =>
      cases hd : (k.queues.mem c).dequeue.1 with
      | none =>
          simp only [leaveStep, hd]
          exact ⟨.stay .owning (.refl k), fun _ => hmask rfl⟩
      | some item =>
          simp only [leaveStep, hd]
          exact ⟨.stay .owning ⟨rfl, rfl, rfl, rfl⟩, fun _ => hmask rfl⟩
  | setDequeued item => exact ⟨.stay .owning ⟨rfl, rfl, rfl, rfl⟩, fun _ => hmask rfl⟩
  | enableInt item => exact ⟨.stay .owning (.refl k), fun h => absurd h (by simp [LeavePc.masked])⟩
  -- a queued epilogue, after which the loop goes on
  | epilogue item pc =>
      simp only [leaveStep]
      exact (epilogueStep_sound item pc).lift _ _ (fun _ => rfl) (fun _ => rfl) rfl rfl
  | clearFlag => exact ⟨.unmark, fun _ => hmask rfl⟩
  | unlock => exact ⟨.load, fun _ => hmask rfl⟩
  | unlockStore loaded => exact ⟨.release loaded, fun _ => hmask rfl⟩
  | enableIntReturn => exact .stay .free (.refl k)

/-- `guardian` above code of phase `b`. On the direct path that code is outside of the guard. -/
theorem guardianStep_sound (g : Gate) (answer : Bool) (pc : GuardianPc) {b : Phase}
    (hmask : pc.masked = true → intr = false) (hdirect : pc.direct = true → b = .free) :
    (guardianStep c k intr g answer pc).Sound c k (pc.phase?.getD b)
      (fun pc => pc.phase?.getD b) GuardianPc.masked b := by
  have hsame : LockMove c k k b b := .stay b (.refl k)
  have hack : LockMove c k (k.ackIRQ c) b b := .stay b ⟨rfl, rfl, rfl, rfl⟩
  have hmark : LockMove c k (k.setMark g true) b b := .stay b ⟨rfl, rfl, rfl, rfl⟩
  cases pc with
  | prologue =>
      cases answer with
      | true => exact ⟨hsame, fun _ => hmask rfl⟩
      | false => exact ⟨hsame, fun _ => hmask rfl⟩
  | ackIRQ => exact ⟨hack, fun _ => hmask rfl⟩
  | testFlag =>
      by_cases hf : k.flag c = true
      · simp only [guardianStep, hf, if_true]
        exact ⟨hsame, fun _ => hmask rfl⟩
      · simp only [guardianStep, hf]
        exact ⟨hsame, fun _ => hmask rfl⟩
  | setQueued currCpu =>
      by_cases hq : k.queueFlag g = true
      · simp only [guardianStep, hq, if_true]
        exact ⟨hmark, fun _ => hmask rfl⟩
      · simp only [guardianStep, hq]
        exact ⟨hmark, fun _ => hmask rfl⟩
  | enqueue currCpu => exact ⟨.stay b ⟨rfl, rfl, rfl, rfl⟩, fun _ => hmask rfl⟩
  | ackIRQLast via => exact ⟨hack, fun _ => hmask rfl⟩
  | enableIntLast via => exact ⟨hsame, fun h => absurd h (by simp [GuardianPc.masked])⟩
  -- interrupts are enabled in front of `enter`, still outside of the guard
  | enableInt =>
      obtain rfl := hdirect rfl
      exact ⟨hsame, fun h => absurd h (by simp [GuardianPc.masked, EnterPc.masked])⟩
  | enter pc =>
      simp only [guardianStep]
      exact (enterStep_sound pc hmask).lift _ _ (fun _ => rfl) (fun _ => rfl) rfl rfl
  | epilogue pc =>
      simp only [guardianStep]
      exact (epilogueStep_sound g pc).lift _ _ (fun _ => rfl) (fun _ => rfl) rfl rfl
  | leave pc =>
      simp only [guardianStep]
      exact (leaveStep_sound pc hmask).lift _ _ (fun _ => rfl) (fun _ => rfl) (hdirect rfl) rfl
  | iret via => exact hsame

end MPStuBS.Guard
