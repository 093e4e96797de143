import MPStuBS.Guard.MutualExclusion

/-!
# The queues of the gates

A gate has one link field and one mark, but every CPU has a queue. `set_queued`
and the insertion into the queue are two statements, and so are the removal and
`set_dequeued`; in between the gate is in transit on that CPU. `GateMove` lists
what a statement can do to queues and marks, `Kernel.GatesOk` is the invariant:
a marked gate is in exactly one queue or in transit on exactly one CPU, an
unmarked one nowhere, and the queue of a CPU without the level flag is empty.

The statements that depend on earlier ones are those at which interrupts are
disabled. What they rely on is asserted at the innermost activation
(`Activation.PointOk`).
-/

set_option autoImplicit false

namespace MPStuBS.Guard

open MPStuBS.Object MPStuBS.Machine MPStuBS.Thread MPStuBS.Lib.Run

/-- A gate on its way into a queue or out of it. -/
inductive Transit where
  | entering (g : Gate)
  | leaving (g : Gate)
  deriving DecidableEq

/-- The gate in transit. -/
def Transit.gate : Transit → Gate
  | .entering g => g
  | .leaving g => g

/-! ## Program points -/

def LeavePc.transit? : LeavePc → Option Transit
  | .setDequeued item => some (.leaving item)
  | _ => none

def GuardianPc.transit? (g : Gate) : GuardianPc → Option Transit
  | .enqueue _ => some (.entering g)
  | .leave pc => pc.transit?
  | _ => none

/-- The gate between `set_queued` and its insertion, or between its removal and `set_dequeued`. -/
def Activation.transit? : Activation → Option Transit
  | .secure (.leave pc) => pc.transit?
  | .kickoff pc => pc.transit?
  | .guardian g pc => pc.transit? g
  | _ => none

/-- The queue of CPU `c` is empty. -/
def Kernel.QueueEmpty (k : Kernel) (c : Cpu) : Prop := (k.queues.queue c).head = none

def LeavePc.PointOk (k : Kernel) (c : Cpu) : LeavePc → Prop
  | .clearFlag => k.QueueEmpty c
  | _ => True

def GuardianPc.PointOk (k : Kernel) (c : Cpu) : GuardianPc → Prop
  | .setQueued currCpu => currCpu = c
  | .enqueue currCpu => currCpu = c
  | .leave pc => pc.PointOk k c
  | _ => True

/-- What the statements at masked points rely on. -/
def Activation.PointOk (k : Kernel) (c : Cpu) : Activation → Prop
  | .secure (.leave pc) => pc.PointOk k c
  | .kickoff pc => pc.PointOk k c
  | .guardian _ pc => pc.PointOk k c
  | _ => True

/-- The points after this activation inserted the gate into the queue. -/
def GuardianPc.viaQueued : GuardianPc → Bool
  | .ackIRQLast via => via = .queued
  | .enableIntLast via => via = .queued
  | .iret via => via = .queued
  | _ => false

/-! ## Moves -/

/-- The statement changed neither queues nor marks, and it cleared the level flag of CPUs with an
empty queue only. -/
structure GateSame (k k' : Kernel) : Prop where
  queues : k'.queues = k.queues
  mark : k'.queueFlag = k.queueFlag
  flag : ∀ d, k'.flag d = false → k.flag d = false ∨ k.QueueEmpty d

/-- What a statement of CPU `c` does to queues and marks, with the gate in transit before and
after it. -/
inductive GateMove (c : Cpu) (k : Kernel) : Kernel → Option Transit → Option Transit → Prop
  | stay {k' : Kernel} (h : GateSame k k') : GateMove c k k' none none
  | setQueued (g : Gate) (hg : k.queueFlag g = false) :
      GateMove c k (k.setMark g true) none (some (.entering g))
  | enqueue (g : Gate) (hflag : k.flag c = true) :
      GateMove c k { k with queues := k.queues.put c ((k.queues.mem c).enqueue g) }
        (some (.entering g)) none
  | dequeue (g : Gate) (hg : (k.queues.mem c).dequeue.1 = some g) :
      GateMove c k { k with queues := k.queues.put c (k.queues.mem c).dequeue.2 } none
        (some (.leaving g))
  | setDequeued (g : Gate) : GateMove c k (k.setMark g false) (some (.leaving g)) none

/-- What a statement does to queues and marks, when `transitOf` and `okOf` describe the points it
can reach. -/
def Effect.Gates {Pc : Type} (c : Cpu) (k : Kernel) (t : Option Transit)
    (transitOf : Pc → Option Transit) (okOf : Kernel → Pc → Prop) (e : Effect Pc) : Prop :=
  match e.ctl.target? with
  | some pc => GateMove c k e.kernel t (transitOf pc) ∧ okOf e.kernel pc
  | none => GateMove c k e.kernel none none ∧ t = none

section Lift

variable {Pc Pc' : Type} {c : Cpu} {k : Kernel} {t : Option Transit}
  {transitOf : Pc → Option Transit} {transitOf' : Pc' → Option Transit}
  {okOf : Kernel → Pc → Prop} {okOf' : Kernel → Pc' → Prop} {e : Effect Pc}

/-- A statement of a callee, after which the caller goes on at `pc₀`. -/
theorem Effect.Gates.lift (h : e.Gates c k t transitOf okOf) (f : Pc → Pc') (pc₀ : Pc')
    (hf : ∀ pc, transitOf' (f pc) = transitOf pc) (hok : ∀ k pc, okOf k pc → okOf' k (f pc))
    (ht₀ : transitOf' pc₀ = none) (hok₀ : ∀ k, okOf' k pc₀) :
    (e.lift f (.next pc₀)).Gates c k t transitOf' okOf' := by
  obtain ⟨k', intr, ctl⟩ := e
  cases ctl with
  | next pc => exact ⟨(hf pc).symm ▸ h.1, hok k' pc h.2⟩
  | ret =>
      obtain ⟨hmove, rfl⟩ := h
      exact ⟨ht₀.symm ▸ hmove, hok₀ k'⟩
  | die => exact h
  | wild => exact h
  | switch old next cont => exact ⟨(hf cont).symm ▸ h.1, hok k' cont h.2⟩
  | start next => exact h

/-- A statement of a callee whose return is that of the caller. -/
theorem Effect.Gates.liftRet (h : e.Gates c k t transitOf okOf) (f : Pc → Pc')
    (hf : ∀ pc, transitOf' (f pc) = transitOf pc) (hok : ∀ k pc, okOf k pc → okOf' k (f pc)) :
    (e.lift f .ret).Gates c k t transitOf' okOf' := by
  obtain ⟨k', intr, ctl⟩ := e
  cases ctl with
  | next pc => exact ⟨(hf pc).symm ▸ h.1, hok k' pc h.2⟩
  | switch old next cont => exact ⟨(hf cont).symm ▸ h.1, hok k' cont h.2⟩
  | _ => exact h

/-- A statement that touches no gate, at points that concern none. -/
theorem Effect.Gates.ofSame (h : GateSame k e.kernel) (ht : ∀ pc, transitOf pc = none)
    (hok : ∀ pc, okOf e.kernel pc) : e.Gates c k none transitOf okOf := by
  have hmove : GateMove c k e.kernel none none := .stay h
  unfold Effect.Gates
  cases e.ctl.target? with
  | some pc => exact ⟨(ht pc).symm ▸ hmove, hok pc⟩
  | none => exact ⟨hmove, rfl⟩

end Lift

variable {c : Cpu} {k : Kernel} {intr : Bool}

theorem GateSame.refl (k : Kernel) : GateSame k k := ⟨rfl, rfl, fun _ hd => Or.inl hd⟩

/-- The scheduler changes nothing but its own data. -/
theorem schedStep_kernel (pc : SchedPc) : ∃ s, (schedStep c k intr pc).kernel = k.setSched s := by
  have hsame : ∃ s, k = k.setSched s := ⟨k.sched, rfl⟩
  cases pc with
  | resumeRelist curr =>
      cases curr with
      | none => exact hsame
      | some curr => exact ⟨_, rfl⟩
  | resumeSkip next =>
      cases next with
      | none => exact hsame
      | some t =>
          by_cases ht : k.sched.killFlag t = true
          · simp only [schedStep, ht, if_true]
            exact ⟨_, rfl⟩
          · simp only [schedStep, ht]
            exact hsame
  | dispatchSwitch old next => cases old <;> cases next <;> exact hsame
  | killRemove that prev current =>
      simp only [schedStep]
      split
      · exact ⟨_, rfl⟩
      · exact ⟨_, rfl⟩
      · exact hsame
  | schedule =>
      simp only [schedStep]
      split
      · exact ⟨_, rfl⟩
      · exact ⟨_, rfl⟩
  | resumeDequeue => exact ⟨_, rfl⟩
  | dispatchSet old next => exact ⟨_, rfl⟩
  | exit => exact ⟨_, rfl⟩
  | kill that => exact ⟨_, rfl⟩
  | ready that => exact ⟨_, rfl⟩
  | goSet first => exact ⟨_, rfl⟩
  -- the other statements read only
  | _ => exact hsame

theorem epilogueStep_kernel (g : Gate) (pc : EpiloguePc) :
    ∃ s, (epilogueStep c k intr g pc).kernel = k.setSched s := by
  have hsame : ∃ s, k = k.setSched s := ⟨k.sched, rfl⟩
  cases pc with
  | start => cases g <;> exact hsame
  | assassinCheck current =>
      cases current with
      | none => exact hsame
      | some t => cases ht : k.sched.killFlag t <;> simp only [epilogueStep, ht] <;> exact hsame
  | sched pc => exact schedStep_kernel pc

theorem schedStep_gateSame (pc : SchedPc) : GateSame k (schedStep c k intr pc).kernel := by
  have hkernel : ∃ s, (schedStep c k intr pc).kernel = k.setSched s := schedStep_kernel pc
  obtain ⟨s, hs⟩ := hkernel
  rw [hs]
  exact ⟨rfl, rfl, fun _ hd => Or.inl hd⟩

theorem epilogueStep_gateSame (g : Gate) (pc : EpiloguePc) :
    GateSame k (epilogueStep c k intr g pc).kernel := by
  have hkernel : ∃ s, (epilogueStep c k intr g pc).kernel = k.setSched s :=
    epilogueStep_kernel g pc
  obtain ⟨s, hs⟩ := hkernel
  rw [hs]
  exact ⟨rfl, rfl, fun _ hd => Or.inl hd⟩

theorem enterStep_gateSame (pc : EnterPc) : GateSame k (enterStep c k intr pc).kernel := by
  cases pc with
  | setFlag =>
      refine ⟨rfl, rfl, fun d hd => Or.inl ?_⟩
      by_cases hdc : d = c
      · subst hdc
        simp [enterStep, Kernel.setFlag] at hd
      · simpa [enterStep, Kernel.setFlag, Function.update_of_ne hdc] using hd
  | spin current =>
      by_cases ht : k.sLock.turn = current
      · simp only [enterStep, ht, if_true]
        exact ⟨rfl, rfl, fun _ hd => Or.inl hd⟩
      · simp only [enterStep, ht]
        exact .refl k
  | _ => exact ⟨rfl, rfl, fun _ hd => Or.inl hd⟩

/-- `leave` takes gates out of the queue of its CPU, and clears the level flag after it found the
queue empty. -/
theorem leaveStep_gates (pc : LeavePc) (hpoint : pc.PointOk k c) :
    (leaveStep c k intr pc).Gates c k pc.transit? LeavePc.transit? (LeavePc.PointOk · c) := by
  cases pc with
  | dequeue =>
      cases hd : (k.queues.mem c).dequeue.1 with
      | none =>
          simp only [leaveStep, hd]
          exact ⟨.stay (.refl k), QueueMem.dequeue_fst.symm.trans hd⟩
      | some item =>
          simp only [leaveStep, hd]
          exact ⟨.dequeue item hd, trivial⟩
  | setDequeued item => exact ⟨.setDequeued item, trivial⟩
  -- the flag of this CPU is cleared, and its queue was found empty
  | clearFlag =>
      refine ⟨.stay ⟨rfl, rfl, fun d hd => ?_⟩, trivial⟩
      by_cases hdc : d = c
      · subst hdc
        exact Or.inr hpoint
      · refine Or.inl ?_
        simpa [leaveStep, Kernel.setFlag, Function.update_of_ne hdc] using hd
  | epilogue item pc =>
      simp only [leaveStep]
      have h : (epilogueStep c k intr item pc).Gates c k none (fun _ => none) fun _ _ => True :=
        .ofSame (epilogueStep_gateSame item pc) (fun _ => rfl) fun _ => trivial
      exact h.lift _ _ (fun _ => rfl) (fun _ _ _ => trivial) rfl fun _ => trivial
  | unlockStore loaded => exact ⟨.stay ⟨rfl, rfl, fun _ hd => Or.inl hd⟩, trivial⟩
  | enableIntReturn => exact ⟨.stay (.refl k), rfl⟩
  | _ => exact ⟨.stay (.refl k), trivial⟩

/-- `guardian` marks its gate before it puts it into the queue of its CPU. -/
theorem guardianStep_gates (g : Gate) (answer : Bool) (pc : GuardianPc) (hpoint : pc.PointOk k c)
    (hflag : pc.deferred = true → k.flag c = true) :
    (guardianStep c k intr g answer pc).Gates c k (pc.transit? g) (GuardianPc.transit? g)
      (GuardianPc.PointOk · c) := by
  have hack : GateSame k (k.ackIRQ c) := ⟨rfl, rfl, fun _ hd => Or.inl hd⟩
  cases pc with
  | prologue => cases answer <;> exact ⟨.stay (.refl k), trivial⟩
  | ackIRQ => exact ⟨.stay hack, trivial⟩
  | testFlag =>
      cases hf : k.flag c with
      | true =>
          simp only [guardianStep, hf, if_true]
          exact ⟨.stay (.refl k), rfl⟩
      | false =>
          simp only [guardianStep, hf]
          exact ⟨.stay (.refl k), trivial⟩
  | setQueued currCpu =>
      -- interrupts were disabled since `getCPUID`, so the thread has not moved
      obtain rfl : currCpu = c := hpoint
      cases hq : k.queueFlag g with
      | true =>
          simp only [guardianStep, hq, if_true]
          refine ⟨.stay ⟨rfl, ?_, fun _ hd => Or.inl hd⟩, trivial⟩
          show Function.update k.queueFlag g true = k.queueFlag
          rw [← hq]
          exact Function.update_eq_self g k.queueFlag
      | false =>
          simp only [guardianStep, hq]
          exact ⟨.setQueued g hq, rfl⟩
  | enqueue currCpu =>
      obtain rfl : currCpu = c := hpoint
      exact ⟨.enqueue g (hflag rfl), trivial⟩
  | ackIRQLast via => exact ⟨.stay hack, trivial⟩
  | enableIntLast via => exact ⟨.stay (.refl k), trivial⟩
  | enableInt => exact ⟨.stay (.refl k), trivial⟩
  | enter pc =>
      simp only [guardianStep]
      have h : (enterStep c k intr pc).Gates c k none (fun _ => none) fun _ _ => True :=
        .ofSame (enterStep_gateSame pc) (fun _ => rfl) fun _ => trivial
      exact h.lift _ _ (fun _ => rfl) (fun _ _ _ => trivial) rfl fun _ => trivial
  | epilogue pc =>
      simp only [guardianStep]
      have h : (epilogueStep c k intr g pc).Gates c k none (fun _ => none) fun _ _ => True :=
        .ofSame (epilogueStep_gateSame g pc) (fun _ => rfl) fun _ => trivial
      exact h.lift _ _ (fun _ => rfl) (fun _ _ _ => trivial) rfl fun _ => trivial
  | leave pc =>
      simp only [guardianStep]
      exact (leaveStep_gates pc hpoint).lift _ _ (fun _ => rfl) (fun _ _ h => h) rfl
        fun _ => trivial
  | iret via => exact ⟨.stay (.refl k), rfl⟩

/-! ## The innermost activation -/

theorem LeavePc.unmasked (pc : LeavePc) (h : pc.masked = false) :
    pc.transit? = none ∧ ∀ k c, pc.PointOk k c := by
  cases pc with
  | disableInt => exact ⟨rfl, fun _ _ => trivial⟩
  | epilogue item pc => exact ⟨rfl, fun _ _ => trivial⟩
  | _ => simp [LeavePc.masked] at h

/-- Where an interrupt can arrive, nothing is in transit and nothing is relied on. -/
theorem Activation.unmasked {a : Activation} (h : a.masked = false) :
    a.transit? = none ∧ ∀ k c, a.PointOk k c := by
  cases a with
  | user => exact ⟨rfl, fun _ _ => trivial⟩
  | secure pc =>
      cases pc with
      | leave pc => exact pc.unmasked h
      | _ => exact ⟨rfl, fun _ _ => trivial⟩
  | kickoff pc => exact pc.unmasked h
  | guardian g pc =>
      cases pc with
      | enter pc => exact ⟨rfl, fun _ _ => trivial⟩
      | epilogue pc => exact ⟨rfl, fun _ _ => trivial⟩
      | leave pc => exact pc.unmasked h
      | iret via => exact ⟨rfl, fun _ _ => trivial⟩
      | _ => simp [Activation.masked, GuardianPc.masked] at h

/-- A gate on its way out of a queue belongs to a call of `leave`. -/
theorem Activation.phase?_of_leaving {a : Activation} {g : Gate}
    (h : a.transit? = some (.leaving g)) : a.phase?.isSome = true := by
  cases a with
  | guardian i pc =>
      cases pc with
      | leave pc => rfl
      | _ => simp [Activation.transit?, GuardianPc.transit?] at h
  | secure pc => cases pc <;> rfl
  | _ => rfl

/-- A statement of the innermost activation is a move of its gate. -/
theorem activationStep_gates {a : Activation} {below : List Activation} {ch : Choice}
    {e : Effect Activation} (hs : StackOk (a :: below)) (hpoint : a.PointOk k c)
    (hflag : k.flag c = (stackPhase (a :: below)).flag)
    (h : activationStep c k intr a ch = some e) :
    e.Gates c k a.transit? Activation.transit? (Activation.PointOk · c) := by
  cases hs with
  | @handler g pc below hbelow hmasked hdirect hdeferred =>
      obtain ⟨answer, -, -, rfl⟩ := activationStep_guardian h
      refine (guardianStep_gates g answer pc hpoint fun hd => ?_).liftRet _ (fun _ => rfl)
        fun _ _ h => h
      have hnone : (Activation.guardian g pc).phase? = none := GuardianPc.phase?_of_deferred hd
      rw [hflag, stackPhase_cons_of_none hnone]
      exact hdeferred hd
  | bottom ha =>
      rcases activationStep_thread ha h with ⟨op, rfl, -, rfl⟩ | ⟨rfl, -, rfl⟩ | ⟨answer, -, h⟩
      · exact ⟨.stay (.refl k), trivial⟩
      · exact ⟨.stay (.refl k), rfl⟩
      · rcases h with ⟨op, pc, rfl, rfl⟩ | ⟨pc, rfl, rfl⟩ | ⟨pc, rfl, rfl⟩ | ⟨pc, rfl, rfl⟩
        · have h : (enterStep c k intr pc).Gates c k none (fun _ => none) fun _ _ => True :=
            .ofSame (enterStep_gateSame pc) (fun _ => rfl) fun _ => trivial
          exact h.lift _ _ (fun _ => rfl) (fun _ _ _ => trivial) rfl fun _ => trivial
        · have h : (schedStep c k intr pc).Gates c k none (fun _ => none) fun _ _ => True :=
            .ofSame (schedStep_gateSame pc) (fun _ => rfl) fun _ => trivial
          exact h.lift _ _ (fun _ => rfl) (fun _ _ _ => trivial) rfl fun _ => trivial
        · exact (leaveStep_gates pc hpoint).lift _ _ (fun _ => rfl) (fun _ _ h => h) rfl
            fun _ => trivial
        · exact (leaveStep_gates pc hpoint).lift _ _ (fun _ => rfl) (fun _ _ h => h) rfl
            fun _ => trivial

end MPStuBS.Guard
