import MPStuBS.Guard.GateQueues
import MPStuBS.Guard.OperationPoints

/-!
# The statements that are left

A rank for every point of the code that a CPU executes inside the guard while it
waits for no other CPU: it has set the level flag and is about to draw a ticket,
or its ticket is up, or it owns the lock. Every statement leads to a point of
lower rank. There are two exceptions. A round of a
loop of the scheduler leads to the same point, with fewer links to follow
(`SchedPc.Rounds`), and `leave` starts over with every gate that it takes from
the queue of the CPU (`Activation.Fetches`). `activationStep_descends` says so
for all activations; on a stack the ranks of the handlers that interrupted the
guard add up (`stackRank`).
-/

set_option autoImplicit false

namespace MPStuBS.Guard

open MPStuBS.Object MPStuBS.Machine MPStuBS.Thread

/-! ## Ranks -/

def SchedPc.rank : SchedPc → Nat
  | .resume => 30
  | .resumeRelist _ => 29
  | .resumeDequeue => 28
  | .resumeSkip _ | .exit | .schedule => 27
  | .dispatch _ | .activate _ => 26
  | .dispatchDisable _ _ | .goDisable _ => 25
  | .dispatchSet _ _ | .goSet _ | .kill _ => 24
  | .dispatchEnable _ _ | .goEnable _ | .killRemove _ _ _ => 23
  | .dispatchSwitch _ _ | .goJump _ | .killNotify | .ready _ | .work => 22
  | .dispatched => 21

def EpiloguePc.rank : EpiloguePc → Nat
  | .start => 40
  | .assassinCheck _ => 39
  | .sched pc => pc.rank

def EnterPc.rank : EnterPc → Nat
  | .disableInt => 47
  | .setFlag => 46
  | .enableInt => 45
  | .lock => 44
  | .spin _ => 43

def LeavePc.rank : LeavePc → Nat
  | .setDequeued _ => 42
  | .enableInt _ => 41
  | .epilogue _ pc => pc.rank
  | .disableInt => 20
  | .dequeue => 19
  | .clearFlag => 18
  | .unlock => 17
  | .unlockStore _ => 16
  | .enableIntReturn => 0

def GuardianPc.rank : GuardianPc → Nat
  | .prologue => 8
  | .ackIRQ => 7
  | .testFlag => 6
  | .setQueued _ => 5
  | .enqueue _ => 4
  | .ackIRQLast _ => 3
  | .enableIntLast _ => 2
  | .iret _ => 1
  | .enableInt => 0
  | .enter pc => pc.rank
  | .epilogue pc => pc.rank
  | .leave pc => pc.rank

def Activation.rank : Activation → Nat
  | .user => 0
  | .secure (.enter _ pc) => pc.rank
  | .secure (.body pc) => pc.rank
  | .secure (.leave pc) => pc.rank
  | .kickoff pc => pc.rank
  | .guardian _ pc => pc.rank

/-- At most `n` rounds of the loop at this point are left. -/
def SchedPc.Rounds (s : Sched) (n : Nat) : SchedPc → Prop
  | .resumeSkip next => ∃ r, Sched.skipDying n s next = some r
  | .killRemove that prev current =>
      ∃ r, s.jobsMem.removeFrom QueueMem.sameItem that n prev current = some r
  | _ => True

/-- `leave` has taken a gate from the queue. -/
def LeavePc.Fetches (pc : LeavePc) : Prop := ∃ g, pc.transit? = some (.leaving g)

def GuardianPc.Fetches (pc : GuardianPc) : Prop := ∃ pc', pc = .leave pc' ∧ pc'.Fetches

def Activation.Fetches (a : Activation) : Prop := ∃ g, a.transit? = some (.leaving g)

/-- The statement at `pc` leads to a point of lower rank, to the next round of a loop, or to a gate
taken from the queue; `back` is the rank of the point to which it returns. -/
def Effect.Descends {Pc : Type} (k : Kernel) (rank : Pc → Nat) (inside : Pc → Option SchedPc)
    (fetches : Pc → Prop) (pc : Pc) (back : Nat) (e : Effect Pc) : Prop :=
  match e.ctl with
  | .next pc' => rank pc' < rank pc ∨ fetches pc' ∨
      rank pc' = rank pc ∧ ∃ sp sp', inside pc = some sp ∧ inside pc' = some sp' ∧
        ∀ n, sp.Rounds k.sched n → ∃ n', n' < n ∧ sp'.Rounds e.kernel.sched n'
  | .ret => back < rank pc
  | .die => True
  | .wild => True
  | .switch _ _ _ => SchedPc.dispatched.rank < rank pc
  | .start _ => SchedPc.dispatched.rank < rank pc

section Lift

variable {Pc Pc' : Type} {k : Kernel} {rank : Pc → Nat} {rank' : Pc' → Nat}
  {inside : Pc → Option SchedPc} {inside' : Pc' → Option SchedPc} {fetches : Pc → Prop}
  {fetches' : Pc' → Prop} {pc : Pc} {back back' : Nat} {e : Effect Pc}

/-- A statement of a callee, after which the caller goes on at `pc₀`. -/
theorem Effect.Descends.lift (h : e.Descends k rank inside fetches pc back) (f : Pc → Pc')
    (pc₀ : Pc') (hf : ∀ pc, rank' (f pc) = rank pc) (hin : ∀ pc, inside' (f pc) = inside pc)
    (hfetch : ∀ pc, fetches pc → fetches' (f pc)) (h₀ : rank' pc₀ ≤ back) :
    (e.lift f (.next pc₀)).Descends k rank' inside' fetches' (f pc) back' := by
  obtain ⟨k', intr, ctl⟩ := e
  cases ctl with
  | next pc' =>
      show rank' (f pc') < rank' (f pc) ∨ fetches' (f pc') ∨ rank' (f pc') = rank' (f pc) ∧ _
      rw [hf, hf, hin, hin]
      rcases h with h | h | h
      · exact .inl h
      · exact .inr (.inl (hfetch pc' h))
      · exact .inr (.inr h)
  | ret =>
      refine .inl ?_
      rw [hf]
      exact Nat.lt_of_le_of_lt h₀ h
  | die => exact trivial
  | wild => exact trivial
  | switch t u cont =>
      show _ < rank' (f pc)
      rw [hf]
      exact h
  | start t =>
      show _ < rank' (f pc)
      rw [hf]
      exact h

/-- A statement of a callee whose return is that of the caller. -/
theorem Effect.Descends.liftRet (h : e.Descends k rank inside fetches pc back) (f : Pc → Pc')
    (hf : ∀ pc, rank' (f pc) = rank pc) (hin : ∀ pc, inside' (f pc) = inside pc)
    (hfetch : ∀ pc, fetches pc → fetches' (f pc)) :
    (e.lift f .ret).Descends k rank' inside' fetches' (f pc) back := by
  obtain ⟨k', intr, ctl⟩ := e
  cases ctl with
  | next pc' =>
      show rank' (f pc') < rank' (f pc) ∨ fetches' (f pc') ∨ rank' (f pc') = rank' (f pc) ∧ _
      rw [hf, hf, hin, hin]
      rcases h with h | h | h
      · exact .inl h
      · exact .inr (.inl (hfetch pc' h))
      · exact .inr (.inr h)
  | die => exact trivial
  | wild => exact trivial
  | ret =>
      show _ < rank' (f pc)
      rw [hf]
      exact h
  | switch t u cont =>
      show _ < rank' (f pc)
      rw [hf]
      exact h
  | start t =>
      show _ < rank' (f pc)
      rw [hf]
      exact h

end Lift

/-! ## Statements -/

variable {c : Cpu} {k : Kernel} {intr : Bool}

/-- A statement of the scheduler, which returns to a point of rank 20 at most. -/
theorem schedStep_descends (pc : SchedPc) :
    (schedStep c k intr pc).Descends k SchedPc.rank some (fun _ => False) pc 20 := by
  cases pc with
  | resumeRelist curr =>
      cases curr with
      | none => exact trivial
      | some curr => exact .inl (Nat.lt_succ_self 28)
  | resumeSkip next =>
      cases next with
      | none => exact trivial
      | some t =>
          cases ht : k.sched.killFlag t with
          | true =>
              -- a round of the loop
              simp only [schedStep, ht, if_true]
              refine .inr (.inr ⟨rfl, _, _, rfl, rfl, fun n hn => ?_⟩)
              obtain ⟨r, hr⟩ := hn
              cases n with
              | zero => cases hr
              | succ n =>
                  simp only [Sched.skipDying, ht, if_true] at hr
                  exact ⟨n, Nat.lt_succ_self n, r, hr⟩
          | false =>
              simp only [schedStep, ht]
              exact .inl (show 26 < 27 by decide)
  | dispatchSwitch old next =>
      cases next with
      | none => cases old <;> exact trivial
      | some next =>
          cases old with
          | none => exact (show 21 < 22 by decide)
          | some old => exact (show 21 < 22 by decide)
  | killRemove that prev current =>
      cases hr : k.sched.jobsMem.removeStep QueueMem.sameItem that prev current with
      | done out m =>
          cases out with
          | none =>
              simp only [schedStep, hr]
              exact .inl (show 22 < 23 by decide)
          | some t =>
              simp only [schedStep, hr]
              exact (show 20 < 23 by decide)
      | more prev' current' =>
          simp only [schedStep, hr]
          refine .inr (.inr ⟨rfl, _, _, rfl, rfl, fun n hn => ?_⟩)
          obtain ⟨r, hrem⟩ := hn
          cases n with
          | zero => cases hrem
          | succ n =>
              simp only [QueueMem.removeFrom, hr] at hrem
              exact ⟨n, Nat.lt_succ_self n, r, hrem⟩
  | schedule =>
      cases hd : k.sched.dequeueJob.1 with
      | none =>
          simp only [schedStep, hd]
          exact trivial
      | some first =>
          simp only [schedStep, hd]
          exact .inl (show 26 < 27 by decide)
  | killNotify => exact (show 20 < 22 by decide)
  | ready that => exact (show 20 < 22 by decide)
  | work => exact (show 20 < 22 by decide)
  | dispatched => exact (show 20 < 21 by decide)
  | goJump first => exact (show 21 < 22 by decide)
  | _ => exact .inl (Nat.lt_succ_self _)

/-- A statement of an epilogue. -/
theorem epilogueStep_descends (g : Gate) (pc : EpiloguePc) :
    (epilogueStep c k intr g pc).Descends k EpiloguePc.rank EpiloguePc.schedPc? (fun _ => False)
      pc 20 := by
  cases pc with
  | start =>
      cases g with
      | watch => exact .inl (show 30 < 40 by decide)
      | assassin => exact .inl (show 39 < 40 by decide)
      | _ => exact (show 20 < 40 by decide)
  | assassinCheck current =>
      cases current with
      | none => exact trivial
      | some t =>
          cases ht : k.sched.killFlag t with
          | true =>
              simp only [epilogueStep, ht, if_true]
              exact .inl (show 30 < 39 by decide)
          | false =>
              simp only [epilogueStep, ht]
              exact (show 20 < 39 by decide)
  | sched pc => exact (schedStep_descends pc).liftRet _ (fun _ => rfl) (fun _ => rfl) fun _ h => h

/-- The points of `enter` behind `flag[c] = true`, where the wait is one for the ticket that is
up. -/
def EnterPc.Proceeds (turn : Ticket) : EnterPc → Prop
  | .enableInt => True
  | .lock => True
  | .spin current => current = turn
  | _ => False

/-- A statement of `enter`; the wait ends when the ticket is up. -/
theorem enterStep_descends {pc : EnterPc} (h : pc.Proceeds k.sLock.turn) :
    (enterStep c k intr pc).Descends k EnterPc.rank (fun _ => none) (fun _ => False) pc 40 := by
  cases pc with
  | disableInt => exact h.elim
  | setFlag => exact h.elim
  | enableInt => exact .inl (Nat.lt_succ_self 44)
  | lock => exact .inl (Nat.lt_succ_self 43)
  | spin current =>
      obtain rfl : current = k.sLock.turn := h
      simp only [enterStep, if_true]
      exact (show 40 < 43 by decide)

theorem UserOp.rank_start (op : UserOp) : op.start.rank ≤ 40 := by
  cases op <;> simp [UserOp.start, SchedPc.rank]

/-- A statement of `leave` in front of the release of the lock. -/
theorem leaveStep_descends {pc : LeavePc} (h : pc ≠ .enableIntReturn) (back : Nat) :
    (leaveStep c k intr pc).Descends k LeavePc.rank LeavePc.schedPc? LeavePc.Fetches pc back := by
  cases pc with
  | dequeue =>
      cases hd : (k.queues.mem c).dequeue.1 with
      | none =>
          simp only [leaveStep, hd]
          exact .inl (Nat.lt_succ_self 18)
      | some item =>
          -- the loop starts over
          simp only [leaveStep, hd]
          exact .inr (.inl ⟨item, rfl⟩)
  | epilogue item pc =>
      exact (epilogueStep_descends item pc).lift _ _ (fun _ => rfl) (fun _ => rfl)
        (fun _ hpc => hpc.elim) (Nat.le_refl 20)
  | unlockStore loaded => exact .inl (show 0 < 16 by decide)
  | enableIntReturn => exact absurd rfl h
  | _ => exact .inl (Nat.lt_succ_self _)

theorem leaveStep_ne_ret {pc : LeavePc} (h : pc ≠ .enableIntReturn) :
    (leaveStep c k intr pc).ctl ≠ .ret := by
  cases pc with
  | dequeue => cases hd : (k.queues.mem c).dequeue.1 <;> simp [leaveStep, hd]
  | epilogue item pc => exact Control.lift_ne_ret
  | enableIntReturn => exact absurd rfl h
  | _ => simp [leaveStep]

/-! ## Inside the guard -/

/-- The points between `flag[c] = true` and the release of the lock, without the waits. A handler
that interrupted them has found the level flag set. -/
def GuardianPc.Proceeds (k : Kernel) : GuardianPc → Prop
  | .enter pc => pc.Proceeds k.sLock.turn
  | .leave pc => pc ≠ .enableIntReturn
  | .enableInt => False
  | _ => True

def Activation.Proceeds (k : Kernel) : Activation → Prop
  | .user => False
  | .secure (.enter _ pc) => pc.Proceeds k.sLock.turn
  | .secure (.body _) => True
  | .secure (.leave pc) => pc ≠ .enableIntReturn
  | .kickoff pc => pc ≠ .enableIntReturn
  | .guardian _ pc => pc.Proceeds k

/-- What a statement inside the guard does: it descends, it goes on in the guard itself if it was
there, and only a handler on the deferred path returns. -/
structure Effect.Progresses {Pc : Type} (k : Kernel) (rank : Pc → Nat)
    (inside : Pc → Option SchedPc) (fetches : Pc → Prop) (inGuard : Pc → Bool) (pc : Pc)
    (e : Effect Pc) : Prop where
  descends : e.Descends k rank inside fetches pc 0
  next : ∀ pc', e.ctl = .next pc' → inGuard pc' = inGuard pc
  ret : e.ctl = .ret → inGuard pc = false

theorem guardianStep_progresses {g : Gate} {answer : Bool} {pc : GuardianPc} (h : pc.Proceeds k)
    (hflag : pc = .testFlag → k.flag c = true) :
    (guardianStep c k intr g answer pc).Progresses k GuardianPc.rank GuardianPc.schedPc?
      GuardianPc.Fetches (fun pc => pc.phase?.isSome) pc := by
  have hlift : ∀ {Pc : Type} {e : Effect Pc} {f : Pc → GuardianPc} {pc₀ : GuardianPc},
      (∀ pc, (f pc).phase?.isSome = true) → pc₀.phase?.isSome = true →
        ∀ pc', (e.lift f (.next pc₀)).ctl = .next pc' → pc'.phase?.isSome = true := by
    intro Pc e f pc₀ hf h₀ pc' hctl
    have htarget : (e.ctl.lift f (.next pc₀)).target? = some pc' :=
      congrArg Control.target? hctl
    rcases Control.target?_lift htarget with ⟨pc'', -, rfl⟩ | rfl
    · exact hf pc''
    · exact h₀
  cases pc with
  | prologue =>
      cases answer with
      | true => exact ⟨.inl (show 7 < 8 by decide), fun _ hpc => by cases hpc; rfl, fun _ => rfl⟩
      | false => exact ⟨.inl (show 3 < 8 by decide), fun _ hpc => by cases hpc; rfl, fun _ => rfl⟩
  | testFlag =>
      simp only [guardianStep, hflag rfl, if_true]
      exact ⟨.inl (show 5 < 6 by decide), fun _ hpc => by cases hpc; rfl, fun _ => rfl⟩
  | setQueued currCpu =>
      cases hq : k.queueFlag g with
      | true =>
          simp only [guardianStep, hq, if_true]
          exact ⟨.inl (show 3 < 5 by decide), fun _ hpc => by cases hpc; rfl, fun _ => rfl⟩
      | false =>
          simp only [guardianStep, hq]
          exact ⟨.inl (show 4 < 5 by decide), fun _ hpc => by cases hpc; rfl, fun _ => rfl⟩
  | enableInt => exact h.elim
  | enter pc =>
      refine ⟨(enterStep_descends h).lift _ _ (fun _ => rfl) (fun _ => rfl) (fun _ hpc => hpc.elim)
        (Nat.le_refl 40), hlift (fun _ => rfl) rfl, fun hret => ?_⟩
      exact absurd hret Control.lift_ne_ret
  | epilogue pc =>
      refine ⟨(epilogueStep_descends g pc).lift _ _ (fun _ => rfl) (fun _ => rfl)
        (fun _ hpc => hpc.elim) (Nat.le_refl 20), hlift (fun _ => rfl) rfl, fun hret => ?_⟩
      exact absurd hret Control.lift_ne_ret
  | leave pc =>
      -- the lock is still to be released, so `leave` does not return
      have hne : (leaveStep c k intr pc).ctl ≠ .ret := leaveStep_ne_ret h
      refine ⟨?_, fun pc' hctl => ?_, fun hret => absurd hret Control.lift_ne_ret⟩
      · exact (leaveStep_descends h 1).lift _ _ (fun _ => rfl) (fun _ => rfl)
          (fun pc' hpc' => ⟨pc', rfl, hpc'⟩) (Nat.le_refl 1)
      · simp only [guardianStep, Effect.lift] at hctl
        cases hl : (leaveStep c k intr pc).ctl with
        | next pc'' =>
            rw [hl] at hctl
            obtain rfl := Control.next.inj hctl
            rfl
        | ret => exact absurd hl hne
        | _ =>
            rw [hl] at hctl
            cases hctl
  | iret via => exact ⟨Nat.zero_lt_one, fun _ hpc => (by cases hpc), fun _ => rfl⟩
  | _ => exact ⟨.inl (Nat.lt_succ_self _), fun _ hpc => by cases hpc; rfl, fun _ => rfl⟩

theorem activationStep_progresses {a : Activation} {ch : Choice} {e : Effect Activation}
    (h : a.Proceeds k) (hflag : ∀ g, a = .guardian g .testFlag → k.flag c = true)
    (he : activationStep c k intr a ch = some e) :
    e.Progresses k Activation.rank Activation.schedPc? Activation.Fetches
      (fun a => a.phase?.isSome) a := by
  rcases activationStep_cases he with ⟨g, pc, answer, rfl, -, rfl⟩ | ha
  · have hpc : (guardianStep c k intr g answer pc).Progresses k GuardianPc.rank GuardianPc.schedPc?
        GuardianPc.Fetches (fun pc => pc.phase?.isSome) pc :=
      guardianStep_progresses h fun hpc => hflag g (by rw [hpc])
    refine ⟨hpc.descends.liftRet _ (fun _ => rfl) (fun _ => rfl) ?_, fun a' hctl => ?_,
      fun hret => ?_⟩
    · rintro _ ⟨pc', rfl, hpc'⟩
      exact hpc'
    · cases hg : (guardianStep c k intr g answer pc).ctl with
      | next pc' =>
          simp only [Effect.lift, hg] at hctl
          obtain rfl := Control.next.inj hctl
          exact hpc.next pc' hg
      | _ =>
          simp only [Effect.lift, hg] at hctl
          cases hctl
    · refine hpc.ret ?_
      cases hg : (guardianStep c k intr g answer pc).ctl with
      | ret => rfl
      | _ =>
          simp only [Effect.lift, hg] at hret
          cases hret
  · -- the code of a thread has a phase of its own everywhere, and it does not return
    obtain ⟨hret, htarget⟩ := activationStep_isHandler ha he
    have hphase : ∀ {b : Activation}, b.isHandler = false → b.phase?.isSome = true := by
      intro b hb
      obtain ⟨p, hp⟩ := Activation.phase?_isSome hb
      rw [hp]
      rfl
    refine ⟨?_, fun a' hctl => ?_, fun hctl => absurd hctl hret⟩
    · rcases activationStep_thread ha he with ⟨op, rfl, -, -⟩ | ⟨rfl, -, -⟩ | ⟨answer, -, he⟩
      · exact h.elim
      · exact h.elim
      · rcases he with ⟨op, pc, rfl, rfl⟩ | ⟨pc, rfl, rfl⟩ | ⟨pc, rfl, rfl⟩ | ⟨pc, rfl, rfl⟩
        · exact (enterStep_descends h).lift _ _ (fun _ => rfl) (fun _ => rfl)
            (fun _ hpc => hpc.elim) op.rank_start
        · exact (schedStep_descends pc).lift _ _ (fun _ => rfl) (fun _ => rfl)
            (fun _ hpc => hpc.elim) (Nat.le_refl 20)
        · exact (leaveStep_descends h 0).lift _ _ (fun _ => rfl) (fun _ => rfl) (fun _ hpc => hpc)
            (Nat.le_refl 0)
        · exact (leaveStep_descends h 0).lift _ _ (fun _ => rfl) (fun _ => rfl) (fun _ hpc => hpc)
            (Nat.le_refl 0)
    · rw [hphase (htarget a' (by rw [hctl]; rfl)), hphase ha]

/-! ## Stacks -/

/-- The ranks of the handlers that interrupted the guard, and of the point of the guard. -/
def stackRank : List Activation → Nat
  | [] => 0
  | a :: below => if a.phase?.isSome then a.rank else a.rank + stackRank below

/-- The points up to the insertion of the gate into the queue. -/
def Activation.enqueues : Activation → Nat
  | .guardian _ .prologue => 1
  | .guardian _ .ackIRQ => 1
  | .guardian _ .testFlag => 1
  | .guardian _ (.setQueued _) => 1
  | .guardian _ (.enqueue _) => 1
  | _ => 0

/-- The number of gates that the handlers above the guard may still put into the queue. -/
def stackEnqueues : List Activation → Nat
  | [] => 0
  | a :: below => if a.phase?.isSome then 0 else a.enqueues + stackEnqueues below

section Stack

variable {a a' : Activation} {below : List Activation}

theorem stackRank_of_some (h : a.phase?.isSome = true) : stackRank (a :: below) = a.rank :=
  if_pos h

theorem stackRank_of_none (h : a.phase?.isSome = false) :
    stackRank (a :: below) = a.rank + stackRank below := by
  simp [stackRank, h]

theorem stackEnqueues_of_some (h : a.phase?.isSome = true) : stackEnqueues (a :: below) = 0 :=
  if_pos h

theorem stackEnqueues_of_none (h : a.phase?.isSome = false) :
    stackEnqueues (a :: below) = a.enqueues + stackEnqueues below := by
  simp [stackEnqueues, h]

/-- The phases inside the guard in which a CPU waits for no other one. -/
def Phase.Proceeds (turn : Ticket) : Phase → Prop
  | .flagged => True
  | .waiting ticket => ticket = turn
  | .owning => True
  | .unlocking => True
  | .releasing _ => True
  | _ => False

/-- Where an interrupt can arrive, the level flag is set. -/
theorem Phase.Proceeds.flag {turn : Ticket} {p : Phase} (h : p.Proceeds turn)
    (hs : p.settled = true) : p.flag = true := by
  cases p with
  | free => exact h.elim
  | unlocking => cases hs
  | releasing loaded => cases hs
  | _ => rfl

theorem EnterPc.proceeds {turn : Ticket} {pc : EnterPc} (h : pc.phase.Proceeds turn) :
    pc.Proceeds turn := by
  cases pc with
  | spin current => exact h
  | enableInt => exact trivial
  | lock => exact trivial
  | _ => exact h.elim

theorem LeavePc.ne_of_proceeds {turn : Ticket} {pc : LeavePc} (h : pc.phase.Proceeds turn) :
    pc ≠ .enableIntReturn := by
  rintro rfl
  exact h

theorem StackOk.proceeds (hs : StackOk (a :: below))
    (h : (stackPhase (a :: below)).Proceeds k.sLock.turn) : a.Proceeds k := by
  cases a with
  | user => exact h.elim
  | secure pc =>
      cases pc with
      | enter op pc => exact EnterPc.proceeds h
      | body pc => exact trivial
      | leave pc => exact LeavePc.ne_of_proceeds h
  | kickoff pc => exact LeavePc.ne_of_proceeds h
  | guardian g pc =>
      cases pc with
      | enter pc => exact EnterPc.proceeds h
      | leave pc => exact LeavePc.ne_of_proceeds h
      | enableInt =>
          -- on the direct path nothing of the guard is below
          rw [stackPhase_cons_of_none rfl, hs.below_free rfl] at h
          exact h.elim
      | _ => exact trivial

/-- A handler that interrupted the guard finds the level flag set. -/
theorem StackOk.flag_of_proceeds {turn : Ticket} {g : Gate}
    (hs : StackOk (.guardian g .testFlag :: below))
    (h : (stackPhase (.guardian g .testFlag :: below)).Proceeds turn) :
    (stackPhase (.guardian g .testFlag :: below)).flag = true := by
  rw [stackPhase_cons_of_none rfl] at h ⊢
  cases hs with
  | bottom ha => cases ha
  | handler hbelow hmasked hdirect hdeferred => exact h.flag (hbelow.settled hmasked)

/-- On its way to the queue a gate is counted until it is there. -/
theorem activationStep_enqueues {ch : Choice} {e : Effect Activation}
    (ha : a.phase?.isSome = false) (he : activationStep c k intr a ch = some e)
    (ht : e.ctl.target? = some a') :
    a'.enqueues ≤ a.enqueues ∧ (∀ g, a.transit? = some (.entering g) →
      a'.enqueues + 1 ≤ a.enqueues) := by
  rcases activationStep_cases he with ⟨g, pc, answer, rfl, -, rfl⟩ | hthread
  · obtain ⟨pc', hpc', rfl⟩ := Control.target?_liftRet ht
    cases pc with
    | prologue =>
        cases answer <;>
          · obtain rfl := Option.some.inj hpc'
            exact ⟨by simp [Activation.enqueues], fun _ h => by cases h⟩
    | testFlag =>
        cases hf : k.flag c <;>
          · simp only [guardianStep, hf] at hpc'
            obtain rfl := Option.some.inj hpc'
            exact ⟨by simp [Activation.enqueues], fun _ h => by cases h⟩
    | setQueued currCpu =>
        cases hq : k.queueFlag g <;>
          · simp only [guardianStep, hq] at hpc'
            obtain rfl := Option.some.inj hpc'
            exact ⟨by simp [Activation.enqueues], fun _ h => by cases h⟩
    | enqueue currCpu =>
        obtain rfl := Option.some.inj hpc'
        exact ⟨by simp [Activation.enqueues], fun _ _ => by simp [Activation.enqueues]⟩
    | enter pc => cases ha
    | epilogue pc => cases ha
    | leave pc => cases ha
    | iret via => cases hpc'
    | _ =>
        obtain rfl := Option.some.inj hpc'
        exact ⟨by simp [Activation.enqueues], fun _ h => by cases h⟩
  · obtain ⟨p, hp⟩ := Activation.phase?_isSome hthread
    rw [hp] at ha
    cases ha

end Stack

end MPStuBS.Guard
