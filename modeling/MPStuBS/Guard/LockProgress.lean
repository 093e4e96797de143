import MPStuBS.Guard.GuardedOperations
import MPStuBS.Guard.PendingGates
import MPStuBS.Guard.Ranks

/-!
# Progress inside the guard

The CPUs with a ticket form the line of the ticket lock (`Kernel.Line`). What a CPU
inside the guard has left to do has a rank (`Owes`): the gates in its queue, the rank
of its stack, and the rounds of the loop it is in. Unless the CPU waits for another
one, every statement of its own lowers the rank (`Orderly.own_step`), and no step of
another CPU changes it (`Orderly.other_step`): the queue, the stack and, while it owns
the lock, the data of the scheduler are its own.

That the loops come to an end rests on the ready list being a list, in the middle
of an operation as well (`SchedPc.Midway.exists_rounds`).
-/

set_option autoImplicit false

namespace MPStuBS.Guard

open MPStuBS.Object MPStuBS.Machine MPStuBS.Thread MPStuBS.Thread.Sched MPStuBS.Lib MPStuBS.Lib.Run
open MPStuBS.Lib.TicketOrder

/-! ## The line for the lock -/

/-- The CPUs with a ticket, in the order in which they are served. -/
def Kernel.Line (k : Kernel) (ph : Cpu → Phase) (q : List Cpu) : Prop :=
  Ordered k.sLock.ticketnumber k.sLock.turn (fun d => (ph d).stage) q

section Moves

variable {c : Cpu} {k k' : Kernel} {p p' : Phase} {ph : Cpu → Phase} {q : List Cpu}

/-- A CPU joins the line at its end, and it leaves it with the release of the lock. -/
theorem LockMove.line (h : LockMove c k k' p p') (hq : k.Line ph q) (hp : ph c = p) :
    ∃ q', k'.Line (Function.update ph c p') q' ∧
      (q' = q ∨ q' = q ++ [c] ∨ (∃ loaded, p = .releasing loaded) ∧ q' = q.tail) := by
  have hcard : Fintype.card Cpu < 2 ^ 32 := by decide
  have hstage : (fun d => (ph d).stage) c = p.stage := congrArg Phase.stage hp
  cases h with
  | stay p hsame =>
      refine ⟨q, ?_, .inl rfl⟩
      rw [← hp, Function.update_eq_self, Kernel.Line, hsame.sLock]
      exact hq
  | mark =>
      refine ⟨q, ?_, .inl rfl⟩
      rw [Kernel.Line, stage_keep (by rw [hp]; rfl)]
      exact hq
  | request =>
      refine ⟨q ++ [c], ?_, .inr (.inl rfl)⟩
      rw [Kernel.Line, stage_update]
      exact Ordered.request hq hstage
  | acquire =>
      refine ⟨q, ?_, .inl rfl⟩
      rw [Kernel.Line, stage_update]
      exact Ordered.acquire hcard hq hstage
  | unmark =>
      refine ⟨q, ?_, .inl rfl⟩
      rw [Kernel.Line, stage_keep (by rw [hp]; rfl)]
      exact hq
  | load =>
      refine ⟨q, ?_, .inl rfl⟩
      rw [Kernel.Line, stage_update]
      exact Ordered.load hq hstage
  | release loaded =>
      refine ⟨q.tail, ?_, .inr (.inr ⟨⟨loaded, rfl⟩, rfl⟩)⟩
      rw [Kernel.Line, stage_update]
      exact Ordered.release hq hstage

/-- The first CPU in the line waits for no other one. -/
theorem Kernel.Line.proceeds {l : List Cpu} (h : k.Line ph (c :: l)) :
    (ph c).Proceeds k.sLock.turn := by
  have hserved : Served k.sLock.turn (ph c).stage := h.line.1
  cases hph : ph c with
  | free => simp [Served, hph, Phase.stage] at hserved
  | flagged => simp [Served, hph, Phase.stage] at hserved
  | waiting ticket =>
      rcases hserved with hs | hs | hs <;> rw [hph] at hs <;> cases hs
      rfl
  | _ => exact trivial

/-- What enters a queue and what leaves it. -/
def Transit.enters : Option Transit → Nat
  | some (.entering _) => 1
  | _ => 0

def Transit.leaves : Option Transit → Nat
  | some (.leaving _) => 1
  | _ => 0

/-- The length of the queue after a move of the CPU, and the queues of the others. -/
theorem GateMove.lengths {t t' : Option Transit} {tr : Cpu → Option Transit} {Q : Lists Cpu Gate}
    (h : GateMove c k k' t t') (hk : k.GatesOk tr Q) (ht : tr c = t) :
    ∃ Q', k'.queues.Represents Q' ∧ (∀ d, d ≠ c → Q' d = Q d) ∧
      (Q' c).length + Transit.leaves t' = (Q c).length + Transit.enters t := by
  cases h with
  | stay hs => exact ⟨Q, (hk.stay hs).represents, fun _ _ => rfl, rfl⟩
  | setQueued g hg => exact ⟨Q, (hk.setQueued ht hg).represents, fun _ _ => rfl, rfl⟩
  | enqueue g hflag =>
      refine ⟨_, (hk.enqueue ht hflag).represents, fun d hd => Function.update_of_ne hd _ Q, ?_⟩
      simp [Transit.leaves, Transit.enters]
  | dequeue g hg =>
      refine ⟨_, (hk.dequeue ht hg).represents, fun d hd => Function.update_of_ne hd _ Q, ?_⟩
      have hhead : (Q c).head? = some g := (hk.represents.dequeue c).1.symm.trans hg
      obtain ⟨l, hl⟩ := List.head?_eq_some_iff.1 hhead
      simp [Transit.leaves, Transit.enters, hl]
  | setDequeued g => exact ⟨Q, (hk.setDequeued ht).represents, fun _ _ => rfl, rfl⟩

end Moves

/-- The queues determine the lists. -/
theorem represents_unique {w : Queues Cpu Gate} {Q Q' : Lists Cpu Gate} (h : w.Represents Q)
    (h' : w.Represents Q') : Q = Q' :=
  funext fun d => LinkChain.Chain.unique (h.chain d) (h'.chain d)

/-! ## What one CPU does to itself and to the others -/

namespace Multiprocessor

variable {m m' : Multiprocessor} {c : Cpu} {ch : Choice} {Q : Lists Cpu Gate}

theorem setCpu_phase (m : Multiprocessor) (c : Cpu) (s : CpuState) :
    (m.setCpu c s).phase = Function.update m.phase c (stackPhase s.stack) := by
  funext d
  exact Function.apply_update (fun _ s => stackPhase s.stack) m.cpu c s d

theorem step_other (hstep : Multiprocessor.step m (c, ch) = some m') {d : Cpu} (hd : d ≠ c) :
    m'.cpu d = m.cpu d := by
  obtain ⟨-, ⟨g, -, -, rfl⟩ | ⟨a, below, e, -, -, rfl⟩⟩ := step_cases hstep
  · exact Function.update_of_ne hd _ _
  · obtain ⟨k', intr', ctl⟩ := e
    cases ctl <;> exact Function.update_of_ne hd _ _

/-- A step is a move of its CPU between phases. -/
theorem GuardInv.lockMove (h : m.GuardInv) (hstep : Multiprocessor.step m (c, ch) = some m') :
    ∃ p', m'.phase = Function.update m.phase c p' ∧
      LockMove c m.kernel m'.kernel (m.phase c) p' := by
  have hstay : ∀ {k' : Kernel} {s : CpuState} {regs : ThreadPtr → List Activation},
      LockSame m.kernel k' → stackPhase s.stack = m.phase c →
        ∃ p', (Multiprocessor.setCpu ⟨m.cpu, k', regs⟩ c s).phase = Function.update m.phase c p' ∧
          LockMove c m.kernel k' (m.phase c) p' := by
    intro k' s regs hsame hs
    exact ⟨_, setCpu_phase _ c s, hs.symm ▸ .stay _ hsame⟩
  obtain ⟨hst, ⟨g, -, -, rfl⟩ | ⟨a, below, e, hs, he, rfl⟩⟩ := step_cases hstep
  · exact hstay ⟨rfl, rfl, rfl, rfl⟩ rfl
  · have hok : StackOk (a :: below) := hs ▸ h.stack c
    have hmask : a.masked = true → (m.cpu c).intr = false := fun ha =>
      h.masked c hst (by rw [hs]; exact ha)
    have hphase : stackPhase (a :: below) = m.phase c := (congrArg stackPhase hs).symm
    have hguard := h.apply hst hs he
    have hsound := activationStep_sound hok hmask he
    rw [hphase] at hsound
    obtain ⟨k', intr', ctl⟩ := e
    cases ctl with
    | next a' => exact ⟨_, setCpu_phase _ c _, hsound.1⟩
    | ret => exact ⟨_, setCpu_phase _ c _, hsound⟩
    | die => exact hstay hsound hphase
    | wild => exact hstay hsound hphase
    -- both stacks are in phase `owning`
    | switch old next a' => exact hstay hsound.1 ((hguard.saved next).phase.trans hsound.2.1.symm)
    | start next => exact hstay hsound.1 ((h.saved next).phase.trans hsound.2.symm)

/-- A step is a move of the gate in transit on its CPU. -/
theorem GateInv.gateMove (h : m.GateInv Q) (hstep : Multiprocessor.step m (c, ch) = some m') :
    GateMove c m.kernel m'.kernel (m.transit c) (m'.transit c) := by
  have hset : ∀ {k' : Kernel} {s : CpuState} {regs : ThreadPtr → List Activation},
      (Multiprocessor.setCpu ⟨m.cpu, k', regs⟩ c s).transit c = stackTransit s.stack := by
    intro k' s regs
    simp [transit, setCpu]
  obtain ⟨hst, ⟨g, -, hi, rfl⟩ | ⟨a, below, e, hs, he, rfl⟩⟩ := step_cases hstep
  · rw [show m.transit c = none from stackTransit_of_unmasked (h.guard.unmasked hst hi)]
    rw [show (m.accept c g).transit c = none from hset]
    exact .stay ⟨rfl, rfl, fun _ hd => .inl hd⟩
  · have hok : StackOk (a :: below) := hs ▸ h.guard.stack c
    have hpoint : a.PointOk m.kernel c := h.point c a hst (by simp [hs])
    have hflag : m.kernel.flag c = (stackPhase (a :: below)).flag := by
      rw [← hs]
      exact h.guard.tracks.flag c
    have htr : m.transit c = a.transit? := congrArg stackTransit hs
    have hguard := h.guard.apply hst hs he
    have hsaved := hguard.saved
    have hgates := activationStep_gates hok hpoint hflag he
    have hsound := activationStep_sound hok
      (fun ha => h.guard.masked c hst (by rw [hs]; exact ha)) he
    have hret := activationStep_ret hok he
    rw [htr]
    obtain ⟨k', intr', ctl⟩ := e
    cases ctl with
    | next a' => exact hset.symm ▸ hgates.1
    | ret =>
        rw [hgates.2, show (m.apply c a below ⟨k', intr', .ret⟩).transit c = none from
          hset.trans (stackTransit_of_unmasked (hret rfl).2)]
        exact hgates.1
    | die =>
        rw [show (m.apply c a below ⟨k', intr', .die⟩).transit c = a.transit? from hset, hgates.2]
        exact hgates.1
    | wild =>
        rw [show (m.apply c a below ⟨k', intr', .wild⟩).transit c = a.transit? from hset, hgates.2]
        exact hgates.1
    | switch old next a' =>
        have hcont : a'.transit? = none := (Activation.unmasked hsound.2.2.2).1
        rw [show (m.apply c a below ⟨k', intr', .switch old next a'⟩).transit c = none from
          hset.trans (stackTransit_of_unmasked (hsaved next).unmasked), ← hcont]
        exact hgates.1
    | start next =>
        rw [hgates.2, show (m.apply c a below ⟨k', intr', .start next⟩).transit c = none from
          hset.trans (stackTransit_of_unmasked (hsaved next).unmasked)]
        exact hgates.1

end Multiprocessor

/-! ## The invariant of the runs -/

/-- A suspended thread goes on behind `toc_switch`, or it starts in `kickoff`. -/
def Resumable (s : List Activation) : Prop :=
  ∃ a below, s = a :: below ∧ a.phase? = some .owning ∧ a.rank ≤ SchedPc.dispatched.rank

theorem Resumable.stackRank {s : List Activation} (h : Resumable s) :
    stackRank s ≤ SchedPc.dispatched.rank := by
  obtain ⟨a, below, rfl, ha, hrank⟩ := h
  rw [stackRank_of_some (by rw [ha]; rfl)]
  exact hrank

theorem Resumable.stackEnqueues {s : List Activation} (h : Resumable s) :
    stackEnqueues s = 0 := by
  obtain ⟨a, below, rfl, ha, -⟩ := h
  exact stackEnqueues_of_some (by rw [ha]; rfl)

theorem Activation.rank_of_schedPc? {a : Activation} {sp : SchedPc} (h : a.schedPc? = some sp) :
    a.rank = sp.rank := by
  have hepilogue : ∀ {pc : EpiloguePc}, pc.schedPc? = some sp → pc.rank = sp.rank := by
    intro pc hpc
    cases pc with
    | sched pc =>
        obtain rfl := Option.some.inj hpc
        rfl
    | _ => cases hpc
  have hleave : ∀ {pc : LeavePc}, pc.schedPc? = some sp → pc.rank = sp.rank := by
    intro pc hpc
    cases pc with
    | epilogue item pc => exact hepilogue hpc
    | _ => cases hpc
  cases a with
  | user => cases h
  | secure pc =>
      cases pc with
      | enter op pc => cases h
      | body pc =>
          obtain rfl := Option.some.inj h
          rfl
      | leave pc => exact hleave h
  | kickoff pc => exact hleave h
  | guardian g pc =>
      cases pc with
      | epilogue pc => exact hepilogue h
      | leave pc => exact hleave h
      | _ => cases h

/-- The data of the scheduler are those of whole operations, the queues hold the pending gates, and
suspended threads can be resumed. -/
structure Orderly (p : Multiprocessor × OpHistory) : Prop where
  serial : ∃ s, Serialized 0 p s ∧ ∃ a, s.Listing a
  gates : ∃ Q, p.1.GateInv Q
  saved : ∀ t, Resumable (p.1.regs t)

theorem orderly_boot (on : Cpu → Bool) : Orderly (Multiprocessor.boot on, OpHistory.init) where
  serial := ⟨_, serialized_boot 0 on, _, refines_init, ReadyList.apart_init⟩
  gates := ⟨_, Multiprocessor.gateInv_boot on⟩
  saved _ := ⟨_, _, rfl, rfl, show 20 ≤ 21 by decide⟩

section Steps

variable {p p' : Multiprocessor × OpHistory} {c : Cpu} {ch : Choice}

theorem Orderly.guard (h : Orderly p) : p.1.GuardInv := by
  obtain ⟨Q, hQ⟩ := h.gates
  exact hQ.guard

theorem Orderly.step (h : Orderly p) (hok : p.1.ReadyOk (c, ch))
    (hstep : recording Multiprocessor.step OpHistory.record p (c, ch) = some p') :
    Orderly p' := by
  obtain ⟨s, hS, ha⟩ := h.serial
  obtain ⟨Q, hQ⟩ := h.gates
  obtain ⟨hmove, -⟩ := recording_eq_some.1 hstep
  obtain ⟨-, s', -, -, -, hser⟩ := (operations_simulate_ready 0).matched ⟨hS, ha⟩ hok hstep
  refine ⟨⟨s', hser⟩, hQ.step hmove, ?_⟩
  refine (Multiprocessor.stacks_step (Q := fun _ => True) (R := Resumable) hmove
    (fun _ _ => trivial) (fun _ _ _ => trivial) (fun _ => trivial) h.saved (fun _ _ => trivial)
    (fun _ _ _ _ _ _ _ => trivial) ?_).2
  intro a below e old next a' hs he hctl
  have hsp := (activationStep_switch he hctl).2
  exact ⟨a', below, rfl, Activation.phase?_of_schedPc? hsp,
    Nat.le_of_eq (Activation.rank_of_schedPc? hsp)⟩

/-- In an operation that began with a proper ready list every loop comes to an end. -/
theorem SchedPc.Midway.exists_rounds {op : SchedOp} {s σ : Sched} {a : ReadyList} {sp : SchedPc}
    (hmid : sp.Midway 0 c op s σ) (ha : s.Listing a) : ∃ n, sp.Rounds σ n := by
  have hexec : (∀ that, op ≠ .ready that) → ∃ o, s.exec (a.jobs.length + 2) 0 c op = some o := by
    intro hready
    have hbound : s.BoundOk (a.jobs.length + 2, c, op) := by
      intro l hl
      rw [LinkChain.Chain.unique hl.chain ha.1.jobs.chain]
      exact Nat.lt_succ_self _
    obtain ⟨o, ho, -⟩ := ha.exec 0 hbound fun u hu => absurd hu (hready u)
    exact ⟨o, ho⟩
  cases sp with
  | resumeSkip next =>
      obtain ⟨rfl, curr, n, hlife, hrounds⟩ := hmid
      obtain ⟨o, ho⟩ := hexec (by simp)
      obtain ⟨r, hr⟩ := skipDying_of_resume hlife ho
      exact ⟨_, r, (hrounds _).symm.trans (skipDying_mono hr (Nat.le_add_right _ n))⟩
  | killRemove that prev current =>
      obtain ⟨rfl, hσ, n, hrounds⟩ := hmid
      obtain ⟨o, ho⟩ := hexec (by simp)
      obtain ⟨r, hr⟩ := remove_of_kill ho
      refine ⟨a.jobs.length + 2, r, (hrounds _).symm.trans ?_⟩
      rw [hσ]
      exact QueueMem.removeFrom_mono hr (Nat.le_add_right _ n)
  | _ => exact ⟨0, trivial⟩

/-- The loop in which a CPU is has an end. -/
theorem Orderly.exists_rounds (h : Orderly p) (hrun : (p.1.cpu c).status = .running) :
    ∃ n, ∀ sp, stackSched (p.1.cpu c).stack = some sp → sp.Rounds p.1.kernel.sched n := by
  obtain ⟨s, hS, a, ha⟩ := h.serial
  cases hstack : stackSched (p.1.cpu c).stack with
  | none => exact ⟨0, fun sp hsp => by cases hsp⟩
  | some sp =>
      have hrounds : ∃ n, sp.Rounds p.1.kernel.sched n := by
        rcases hS.current hrun hstack with ⟨-, hb, -⟩ | ⟨op, -, hmid⟩
        · -- where no operation is in progress there is no loop
          rcases hS.point c sp hrun hb hstack with hentry | rfl
          · cases sp with
            | resumeSkip next => cases hentry
            | killRemove that prev current => cases hentry
            | _ => exact ⟨0, trivial⟩
          · exact ⟨0, trivial⟩
        · exact hmid.exists_rounds ha
      obtain ⟨n, hn⟩ := hrounds
      refine ⟨n, fun sp' hsp' => ?_⟩
      obtain rfl := Option.some.inj hsp'
      exact hn

/-! ## The statements that a CPU has left -/

/-- Fewer gates, or a point of lower rank, or fewer rounds of its loop. -/
def Fewer : Nat × Nat × Nat → Nat × Nat × Nat → Prop :=
  Prod.Lex (· < ·) (Prod.Lex (· < ·) (· < ·))

theorem fewer_wf : WellFounded Fewer :=
  (Prod.lex Nat.lt_wfRel (Prod.lex Nat.lt_wfRel Nat.lt_wfRel)).wf

/-- The gates that CPU `c` has to deal with, the rank of its stack, and the rounds of the loop it is
in. -/
structure Owes (m : Multiprocessor) (c : Cpu) (r : Nat × Nat × Nat) : Prop where
  gates : ∃ Q, m.GateInv Q ∧ (Q c).length + stackEnqueues (m.cpu c).stack = r.1
  points : stackRank (m.cpu c).stack = r.2.1
  rounds : ∀ sp, stackSched (m.cpu c).stack = some sp → sp.Rounds m.kernel.sched r.2.2

theorem Orderly.exists_owes (h : Orderly p) (hrun : (p.1.cpu c).status = .running) :
    ∃ r, Owes p.1 c r := by
  obtain ⟨Q, hQ⟩ := h.gates
  obtain ⟨n, hn⟩ := h.exists_rounds hrun
  exact ⟨(_, _, n), ⟨Q, hQ, rfl⟩, rfl, hn⟩

/-- A lower rank is enough where no gate was added. -/
theorem Orderly.owes_of_lt (h : Orderly p) (hrun : (p.1.cpu c).status = .running)
    {r : Nat × Nat × Nat} {Q : Lists Cpu Gate} (hQ : p.1.GateInv Q)
    (hgates : (Q c).length + stackEnqueues (p.1.cpu c).stack ≤ r.1)
    (hpoints : stackRank (p.1.cpu c).stack < r.2.1) : ∃ r', Fewer r' r ∧ Owes p.1 c r' := by
  obtain ⟨n, hn⟩ := h.exists_rounds hrun
  refine ⟨(_, _, n), ?_, ⟨Q, hQ, rfl⟩, rfl, hn⟩
  rcases Nat.lt_or_eq_of_le hgates with hlt | heq
  · exact .left _ _ hlt
  · rw [show r = ((Q c).length + stackEnqueues (p.1.cpu c).stack, r.2) from
      Prod.ext heq.symm rfl]
    exact .right _ (.left _ _ hpoints)

theorem enters_of_phase {a : Activation} (h : a.phase?.isSome = true) :
    Transit.enters a.transit? = 0 := by
  have hleave : ∀ pc : LeavePc, Transit.enters pc.transit? = 0 := by
    intro pc
    cases pc <;> rfl
  cases a with
  | user => rfl
  | secure pc =>
      cases pc with
      | leave pc => exact hleave pc
      | _ => rfl
  | kickoff pc => exact hleave pc
  | guardian g pc =>
      cases pc with
      | leave pc => exact hleave pc
      | enqueue currCpu => cases h
      | _ => rfl

theorem rank_le_stackRank (a : Activation) (below : List Activation) :
    a.rank ≤ stackRank (a :: below) := by
  unfold stackRank
  split
  · exact Nat.le_refl _
  · exact Nat.le_add_right _ _

theorem stackRank_next {a a' : Activation} (h : a'.phase?.isSome = a.phase?.isSome)
    (below : List Activation) :
    stackRank (a' :: below) + a.rank = stackRank (a :: below) + a'.rank := by
  simp only [stackRank, h]
  split <;> omega

theorem stackEnqueues_next {k : Kernel} {intr : Bool} {a a' : Activation}
    {below : List Activation} {e : Effect Activation}
    (h : a'.phase?.isSome = a.phase?.isSome) (he : activationStep c k intr a ch = some e)
    (ht : e.ctl.target? = some a') :
    stackEnqueues (a' :: below) + Transit.enters a.transit? ≤ stackEnqueues (a :: below) := by
  cases hp : a.phase?.isSome with
  | true =>
      rw [stackEnqueues_of_some (h.trans hp), enters_of_phase hp]
      exact Nat.zero_le _
  | false =>
      obtain ⟨hle, hlt⟩ := activationStep_enqueues hp he ht
      rw [stackEnqueues_of_none (h.trans hp), stackEnqueues_of_none hp]
      have henters : a'.enqueues + Transit.enters a.transit? ≤ a.enqueues := by
        cases htr : a.transit? with
        | none => exact hle
        | some t =>
            cases t with
            | entering g => exact hlt g htr
            | leaving g => exact hle
      omega

/-- Inside the guard every statement lowers the rank, unless the CPU waits or stops there. -/
theorem Orderly.own_step (h : Orderly p) (h' : Orderly p')
    (hmove : Multiprocessor.step p.1 (c, ch) = some p'.1) (hch : ∀ g, ch ≠ .accept g)
    (hline : (p.1.phase c).Proceeds p.1.kernel.sLock.turn)
    (hrun : (p'.1.cpu c).status = .running) {r : Nat × Nat × Nat} (howes : Owes p.1 c r) :
    ∃ r', Fewer r' r ∧ Owes p'.1 c r' := by
  obtain ⟨⟨Q, hQ, hgates⟩, hpoints, hrounds⟩ := howes
  obtain ⟨Q', hQ'⟩ := h'.gates
  obtain ⟨hst, ⟨g, hg, -, -⟩ | ⟨a, below, e, hs, he, hm'⟩⟩ := Multiprocessor.step_cases hmove
  · exact absurd hg (hch g)
  have hok : StackOk (a :: below) := hs ▸ h.guard.stack c
  have hphase : p.1.phase c = stackPhase (a :: below) := congrArg stackPhase hs
  have hflag : p.1.kernel.flag c = (stackPhase (a :: below)).flag := by
    rw [← hphase]
    exact h.guard.tracks.flag c
  have hinline : (stackPhase (a :: below)).Proceeds p.1.kernel.sLock.turn := hphase ▸ hline
  -- the length of the queue behind the statement
  have hlength : (Q' c).length + Transit.leaves (p'.1.transit c) =
      (Q c).length + Transit.enters a.transit? := by
    obtain ⟨Q'', hrep, -, hlen⟩ := (hQ.gateMove hmove).lengths hQ.gates rfl
    rw [represents_unique hQ'.gates.represents hrep, hlen,
      show p.1.transit c = a.transit? from congrArg stackTransit hs]
  obtain ⟨hdesc, hnext, hback⟩ := activationStep_progresses (hok.proceeds hinline)
    (fun g hg => by subst hg; exact hflag.trans (hok.flag_of_proceeds hinline)) he
  have hmoves := activationStep_gates hok (hQ.point c a hst (by simp [hs])) hflag he
  have hsched := @activationStep_switch c p.1.kernel (p.1.cpu c).intr a
  rw [hs] at hgates hpoints hrounds
  -- a thread goes on where it was suspended, or it starts
  have hresume : ∀ t, (p'.1.cpu c).stack = p'.1.regs t → Transit.enters a.transit? = 0 →
      SchedPc.dispatched.rank < a.rank → ∃ r', Fewer r' r ∧ Owes p'.1 c r' := by
    intro t hstack henters hrank
    refine h'.owes_of_lt hrun hQ' ?_ ?_
    · rw [hstack, (h'.saved t).stackEnqueues]
      omega
    · rw [hstack, ← hpoints]
      exact Nat.lt_of_le_of_lt (h'.saved t).stackRank
        (Nat.lt_of_lt_of_le hrank (rank_le_stackRank a below))
  have hself : ∀ (k : Kernel) (regs : ThreadPtr → List Activation) (s : CpuState),
      p'.1 = Multiprocessor.setCpu ⟨p.1.cpu, k, regs⟩ c s → p'.1.cpu c = s ∧
        p'.1.transit c = stackTransit s.stack ∧ p'.1.kernel = k ∧ p'.1.regs = regs := by
    intro k regs s hp'
    rw [hp']
    simp [Multiprocessor.setCpu, Multiprocessor.transit]
  obtain ⟨k', intr', ctl⟩ := e
  cases ctl with
  | next a' =>
      obtain ⟨hcpu, htransit, hkernel, -⟩ := hself _ _ _ hm'
      have hstack : (p'.1.cpu c).stack = a' :: below := by rw [hcpu]
      have hE : stackEnqueues (a' :: below) + Transit.enters a.transit? ≤
        stackEnqueues (a :: below) := stackEnqueues_next (hnext a' rfl) he rfl
      have hR := stackRank_next (hnext a' rfl) below
      have hleaves : Transit.leaves (p'.1.transit c) = Transit.leaves a'.transit? :=
        congrArg Transit.leaves htransit
      rcases hdesc with hlt | ⟨g, hfetch⟩ | ⟨hrank, sp, sp', hsp, hsp', hfewer⟩
      · -- a point of lower rank
        refine h'.owes_of_lt hrun hQ' ?_ ?_
        · rw [hstack]
          omega
        · rw [hstack]
          omega
      · -- a gate less
        obtain ⟨n, hn⟩ := h'.exists_rounds hrun
        refine ⟨(_, _, n), .left _ _ ?_, ⟨Q', hQ', rfl⟩, rfl, hn⟩
        have hone : Transit.leaves a'.transit? = 1 := by rw [hfetch]; rfl
        rw [hstack]
        omega
      · -- the next round of a loop
        obtain ⟨n, hn, hrounds'⟩ := hfewer r.2.2 (hrounds sp (stackSched_cons hsp below))
        have hle : (Q' c).length + stackEnqueues (p'.1.cpu c).stack ≤ r.1 := by
          rw [hstack]
          omega
        have hsame : stackRank (p'.1.cpu c).stack = r.2.1 := by
          rw [hstack]
          omega
        refine ⟨(_, _, n), ?_, ⟨Q', hQ', rfl⟩, rfl, fun sp'' hsp'' => ?_⟩
        · rcases Nat.lt_or_eq_of_le hle with hlt | heq
          · exact .left _ _ hlt
          · rw [show r = (_, _, r.2.2) from Prod.ext heq.symm (Prod.ext hsame.symm rfl)]
            exact .right _ (.right _ hn)
        · rw [hstack, stackSched_cons hsp' below] at hsp''
          obtain rfl := Option.some.inj hsp''
          rw [hkernel]
          exact hrounds'
  | ret =>
      obtain ⟨hcpu, -, -, -⟩ := hself _ _ _ hm'
      have hnone := hback rfl
      rw [stackRank_of_none hnone] at hpoints
      rw [stackEnqueues_of_none hnone] at hgates
      have henters : Transit.enters a.transit? = 0 := by rw [hmoves.2]; rfl
      have hpos : 0 < a.rank := hdesc
      refine h'.owes_of_lt hrun hQ' ?_ ?_
      · rw [hcpu]
        show (Q' c).length + stackEnqueues below ≤ _
        omega
      · rw [hcpu]
        show stackRank below < _
        omega
  | die =>
      rw [(hself _ _ _ hm').1] at hrun
      cases hrun
  | wild =>
      rw [(hself _ _ _ hm').1] at hrun
      cases hrun
  | switch old next a' =>
      obtain ⟨hcpu, -, -, hregs⟩ := hself _ _ _ hm'
      refine hresume next ?_ (enters_of_phase ?_) hdesc
      · rw [hcpu, hregs]
      · rw [Activation.phase?_of_schedPc? (hsched he rfl).1]
        rfl
  | start next =>
      obtain ⟨hcpu, -, -, hregs⟩ := hself _ _ _ hm'
      refine hresume next ?_ (by rw [hmoves.2]; rfl) hdesc
      rw [hcpu, hregs]

/-- No step of another CPU changes what a CPU has left. -/
theorem Orderly.other_step (h : Orderly p) (h' : Orderly p')
    (hmove : Multiprocessor.step p.1 (c, ch) = some p'.1) {d : Cpu} (hd : d ≠ c)
    {r : Nat × Nat × Nat} (howes : Owes p.1 d r) : Owes p'.1 d r := by
  obtain ⟨⟨Q, hQ, hgates⟩, hpoints, hrounds⟩ := howes
  obtain ⟨Q', hQ'⟩ := h'.gates
  have hcpu : p'.1.cpu d = p.1.cpu d := Multiprocessor.step_other hmove hd
  have hqueue : Q' d = Q d := by
    obtain ⟨Q'', hrep, hother, -⟩ := (hQ.gateMove hmove).lengths hQ.gates rfl
    rw [represents_unique hQ'.gates.represents hrep]
    exact hother d hd
  refine ⟨⟨Q', hQ', by rw [hqueue, hcpu, hgates]⟩, by rw [hcpu, hpoints], fun sp hsp => ?_⟩
  rw [hcpu] at hsp
  -- the CPU owns the lock, so no other one executes the scheduler
  have hsched : p'.1.kernel.sched = p.1.kernel.sched := by
    obtain ⟨hst, ⟨g, -, -, hm'⟩ | ⟨a, below, e, hs, he, hm'⟩⟩ := Multiprocessor.step_cases hmove
    · rw [hm']
      rfl
    · have hkernel : p'.1.kernel = e.kernel := by
        rw [hm']
        obtain ⟨k', intr', ctl⟩ := e
        cases ctl <;> rfl
      rw [hkernel]
      have hout : a.schedPc? = none := by
        cases ha : a.schedPc? with
        | none => rfl
        | some sp' =>
            have hc : (p.1.phase c).acquired = true := by
              rw [Multiprocessor.phase, hs, stackSched_owning (stackSched_cons ha below)]
              rfl
            have hd' : (p.1.phase d).acquired = true := by
              rw [Multiprocessor.phase, stackSched_owning hsp]
              rfl
            exact absurd (h.guard.tracks.owner_unique hd' hc) hd
      rcases activationStep_other hout he with hout | ⟨-, rfl⟩
      · exact hout.1
      · rfl
  rw [hsched]
  exact hrounds sp hsp

end Steps

end MPStuBS.Guard
