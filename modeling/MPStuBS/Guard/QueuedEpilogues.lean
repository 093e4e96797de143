import MPStuBS.Guard.FairRuns

/-!
# Every queued gate gets its epilogue

`relay` marks a gate and puts it into the queue of its CPU when the CPU is inside
the guard. That no request is lost then is a property of every state; that the
epilogue comes is one of infinite runs. In a fair run every marked gate gets its
epilogue (`gate_served`): it reaches the queue, its CPU comes to the end of the
guarded section, however many gates are in front, and `leave` does not let go of
the lock before the queue is empty.
-/

set_option autoImplicit false

namespace MPStuBS.Guard

open MPStuBS.Object MPStuBS.Machine MPStuBS.Thread MPStuBS.Lib MPStuBS.Lib.Run
open MPStuBS.Lib.TicketOrder

/-! ## A gate on its way -/

section Moves

variable {c d : Cpu} {k k' : Kernel} {intr : Bool} {g : Gate}

/-- A statement of `leave` that goes on, seen from the activation. -/
theorem activationStep_leave {a : Activation} {ch : Choice} {e : Effect Activation}
    {pc pc' : LeavePc} (ha : a.leavePc? = some pc)
    (hpc : (leaveStep c k intr pc).ctl = .next pc') (he : activationStep c k intr a ch = some e) :
    ∃ a', e.ctl = .next a' ∧ a'.leavePc? = some pc' := by
  rcases activationStep_cases he with ⟨g, gpc, answer, rfl, -, rfl⟩ | hthread
  · cases gpc with
    | leave lpc =>
        obtain rfl := Option.some.inj ha
        refine ⟨.guardian g (.leave pc'), ?_, rfl⟩
        simp only [guardianStep, Effect.lift, hpc, Control.lift]
    | _ => cases ha
  · rcases activationStep_thread hthread he with ⟨op, rfl, -, -⟩ | ⟨rfl, -, -⟩ | ⟨answer, -, he⟩
    · cases ha
    · cases ha
    · rcases he with ⟨op, epc, rfl, rfl⟩ | ⟨spc, rfl, rfl⟩ | ⟨lpc, rfl, rfl⟩ | ⟨lpc, rfl, rfl⟩
      · cases ha
      · cases ha
      · obtain rfl := Option.some.inj ha
        refine ⟨.secure (.leave pc'), ?_, rfl⟩
        simp only [Effect.lift, hpc, Control.lift]
      · obtain rfl := Option.some.inj ha
        refine ⟨.kickoff pc', ?_, rfl⟩
        simp only [Effect.lift, hpc, Control.lift]

theorem Activation.masked_of_leavePc? {a : Activation} {pc : LeavePc}
    (h : a.leavePc? = some pc) : a.masked = pc.masked := by
  cases a with
  | user => cases h
  | secure s =>
      cases s with
      | leave pc =>
          obtain rfl := Option.some.inj h
          rfl
      | _ => cases h
  | kickoff pc =>
      obtain rfl := Option.some.inj h
      rfl
  | guardian g s =>
      cases s with
      | leave pc =>
          obtain rfl := Option.some.inj h
          rfl
      | _ => cases h

theorem Activation.leavePc?_of_leaving {a : Activation} (h : a.transit? = some (.leaving g)) :
    a.leavePc? = some (.setDequeued g) := by
  have hleave : ∀ {pc : LeavePc}, pc.transit? = some (.leaving g) → pc = .setDequeued g := by
    intro pc hpc
    cases pc with
    | setDequeued item =>
        obtain rfl := Transit.leaving.inj (Option.some.inj hpc)
        rfl
    | _ => cases hpc
  cases a with
  | user => cases h
  | secure pc =>
      cases pc with
      | leave pc => exact congrArg some (hleave h)
      | _ => cases h
  | kickoff pc => exact congrArg some (hleave h)
  | guardian g' pc =>
      cases pc with
      | leave pc => exact congrArg some (hleave h)
      | enqueue currCpu => cases h
      | _ => cases h

/-- A gate stays in its queue until `leave` takes it from the front. -/
theorem GateMove.mem {t t' : Option Transit} {tr : Cpu → Option Transit} {Q : Lists Cpu Gate}
    (h : GateMove c k k' t t') (hk : k.GatesOk tr Q) (ht : tr c = t) (hg : g ∈ Q d) :
    ∃ Q', k'.queues.Represents Q' ∧ (g ∈ Q' d ∨ d = c ∧ t' = some (.leaving g)) := by
  cases h with
  | stay hs => exact ⟨Q, (hk.stay hs).represents, .inl hg⟩
  | setQueued x hx => exact ⟨Q, (hk.setQueued ht hx).represents, .inl hg⟩
  | enqueue x hflag =>
      refine ⟨_, (hk.enqueue ht hflag).represents, .inl ?_⟩
      by_cases hd : d = c
      · subst hd
        rw [Function.update_self]
        exact List.mem_append_left _ hg
      · rw [Function.update_of_ne hd]
        exact hg
  | dequeue x hx =>
      refine ⟨_, (hk.dequeue ht hx).represents, ?_⟩
      by_cases hd : d = c
      · subst hd
        have hhead : (Q d).head? = some x := (hk.represents.dequeue d).1.symm.trans hx
        obtain ⟨l, hl⟩ := List.head?_eq_some_iff.1 hhead
        rw [hl] at hg
        rcases List.mem_cons.1 hg with rfl | hmem
        · exact .inr ⟨rfl, rfl⟩
        · refine .inl ?_
          rw [Function.update_self, hl]
          exact hmem
      · refine .inl ?_
        rw [Function.update_of_ne hd]
        exact hg
  | setDequeued x => exact ⟨Q, (hk.setDequeued ht).represents, .inl hg⟩

end Moves

namespace Multiprocessor

variable {m m' : Multiprocessor} {c d : Cpu} {ch : Choice} {g : Gate} {Q : Lists Cpu Gate}

/-- CPU `c` is about to execute the epilogue of gate `g` for the queue. -/
def StartsEpilogue (m : Multiprocessor) (c : Cpu) (g : Gate) : Prop :=
  ∃ a, m.Executes c a ∧ a.leavePc? = some (.epilogue g .start)

/-- Gate `g` is in the queue of CPU `c`, or `leave` has just taken it from there. -/
def HoldsGate (m : Multiprocessor) (c : Cpu) (g : Gate) : Prop :=
  (∃ Q, m.GateInv Q ∧ g ∈ Q c) ∨ ∃ a, (m.cpu c).stack.head? = some a ∧
    (a.leavePc? = some (.setDequeued g) ∨ a.leavePc? = some (.enableInt g))

theorem head_of_leaving (ht : m.transit c = some (.leaving g)) :
    ∃ a, (m.cpu c).stack.head? = some a ∧
      (a.leavePc? = some (.setDequeued g) ∨ a.leavePc? = some (.enableInt g)) := by
  rw [transit] at ht
  cases hs : (m.cpu c).stack with
  | nil =>
      rw [hs] at ht
      cases ht
  | cons a below =>
      rw [hs] at ht
      exact ⟨a, rfl, .inl (Activation.leavePc?_of_leaving ht)⟩

theorem HoldsGate.flag (h : m.HoldsGate c g) (hinv : m.GuardInv) : m.kernel.flag c = true := by
  rcases h with ⟨Q, hQ, hg⟩ | ⟨a, ha, hpc⟩
  · cases hf : m.kernel.flag c with
    | true => rfl
    | false =>
        rw [hQ.gates.idle c hf] at hg
        cases hg
  · have hphase : a.phase? = some .owning := by
      rcases hpc with hpc | hpc <;> exact Activation.phase?_of_leavePc? hpc
    obtain ⟨below, hs⟩ := List.head?_eq_some_iff.1 ha
    rw [hinv.tracks.flag, phase, hs, stackPhase, hphase]
    rfl

/-- A statement of `leave` that goes on, executed by CPU `c`. -/
theorem GuardInv.leave_step (h : m.GuardInv)
    (hstep : Multiprocessor.step m (c, ch) = some m') {a : Activation} {pc pc' : LeavePc}
    (ha : (m.cpu c).stack.head? = some a) (hpc : a.leavePc? = some pc)
    (hmask : pc.masked = true)
    (hnext : ∀ k intr, (leaveStep c k intr pc).ctl = .next pc') :
    ∃ a', m'.Executes c a' ∧ a'.leavePc? = some pc' := by
  obtain ⟨below, hs⟩ := List.head?_eq_some_iff.1 ha
  obtain ⟨hst, ⟨g, -, hi, -⟩ | ⟨b, below', e, hs', he, rfl⟩⟩ := step_cases hstep
  · -- interrupts are off here
    have hmasked : a.masked = true := (Activation.masked_of_leavePc? hpc).trans hmask
    rw [h.masked c hst (by rw [hs]; exact hmasked)] at hi
    cases hi
  · obtain ⟨rfl, rfl⟩ := List.cons.inj (hs.symm.trans hs')
    obtain ⟨a', hctl, ha'⟩ := activationStep_leave hpc (hnext _ _) he
    have hcpu : (m.apply c a below e).cpu c = ⟨.running, e.intr, a' :: below⟩ := by
      rw [Multiprocessor.apply, hctl]
      exact Function.update_self c _ m.cpu
    refine ⟨a', ⟨?_, ?_⟩, ha'⟩
    · rw [hcpu]
    · rw [hcpu]
      rfl

theorem HoldsGate.step (hg : m.HoldsGate c g) (h : m.GateInv Q)
    (hstep : Multiprocessor.step m (d, ch) = some m') :
    m'.HoldsGate c g ∨ m'.StartsEpilogue c g := by
  rcases hg with ⟨Q₀, hQ₀, hmem⟩ | ⟨a, ha, hpc⟩
  · obtain ⟨Q', hQ'⟩ := h.step hstep
    obtain ⟨Q'', hrep, hmem'⟩ := (hQ₀.gateMove hstep).mem hQ₀.gates rfl hmem
    rw [represents_unique hrep hQ'.gates.represents] at hmem'
    rcases hmem' with hmem' | ⟨rfl, ht⟩
    · exact .inl (.inl ⟨Q', hQ', hmem'⟩)
    · exact .inl (.inr (head_of_leaving ht))
  · by_cases hd : c = d
    · subst hd
      rcases hpc with hpc | hpc
      · obtain ⟨a', hexec, ha'⟩ := h.guard.leave_step hstep ha hpc rfl fun _ _ => rfl
        exact .inl (.inr ⟨a', hexec.2, .inr ha'⟩)
      · obtain ⟨a', hexec, ha'⟩ := h.guard.leave_step hstep ha hpc rfl fun _ _ => rfl
        exact .inr ⟨a', hexec, ha'⟩
    · rw [← step_other hstep hd] at ha
      exact .inl (.inr ⟨a, ha, hpc⟩)

/-- The gates on their way to a queue have found the level flag set. -/
theorem GuardInv.flag_of_entering (h : m.GuardInv) (ht : m.transit c = some (.entering g)) :
    m.kernel.flag c = true := by
  have hok := h.stack c
  rw [h.tracks.flag, phase]
  rw [transit] at ht
  generalize (m.cpu c).stack = s at hok ht
  cases hok with
  | bottom ha =>
      rename_i a
      cases a with
      | guardian g pc => cases ha
      | user => cases ht
      | secure pc =>
          cases pc with
          | leave pc => cases pc <;> cases ht
          | _ => cases ht
      | kickoff pc => cases pc <;> cases ht
  | handler hbelow hmasked hdirect hdeferred =>
      rename_i g' pc below
      cases pc with
      | enqueue currCpu => exact hdeferred rfl
      | leave pc => cases pc <;> cases ht
      | _ => cases ht

/-- A gate that is on its way to the queue gets there with the next step of its CPU. -/
theorem GateInv.entering_step (h : m.GateInv Q) (ht : m.transit c = some (.entering g))
    (hstep : Multiprocessor.step m (d, ch) = some m') :
    d ≠ c ∧ m'.transit c = some (.entering g) ∨ ∃ Q', m'.GateInv Q' ∧ g ∈ Q' c := by
  by_cases hd : d = c
  · subst hd
    obtain ⟨Q', hQ'⟩ := h.step hstep
    refine .inr ⟨Q', hQ', ?_⟩
    have hmove := h.gateMove hstep
    rw [ht] at hmove
    generalize m'.transit d = t' at hmove
    generalize hk : m'.kernel = k' at hmove
    cases hmove with
    | enqueue g hflag =>
        have hrep := (h.gates.enqueue ht hflag).represents
        rw [← hk] at hrep
        rw [represents_unique hQ'.gates.represents hrep, Function.update_self]
        exact List.mem_append_right _ List.mem_cons_self
  · refine .inl ⟨hd, ?_⟩
    rw [transit, step_other hstep (Ne.symm hd)]
    exact ht

end Multiprocessor

/-! ## The result -/

section Runs

variable {x : Execution Multiprocessor.step} {on : Cpu → Bool} {c : Cpu} {n : Nat} {g : Gate}

theorem FairRun.gateInv (hfair : FairRun x)
    (h0 : Runs Multiprocessor.step Multiprocessor.ReadyOk (Multiprocessor.boot on) (x.state 0))
    (n : Nat) : ∃ Q, (x.state n).GateInv Q := by
  obtain ⟨hist, h⟩ := orderly_of_runs (hfair.runs h0 n)
  exact h.gates

/-- A CPU under the level flag draws a ticket. -/
theorem FairRun.draws_ticket (hfair : FairRun x)
    (h0 : Runs Multiprocessor.step Multiprocessor.ReadyOk (Multiprocessor.boot on) (x.state 0))
    (hflag : ∀ k, n ≤ k → (x.state k).kernel.flag c = true) :
    ∃ k, n ≤ k ∧ (x.state k).HasTicket c := by
  by_contra hnone
  refine hfair.not_forever (n := n) (c := c) h0 fun k hk => ?_
  have hinv := hfair.guardInv h0 k
  have hf := hflag k hk
  have hout : ¬ (x.state k).HasTicket c := fun h => hnone ⟨k, hk, h⟩
  rw [hinv.tracks.flag] at hf
  rw [Multiprocessor.hasTicket_iff hinv] at hout
  cases hp : (x.state k).phase c with
  | flagged => exact trivial
  | free =>
      rw [hp] at hf
      cases hf
  | _ =>
      rw [hp] at hout
      exact absurd (by simp [Phase.stage]) hout

/-- A gate in the queue of a CPU gets its epilogue there. -/
theorem FairRun.epilogue_starts (hfair : FairRun x)
    (h0 : Runs Multiprocessor.step Multiprocessor.ReadyOk (Multiprocessor.boot on) (x.state 0))
    (hg : (x.state n).HoldsGate c g) : ∃ k, n ≤ k ∧ (x.state k).StartsEpilogue c g := by
  by_contra hnone
  have hholds : ∀ k, n ≤ k → (x.state k).HoldsGate c g := by
    intro k hk
    induction k, hk using Nat.le_induction with
    | base => exact hg
    | succ k hk ih =>
        obtain ⟨Q, hQ⟩ := hfair.gateInv h0 k
        rcases ih.step hQ (x.step_eq k) with h | h
        · exact h
        · exact absurd ⟨k + 1, Nat.le_succ_of_le hk, h⟩ hnone
  have hflag : ∀ k, n ≤ k → (x.state k).kernel.flag c = true := fun k hk =>
    (hholds k hk).flag (hfair.guardInv h0 k)
  obtain ⟨k, hk, hticket⟩ := hfair.draws_ticket h0 hflag
  -- when the lock is released the level flag is clear
  obtain ⟨j, hj, ⟨loaded, hloaded⟩, -⟩ := hfair.releases h0 hticket
  have hset := hflag j (Nat.le_trans hk hj)
  rw [(hfair.guardInv h0 j).tracks.flag, hloaded] at hset
  cases hset

/-- A gate that is on its way to a queue gets there. -/
theorem FairRun.enters_queue (hfair : FairRun x)
    (h0 : Runs Multiprocessor.step Multiprocessor.ReadyOk (Multiprocessor.boot on) (x.state 0))
    (ht : (x.state n).transit c = some (.entering g)) :
    ∃ k, n ≤ k ∧ (x.state k).HoldsGate c g := by
  by_contra hnone
  have hstep : ∀ k, n ≤ k → (x.state k).transit c = some (.entering g) →
      (x.label k).1 ≠ c ∧ (x.state (k + 1)).transit c = some (.entering g) := by
    intro k hk htk
    obtain ⟨Q, hQ⟩ := hfair.gateInv h0 k
    rcases hQ.entering_step htk (x.step_eq k) with h | h
    · exact h
    · exact absurd ⟨k + 1, Nat.le_succ_of_le hk, .inl h⟩ hnone
  have hstay : ∀ k, n ≤ k → (x.state k).transit c = some (.entering g) := by
    intro k hk
    induction k, hk using Nat.le_induction with
    | base => exact ht
    | succ k hk ih => exact (hstep k hk ih).2
  -- but its CPU takes a step
  obtain ⟨k, hk, hlabel⟩ := hfair.scheduled c n fun k hk =>
    .inl ((hfair.guardInv h0 k).flag_of_entering (hstay k hk))
  exact (hstep k hk (hstay k hk)).1 hlabel

/-- Every marked gate gets its epilogue. -/
theorem gate_served
    (h0 : Runs Multiprocessor.step Multiprocessor.ReadyOk (Multiprocessor.boot on) (x.state 0))
    (hfair : FairRun x) (hg : (x.state n).kernel.queueFlag g = true) :
    ∃ k, n ≤ k ∧ ∃ c, (x.state k).StartsEpilogue c g := by
  obtain ⟨Q, hQ⟩ := hfair.gateInv h0 n
  rcases hQ.gates.pending g hg with ⟨d, hd⟩ | ⟨d, t, ht, rfl⟩
  · obtain ⟨k, hk, h⟩ := hfair.epilogue_starts h0 (.inl ⟨Q, hQ, hd⟩)
    exact ⟨k, hk, d, h⟩
  · cases t with
    | entering g =>
        obtain ⟨k, hk, hholds⟩ := hfair.enters_queue h0 ht
        obtain ⟨j, hj, h⟩ := hfair.epilogue_starts h0 hholds
        exact ⟨j, Nat.le_trans hk hj, d, h⟩
    | leaving g =>
        have hholds : (x.state n).HoldsGate d g := .inr (Multiprocessor.head_of_leaving ht)
        obtain ⟨k, hk, h⟩ := hfair.epilogue_starts h0 hholds
        exact ⟨k, hk, d, h⟩

theorem gate_served_contended : ∃ (x : Execution Multiprocessor.step) (k : Nat) (c : Cpu),
    (x.state 0).kernel.queueFlag .keyboard = true ∧
      (x.state k).StartsEpilogue c .keyboard := by
  obtain ⟨x, h0, hfair, -, -, hmarked⟩ := Multiprocessor.exists_fairRun
  obtain ⟨k, -, c, h⟩ := gate_served h0 hfair hmarked
  exact ⟨x, k, c, hmarked, h⟩

end Runs

end MPStuBS.Guard
