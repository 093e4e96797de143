import MPStuBS.Guard.LockProgress
import MPStuBS.Lib.Progress

/-!
# Every CPU gets the lock

Mutual exclusion says what the guard never does. Here is what it must do, in
infinite runs in which no CPU stops with a ticket, every CPU that keeps a ticket
goes on to take steps, and none is interrupted forever while it keeps it
(`FairRun`): the owner gives the lock back (`lock_released`), and every CPU that
waits for the lock gets it (`lock_acquired`).

A CPU that stops with the lock is no fault of the guard: `resume` and `schedule`
halt it when they find no thread, and the others wait forever.
-/

set_option autoImplicit false

namespace MPStuBS.Guard

open MPStuBS.Object MPStuBS.Machine MPStuBS.Thread MPStuBS.Lib MPStuBS.Lib.Run
open MPStuBS.Lib.TicketOrder

/-! ## Infinite runs -/

theorem orderly_of_runs {on : Cpu → Bool} {m : Multiprocessor}
    (h : Runs Multiprocessor.step Multiprocessor.ReadyOk (Multiprocessor.boot on) m) :
    ∃ hist, Orderly (m, hist) := by
  obtain ⟨hist, hrun⟩ := h.recorded OpHistory.record OpHistory.init
  exact ⟨hist, hrun.invariant (orderly_boot on) fun _ _ _ ha hok hstep => ha.step hok hstep⟩

namespace Multiprocessor

/-- CPU `c` has drawn a ticket and has not yet given the lock back. -/
def HasTicket (m : Multiprocessor) (c : Cpu) : Prop :=
  m.kernel.requested c = true ∨ m.kernel.acquired c = true

/-- CPU `c` has set its level flag, or has a ticket. -/
def InGuard (m : Multiprocessor) (c : Cpu) : Prop := m.kernel.flag c = true ∨ m.HasTicket c

theorem hasTicket_iff {m : Multiprocessor} {c : Cpu} (h : m.GuardInv) :
    m.HasTicket c ↔ (m.phase c).stage ≠ .outside := by
  rw [HasTicket, h.tracks.requested, h.tracks.acquired]
  cases hp : m.phase c <;> simp [Phase.requested, Phase.acquired, Phase.stage, Stage.holds]

/-- The first CPU of the line stays in front of those behind it, until it gives the lock back. -/
theorem GuardInv.line_step {m m' : Multiprocessor} {c d : Cpu} {ch : Choice} {q : List Cpu}
    (h : m.GuardInv) (hstep : Multiprocessor.step m (d, ch) = some m')
    (hq : m.kernel.Line m.phase (c :: q)) :
    (∃ suffix, m'.kernel.Line m'.phase (c :: (q ++ suffix))) ∨
      (∃ loaded, m.phase c = .releasing loaded) ∧ m'.kernel.Line m'.phase q := by
  obtain ⟨p', hphase, hmove⟩ := h.lockMove hstep
  obtain ⟨q', hline, hq'⟩ := hmove.line hq rfl
  rw [← hphase] at hline
  rcases hq' with rfl | rfl | ⟨⟨loaded, hloaded⟩, rfl⟩
  · exact .inl ⟨[], by rw [List.append_nil]; exact hline⟩
  · exact .inl ⟨[d], hline⟩
  · -- the CPU that gives the lock back is the first one
    have hholds : (m.phase d).stage.holds = true := by
      rw [hloaded]
      rfl
    obtain ⟨l, hl⟩ := Ordered.head_of_holds hq hholds
    obtain rfl := (List.cons.inj hl).1
    exact .inr ⟨⟨loaded, hloaded⟩, hline⟩

end Multiprocessor

/-- The calls of `ready` are proper, no CPU stops inside the guard, and a CPU that stays inside the
guard goes on to take steps, of which only finitely many accept an interrupt. -/
structure FairRun (x : Execution Multiprocessor.step) : Prop where
  ready : ∀ n, (x.state n).ReadyOk (x.label n)
  running : ∀ n c, (x.state n).InGuard c → ((x.state n).cpu c).status = .running
  scheduled : ∀ c n, (∀ k, n ≤ k → (x.state k).InGuard c) → ∃ k, n ≤ k ∧ (x.label k).1 = c
  quiet : ∀ c n, (∀ k, n ≤ k → (x.state k).InGuard c) →
    ∃ k, n ≤ k ∧ ∀ j g, k ≤ j → x.label j ≠ (c, .accept g)

/-! ## Fair runs exist -/

/-- User code, or a guarded section of it that calls no operation. -/
def Activation.isPlain : Activation → Bool
  | .user => true
  | .secure (.enter .work _) => true
  | .secure (.body .work) => true
  | .secure (.leave .disableInt) => true
  | .secure (.leave .dequeue) => true
  | .secure (.leave (.setDequeued .keyboard)) => true
  | .secure (.leave (.enableInt .keyboard)) => true
  | .secure (.leave (.epilogue .keyboard .start)) => true
  | .secure (.leave .clearFlag) => true
  | .secure (.leave .unlock) => true
  | .secure (.leave (.unlockStore _)) => true
  | .secure (.leave .enableIntReturn) => true
  | _ => false

/-- What a plain activation does next: from user code it enters a guarded section. -/
def Activation.plainChoice : Activation → Choice
  | .user => .secure .work
  | _ => .stmt true

theorem Activation.plainChoice_ne (a : Activation) (g : Gate) : a.plainChoice ≠ .accept g := by
  cases a <;> exact fun h => by cases h

theorem Activation.schedPc?_ne_ready (a : Activation) (ha : a.isPlain = true)
    (that : ThreadPtr) : a.schedPc? ≠ some (.ready that) := by
  intro hsp
  cases a with
  | user => cases hsp
  | kickoff pc => cases ha
  | guardian g pc => cases ha
  | secure pc =>
      cases pc with
      | enter op pc => cases hsp
      | body pc =>
          cases pc with
          | ready t => cases ha
          | _ => cases hsp
      | leave pc =>
          cases pc with
          | epilogue item pc =>
              cases pc with
              | sched pc => cases item <;> cases ha
              | _ => cases hsp
          | _ => cases hsp

/-- While the gate of the keyboard is the only one that is queued, a step of a plain activation
leads to a plain one. -/
theorem activationStep_plain {c : Cpu} {k : Kernel} (intr : Bool) {a : Activation}
    {Q : Lists Cpu Gate} (hQ : k.queues.Represents Q) (hg : ∀ d, ∀ g ∈ Q d, g = .keyboard)
    (ha : a.isPlain = true) : ∃ k' intr' a',
      activationStep c k intr a a.plainChoice = some ⟨k', intr', .next a'⟩ ∧
        a'.isPlain = true ∧ ∃ Q', k'.queues.Represents Q' ∧ ∀ d, ∀ g ∈ Q' d, g = .keyboard := by
  cases a with
  | user => exact ⟨_, _, _, rfl, rfl, Q, hQ, hg⟩
  | kickoff pc => cases ha
  | guardian g pc => cases ha
  | secure pc =>
      cases pc with
      | enter op pc =>
          cases op with
          | work =>
              cases pc with
              | spin current =>
                  by_cases hturn : k.sLock.turn = current
                  · have hstep : enterStep c k intr (.spin current) =
                        ⟨k.acquireLock c, intr, .ret⟩ := if_pos hturn
                    refine ⟨k.acquireLock c, intr, .secure (.body .work), ?_, rfl, Q, hQ, hg⟩
                    change some ((enterStep c k intr (.spin current)).lift _ _) = _
                    rw [hstep]
                    rfl
                  · have hstep : enterStep c k intr (.spin current) =
                        ⟨k, intr, .next (.spin current)⟩ := if_neg hturn
                    refine ⟨k, intr, .secure (.enter .work (.spin current)), ?_, rfl, Q, hQ, hg⟩
                    change some ((enterStep c k intr (.spin current)).lift _ _) = _
                    rw [hstep]
                    rfl
              | _ => exact ⟨_, _, _, rfl, rfl, Q, hQ, hg⟩
          | _ => cases ha
      | body pc =>
          cases pc with
          | work => exact ⟨_, _, _, rfl, rfl, Q, hQ, hg⟩
          | _ => cases ha
      | leave pc =>
          cases pc with
          | dequeue =>
              obtain ⟨hhead, hQ'⟩ := hQ.dequeue c
              cases hd : (k.queues.mem c).dequeue.1 with
              | none =>
                  have hstep : leaveStep c k intr .dequeue = ⟨k, intr, .next .clearFlag⟩ := by
                    simp only [leaveStep, hd]
                  refine ⟨k, intr, .secure (.leave .clearFlag), ?_, rfl, Q, hQ, hg⟩
                  change some ((leaveStep c k intr .dequeue).lift _ _) = _
                  rw [hstep]
                  rfl
              | some item =>
                  have hstep : leaveStep c k intr .dequeue =
                      ⟨{ k with queues := k.queues.put c (k.queues.mem c).dequeue.2 }, intr,
                        .next (.setDequeued item)⟩ := by
                    simp only [leaveStep, hd]
                  have hitem : item ∈ Q c := List.mem_of_head? (hhead.symm.trans hd)
                  obtain rfl := hg c item hitem
                  refine ⟨{ k with queues := k.queues.put c (k.queues.mem c).dequeue.2 }, intr,
                    .secure (.leave (.setDequeued .keyboard)), ?_, rfl, _, hQ', ?_⟩
                  · change some ((leaveStep c k intr .dequeue).lift _ _) = _
                    rw [hstep]
                    rfl
                  · intro d g hmem
                    by_cases hdc : d = c
                    · subst hdc
                      rw [Function.update_self] at hmem
                      exact hg d g (List.mem_of_mem_tail hmem)
                    · rw [Function.update_of_ne hdc] at hmem
                      exact hg d g hmem
          | setDequeued item =>
              cases item with
              | keyboard => exact ⟨_, _, _, rfl, rfl, Q, hQ, hg⟩
              | _ => cases ha
          | enableInt item =>
              cases item with
              | keyboard => exact ⟨_, _, _, rfl, rfl, Q, hQ, hg⟩
              | _ => cases ha
          | epilogue item pc =>
              cases item with
              | keyboard =>
                  cases pc with
                  | start => exact ⟨_, _, _, rfl, rfl, Q, hQ, hg⟩
                  | _ => cases ha
              | _ => cases ha
          | _ => exact ⟨_, _, _, rfl, rfl, Q, hQ, hg⟩

namespace Multiprocessor

/-- Every CPU runs a plain activation, and only the gate of the keyboard is queued. -/
structure Plain (m : Multiprocessor) : Prop where
  cpu : ∀ c, ∃ intr a, m.cpu c = ⟨.running, intr, [a]⟩ ∧ a.isPlain = true
  queued : ∃ Q, m.kernel.queues.Represents Q ∧ ∀ c, ∀ g ∈ Q c, g = .keyboard

/-- The CPUs take turns. -/
def turn (n : Nat) : Cpu := ⟨n % 4, Nat.mod_lt n (Nat.succ_pos 3)⟩

/-- The CPU whose turn it is takes a step, and no interrupt arrives. -/
def roundRobin (n : Nat) (m : Multiprocessor) : Cpu × Choice :=
  (turn n, ((m.cpu (turn n)).stack.head?.map Activation.plainChoice).getD .finish)

variable {m : Multiprocessor}

theorem Plain.roundRobin (hm : m.Plain) (n : Nat) :
    ∃ intr a, m.cpu (turn n) = ⟨.running, intr, [a]⟩ ∧ a.isPlain = true ∧
      Multiprocessor.roundRobin n m = (turn n, a.plainChoice) := by
  obtain ⟨intr, a, hcpu, ha⟩ := hm.cpu (turn n)
  refine ⟨intr, a, hcpu, ha, ?_⟩
  rw [Multiprocessor.roundRobin, hcpu]
  rfl

theorem Plain.step (hm : m.Plain) (n : Nat) :
    ∃ m', Multiprocessor.step m (Multiprocessor.roundRobin n m) = some m' ∧ m'.Plain := by
  obtain ⟨intr, a, hcpu, ha, hlabel⟩ := hm.roundRobin n
  rw [hlabel]
  generalize turn n = c at hcpu
  obtain ⟨Q, hQ, hg⟩ := hm.queued
  obtain ⟨k', intr', a', hstep, ha', hqueued⟩ := activationStep_plain (c := c) intr hQ hg ha
  refine ⟨{ m with kernel := k' }.setCpu c ⟨.running, intr', [a']⟩, ?_, fun d => ?_, hqueued⟩
  · cases hch : a.plainChoice with
    | accept g => exact absurd hch (a.plainChoice_ne g)
    | _ =>
        rw [hch] at hstep
        simp only [Multiprocessor.step, hcpu, hstep]
        rfl
  · by_cases hd : d = c
    · subst hd
      exact ⟨intr', a', Function.update_self d _ m.cpu, ha'⟩
    · obtain ⟨intr, a, hcpu, ha⟩ := hm.cpu d
      exact ⟨intr, a, (Function.update_of_ne hd _ m.cpu).trans hcpu, ha⟩

theorem Plain.readyOk (hm : m.Plain) (n : Nat) : m.ReadyOk (Multiprocessor.roundRobin n m) := by
  obtain ⟨intr, a, hcpu, ha, hlabel⟩ := hm.roundRobin n
  rw [hlabel]
  rintro that ⟨answer, b, -, hexec, hsp⟩
  have hb : b = a := by
    have h := hexec.2
    rw [hcpu] at h
    exact (Option.some.inj h).symm
  subst hb
  exact absurd hsp (b.schedPc?_ne_ready ha that)

/-- A keyboard interrupt in a guarded section, whose gate is queued, while another CPU begins to
wait for the lock. -/
def contended (c d : Cpu) : List (Cpu × Choice) :=
  (c, .secure .work) :: List.replicate 5 (c, .stmt true) ++
    (c, .accept .keyboard) :: List.replicate 8 (c, .stmt true) ++
      (d, .secure .work) :: List.replicate 5 (d, .stmt true)

/-- CPU 0 owns the lock, and the gate of the keyboard is in its queue; CPU 1 waits for the lock. Both
go on with guarded sections forever. -/
theorem exists_fairRun : ∃ x : Execution Multiprocessor.step,
    Runs Multiprocessor.step Multiprocessor.ReadyOk (boot fun _ => true) (x.state 0) ∧
      FairRun x ∧ (x.state 0).kernel.acquired 0 = true ∧
        (x.state 0).kernel.requested 1 = true ∧
          (x.state 0).kernel.queueFlag .keyboard = true := by
  have hrun : ∃ m, exec (fun m i => if m.readyTest i then Multiprocessor.step m i else none)
      (boot fun _ => true) (contended 0 1) = some m ∧ m.kernel.acquired 0 = true ∧
        m.kernel.requested 1 = true ∧
          m.kernel.queueFlag = Function.update (fun _ => false) .keyboard true ∧
          ∀ c, ∃ intr a, m.cpu c = ⟨.running, intr, [a]⟩ ∧ a.isPlain = true :=
    ⟨_, rfl, rfl, rfl, rfl, fun
      | 0 => ⟨_, _, rfl, rfl⟩
      | 1 => ⟨_, _, rfl, rfl⟩
      | 2 => ⟨_, _, rfl, rfl⟩
      | 3 => ⟨_, _, rfl, rfl⟩⟩
  obtain ⟨m, hm, hacquired, hrequested, hmarked, hcpu⟩ := hrun
  have hruns : Runs Multiprocessor.step Multiprocessor.ReadyOk (boot fun _ => true) m :=
    runs_of_exec_if (fun _ _ => readyOk_of_test) hm
  have hplain : m.Plain := by
    obtain ⟨Q, hQ⟩ := Reachable.gateInv (hruns.mono fun _ _ _ => trivial)
    refine ⟨hcpu, Q, hQ.gates.represents, fun c g hg => ?_⟩
    by_contra hne
    have hmark := hQ.gates.marked c g hg
    rw [hmarked, Function.update_of_ne hne] at hmark
    cases hmark
  obtain ⟨x, rfl, hx⟩ := exists_execution (fun n _ hm => Plain.step hm n) hplain
  refine ⟨x, hruns, ⟨fun n => ?_, fun n c _ => ?_, fun c n _ => ?_, fun c n _ => ?_⟩, hacquired,
    hrequested, by rw [hmarked, Function.update_self]⟩
  · rw [(hx n).2]
    exact (hx n).1.readyOk n
  · obtain ⟨intr, a, hcpu, -⟩ := (hx n).1.cpu c
    rw [hcpu]
  · refine ⟨4 * n + c, by omega, ?_⟩
    rw [(hx _).2]
    have hmod : (4 * n + c) % 4 = c := by omega
    exact Fin.ext hmod
  · refine ⟨n, Nat.le_refl n, fun k g _ hlabel => ?_⟩
    obtain ⟨intr, a, -, -, hround⟩ := (hx k).1.roundRobin k
    have hch := (hround.symm.trans (hx k).2.symm).trans hlabel
    exact a.plainChoice_ne g (congrArg Prod.snd hch)

end Multiprocessor

/-! ## The results -/

section Runs

variable {x : Execution Multiprocessor.step} {on : Cpu → Bool} {c : Cpu} {n : Nat}

theorem FairRun.runs (hfair : FairRun x)
    (h0 : Runs Multiprocessor.step Multiprocessor.ReadyOk (Multiprocessor.boot on) (x.state 0))
    (n : Nat) :
    Runs Multiprocessor.step Multiprocessor.ReadyOk (Multiprocessor.boot on) (x.state n) :=
  x.invariant h0 hfair.ready (fun _ _ _ ha hok hstep => ha.tail hok hstep) n

theorem FairRun.guardInv (hfair : FairRun x)
    (h0 : Runs Multiprocessor.step Multiprocessor.ReadyOk (Multiprocessor.boot on) (x.state 0))
    (n : Nat) : (x.state n).GuardInv := by
  obtain ⟨hist, h⟩ := orderly_of_runs (hfair.runs h0 n)
  exact h.guard

/-- No CPU is inside the guard forever without waiting for another one. -/
theorem FairRun.not_forever (hfair : FairRun x)
    (h0 : Runs Multiprocessor.step Multiprocessor.ReadyOk (Multiprocessor.boot on) (x.state 0))
    (hstay : ∀ k, n ≤ k → ((x.state k).phase c).Proceeds (x.state k).kernel.sLock.turn) :
    False := by
  have horderly : ∀ k, ∃ hist, Orderly (x.state k, hist) := fun k =>
    orderly_of_runs (hfair.runs h0 k)
  have hin : ∀ k, n ≤ k → (x.state k).InGuard c := by
    intro k hk
    have hphase : (x.state k).phase c ≠ .free := by
      intro hfree
      have hproceeds := hstay k hk
      rw [hfree] at hproceeds
      exact hproceeds
    have hinv := hfair.guardInv h0 k
    cases hp : (x.state k).phase c with
    | free => exact absurd hp hphase
    | flagged => exact .inl (by rw [hinv.tracks.flag, hp]; rfl)
    | _ => exact .inr ((Multiprocessor.hasTicket_iff hinv).2 (by rw [hp]; simp [Phase.stage]))
  have hrunning : ∀ k, n ≤ k → ((x.state k).cpu c).status = .running := fun k hk =>
    hfair.running k c (hin k hk)
  -- its rank falls forever
  obtain ⟨N, hN, hquiet⟩ := hfair.quiet c n hin
  obtain ⟨hist, h⟩ := horderly N
  obtain ⟨r, hr⟩ := h.exists_owes (c := c) (hrunning N hN)
  have hoften : ∀ k, ∃ j, k ≤ j ∧ (x.label j).1 = c := by
    intro k
    obtain ⟨j, hj, hc⟩ := hfair.scheduled c (max k n) fun j hj =>
      hin j (Nat.le_trans (Nat.le_max_right k n) hj)
    exact ⟨j, Nat.le_trans (Nat.le_max_left k n) hj, hc⟩
  have hfalls : ∀ k r, N ≤ k → ¬ False → Owes (x.state k) c r →
      (∃ r', Fewer r' r ∧ Owes (x.state (k + 1)) c r') ∨
        ¬ (x.label k).1 = c ∧ Owes (x.state (k + 1)) c r := by
    intro k r hk _ howes
    have hn : n ≤ k := Nat.le_trans hN hk
    obtain ⟨hist, h⟩ := horderly k
    obtain ⟨hist', h'⟩ := horderly (k + 1)
    have hproceeds := hstay k hn
    have hstep := x.step_eq k
    have haccept := hquiet k
    generalize x.label k = i at hstep haccept ⊢
    obtain ⟨d, ch⟩ := i
    by_cases hd : d = c
    · subst hd
      exact .inl (h.own_step h' hstep (fun g hg => haccept g hk (by rw [hg])) hproceeds
        (hrunning (k + 1) (Nat.le_succ_of_le hn)) howes)
    · exact .inr ⟨hd, h.other_step h' hstep (Ne.symm hd) howes⟩
  obtain ⟨k, -, hfalse⟩ : ∃ k, N ≤ k ∧ False :=
    x.eventually fewer_wf (I := fun r m => Owes m c r) hoften hfalls hr
  exact hfalse

/-- The first CPU of the line gives the lock back, and the others move up. -/
theorem FairRun.first_releases (hfair : FairRun x)
    (h0 : Runs Multiprocessor.step Multiprocessor.ReadyOk (Multiprocessor.boot on) (x.state 0))
    {l : List Cpu} (hfirst : (x.state n).kernel.Line (x.state n).phase (c :: l)) :
    ∃ k, n ≤ k ∧ (∃ loaded, (x.state k).phase c = .releasing loaded) ∧ ∃ suffix,
      (x.state k).kernel.Line (x.state k).phase (c :: (l ++ suffix)) ∧
        (x.state (k + 1)).kernel.Line (x.state (k + 1)).phase (l ++ suffix) := by
  by_contra hnone
  refine hfair.not_forever (n := n) (c := c) h0 fun k hk => ?_
  -- without the release the CPU stays the first one
  have hstay : ∃ suffix, (x.state k).kernel.Line (x.state k).phase (c :: (l ++ suffix)) := by
    induction k, hk using Nat.le_induction with
    | base => exact ⟨[], by rw [List.append_nil]; exact hfirst⟩
    | succ k hk ih =>
        obtain ⟨suffix, hline⟩ := ih
        rcases (hfair.guardInv h0 k).line_step (x.step_eq k) hline with
          ⟨more, hmore⟩ | ⟨hloaded, hleft⟩
        · exact ⟨suffix ++ more, by rw [← List.append_assoc]; exact hmore⟩
        · exact absurd ⟨k, hk, hloaded, suffix, hline, hleft⟩ hnone
  obtain ⟨suffix, hline⟩ := hstay
  exact hline.proceeds

/-- Whoever is in the line comes to its front. -/
theorem FairRun.comes_first (hfair : FairRun x)
    (h0 : Runs Multiprocessor.step Multiprocessor.ReadyOk (Multiprocessor.boot on) (x.state 0))
    {before : List Cpu} : ∀ n suffix,
      (x.state n).kernel.Line (x.state n).phase (before ++ c :: suffix) →
        ∃ k, n ≤ k ∧ ∃ suffix, (x.state k).kernel.Line (x.state k).phase (c :: suffix) := by
  induction before with
  | nil => exact fun n suffix h => ⟨n, Nat.le_refl n, suffix, h⟩
  | cons d before ih =>
      intro n suffix hline
      obtain ⟨k, hk, -, more, -, hleft⟩ := hfair.first_releases h0 hline
      have hmoved : (x.state (k + 1)).kernel.Line (x.state (k + 1)).phase
          (before ++ c :: (suffix ++ more)) := by
        rw [← List.cons_append, ← List.append_assoc]
        exact hleft
      obtain ⟨j, hj, h⟩ := ih (k + 1) (suffix ++ more) hmoved
      exact ⟨j, Nat.le_trans hk (Nat.le_trans (Nat.le_succ k) hj), h⟩

/-- A CPU with a ticket owns the lock at some time, and then gives it back. -/
theorem FairRun.releases (hfair : FairRun x)
    (h0 : Runs Multiprocessor.step Multiprocessor.ReadyOk (Multiprocessor.boot on) (x.state 0))
    (hc : (x.state n).HasTicket c) : ∃ k, n ≤ k ∧
      (∃ loaded, (x.state k).phase c = .releasing loaded) ∧ ¬ (x.state (k + 1)).HasTicket c := by
  obtain ⟨q, hq⟩ := (hfair.guardInv h0 n).tracks.order
  have hmem : c ∈ q := (hq.mem c).2 ((Multiprocessor.hasTicket_iff (hfair.guardInv h0 n)).1 hc)
  obtain ⟨before, suffix, rfl⟩ := List.append_of_mem hmem
  obtain ⟨k, hk, more, hfirst⟩ := hfair.comes_first h0 n suffix hq
  obtain ⟨j, hj, hloaded, _, hline, hleft⟩ := hfair.first_releases h0 hfirst
  refine ⟨j, Nat.le_trans hk hj, hloaded, fun hticket => ?_⟩
  -- the CPU is in the line once only
  have hstage := (Multiprocessor.hasTicket_iff (hfair.guardInv h0 (j + 1))).1 hticket
  exact (List.nodup_cons.1 hline.nodup).1 ((hleft.mem c).2 hstage)

/-- The CPU that owns the lock gives it back. -/
theorem lock_released
    (h0 : Runs Multiprocessor.step Multiprocessor.ReadyOk (Multiprocessor.boot on) (x.state 0))
    (hfair : FairRun x) (hc : (x.state n).kernel.acquired c = true) :
    ∃ k, n ≤ k ∧ (x.state k).kernel.acquired c = false := by
  obtain ⟨k, hk, -, hout⟩ := hfair.releases h0 (.inr hc)
  refine ⟨k + 1, Nat.le_succ_of_le hk, ?_⟩
  rw [Bool.eq_false_iff]
  exact fun h => hout (.inr h)

theorem lock_released_contended : ∃ (x : Execution Multiprocessor.step) (k : Nat),
    (x.state 0).kernel.acquired 0 = true ∧ (x.state k).kernel.acquired 0 = false := by
  obtain ⟨x, h0, hfair, hacquired, -⟩ := Multiprocessor.exists_fairRun
  obtain ⟨k, -, hk⟩ := lock_released h0 hfair hacquired
  exact ⟨x, k, hacquired, hk⟩

/-- A CPU that waits for the lock gets it. -/
theorem lock_acquired
    (h0 : Runs Multiprocessor.step Multiprocessor.ReadyOk (Multiprocessor.boot on) (x.state 0))
    (hfair : FairRun x) (hc : (x.state n).kernel.requested c = true) :
    ∃ k, n ≤ k ∧ (x.state k).kernel.acquired c = true := by
  obtain ⟨k, hk, ⟨loaded, hloaded⟩, -⟩ := hfair.releases h0 (.inl hc)
  refine ⟨k, hk, ?_⟩
  rw [(hfair.guardInv h0 k).tracks.acquired, hloaded]
  rfl

theorem lock_acquired_contended : ∃ (x : Execution Multiprocessor.step) (k : Nat),
    (x.state 0).kernel.acquired 0 = true ∧ (x.state 0).kernel.requested 1 = true ∧
      (x.state k).kernel.acquired 1 = true := by
  obtain ⟨x, h0, hfair, hacquired, hrequested, -⟩ := Multiprocessor.exists_fairRun
  obtain ⟨k, -, hk⟩ := lock_acquired h0 hfair hrequested
  exact ⟨x, k, hacquired, hrequested, hk⟩

end Runs

end MPStuBS.Guard
