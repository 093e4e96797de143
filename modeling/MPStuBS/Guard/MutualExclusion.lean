import MPStuBS.Guard.SchedulerCalls

/-!
# Mutual exclusion of the guard

In every reachable state the data of the kernel matches the phases of the CPUs
(`Kernel.Tracks`): the level flag of a CPU is that of its phase, the history
fields say which CPUs wait for and own the lock, and the CPUs that hold a ticket
form the line of the ticket lock. A move between phases keeps this
(`LockMove.tracks`), so it only remains to see that every step of the
multiprocessor is such a move of one CPU (`GuardInv.step`).

A thread switch exchanges two stacks whose phase is `owning` (`Suspended`). That
is how the lock, taken by one thread, is handed over to another.
-/

set_option autoImplicit false

namespace MPStuBS.Guard

open MPStuBS.Object MPStuBS.Machine MPStuBS.Thread MPStuBS.Lib.Run MPStuBS.Lib.TicketOrder

/-- The flags, the history and the lock match the phases of the CPUs. -/
structure Kernel.Tracks (k : Kernel) (ph : Cpu → Phase) : Prop where
  flag : ∀ d, k.flag d = (ph d).flag
  requested : ∀ d, k.requested d = (ph d).requested
  acquired : ∀ d, k.acquired d = (ph d).acquired
  order : ∃ q, Ordered k.sLock.ticketnumber k.sLock.turn (fun d => (ph d).stage) q

section Tracks

variable {k k' : Kernel} {ph : Cpu → Phase} {c : Cpu} {p p' : Phase}

theorem Kernel.Tracks.congr (h : k.Tracks ph) (hsame : LockSame k k') : k'.Tracks ph := by
  constructor
  · rw [hsame.flag]
    exact h.flag
  · rw [hsame.requested]
    exact h.requested
  · rw [hsame.acquired]
    exact h.acquired
  · rw [hsame.sLock]
    exact h.order

/-- An array indexed by the CPUs that stores a function of the phase. -/
theorem tracks_update {f : Cpu → Bool} {v : Phase → Bool} (h : ∀ d, f d = v (ph d)) (p' : Phase)
    (d : Cpu) : Function.update f c (v p') d = v (Function.update ph c p' d) := by
  by_cases hd : d = c
  · subst hd
    simp
  · rw [Function.update_of_ne hd, Function.update_of_ne hd]
    exact h d

theorem tracks_keep {f : Cpu → Bool} {v : Phase → Bool} (h : ∀ d, f d = v (ph d))
    (hv : v p' = v (ph c)) (d : Cpu) : f d = v (Function.update ph c p' d) := by
  by_cases hd : d = c
  · subst hd
    rw [Function.update_self, hv]
    exact h d
  · rw [Function.update_of_ne hd]
    exact h d

theorem stage_update (ph : Cpu → Phase) (c : Cpu) (p' : Phase) :
    (fun d => (Function.update ph c p' d).stage) =
      Function.update (fun d => (ph d).stage) c p'.stage := by
  funext d
  exact Function.apply_update (fun _ p => p.stage) ph c p' d

theorem stage_keep {ph : Cpu → Phase} {c : Cpu} {p' : Phase} (h : p'.stage = (ph c).stage) :
    (fun d => (Function.update ph c p' d).stage) = fun d => (ph d).stage := by
  rw [stage_update, h]
  exact Function.update_eq_self c fun d => (ph d).stage

/-- Every move of a CPU between phases keeps the match. -/
theorem LockMove.tracks (h : LockMove c k k' p p') (hk : k.Tracks ph) (hp : ph c = p) :
    k'.Tracks (Function.update ph c p') := by
  obtain ⟨hflag, hreq, hacq, q, hq⟩ := hk
  have hcard : Fintype.card Cpu < 2 ^ 32 := by decide
  have hstage : (fun d => (ph d).stage) c = p.stage := congrArg Phase.stage hp
  cases h with
  | stay p hsame =>
      rw [← hp, Function.update_eq_self]
      exact Kernel.Tracks.congr ⟨hflag, hreq, hacq, q, hq⟩ hsame
  | mark =>
      refine ⟨tracks_update hflag .flagged, tracks_keep hreq ?_, tracks_keep hacq ?_, q, ?_⟩
      · rw [hp]; rfl
      · rw [hp]; rfl
      · rw [stage_keep (by rw [hp]; rfl)]
        exact hq
  -- the CPU joins the line with the ticket it has drawn
  | request =>
      refine ⟨tracks_keep hflag ?_, tracks_update hreq (.waiting k.sLock.ticketnumber),
        tracks_keep hacq ?_, q ++ [c], ?_⟩
      · rw [hp]; rfl
      · rw [hp]; rfl
      · rw [stage_update]
        exact hq.request hstage
  | acquire =>
      refine ⟨tracks_keep hflag ?_, tracks_update hreq .owning, tracks_update hacq .owning, q, ?_⟩
      · rw [hp]; rfl
      · rw [stage_update]
        exact hq.acquire hcard hstage
  -- the flag is cleared before the lock is given up
  | unmark =>
      refine ⟨tracks_update hflag .unlocking, tracks_keep hreq ?_, tracks_keep hacq ?_, q, ?_⟩
      · rw [hp]; rfl
      · rw [hp]; rfl
      · rw [stage_keep (by rw [hp]; rfl)]
        exact hq
  | load =>
      refine ⟨tracks_keep hflag ?_, tracks_keep hreq ?_, tracks_keep hacq ?_, q, ?_⟩
      · rw [hp]; rfl
      · rw [hp]; rfl
      · rw [hp]; rfl
      · rw [stage_update]
        exact hq.load hstage
  -- the first of the line leaves it, the next one is up
  | release loaded =>
      refine ⟨tracks_keep hflag ?_, tracks_keep hreq ?_, tracks_update hacq .free, q.tail, ?_⟩
      · rw [hp]; rfl
      · rw [hp]; rfl
      · rw [stage_update]
        exact hq.release hstage

/-- At most one CPU is past the wait for the lock. -/
theorem Kernel.Tracks.owner_unique (h : k.Tracks ph) {c d : Cpu} (hc : (ph c).acquired = true)
    (hd : (ph d).acquired = true) : c = d := by
  obtain ⟨q, hq⟩ := h.order
  exact hq.unique hc hd

end Tracks

/-! ## The invariant of the multiprocessor -/

/-- The stack of a thread that does not run: it goes on in the guard with the lock. -/
def Suspended (s : List Activation) : Prop :=
  ∃ a below, s = a :: below ∧ a.phase? = some .owning ∧ a.masked = false ∧ StackOk s

theorem Suspended.phase {s : List Activation} (h : Suspended s) : stackPhase s = .owning := by
  obtain ⟨a, below, rfl, ha, -, -⟩ := h
  exact stackPhase_cons_of_some ha below

theorem Suspended.stackOk {s : List Activation} (h : Suspended s) : StackOk s := by
  obtain ⟨a, below, -, -, -, hs⟩ := h
  exact hs

theorem Suspended.unmasked {s : List Activation} (h : Suspended s) : stackMasked s = false := by
  obtain ⟨a, below, rfl, -, hm, -⟩ := h
  exact hm

namespace Multiprocessor

/-- The phase of every CPU. -/
def phase (m : Multiprocessor) (c : Cpu) : Phase := stackPhase (m.cpu c).stack

/-- The invariant of the guard. -/
structure GuardInv (m : Multiprocessor) : Prop where
  stack : ∀ c, StackOk (m.cpu c).stack
  masked : ∀ c, (m.cpu c).status = .running → stackMasked (m.cpu c).stack = true →
    (m.cpu c).intr = false
  saved : ∀ t, Suspended (m.regs t)
  tracks : m.kernel.Tracks m.phase

theorem guardInv_boot (on : Cpu → Bool) : (boot on).GuardInv where
  stack _ := .bottom rfl
  masked _ _ _ := rfl
  saved _ := ⟨_, _, rfl, rfl, rfl, .bottom rfl⟩
  tracks := ⟨fun _ => rfl, fun _ => rfl, fun _ => rfl, [], ordered_init 0⟩

/-- One CPU goes on with a new stack: the invariant asks about that stack, the suspended threads
and the data. -/
theorem GuardInv.setCpu {m : Multiprocessor} (h : m.GuardInv) {c : Cpu} {s : CpuState}
    {k : Kernel} {regs : ThreadPtr → List Activation} (hstack : StackOk s.stack)
    (hmask : s.status = .running → stackMasked s.stack = true → s.intr = false)
    (hsaved : ∀ t, Suspended (regs t))
    (htracks : k.Tracks (Function.update m.phase c (stackPhase s.stack))) :
    (Multiprocessor.setCpu ⟨m.cpu, k, regs⟩ c s).GuardInv := by
  constructor
  · apply (Function.forall_update_iff m.cpu fun _ s => StackOk s.stack).2
    exact ⟨hstack, fun d _ => h.stack d⟩
  · apply (Function.forall_update_iff m.cpu fun _ s =>
      s.status = .running → stackMasked s.stack = true → s.intr = false).2
    exact ⟨hmask, fun d _ => h.masked d⟩
  · exact hsaved
  · have hph : (Multiprocessor.setCpu ⟨m.cpu, k, regs⟩ c s).phase =
        Function.update m.phase c (stackPhase s.stack) := by
      funext d
      exact Function.apply_update (fun _ s => stackPhase s.stack) m.cpu c s d
    rw [hph]
    exact htracks

/-- An interrupt arrives only at a point where interrupts are enabled. -/
theorem GuardInv.unmasked {m : Multiprocessor} (h : m.GuardInv) {c : Cpu}
    (hst : (m.cpu c).status = .running) (hi : (m.cpu c).intr = true) :
    stackMasked (m.cpu c).stack = false := by
  by_contra hm
  have hoff := h.masked c hst (by simpa using hm)
  simp [hi] at hoff

theorem GuardInv.accept {m : Multiprocessor} (h : m.GuardInv) {c : Cpu}
    (hst : (m.cpu c).status = .running) (hi : (m.cpu c).intr = true) (g : Gate) :
    (m.accept c g).GuardInv := by
  refine h.setCpu (.handler (h.stack c) (h.unmasked hst hi) ?_ ?_) (fun _ _ => rfl) h.saved ?_
  · intro hpc
    cases hpc
  · intro hpc
    cases hpc
  · show Kernel.Tracks _ (Function.update m.phase c (m.phase c))
    rw [Function.update_eq_self]
    exact h.tracks.congr ⟨rfl, rfl, rfl, rfl⟩

theorem GuardInv.apply {m : Multiprocessor} (h : m.GuardInv) {c : Cpu} {a : Activation}
    {below : List Activation} {ch : Choice} {e : Effect Activation}
    (hst : (m.cpu c).status = .running) (hs : (m.cpu c).stack = a :: below)
    (he : activationStep c m.kernel (m.cpu c).intr a ch = some e) :
    (m.apply c a below e).GuardInv := by
  have hok : StackOk (a :: below) := hs ▸ h.stack c
  have hmask : a.masked = true → (m.cpu c).intr = false := fun ha =>
    h.masked c hst (by rw [hs]; exact ha)
  have hphase : m.phase c = stackPhase (a :: below) := congrArg stackPhase hs
  have hflag : m.kernel.flag c = (stackPhase (a :: below)).flag := by
    rw [← hphase]
    exact h.tracks.flag c
  have hsound := activationStep_sound hok hmask he
  obtain ⟨k', intr', ctl⟩ := e
  cases ctl with
  | next a' =>
      have hok' := activationStep_target hok hflag he rfl
      exact h.setCpu hok' (fun _ => hsound.2) h.saved (hsound.1.tracks h.tracks hphase)
  | ret =>
      obtain ⟨hok', hun⟩ := activationStep_ret hok he rfl
      refine h.setCpu hok' (fun _ hm => ?_) h.saved (LockMove.tracks hsound h.tracks hphase)
      rw [hun] at hm
      cases hm
  -- the CPU halts where it is, with the lock if it has it
  | die =>
      refine h.setCpu hok (fun hr => by cases hr) h.saved ?_
      rw [← hphase, Function.update_eq_self]
      exact h.tracks.congr hsound
  | wild =>
      refine h.setCpu hok (fun hr => by cases hr) h.saved ?_
      rw [← hphase, Function.update_eq_self]
      exact h.tracks.congr hsound
  | switch old next a' =>
      -- both stacks are in phase `owning`: the lock passes from one thread to the other
      obtain ⟨hsame, hp, -, hun⟩ := hsound
      have hown : a'.phase? = some .owning :=
        Activation.phase?_of_schedPc? (activationStep_switch he rfl).2
      have hnew : Suspended (a' :: below) :=
        ⟨a', below, rfl, hown, hun, activationStep_target hok hflag he rfl⟩
      have hsaved : ∀ t, Suspended (Function.update m.regs old (a' :: below) t) :=
        (Function.forall_update_iff m.regs fun _ s => Suspended s).2 ⟨hnew, fun t _ => h.saved t⟩
      refine h.setCpu (hsaved next).stackOk (fun _ hm => ?_) hsaved ?_
      · rw [(hsaved next).unmasked] at hm
        cases hm
      · rw [(hsaved next).phase, ← hp, ← hphase, Function.update_eq_self]
        exact h.tracks.congr hsame
  | start next =>
      obtain ⟨hsame, hp⟩ := hsound
      refine h.setCpu (h.saved next).stackOk (fun _ hm => ?_) h.saved ?_
      · rw [(h.saved next).unmasked] at hm
        cases hm
      · rw [(h.saved next).phase, ← hp, ← hphase, Function.update_eq_self]
        exact h.tracks.congr hsame

/-- Every step keeps the invariant. -/
theorem GuardInv.step {m m' : Multiprocessor} {i : Cpu × Choice} (h : m.GuardInv)
    (hstep : Multiprocessor.step m i = some m') : m'.GuardInv := by
  obtain ⟨c, ch⟩ := i
  obtain ⟨hst, hcases⟩ := step_cases hstep
  rcases hcases with ⟨g, rfl, hi, rfl⟩ | ⟨a, below, e, hs, he, rfl⟩
  · exact h.accept hst hi g
  · exact h.apply hst hs he

theorem Reachable.guardInv {on : Cpu → Bool} {m : Multiprocessor} (h : Reachable on m) :
    m.GuardInv :=
  Runs.invariant h (guardInv_boot on) fun _ _ _ ha _ hstep => ha.step hstep

theorem Executes.phase_eq {m : Multiprocessor} {c : Cpu} {a : Activation} {p : Phase}
    (h : m.Executes c a) (ha : a.phase? = some p) : m.phase c = p := by
  obtain ⟨below, hs⟩ := List.head?_eq_some_iff.1 h.2
  rw [Multiprocessor.phase, hs]
  exact stackPhase_cons_of_some ha below

/-- The statement that CPU `c` executes next is the call of `s_lock.lock()`. -/
def CallsLock (m : Multiprocessor) (c : Cpu) : Prop :=
  ∃ a, m.Executes c a ∧ a.enterPc? = some .lock

/-- The statement that CPU `c` executes next belongs to `s_lock.unlock()`. -/
def Unlocks (m : Multiprocessor) (c : Cpu) : Prop :=
  ∃ a, m.Executes c a ∧
    (a.leavePc? = some .unlock ∨ ∃ loaded, a.leavePc? = some (.unlockStore loaded))

/-- Mutual exclusion: at most one CPU is between the return of `lock` and `unlock`; only that CPU
executes `unlock`; and a CPU that calls `lock` neither owns the lock nor waits for it. -/
theorem guard_mutual_exclusion {on : Cpu → Bool} {m : Multiprocessor} (h : Reachable on m) :
    (∀ c d, m.kernel.acquired c = true → m.kernel.acquired d = true → c = d) ∧
      (∀ c, m.Unlocks c → m.kernel.acquired c = true) ∧
      ∀ c, m.CallsLock c → m.kernel.acquired c = false ∧ m.kernel.requested c = false := by
  have htracks := h.guardInv.tracks
  have hreq := htracks.requested
  have hacq := htracks.acquired
  refine ⟨?_, ?_, ?_⟩
  · intro c d hc hd
    rw [hacq] at hc hd
    exact htracks.owner_unique hc hd
  · rintro c ⟨a, hexec, ha⟩
    rw [hacq]
    rcases ha with ha | ⟨loaded, ha⟩
    · rw [hexec.phase_eq (Activation.phase?_of_leavePc? ha)]
      rfl
    · rw [hexec.phase_eq (Activation.phase?_of_leavePc? ha)]
      rfl
  · rintro c ⟨a, hexec, ha⟩
    rw [hacq, hreq, hexec.phase_eq (Activation.phase?_of_enterPc? ha)]
    exact ⟨rfl, rfl⟩

/-- CPU 0 owns the lock in a guarded section while CPU 1 waits for it in another. -/
theorem guard_mutual_exclusion_contended : ∃ m, Reachable (fun _ => true) m ∧
    m.kernel.acquired 0 = true ∧ m.kernel.requested 1 = true ∧
      ∀ c d, m.kernel.acquired c = true → m.kernel.acquired d = true → c = d := by
  have hrun : ∃ m, exec step (boot fun _ => true)
      ((0, .secure .work) :: List.replicate 5 (0, .stmt true) ++
        (1, .secure .work) :: List.replicate 5 (1, .stmt true)) = some m ∧
      m.kernel.acquired 0 = true ∧ m.kernel.requested 1 = true := ⟨_, rfl, rfl, rfl⟩
  obtain ⟨m, hm, h0, h1⟩ := hrun
  exact ⟨m, reaches_of_exec hm, h0, h1, (guard_mutual_exclusion (reaches_of_exec hm)).1⟩

end Multiprocessor

end MPStuBS.Guard
