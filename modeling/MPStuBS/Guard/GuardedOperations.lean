import MPStuBS.Guard.OperationPoints
import MPStuBS.Lib.Simulation

/-!
# Guarded operations are atomic

The results about the scheduler are about operations executed as a whole, while
the CPUs execute statements, are interrupted between them, and hand the lock over
in the middle of a thread switch. Beside a run of the multiprocessor an
`OpHistory` is written: the operations begun, those completed in their order, and
the thread whose stack every CPU executes. `Serialized` relates a state of the
multiprocessor to the data that the completed operations lead to, each executed
as a whole; every step keeps it (`Serialized.step`), so the scheduler behind the
guard is the scheduler of `Sched.exec` (`operations_serialized`).

What holds in all runs of whole operations can so be said of the CPUs:
no two of them execute one stack (`stack_in_use_once`), and `resume` switches to
no dying thread (`resume_switches_to_living`).
-/

set_option autoImplicit false

namespace MPStuBS.Guard

open MPStuBS.Object MPStuBS.Machine MPStuBS.Thread MPStuBS.Thread.Sched MPStuBS.Lib MPStuBS.Lib.Run

/-! ## The history of the operations -/

/-- The operation that every CPU has begun and not completed, the thread whose stack it executes,
and the completed operations. -/
structure OpHistory where
  begun : Cpu → Option SchedOp
  thread : Cpu → Option ThreadPtr
  done : List (Cpu × SchedOp)

namespace OpHistory

def init : OpHistory := ⟨fun _ => none, fun _ => none, []⟩

/-- CPU `c` is about to execute the statement at `sp`. -/
def enter (h : OpHistory) (c : Cpu) (sp : SchedPc) : OpHistory :=
  match sp.entry? with
  | none => h
  | some op => { h with begun := Function.update h.begun c (some op) }

/-- The operation of CPU `c`, if there is one, is complete. -/
def complete (h : OpHistory) (c : Cpu) : OpHistory :=
  match h.begun c with
  | none => h
  | some op => { h with begun := Function.update h.begun c none, done := h.done ++ [(c, op)] }

/-- CPU `c` goes on with the stack of `next`. -/
def goOn (h : OpHistory) (c : Cpu) (next : ThreadPtr) : OpHistory :=
  { h with thread := Function.update h.thread c (some next) }

/-- CPU `c` has executed a statement of the scheduler, which hands over control. -/
def leave (h : OpHistory) (c : Cpu) : Control SchedPc → OpHistory
  | .next _ => h
  | .wild => h
  | .ret => h.complete c
  | .die => h.complete c
  | .switch _ next _ => (h.complete c).goOn c next
  | .start next => (h.complete c).goOn c next

/-- What a step adds to the history. -/
def record (m : Multiprocessor) (i : Cpu × Choice) (h : OpHistory) : OpHistory :=
  match i.2, (m.cpu i.1).stack.head?.bind Activation.schedPc? with
  | .stmt _, some sp =>
      (h.enter i.1 sp).leave i.1 (schedStep i.1 m.kernel (m.cpu i.1).intr sp).ctl
  | _, _ => h

variable {h : OpHistory} {m : Multiprocessor} {c : Cpu} {op : SchedOp}

theorem complete_of_none (hc : h.begun c = none) : h.complete c = h := by
  simp only [complete, hc]

theorem complete_of_some (hc : h.begun c = some op) :
    h.complete c =
      { h with begun := Function.update h.begun c none, done := h.done ++ [(c, op)] } := by
  simp only [complete, hc]

theorem record_of_schedPc?_none {a : Activation} {below : List Activation} {ch : Choice}
    (hs : (m.cpu c).stack = a :: below) (ha : a.schedPc? = none) : record m (c, ch) h = h := by
  have hnone : (m.cpu c).stack.head?.bind Activation.schedPc? = none := by
    rw [hs]
    exact ha
  cases ch with
  | stmt answer => simp only [record, hnone]
  | _ => rfl

theorem record_of_schedPc? {a : Activation} {below : List Activation} {answer : Bool}
    {sp : SchedPc} (hs : (m.cpu c).stack = a :: below) (ha : a.schedPc? = some sp) :
    record m (c, .stmt answer) h =
      (h.enter c sp).leave c (schedStep c m.kernel (m.cpu c).intr sp).ctl := by
  have hsome : (m.cpu c).stack.head?.bind Activation.schedPc? = some sp := by
    rw [hs]
    exact ha
  simp only [record, hsome]

end OpHistory

/-- The points at which no operation of the scheduler is in progress. -/
def SchedPc.isIdle (sp : SchedPc) : Prop := sp.isEntry = true ∨ sp = .dispatched

/-- An operation that has begun is the one that would begin at its point. -/
theorem SchedPc.entry?_of_midway {online : Nat} {c : Cpu} {op op' : SchedOp} {s σ : Sched}
    {sp : SchedPc} (h : sp.Midway online c op s σ) (hentry : sp.entry? = some op') : op' = op := by
  cases sp with
  | resume => exact (Option.some.inj hentry).symm.trans h.1.symm
  | exit => exact (Option.some.inj hentry).symm.trans h.1.symm
  | kill that => exact (Option.some.inj hentry).symm.trans h.1.symm
  | ready that => exact (Option.some.inj hentry).symm.trans h.1.symm
  | schedule => exact (Option.some.inj hentry).symm.trans h.1.symm
  | _ => cases hentry

/-- At an idle point an operation begins, or guarded code returns. -/
theorem SchedPc.idle_cases {sp : SchedPc} (h : sp.isIdle) :
    (∃ op, sp.entry? = some op) ∨
      sp.entry? = none ∧ ∀ c k intr, schedStep c k intr sp = ⟨k, intr, .ret⟩ := by
  rcases h with h | rfl
  · cases sp with
    | resume => exact .inl ⟨_, rfl⟩
    | exit => exact .inl ⟨_, rfl⟩
    | kill that => exact .inl ⟨_, rfl⟩
    | ready that => exact .inl ⟨_, rfl⟩
    | schedule => exact .inl ⟨_, rfl⟩
    | work => exact .inr ⟨rfl, fun _ _ _ => rfl⟩
    | _ => cases h
  · exact .inr ⟨rfl, fun _ _ _ => rfl⟩

/-- The point of a stack does not change when its innermost activation is not in the scheduler and
goes on outside of it. -/
theorem stackSched_of_none {a : Activation} {below : List Activation} {sp : SchedPc}
    (ha : a.schedPc? = none) (h : stackSched (a :: below) = some sp) :
    stackSched below = some sp := by
  cases hp : a.phase? with
  | none => simpa [stackSched, hp] using h
  | some p => simp [stackSched, hp, ha] at h

/-- The activation that leaves the scheduler leaves no point of it on the stack. -/
theorem stackSched_left {a a₀ : Activation} {below : List Activation} {sp : SchedPc}
    (hs : StackOk (a :: below)) (ha : a.schedPc? = some sp) (h₀ : a₀.schedPc? = none) :
    stackSched (a₀ :: below) = none := by
  have hbelow : stackSched below = none :=
    stackSched_below_none hs (by rw [Activation.phase?_of_schedPc? ha]; rfl)
  cases hp : a₀.phase? with
  | none => simp [stackSched, hp, hbelow]
  | some p => simp [stackSched, hp, h₀]

/-- The statement that CPU `i.1` executes next is a call of `ready` for `that`. -/
def Multiprocessor.CallsReady (m : Multiprocessor) (i : Cpu × Choice) (that : ThreadPtr) : Prop :=
  ∃ answer a, i.2 = .stmt answer ∧ m.Executes i.1 a ∧ a.schedPc? = some (.ready that)

/-! ## The relation -/

/-- The data `s` are those that the completed operations lead to. The operation in progress, of
which there is at most one, began with them. -/
structure Serialized (online : Nat) (p : Multiprocessor × OpHistory) (s : Sched) : Prop where
  guard : p.1.GuardInv
  saved : ∀ t sp, stackSched (p.1.regs t) = some sp → sp = .dispatched
  thread : s.life = p.2.thread
  idle : (∀ c, p.2.begun c = none) → p.1.kernel.sched = s
  midway : ∀ c op, p.2.begun c = some op → ∃ sp, stackSched (p.1.cpu c).stack = some sp ∧
    sp.Midway online c op s p.1.kernel.sched
  point : ∀ c sp, (p.1.cpu c).status = .running → p.2.begun c = none →
    stackSched (p.1.cpu c).stack = some sp → sp.isIdle

theorem serialized_boot (online : Nat) (on : Cpu → Bool) :
    Serialized online (Multiprocessor.boot on, OpHistory.init) Sched.init where
  guard := Multiprocessor.guardInv_boot on
  saved t sp hsp := by cases hsp
  thread := rfl
  idle _ := rfl
  midway c op hop := by cases hop
  point c sp _ _ hsp := by cases hsp

namespace Serialized

variable {online : Nat} {m : Multiprocessor} {h : OpHistory} {s : Sched} {c : Cpu}

/-- The CPU whose stack is in the scheduler is the only one with an operation in progress. -/
theorem begun_of_ne (hS : Serialized online (m, h) s) {sp : SchedPc}
    (hsp : stackSched (m.cpu c).stack = some sp) {d : Cpu} (hd : d ≠ c) : h.begun d = none := by
  cases hb : h.begun d with
  | none => rfl
  | some op =>
      obtain ⟨sp', hsp', -⟩ := hS.midway d op hb
      have hc : (m.phase c).acquired = true := by
        rw [Multiprocessor.phase, stackSched_owning hsp]
        rfl
      have hd' : (m.phase d).acquired = true := by
        rw [Multiprocessor.phase, stackSched_owning hsp']
        rfl
      exact absurd (hS.guard.tracks.owner_unique hd' hc) hd

/-- A step that changes neither the data of the scheduler nor the history. -/
theorem frame (hS : Serialized online (m, h) s) {m' : Multiprocessor} {st : CpuState}
    (hguard : m'.GuardInv) (hcpu : m'.cpu = Function.update m.cpu c st)
    (hregs : m'.regs = m.regs) (hsched : m'.kernel.sched = m.kernel.sched)
    (hmidway : ∀ op sp, h.begun c = some op → stackSched (m.cpu c).stack = some sp →
      stackSched st.stack = some sp)
    (hpoint : ∀ sp, st.status = .running → h.begun c = none → stackSched st.stack = some sp →
      sp.isIdle) : Serialized online (m', h) s := by
  have hself : m'.cpu c = st := by rw [hcpu, Function.update_self]
  have hother : ∀ d, d ≠ c → m'.cpu d = m.cpu d := fun d hd => by
    rw [hcpu, Function.update_of_ne hd]
  refine ⟨hguard, ?_, hS.thread, ?_, ?_, ?_⟩
  · intro t sp hsp
    exact hS.saved t sp (hregs ▸ hsp)
  · intro hnone
    exact hsched.trans (hS.idle hnone)
  · intro d op hop
    obtain ⟨sp, hsp, hmid⟩ := hS.midway d op hop
    have hmid' : sp.Midway online d op s m'.kernel.sched := hsched ▸ hmid
    by_cases hd : d = c
    · subst hd
      exact ⟨sp, hself ▸ hmidway op sp hop hsp, hmid'⟩
    · exact ⟨sp, (congrArg (fun s => stackSched s.stack) (hother d hd)).trans hsp, hmid'⟩
  · intro d sp hst hb hsp
    by_cases hd : d = c
    · subst hd
      rw [hself] at hst hsp
      exact hpoint sp hst hb hsp
    · rw [hother d hd] at hst hsp
      exact hS.point d sp hst hb hsp

/-- A step of the CPU that executes the scheduler: the data and the history change. -/
theorem setCpu (hS : Serialized online (m, h) s) {m' : Multiprocessor} {h' : OpHistory}
    {s' : Sched} {st : CpuState} {sp₀ : SchedPc}
    (hsp₀ : stackSched (m.cpu c).stack = some sp₀) (hguard : m'.GuardInv)
    (hcpu : m'.cpu = Function.update m.cpu c st)
    (hsaved : ∀ t sp, stackSched (m'.regs t) = some sp → sp = .dispatched)
    (hthread : s'.life = h'.thread) (hbegun : ∀ d, d ≠ c → h'.begun d = h.begun d)
    (hidle : h'.begun c = none → m'.kernel.sched = s')
    (hmidway : ∀ op, h'.begun c = some op → ∃ sp, stackSched st.stack = some sp ∧
      sp.Midway online c op s' m'.kernel.sched)
    (hpoint : ∀ sp, st.status = .running → h'.begun c = none → stackSched st.stack = some sp →
      sp.isIdle) : Serialized online (m', h') s' := by
  have hself : m'.cpu c = st := by rw [hcpu, Function.update_self]
  have hother : ∀ d, d ≠ c → m'.cpu d = m.cpu d := fun d hd => by
    rw [hcpu, Function.update_of_ne hd]
  refine ⟨hguard, hsaved, hthread, fun hnone => hidle (hnone c), ?_, ?_⟩
  · intro d op hop
    by_cases hd : d = c
    · subst hd
      rw [show (m', h').1.cpu d = st from hself]
      exact hmidway op hop
    · rw [show (m', h').2.begun d = h.begun d from hbegun d hd, hS.begun_of_ne hsp₀ hd] at hop
      cases hop
  · intro d sp hst hb hsp
    by_cases hd : d = c
    · subst hd
      rw [show (m', h').1.cpu d = st from hself] at hst hsp
      exact hpoint sp hst hb hsp
    · rw [show (m', h').1.cpu d = m.cpu d from hother d hd] at hst hsp
      exact hS.point d sp hst ((hbegun d hd).symm.trans hb) hsp

/-! ## Steps outside of the scheduler -/

theorem accept (hS : Serialized online (m, h) s) (hst : (m.cpu c).status = .running)
    (hi : (m.cpu c).intr = true) (g : Gate) : Serialized online (m.accept c g, h) s := by
  refine hS.frame (hS.guard.accept hst hi g) rfl rfl rfl ?_ ?_
  · intro op sp _ hsp
    exact hsp
  · intro sp _ hb hsp
    exact hS.point c sp hst hb hsp

theorem apply_other (hS : Serialized online (m, h) s) {a : Activation} {below : List Activation}
    {ch : Choice} {e : Effect Activation} (hst : (m.cpu c).status = .running)
    (hs : (m.cpu c).stack = a :: below)
    (he : activationStep c m.kernel (m.cpu c).intr a ch = some e) (hsp : a.schedPc? = none) :
    Serialized online (m.apply c a below e, h) s := by
  have hguard := hS.guard.apply hst hs he
  have hok : StackOk (a :: below) := hs ▸ hS.guard.stack c
  have hflag : m.kernel.flag c = (stackPhase (a :: below)).flag := by
    rw [hS.guard.tracks.flag, Multiprocessor.phase, hs]
  -- the point of the stack is one of the interrupted code
  have hbelow : ∀ sp, stackSched (m.cpu c).stack = some sp → stackSched below = some sp := by
    intro sp hsp'
    rw [hs] at hsp'
    exact stackSched_of_none hsp hsp'
  have hidle : ∀ sp, h.begun c = none → stackSched (a :: below) = some sp → sp.isIdle := by
    intro sp hb hsp'
    exact hS.point c sp hst hb (hs ▸ hsp')
  have htarget := fun a' ht => @stackSched_target c m.kernel (m.cpu c).intr a a' below ch e hok hsp
    he ht
  rcases activationStep_other hsp he with hout | ⟨rfl, rfl⟩
  · obtain ⟨k', intr', ctl⟩ := e
    obtain ⟨hsched, hctl⟩ := hout
    have hsched : k'.sched = m.kernel.sched := hsched
    cases ctl with
    | next a' =>
        have hok' := activationStep_target hok hflag he rfl
        refine hS.frame hguard rfl rfl hsched ?_ ?_
        · intro op sp _ hsp'
          exact stackSched_below hok' (hbelow sp hsp')
        · intro sp _ hb hsp'
          rcases htarget a' rfl hsp' with hentry | hsame
          · exact .inl hentry
          · exact hidle sp hb hsame
    | ret =>
        refine hS.frame hguard rfl rfl hsched (fun op sp _ => hbelow sp) ?_
        intro sp _ hb hsp'
        exact hidle sp hb (stackSched_below hok hsp')
    | wild =>
        refine hS.frame hguard rfl rfl hsched ?_ (fun sp hr => by cases hr)
        intro op sp _ hsp'
        exact hs ▸ hsp'
    | die => exact hctl.elim
    | switch old next a' => exact hctl.elim
    | start next => exact hctl.elim
  · refine hS.frame hguard rfl rfl rfl ?_ (fun sp hr => by cases hr)
    intro op sp _ hsp'
    exact hs ▸ hsp'

/-! ## Steps of the scheduler -/

/-- What CPU `c` has begun when it is about to execute the statement at `sp`. -/
theorem current (hS : Serialized online (m, h) s) {sp : SchedPc}
    (hst : (m.cpu c).status = .running) (hsp : stackSched (m.cpu c).stack = some sp) :
    (h.enter c sp = h ∧ h.begun c = none ∧
        ∀ k intr, schedStep c k intr sp = ⟨k, intr, .ret⟩) ∨
      ∃ op, h.enter c sp = { h with begun := Function.update h.begun c (some op) } ∧
        sp.Midway online c op s m.kernel.sched := by
  cases hb : h.begun c with
  | none =>
      rcases SchedPc.idle_cases (hS.point c sp hst hb hsp) with ⟨op, hop⟩ | ⟨hnone, hret⟩
      · -- nothing is in progress, so the operation begins with the data `s`
        have hnone : ∀ d, h.begun d = none := fun d => by
          by_cases hd : d = c
          · exact hd ▸ hb
          · exact hS.begun_of_ne hsp hd
        refine .inr ⟨op, by simp only [OpHistory.enter, hop], ?_⟩
        rw [show m.kernel.sched = s from hS.idle hnone]
        exact SchedPc.midway_of_entry hop s
      · exact .inl ⟨by simp only [OpHistory.enter, hnone], rfl, hret c⟩
  | some op =>
      obtain ⟨sp', hsp', hmid⟩ := hS.midway c op hb
      obtain rfl : sp' = sp := Option.some.inj (hsp'.symm.trans hsp)
      refine .inr ⟨op, ?_, hmid⟩
      have hkeep : h = { h with begun := Function.update h.begun c (some op) } := by
        rw [← hb, Function.update_eq_self]
      cases hentry : sp'.entry? with
      | none =>
          simp only [OpHistory.enter, hentry]
          exact hkeep
      | some op' =>
          obtain rfl := SchedPc.entry?_of_midway hmid hentry
          simp only [OpHistory.enter, hentry]

/-- The operation of the CPU that executes the scheduler is still in progress. -/
theorem continues (hS : Serialized online (m, h) s) {sp sp' : SchedPc} {op : SchedOp}
    {h' : OpHistory} {m' : Multiprocessor} {st : CpuState}
    (hsp : stackSched (m.cpu c).stack = some sp)
    (hh' : h' = { h with begun := Function.update h.begun c (some op) }) (hguard : m'.GuardInv)
    (hcpu : m'.cpu = Function.update m.cpu c st) (hregs : m'.regs = m.regs)
    (hsp' : stackSched st.stack = some sp') (hmid : sp'.Midway online c op s m'.kernel.sched) :
    h'.done = h.done ∧ Serialized online (m', h') s := by
  have hbegun : h'.begun c = some op := by
    rw [hh']
    exact Function.update_self c _ _
  refine ⟨by rw [hh'], hS.setCpu hsp hguard hcpu ?_ ?_ ?_ ?_ ?_ ?_⟩
  · rw [hregs]
    exact hS.saved
  · rw [hh']
    exact hS.thread
  · intro d hd
    rw [hh']
    exact Function.update_of_ne hd _ _
  · intro hnone
    rw [hbegun] at hnone
    cases hnone
  · intro op' hop'
    obtain rfl := Option.some.inj (hbegun.symm.trans hop')
    exact ⟨sp', hsp', hmid⟩
  · intro sp'' _ hnone
    rw [hbegun] at hnone
    cases hnone

/-- The operation of the CPU that executes the scheduler ends, and the CPU goes on with a stack that
is not in the middle of another one. -/
theorem completes (hS : Serialized online (m, h) s) {sp : SchedPc} {op : SchedOp}
    {o : Outcome Sched} {h₁ h' : OpHistory} {m' : Multiprocessor} {st : CpuState}
    (hsp : stackSched (m.cpu c).stack = some sp)
    (henter : h₁ = { h with begun := Function.update h.begun c (some op) })
    (hends : Ends online c op s o) (hlost : ∀ σ, o ≠ .lost σ) (hdata : o.data = m'.kernel.sched)
    (hh' : h' = match o.dispatched? with
      | none => h₁.complete c
      | some next => (h₁.complete c).goOn c next)
    (hguard : m'.GuardInv) (hcpu : m'.cpu = Function.update m.cpu c st)
    (hsaved : ∀ t sp, stackSched (m'.regs t) = some sp → sp = .dispatched)
    (hpoint : ∀ sp, st.status = .running → stackSched st.stack = some sp → sp.isIdle) :
    h'.done = h.done ++ [(c, op)] ∧ Serialized online (m', h') m'.kernel.sched := by
  have hcomplete : h₁.complete c =
      ⟨Function.update h.begun c none, h.thread, h.done ++ [(c, op)]⟩ := by
    rw [OpHistory.complete_of_some (by rw [henter]; exact Function.update_self c _ _), henter]
    simp only [Function.update_idem]
  have hbegun : h'.begun = Function.update h.begun c none := by
    rw [hh', hcomplete]
    cases o.dispatched? <;> rfl
  have hthread : m'.kernel.sched.life = h'.thread := by
    obtain ⟨hsome, hnone⟩ := hends.life hlost
    rw [hh', hcomplete, ← hdata]
    cases hd : o.dispatched? with
    | none => exact (hnone hd).trans hS.thread
    | some next =>
        rw [hsome next hd, hS.thread]
        rfl
  refine ⟨?_, hS.setCpu hsp hguard hcpu hsaved hthread ?_ (fun _ => rfl) ?_ ?_⟩
  · rw [hh', hcomplete]
    cases o.dispatched? <;> rfl
  · intro d hd
    rw [hbegun, Function.update_of_ne hd]
  · intro op' hop'
    rw [hbegun, Function.update_self] at hop'
    cases hop'
  · intro sp' hr _ hsp'
    exact hpoint sp' hr hsp'

end Serialized

/-- A step leaves the completed operations as they were, or it adds one, which leads from the data
`s` to the indexed data. -/
inductive OpStep (online : Nat) (p p' : Multiprocessor × OpHistory) (i : Cpu × Choice)
    (s : Sched) : Sched → Prop
  | keeps (hdone : p'.2.done = p.2.done) : OpStep online p p' i s s
  | completes {op : SchedOp} {o : Outcome Sched} {s' : Sched}
      (hdone : p'.2.done = p.2.done ++ [(i.1, op)]) (hends : Ends online i.1 op s o)
      (hdata : o.data = s')
      (hready : ∀ that, op = .ready that → p.1.kernel.sched = s ∧ p.1.CallsReady i that) :
      OpStep online p p' i s s'

namespace Serialized

variable {online : Nat} {m : Multiprocessor} {h : OpHistory} {s : Sched} {c : Cpu}

theorem apply_sched (hS : Serialized online (m, h) s) {a : Activation} {below : List Activation}
    {answer : Bool} {e : Effect Activation} {sp : SchedPc} (hst : (m.cpu c).status = .running)
    (hs : (m.cpu c).stack = a :: below)
    (he : activationStep c m.kernel (m.cpu c).intr a (.stmt answer) = some e)
    (hsp : a.schedPc? = some sp) {h' : OpHistory}
    (hh' : h' = (h.enter c sp).leave c (schedStep c m.kernel (m.cpu c).intr sp).ctl) :
    ∃ s', OpStep online (m, h) (m.apply c a below e, h') (c, .stmt answer) s s' ∧
      Serialized online (m.apply c a below e, h') s' := by
  have hguard := hS.guard.apply hst hs he
  have hok : StackOk (a :: below) := hs ▸ hS.guard.stack c
  have hstack : stackSched (m.cpu c).stack = some sp := by
    rw [hs]
    exact stackSched_cons hsp below
  have hswitch : ∀ {old next : ThreadPtr} {a' : Activation}, e.ctl = .switch old next a' →
      a'.schedPc? = some .dispatched := fun hctl => (activationStep_switch he hctl).2
  obtain ⟨f, a₀, rfl, hf, h₀⟩ := activationStep_sched hsp he
  have hleft : stackSched (a₀ :: below) = none := stackSched_left hok hsp h₀
  have hstays : ∀ pc', stackSched (f pc' :: below) = some pc' := fun pc' =>
    stackSched_cons (hf pc') below
  rcases hS.current hst hstack with ⟨henter, hb, hret⟩ | ⟨op, henter, hmid⟩
  · -- guarded code of another kind, or the return of a thread from `toc_switch`
    have heff := hret m.kernel (m.cpu c).intr
    simp only [heff, Effect.lift, Control.lift] at hh' hguard ⊢
    have hsame : h' = h := by
      rw [hh', henter]
      exact OpHistory.complete_of_none hb
    subst hsame
    refine ⟨s, .keeps rfl, hS.frame hguard rfl rfl rfl ?_ ?_⟩
    · intro op sp' hop
      rw [hb] at hop
      cases hop
    · intro sp' _ _ hsp'
      exact absurd (hleft.symm.trans hsp') (by simp)
  · have hadv : (schedStep c m.kernel (m.cpu c).intr sp).Advances online c op s m.kernel :=
      schedStep_advances hmid
    have hready : ∀ that, op = .ready that → m.kernel.sched = s ∧
        m.CallsReady (c, .stmt answer) that := by
      rintro that rfl
      obtain ⟨rfl, hsame⟩ := SchedPc.eq_ready_of_midway hmid
      exact ⟨hsame, answer, a, rfl, ⟨hst, by rw [hs]; rfl⟩, hsp⟩
    generalize schedStep c m.kernel (m.cpu c).intr sp = eff at *
    obtain ⟨k', intr', ctl⟩ := eff
    cases ctl with
    | next pc' =>
        obtain ⟨hdone, hser⟩ := hS.continues hstack (hh'.trans henter) hguard rfl rfl (hstays pc')
          hadv
        exact ⟨s, .keeps hdone, hser⟩
    | ret =>
        obtain ⟨act, hact, hends⟩ := hadv
        have hnone : (Outcome.done k'.sched act).dispatched? = none := by
          cases act with
          | dispatched u => exact absurd rfl (hact u)
          | _ => rfl
        have hnew : h' = match (Outcome.done k'.sched act).dispatched? with
            | none => (h.enter c sp).complete c
            | some next => ((h.enter c sp).complete c).goOn c next := by
          rw [hnone, hh']
          rfl
        obtain ⟨hdone, hser⟩ :=
          hS.completes hstack henter hends (by simp) rfl hnew hguard rfl hS.saved
            fun sp' _ hsp' => absurd (hleft.symm.trans hsp') (by simp)
        exact ⟨_, .completes hdone hends rfl hready, hser⟩
    | die =>
        obtain ⟨hdone, hser⟩ :=
          hS.completes hstack henter hadv (by simp) rfl hh' hguard rfl hS.saved
            fun sp' hr _ => by cases hr
        exact ⟨_, .completes hdone hadv rfl hready, hser⟩
    | wild =>
        -- the CPU is stuck in the middle of the operation
        have hmid' : sp.Midway online c op s k'.sched := by
          rw [show k'.sched = m.kernel.sched from hadv]
          exact hmid
        obtain ⟨hdone, hser⟩ := hS.continues hstack (hh'.trans henter) hguard rfl rfl
          (stackSched_cons hsp below) hmid'
        exact ⟨s, .keeps hdone, hser⟩
    | switch old next cont =>
        obtain ⟨hlife, hends⟩ := hadv
        -- every suspended thread returns from `toc_switch`
        have hregs : ∀ t sp', stackSched (Function.update m.regs old (f cont :: below) t) =
            some sp' → sp' = .dispatched := by
          intro t sp' hsp'
          by_cases ht : t = old
          · subst ht
            rw [Function.update_self, stackSched_cons (hswitch rfl)] at hsp'
            exact (Option.some.inj hsp').symm
          · rw [Function.update_of_ne ht] at hsp'
            exact hS.saved t sp' hsp'
        obtain ⟨hdone, hser⟩ :=
          hS.completes hstack henter hends (by simp) rfl hh' hguard rfl hregs
            fun sp' _ hsp' => .inr (hregs next sp' hsp')
        exact ⟨_, .completes hdone hends rfl hready, hser⟩
    | start next =>
        obtain ⟨o, hends, hdata, hdispatched⟩ := hadv
        have hlost : ∀ σ, o ≠ .lost σ := by
          rintro σ rfl
          cases hdispatched
        have hnew : h' = match o.dispatched? with
            | none => (h.enter c sp).complete c
            | some next => ((h.enter c sp).complete c).goOn c next := by
          rw [hdispatched, hh']
          rfl
        obtain ⟨hdone, hser⟩ :=
          hS.completes hstack henter hends hlost hdata hnew hguard rfl hS.saved
            fun sp' _ hsp' => .inr (hS.saved next sp' hsp')
        exact ⟨_, .completes hdone hends hdata hready, hser⟩

/-- Every step keeps the relation. -/
theorem step {p p' : Multiprocessor × OpHistory} {i : Cpu × Choice} (hS : Serialized online p s)
    (hstep : recording Multiprocessor.step OpHistory.record p i = some p') :
    ∃ s', OpStep online p p' i s s' ∧ Serialized online p' s' := by
  obtain ⟨m, h⟩ := p
  obtain ⟨m', h'⟩ := p'
  obtain ⟨c, ch⟩ := i
  obtain ⟨hmove, hrecord⟩ := recording_eq_some.1 hstep
  obtain ⟨hst, hcases⟩ := Multiprocessor.step_cases hmove
  rcases hcases with ⟨g, rfl, hi, hm'⟩ | ⟨a, below, e, hs, he, hm'⟩
  · obtain rfl : m' = m.accept c g := hm'
    obtain rfl : h = h' := hrecord
    exact ⟨s, .keeps rfl, hS.accept hst hi g⟩
  · obtain rfl : m' = m.apply c a below e := hm'
    cases hsp : a.schedPc? with
    | none =>
        obtain rfl : h = h' := (OpHistory.record_of_schedPc?_none hs hsp).symm.trans hrecord
        exact ⟨s, .keeps rfl, hS.apply_other hst hs he hsp⟩
    | some sp =>
        obtain ⟨answer, rfl⟩ := activationStep_stmt hsp he
        exact hS.apply_sched hst hs he hsp
          (hrecord.symm.trans (OpHistory.record_of_schedPc? hs hsp))

end Serialized

/-! ## The results -/

section Results

variable {on : Cpu → Bool} {online : Nat} {m : Multiprocessor} {h : OpHistory}

/-- The operations, executed as a whole, match the steps of the multiprocessor. -/
theorem operations_simulate (online : Nat) :
    Simulation (recording Multiprocessor.step OpHistory.record) (fun _ _ => True)
      (opStep online) (fun _ _ => True) (fun p => p.2.done) Prod.snd (Serialized online) where
  matched := by
    intro p p' s i hS _ hstep
    obtain ⟨s', hop, hS'⟩ := hS.step hstep
    cases hop with
    | keeps hdone => exact ⟨[], s, by simp [hdone], trivial, rfl, hS'⟩
    | completes hdone hends hdata hready =>
        obtain ⟨fuel, hexec⟩ := hends
        refine ⟨[(fuel, i.1, _)], s', hdone, ⟨trivial, fun _ _ => trivial⟩, ?_, hS'⟩
        exact exec_single (by rw [opStep, hexec, ← hdata]; rfl)

/-- In every run the completed operations, in the order of their completion, can be executed as a
whole from the initial data. They lead to the active threads whose stacks the CPUs execute, and,
when no operation is in progress, to the data of the scheduler. Two CPUs that run one thread, after
a second `ready` for it, have a copy of its stack each. -/
theorem operations_serialized (online : Nat)
    (hrun : Reaches (recording Multiprocessor.step OpHistory.record)
      (Multiprocessor.boot on, OpHistory.init) (m, h)) :
    ∃ fuel s, Run.exec (Sched.step fuel online) Sched.init h.done = some s ∧
      s.life = h.thread ∧ ((∀ c, h.begun c = none) → m.kernel.sched = s) := by
  obtain ⟨js, s, hdone, -, hexec, hS⟩ :=
    (operations_simulate online).run (serialized_boot online on) hrun
  obtain ⟨fuel, hfuel⟩ := exec_of_opSteps hexec
  have hlist : h.done = js.map Prod.snd := hdone
  exact ⟨fuel, s, hlist ▸ hfuel, hS.thread, hS.idle⟩

/-- CPU `c₀` makes two threads ready, and `c₁` and `c₂` start one each. All of them are in the guard
at times when another one holds the lock. -/
def startOnTwo (c₀ c₁ c₂ : Cpu) : List (Cpu × Choice) :=
  (c₀, .secure (.ready 1)) :: List.replicate 12 (c₀, .stmt true) ++
    (c₀, .secure (.ready 2)) :: List.replicate 6 (c₀, .stmt true) ++
      (c₁, .secure .schedule) :: List.replicate 5 (c₁, .stmt true) ++
        List.replicate 6 (c₀, .stmt true) ++ List.replicate 3 (c₁, .stmt true) ++
          (c₂, .secure .schedule) :: List.replicate 5 (c₂, .stmt true) ++
            List.replicate 9 (c₁, .stmt true) ++ List.replicate 12 (c₂, .stmt true)

theorem operations_serialized_startOnTwo : ∃ m h fuel s,
    Reaches (recording Multiprocessor.step OpHistory.record)
      (Multiprocessor.boot fun _ => true, OpHistory.init) (m, h) ∧
    h.done = [(0, .ready 1), (0, .ready 2), (1, .schedule), (2, .schedule)] ∧
    Run.exec (Sched.step fuel 4) Sched.init h.done = some s ∧ m.kernel.sched = s := by
  have hrun : ∃ m h, Run.exec (recording Multiprocessor.step OpHistory.record)
      (Multiprocessor.boot fun _ => true, OpHistory.init) (startOnTwo 0 1 2) = some (m, h) ∧
      h.done = [(0, .ready 1), (0, .ready 2), (1, .schedule), (2, .schedule)] ∧
      ((List.finRange 4).all fun c => (h.begun c).isNone) = true := ⟨_, _, rfl, rfl, rfl⟩
  obtain ⟨m, h, hm, hdone, hall⟩ := hrun
  have hnone : ∀ c, h.begun c = none := fun c =>
    Option.isNone_iff_eq_none.1 (List.all_eq_true.1 hall c (List.mem_finRange c))
  obtain ⟨fuel, s, hexec, -, hsched⟩ := operations_serialized 4 (reaches_of_exec hm)
  exact ⟨m, h, fuel, s, reaches_of_exec hm, hdone, hexec, hsched hnone⟩

/-- CPU `c` is about to execute `toc_switch` from `old` to `next`. -/
def Multiprocessor.Switches (m : Multiprocessor) (c : Cpu) (old next : ThreadPtr) : Prop :=
  ∃ a, m.Executes c a ∧ a.schedPc? = some (.dispatchSwitch (some old) (some next))

/-- `toc_switch` saves the stack in the thread it belongs to, and `resume` switches to a thread that
is not dying at that moment. The stack is a copy where two CPUs run one thread, as after a second
`ready` for it. -/
theorem switch_from_own_stack
    (hrun : Reaches (recording Multiprocessor.step OpHistory.record)
      (Multiprocessor.boot on, OpHistory.init) (m, h)) {c : Cpu} {old next : ThreadPtr}
    (hswitch : m.Switches c old next) :
    h.thread c = some old ∧
      (h.begun c = some .resume → m.kernel.sched.killFlag next = false) := by
  obtain ⟨a, ⟨hst, hhead⟩, hsp⟩ := hswitch
  obtain ⟨js, s, -, -, -, hS⟩ := (operations_simulate 0).run (serialized_boot 0 on) hrun
  have hstack : stackSched (m.cpu c).stack = some (.dispatchSwitch (some old) (some next)) := by
    obtain ⟨below, hs⟩ := List.head?_eq_some_iff.1 hhead
    rw [hs]
    exact stackSched_cons hsp below
  rcases hS.current hst hstack with ⟨-, -, hret⟩ | ⟨op, henter, hmid⟩
  · have hctl := congrArg Effect.ctl (hret m.kernel true)
    cases hctl
  · obtain ⟨hlife, σ₀, hσ, hlife₀, fuel, hexec⟩ := hmid
    refine ⟨(congrFun hS.thread c).symm.trans hlife, fun hbegun => ?_⟩
    obtain rfl : op = .resume := by
      have hb : (h.enter c (.dispatchSwitch (some old) (some next))).begun c = some op := by
        rw [henter]
        exact Function.update_self c _ _
      exact Option.some.inj (hb.symm.trans hbegun)
    rw [dispatch_of_active ((congrFun hlife₀ c).trans hlife)] at hexec
    obtain ⟨hflag, hnext⟩ := exec_killFlag hexec
    have hliving : s.killFlag next = false := by
      rcases hnext next rfl with hliving | ⟨hop | hop, -⟩
      · exact hliving
      · cases hop
      · cases hop
    rw [hσ]
    exact (hflag next).trans hliving

/-- The timer interrupts thread 1, and the CPU has come to the switch to thread 2. -/
theorem switch_from_own_stack_timer : ∃ m h,
    Reaches (recording Multiprocessor.step OpHistory.record)
      (Multiprocessor.boot fun _ => true, OpHistory.init) (m, h) ∧ m.Switches 0 1 2 ∧
    h.begun 0 = some .resume ∧ h.thread 0 = some 1 ∧ m.kernel.sched.killFlag 2 = false := by
  have hrun : ∃ m h, Run.exec (recording Multiprocessor.step OpHistory.record)
      (Multiprocessor.boot fun _ => true, OpHistory.init)
      (Multiprocessor.startTwo 0 ++ (0, .accept .watch) :: List.replicate 18 (0, .stmt true)) =
        some (m, h) ∧ m.Switches 0 1 2 ∧ h.begun 0 = some .resume :=
    ⟨_, _, rfl, ⟨_, ⟨rfl, rfl⟩, rfl⟩, rfl⟩
  obtain ⟨m, h, hm, hswitch, hbegun⟩ := hrun
  obtain ⟨hthread, hliving⟩ := switch_from_own_stack (reaches_of_exec hm) hswitch
  exact ⟨m, h, reaches_of_exec hm, hswitch, hbegun, hthread, hliving hbegun⟩

/-! ## Threads on one CPU each -/

/-- `ready` is called for a thread that is neither on the ready list nor active. -/
def Multiprocessor.ReadyOk (m : Multiprocessor) (i : Cpu × Choice) : Prop :=
  ∀ that, m.CallsReady i that →
    ¬ m.kernel.sched.Listed that ∧ ∀ d, m.kernel.sched.life d ≠ some that

/-- With such calls the operations keep the ready list a list and every thread in one place. -/
theorem operations_simulate_ready (online : Nat) :
    Simulation (recording Multiprocessor.step OpHistory.record) (fun p i => p.1.ReadyOk i)
      (opStep online) (fun s i => s.BoundOk i ∧ s.ReadyOk i) (fun p => p.2.done) Prod.snd
      (fun p s => Serialized online p s ∧ ∃ a, s.Listing a) where
  matched := by
    rintro p p' s i ⟨hS, a, ha⟩ hok hstep
    obtain ⟨s', hop, hS'⟩ := hS.step hstep
    cases hop with
    | keeps hdone => exact ⟨[], s, by simp [hdone], trivial, rfl, hS', a, ha⟩
    | @completes op o _ hdone hends hdata hready =>
        obtain ⟨fuel, hexec⟩ := hends
        -- a bound that the operation needs and one that the length of the list asks for
        have hbig := exec_mono hexec (Nat.le_max_left fuel (a.jobs.length + 2))
        have hstep' : opStep online s (max fuel (a.jobs.length + 2), i.1, op) = some s' := by
          rw [opStep, hbig, ← hdata]
          rfl
        have hbound : s.BoundOk (max fuel (a.jobs.length + 2), i.1, op) := by
          intro l hl
          rw [LinkChain.Chain.unique hl.chain ha.1.jobs.chain]
          exact Nat.le_max_right fuel (a.jobs.length + 2)
        have hadm : s.ReadyOk (max fuel (a.jobs.length + 2), i.1, op) := by
          intro that hthat
          obtain ⟨hsched, hcall⟩ := hready that hthat
          exact hsched ▸ hok that hcall
        have hb := ha.step hbound hadm hstep'
        exact ⟨[(max fuel (a.jobs.length + 2), i.1, op)], s', hdone,
          ⟨⟨hbound, hadm⟩, fun _ _ => trivial⟩, exec_single hstep', hS', _, hb⟩

/-- No two CPUs execute the stack of one thread, and while no operation is in progress no CPU
executes that of a thread on the ready list. -/
theorem stack_in_use_once
    (hrun : Runs (recording Multiprocessor.step OpHistory.record) (fun p i => p.1.ReadyOk i)
      (Multiprocessor.boot on, OpHistory.init) (m, h)) :
    (∀ c d t, h.thread c = some t → h.thread d = some t → c = d) ∧
      ((∀ c, h.begun c = none) → ∀ c t, h.thread c = some t → ¬ m.kernel.sched.Listed t) := by
  have hinit : ∃ a, Sched.init.Listing a := ⟨_, refines_init, ReadyList.apart_init⟩
  obtain ⟨js, s, -, -, -, hS, a, ha⟩ :=
    (operations_simulate_ready 0).run ⟨serialized_boot 0 on, hinit⟩ hrun
  have hlife : a.life = h.thread := ha.1.life.symm.trans hS.thread
  refine ⟨fun c d t hc hd => ?_, fun hnone c t ht hlisted => ?_⟩
  · exact ha.2.single c d t ((congrFun hlife c).trans hc) ((congrFun hlife d).trans hd)
  · rw [show m.kernel.sched = s from hS.idle hnone] at hlisted
    obtain ⟨l, hl⟩ := hlisted
    exact ha.2.active c t ((congrFun hlife c).trans ht)
      (LinkChain.Chain.mem_of_segment ha.1.jobs.chain hl)

/-- A test for `ReadyOk`. -/
def Multiprocessor.readyTest (m : Multiprocessor) (i : Cpu × Choice) : Bool :=
  match (m.cpu i.1).stack.head?.bind Activation.schedPc? with
  | some (.ready that) => m.kernel.sched.useTest (9, i.1, .ready that)
  | _ => true

theorem Multiprocessor.readyOk_of_test {i : Cpu × Choice} (htest : m.readyTest i = true) :
    m.ReadyOk i := by
  rintro that ⟨answer, a, -, hexec, hsp⟩
  simp only [readyTest, hexec.2, Option.bind_some, hsp] at htest
  exact (use_of_test htest).2 that rfl

theorem stack_in_use_once_startOnTwo : ∃ m h,
    Runs (recording Multiprocessor.step OpHistory.record) (fun p i => p.1.ReadyOk i)
      (Multiprocessor.boot fun _ => true, OpHistory.init) (m, h) ∧
    h.thread 1 = some 1 ∧ h.thread 2 = some 2 ∧
    ∀ c d t, h.thread c = some t → h.thread d = some t → c = d := by
  have hrun : ∃ m h, Run.exec (fun p i => if p.1.readyTest i then
        recording Multiprocessor.step OpHistory.record p i else none)
      (Multiprocessor.boot fun _ => true, OpHistory.init) (startOnTwo 0 1 2) = some (m, h) ∧
      h.thread 1 = some 1 ∧ h.thread 2 = some 2 := ⟨_, _, rfl, rfl, rfl⟩
  obtain ⟨m, h, hm, h1, h2⟩ := hrun
  have hruns : Runs (recording Multiprocessor.step OpHistory.record) (fun p i => p.1.ReadyOk i)
      (Multiprocessor.boot fun _ => true, OpHistory.init) (m, h) :=
    runs_of_exec_if (fun _ _ => Multiprocessor.readyOk_of_test) hm
  exact ⟨m, h, hruns, h1, h2, (stack_in_use_once hruns).1⟩

end Results

end MPStuBS.Guard
