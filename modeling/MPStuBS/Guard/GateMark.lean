import MPStuBS.Machine.Spinlock
import MPStuBS.Guard.Kernel
import MPStuBS.Lib.Simulation

/-!
# The mark of a gate

`Gate::set_queued` and `Gate::set_dequeued` of `guard/gate.h`, statement by
statement, called by any number of CPUs on any number of gates. Each takes the
spinlock of its gate, reads or writes the mark, and gives the spinlock back.

A history is written beside a run: a call begins, it stores the mark, it
returns. Every CPU goes through these in turn, and the stores, in their order,
are calls executed as a whole (`gate_mark_linearizable`). That is how
`guardianStep` and `leaveStep` execute them.
-/

set_option autoImplicit false

namespace MPStuBS.Guard

open MPStuBS.Machine MPStuBS.Lib.Run

universe u v

variable {C : Type u} {G : Type v}

/-! ## Calls executed as a whole -/

/-- A call of one of the two methods. -/
inductive MarkCall (G : Type v) where
  | setQueued (g : G)
  | setDequeued (g : G)
  deriving DecidableEq

namespace MarkCall

/-- The gate that the method is called on. -/
def gate : MarkCall G → G
  | .setQueued g => g
  | .setDequeued g => g

/-- The value that the method stores in `queue_flag`. -/
def mark : MarkCall G → Bool
  | .setQueued _ => true
  | .setDequeued _ => false

/-- What the method returns when it finds the mark `b`. -/
def answer (b : Bool) : MarkCall G → Option Bool
  | .setQueued _ => some !b
  | .setDequeued _ => none

end MarkCall

section Calls

variable [DecidableEq C] [DecidableEq G]

/-- A call executed as a whole, if it has this result. -/
def markStep (flag : G → Bool) (i : C × MarkCall G × Option Bool) : Option (G → Bool) :=
  if i.2.1.answer (flag i.2.1.gate) = i.2.2 then
    some (Function.update flag i.2.1.gate i.2.1.mark)
  else none

/-! ## Calls statement by statement -/

/-- The program points of a CPU: outside of the two methods, the wait in `Spinlock::lock`, the
initialisation of `status`, the store to `queue_flag`, `unlock`, and the return. -/
inductive MarkPc (G : Type v) where
  | outside
  | lock (x : MarkCall G)
  | readMark (g : G)
  | store (x : MarkCall G) (status : Option Bool)
  | unlock (x : MarkCall G) (status : Option Bool)
  | ret (x : MarkCall G) (status : Option Bool)

/-- A CPU calls a method, or it executes its next statement. -/
inductive MarkChoice (G : Type v) where
  | call (x : MarkCall G)
  | stmt

/-- The data of all gates and the CPUs. -/
structure Gates (C : Type u) (G : Type v) where
  gateLock : G → Spinlock
  queueFlag : G → Bool
  pc : C → MarkPc G

namespace Gates

/-- The gates are constructed. -/
def init : Gates C G := ⟨fun _ => Spinlock.init, fun _ => false, fun _ => .outside⟩

/-- CPU `c` goes on at `pc`. -/
def goto (m : Gates C G) (c : C) (pc : MarkPc G) : Gates C G :=
  { m with pc := Function.update m.pc c pc }

/-- The spinlock of gate `g` replaced. -/
def setLock (m : Gates C G) (g : G) (l : Spinlock) : Gates C G :=
  { m with gateLock := Function.update m.gateLock g l }

/-- The point behind the wait. -/
def locked : MarkCall G → MarkPc G
  | .setQueued g => .readMark g
  | .setDequeued g => .store (.setDequeued g) none

/-- One step of a CPU. -/
def step (m : Gates C G) (i : C × MarkChoice G) : Option (Gates C G) :=
  match m.pc i.1, i.2 with
  | .outside, .call x => some (m.goto i.1 (.lock x))
  | .lock x, .stmt =>
      match (m.gateLock x.gate).testAndSet with
      | (old, l) =>
          if old = 0 then some ((m.setLock x.gate l).goto i.1 (locked x))
          else some (m.setLock x.gate l)
  | .readMark g, .stmt => some (m.goto i.1 (.store (.setQueued g) (some !m.queueFlag g)))
  | .store x status, .stmt =>
      some ({ m with queueFlag := Function.update m.queueFlag x.gate x.mark }.goto i.1
        (.unlock x status))
  | .unlock x status, .stmt =>
      some ((m.setLock x.gate (m.gateLock x.gate).release).goto i.1 (.ret x status))
  | .ret _ _, .stmt => some (m.goto i.1 .outside)
  | _, _ => none

end Gates

/-! ## The history -/

/-- What a CPU does that others can tell. -/
inductive MarkEvent (C : Type u) (G : Type v) where
  | called (c : C) (x : MarkCall G)
  | stored (c : C) (x : MarkCall G) (status : Option Bool)
  | returned (c : C) (x : MarkCall G) (status : Option Bool)

namespace MarkEvent

/-- The CPU of an event. -/
def cpu : MarkEvent C G → C
  | .called c _ => c
  | .stored c _ _ => c
  | .returned c _ _ => c

/-- A store, as a label of `markStep`. -/
def store? : MarkEvent C G → Option (C × MarkCall G × Option Bool)
  | .stored c x status => some (c, x, status)
  | _ => none

/-- The event of a step. -/
def ofStep (m : Gates C G) (i : C × MarkChoice G) : Option (MarkEvent C G) :=
  match m.pc i.1, i.2 with
  | .outside, .call x => some (.called i.1 x)
  | .store x status, .stmt => some (.stored i.1 x status)
  | .ret x status, .stmt => some (.returned i.1 x status)
  | _, _ => none

/-- What a step adds to the history. -/
def record (m : Gates C G) (i : C × MarkChoice G) (h : List (MarkEvent C G)) :
    List (MarkEvent C G) :=
  h ++ (ofStep m i).toList

end MarkEvent

/-- The part of a call that a CPU has behind it. -/
inductive CallState (G : Type v) where
  | outside
  | called (x : MarkCall G)
  | stored (x : MarkCall G) (status : Option Bool)

/-- The events of one CPU, one after the other: a call, its store, and its return with the result of
the store. -/
def CallState.next (s : CallState G) (e : MarkEvent C G) : Option (CallState G) :=
  match s, e with
  | .outside, .called _ x => some (.called x)
  | .called x, .stored _ y status => if y = x then some (.stored x status) else none
  | .stored x status, .returned _ y status' =>
      if y = x ∧ status' = status then some .outside else none
  | _, _ => none

namespace MarkPc

/-- The part of its call that a CPU has behind it. -/
def state : MarkPc G → CallState G
  | .outside => .outside
  | .lock x => .called x
  | .readMark g => .called (.setQueued g)
  | .store x _ => .called x
  | .unlock x status => .stored x status
  | .ret x status => .stored x status

/-- The gate whose spinlock a CPU holds. -/
def holds : MarkPc G → Option G
  | .readMark g => some g
  | .store x _ => some x.gate
  | .unlock x _ => some x.gate
  | _ => none

end MarkPc

/-! ## The spinlocks -/

namespace Gates

/-- The spinlock of a gate is taken while a CPU is between `lock` and `unlock`, and there is at most
one such CPU. A CPU that is about to store has found the mark that is still there. -/
structure LockInv (m : Gates C G) : Prop where
  taken : ∀ c g, (m.pc c).holds = some g → (m.gateLock g).lock = 1
  single : ∀ c d g, (m.pc c).holds = some g → (m.pc d).holds = some g → c = d
  free : ∀ g, (∀ c, (m.pc c).holds ≠ some g) → (m.gateLock g).lock = 0
  status : ∀ c x status, m.pc c = .store x status → status = x.answer (m.queueFlag x.gate)

omit [DecidableEq C] [DecidableEq G] in
theorem lockInv_init : (init : Gates C G).LockInv where
  taken c g hc := by cases hc
  single c d g hc := by cases hc
  free g _ := rfl
  status c x status hc := by cases hc

/-- The steps of CPU `c`, each with its effect. -/
inductive Move (m : Gates C G) (c : C) : MarkChoice G → Gates C G → Option (MarkEvent C G) → Prop
  | call (x : MarkCall G) (hpc : m.pc c = .outside) :
      Move m c (.call x) (m.goto c (.lock x)) (some (.called c x))
  | lock (x : MarkCall G) (hpc : m.pc c = .lock x) (hfree : (m.gateLock x.gate).lock = 0) :
      Move m c .stmt ((m.setLock x.gate ⟨1⟩).goto c (locked x)) none
  | wait (x : MarkCall G) (hpc : m.pc c = .lock x) (htaken : (m.gateLock x.gate).lock ≠ 0) :
      Move m c .stmt (m.setLock x.gate ⟨1⟩) none
  | readMark (g : G) (hpc : m.pc c = .readMark g) :
      Move m c .stmt (m.goto c (.store (.setQueued g) (some !m.queueFlag g))) none
  | store (x : MarkCall G) (status : Option Bool) (hpc : m.pc c = .store x status) :
      Move m c .stmt ({ m with queueFlag := Function.update m.queueFlag x.gate x.mark }.goto c
        (.unlock x status)) (some (.stored c x status))
  | unlock (x : MarkCall G) (status : Option Bool) (hpc : m.pc c = .unlock x status) :
      Move m c .stmt ((m.setLock x.gate ⟨0⟩).goto c (.ret x status)) none
  | ret (x : MarkCall G) (status : Option Bool) (hpc : m.pc c = .ret x status) :
      Move m c .stmt (m.goto c .outside) (some (.returned c x status))

variable {m m' : Gates C G} {c : C} {ch : MarkChoice G} {e : Option (MarkEvent C G)}

theorem step_move (h : step m (c, ch) = some m') :
    Move m c ch m' (MarkEvent.ofStep m (c, ch)) := by
  cases hpc : m.pc c with
  | outside =>
      cases ch with
      | call x =>
          simp only [step, hpc, Option.some.injEq] at h
          subst h
          simp only [MarkEvent.ofStep, hpc]
          exact .call x hpc
      | stmt => simp [step, hpc] at h
  | lock x =>
      cases ch with
      | call y => simp [step, hpc] at h
      | stmt =>
          simp only [MarkEvent.ofStep, hpc]
          by_cases hfree : (m.gateLock x.gate).lock = 0
          · simp only [step, hpc, Spinlock.testAndSet, hfree, if_true] at h
            obtain rfl := Option.some.inj h
            exact .lock x hpc hfree
          · simp only [step, hpc, Spinlock.testAndSet, hfree, if_false] at h
            obtain rfl := Option.some.inj h
            exact .wait x hpc hfree
  | readMark g =>
      cases ch with
      | call y => simp [step, hpc] at h
      | stmt =>
          simp only [step, hpc, Option.some.injEq] at h
          subst h
          simp only [MarkEvent.ofStep, hpc]
          exact .readMark g hpc
  | store x status =>
      cases ch with
      | call y => simp [step, hpc] at h
      | stmt =>
          simp only [step, hpc, Option.some.injEq] at h
          subst h
          simp only [MarkEvent.ofStep, hpc]
          exact .store x status hpc
  | unlock x status =>
      cases ch with
      | call y => simp [step, hpc] at h
      | stmt =>
          simp only [step, hpc, Option.some.injEq] at h
          subst h
          simp only [MarkEvent.ofStep, hpc]
          exact .unlock x status hpc
  | ret x status =>
      cases ch with
      | call y => simp [step, hpc] at h
      | stmt =>
          simp only [step, hpc, Option.some.injEq] at h
          subst h
          simp only [MarkEvent.ofStep, hpc]
          exact .ret x status hpc

omit [DecidableEq G] in
/-- A step that touches neither the spinlocks nor the marks, and after which the CPU holds the same
spinlock. -/
theorem LockInv.goto (h : m.LockInv) {pc : MarkPc G} (hholds : pc.holds = (m.pc c).holds)
    (hstatus : ∀ x status, pc = .store x status → status = x.answer (m.queueFlag x.gate)) :
    (m.goto c pc).LockInv := by
  have hsame : ∀ d, ((m.goto c pc).pc d).holds = (m.pc d).holds := by
    intro d
    by_cases hd : d = c
    · subst hd
      simpa [Gates.goto] using hholds
    · simp [Gates.goto, hd]
  refine ⟨?_, ?_, ?_, ?_⟩
  · intro d g hd
    exact h.taken d g ((hsame d).symm.trans hd)
  · intro d d' g hd hd'
    exact h.single d d' g ((hsame d).symm.trans hd) ((hsame d').symm.trans hd')
  · intro g hnone
    exact h.free g fun d => hsame d ▸ hnone d
  · intro d x status hd
    by_cases hdc : d = c
    · subst hdc
      exact hstatus x status (by simpa [Gates.goto] using hd)
    · exact h.status d x status (by simpa [Gates.goto, hdc] using hd)

omit [DecidableEq C] [DecidableEq G] in
/-- The gate whose spinlock is free has no CPU between `lock` and `unlock`. -/
theorem LockInv.none_holds (h : m.LockInv) {g : G} (hfree : (m.gateLock g).lock = 0) (d : C) :
    (m.pc d).holds ≠ some g := by
  intro hd
  have htaken := h.taken d g hd
  rw [hfree] at htaken
  cases htaken

omit [DecidableEq C] in
/-- A CPU that repeats the test-and-set writes the word that is there. -/
theorem LockInv.setLock_taken (h : m.LockInv) {g : G} (htaken : (m.gateLock g).lock ≠ 0) :
    m.setLock g ⟨1⟩ = m := by
  have hone : (m.gateLock g).lock = 1 := by
    by_contra hne
    refine htaken (h.free g fun d hd => hne (h.taken d g hd))
  have hlock : m.gateLock g = ⟨1⟩ := by rw [← hone]
  simp only [setLock, ← hlock, Function.update_eq_self]

theorem LockInv.lock (h : m.LockInv) {x : MarkCall G} (hpc : m.pc c = .lock x)
    (hfree : (m.gateLock x.gate).lock = 0) :
    ((m.setLock x.gate ⟨1⟩).goto c (locked x)).LockInv := by
  have hself : (((m.setLock x.gate ⟨1⟩).goto c (locked x)).pc c) = locked x :=
    Function.update_self c _ _
  have hother : ∀ d, d ≠ c → ((m.setLock x.gate ⟨1⟩).goto c (locked x)).pc d = m.pc d :=
    fun d hd => Function.update_of_ne hd _ _
  have hholds : (locked x).holds = some x.gate := by cases x <;> rfl
  have hcpu : ∀ d g, (((m.setLock x.gate ⟨1⟩).goto c (locked x)).pc d).holds = some g →
      (d = c ∧ g = x.gate) ∨ (g ≠ x.gate ∧ (m.pc d).holds = some g) := by
    intro d g hd
    by_cases hdc : d = c
    · subst hdc
      rw [hself, hholds] at hd
      exact .inl ⟨rfl, (Option.some.inj hd).symm⟩
    · rw [hother d hdc] at hd
      refine .inr ⟨?_, hd⟩
      rintro rfl
      exact h.none_holds hfree d hd
  refine ⟨?_, ?_, ?_, ?_⟩
  · intro d g hd
    rcases hcpu d g hd with ⟨-, rfl⟩ | ⟨hg, hd'⟩
    · exact congrArg Spinlock.lock (Function.update_self x.gate _ _)
    · exact (congrArg Spinlock.lock (Function.update_of_ne hg _ _)).trans (h.taken d g hd')
  · intro d d' g hd hd'
    rcases hcpu d g hd with ⟨rfl, rfl⟩ | ⟨hg, hd₁⟩
    · rcases hcpu d' _ hd' with ⟨rfl, -⟩ | ⟨hg, -⟩
      · rfl
      · exact absurd rfl hg
    · rcases hcpu d' g hd' with ⟨-, rfl⟩ | ⟨-, hd₂⟩
      · exact absurd rfl hg
      · exact h.single d d' g hd₁ hd₂
  · intro g hnone
    have hg : g ≠ x.gate := by
      rintro rfl
      exact hnone c (by rw [hself, hholds])
    refine (congrArg Spinlock.lock (Function.update_of_ne hg _ _)).trans (h.free g fun d hd => ?_)
    by_cases hdc : d = c
    · rw [hdc, hpc] at hd
      cases hd
    · exact hnone d (by rw [hother d hdc]; exact hd)
  · intro d y status hd
    by_cases hdc : d = c
    · rw [hdc, hself] at hd
      cases x with
      | setQueued g => cases hd
      | setDequeued g =>
          obtain ⟨rfl, rfl⟩ := MarkPc.store.inj hd
          rfl
    · exact h.status d y status ((hother d hdc).symm.trans hd)

theorem LockInv.store (h : m.LockInv) {x : MarkCall G} {status : Option Bool}
    (hpc : m.pc c = .store x status) :
    ({ m with queueFlag := Function.update m.queueFlag x.gate x.mark }.goto c
      (.unlock x status)).LockInv := by
  have hc : (m.pc c).holds = some x.gate := by rw [hpc]; rfl
  have hkeep : (m.goto c (.unlock x status)).LockInv :=
    h.goto hc.symm fun y s hy => by cases hy
  refine ⟨hkeep.taken, hkeep.single, hkeep.free, ?_⟩
  intro d y s hd
  rw [hkeep.status d y s hd]
  -- the mark of another gate: this one's spinlock is taken by `c`
  have hne : y.gate ≠ x.gate := by
    intro hgate
    by_cases hdc : d = c
    · subst hdc
      cases (Function.update_self d _ _).symm.trans hd
    · have hd' : m.pc d = .store y s := (Function.update_of_ne hdc _ _).symm.trans hd
      refine hdc (h.single d c x.gate ?_ hc)
      rw [hd', ← hgate]
      rfl
  exact congrArg y.answer (Function.update_of_ne hne _ _).symm

theorem LockInv.unlock (h : m.LockInv) {x : MarkCall G} {status : Option Bool}
    (hpc : m.pc c = .unlock x status) :
    ((m.setLock x.gate ⟨0⟩).goto c (.ret x status)).LockInv := by
  have hc : (m.pc c).holds = some x.gate := by rw [hpc]; rfl
  have hself : ((m.setLock x.gate ⟨0⟩).goto c (.ret x status)).pc c = .ret x status :=
    Function.update_self c _ _
  have hother : ∀ d, d ≠ c → ((m.setLock x.gate ⟨0⟩).goto c (.ret x status)).pc d = m.pc d :=
    fun d hd => Function.update_of_ne hd _ _
  have hcpu : ∀ d g, (((m.setLock x.gate ⟨0⟩).goto c (.ret x status)).pc d).holds = some g →
      d ≠ c ∧ g ≠ x.gate ∧ (m.pc d).holds = some g := by
    intro d g hd
    by_cases hdc : d = c
    · rw [hdc, hself] at hd
      cases hd
    · rw [hother d hdc] at hd
      refine ⟨hdc, ?_, hd⟩
      rintro rfl
      exact hdc (h.single d c _ hd hc)
  refine ⟨?_, ?_, ?_, ?_⟩
  · intro d g hd
    obtain ⟨-, hg, hd'⟩ := hcpu d g hd
    exact (congrArg Spinlock.lock (Function.update_of_ne hg _ _)).trans (h.taken d g hd')
  · intro d d' g hd hd'
    exact h.single d d' g (hcpu d g hd).2.2 (hcpu d' g hd').2.2
  · intro g hnone
    by_cases hg : g = x.gate
    · subst hg
      exact congrArg Spinlock.lock (Function.update_self x.gate _ _)
    · refine (congrArg Spinlock.lock (Function.update_of_ne hg _ _)).trans
        (h.free g fun d hd => ?_)
      by_cases hdc : d = c
      · rw [hdc, hc] at hd
        exact hg (Option.some.inj hd).symm
      · exact hnone d (by rw [hother d hdc]; exact hd)
  · intro d y s hd
    by_cases hdc : d = c
    · rw [hdc, hself] at hd
      cases hd
    · exact h.status d y s ((hother d hdc).symm.trans hd)

theorem LockInv.move (h : m.LockInv) (hmove : Move m c ch m' e) : m'.LockInv := by
  cases hmove with
  | call x hpc => exact h.goto (by rw [hpc]; rfl) (fun y status hy => by cases hy)
  | lock x hpc hfree => exact h.lock hpc hfree
  | wait x hpc htaken =>
      rw [h.setLock_taken htaken]
      exact h
  | readMark g hpc =>
      refine h.goto (by rw [hpc]; rfl) fun x status hx => ?_
      obtain ⟨rfl, rfl⟩ := MarkPc.store.inj hx
      rfl
  | store x status hpc => exact h.store hpc
  | unlock x status hpc => exact h.unlock hpc
  | ret x status hpc => exact h.goto (by rw [hpc]; rfl) (fun y status hy => by cases hy)

/-- A step of CPU `c` adds at most an event of `c`, the next one of its call, and the other CPUs
stay where they are. -/
theorem Move.state (hmove : Move m c ch m' e) :
    (∀ d, d ≠ c → m'.pc d = m.pc d) ∧ (∀ ev ∈ e.toList, ev.cpu = c) ∧
      exec CallState.next (m.pc c).state e.toList = some (m'.pc c).state := by
  have hother : ∀ (m : Gates C G) pc d, d ≠ c → (m.goto c pc).pc d = m.pc d :=
    fun m pc d hd => Function.update_of_ne hd _ _
  have hself : ∀ (m : Gates C G) pc, (m.goto c pc).pc c = pc :=
    fun m pc => Function.update_self c _ _
  cases hmove with
  | call x hpc => exact ⟨hother m _, by simp [MarkEvent.cpu], by rw [hpc, hself]; rfl⟩
  | lock x hpc hfree => exact ⟨hother _ _, nofun, by rw [hpc, hself]; cases x <;> rfl⟩
  | wait x hpc htaken => exact ⟨fun _ _ => rfl, nofun, rfl⟩
  | readMark g hpc => exact ⟨hother m _, nofun, by rw [hpc, hself]; rfl⟩
  | store x status hpc =>
      refine ⟨hother _ _, by simp [MarkEvent.cpu], exec_single ?_⟩
      rw [hpc, hself]
      exact if_pos rfl
  | unlock x status hpc => exact ⟨hother _ _, nofun, by rw [hpc, hself]; rfl⟩
  | ret x status hpc =>
      refine ⟨hother m _, by simp [MarkEvent.cpu], exec_single ?_⟩
      rw [hpc, hself]
      exact if_pos ⟨rfl, rfl⟩

end Gates

/-! ## The results -/

/-- The stores of a history, in their order. -/
def stores (h : List (MarkEvent C G)) : List (C × MarkCall G × Option Bool) :=
  h.filterMap MarkEvent.store?

/-- The stores are calls executed as a whole. -/
theorem stores_simulate :
    Simulation (recording (Gates.step (C := C) (G := G)) MarkEvent.record) (fun _ _ => True)
      markStep (fun _ _ => True) (fun p => stores p.2) id
      (fun p flag => p.1.LockInv ∧ p.1.queueFlag = flag) where
  matched := by
    rintro ⟨m, h⟩ ⟨m', h'⟩ flag ⟨c, ch⟩ ⟨hinv, rfl⟩ - hstep
    obtain ⟨hmove, hrecord⟩ := recording_eq_some.1 hstep
    have hmove : Gates.Move m c ch m' (MarkEvent.ofStep m (c, ch)) := Gates.step_move hmove
    have hnew : stores h' = stores h ++ stores (MarkEvent.ofStep m (c, ch)).toList := by
      rw [← show h ++ (MarkEvent.ofStep m (c, ch)).toList = h' from hrecord]
      exact List.filterMap_append
    generalize MarkEvent.ofStep m (c, ch) = e at hmove hnew
    have hinv' := hinv.move hmove
    cases hmove with
    | store x status hpc =>
        refine ⟨[(c, x, status)], _, hnew, ⟨trivial, fun _ _ => trivial⟩, exec_single ?_, hinv',
          rfl⟩
        have hanswer : x.answer (m.queueFlag x.gate) = status := (hinv.status c x status hpc).symm
        exact if_pos hanswer
    | call x hpc => exact ⟨[], _, hnew, trivial, rfl, hinv', rfl⟩
    | lock x hpc hfree => exact ⟨[], _, hnew, trivial, rfl, hinv', rfl⟩
    | wait x hpc htaken => exact ⟨[], _, hnew, trivial, rfl, hinv', rfl⟩
    | readMark g hpc => exact ⟨[], _, hnew, trivial, rfl, hinv', rfl⟩
    | unlock x status hpc => exact ⟨[], _, hnew, trivial, rfl, hinv', rfl⟩
    | ret x status hpc => exact ⟨[], _, hnew, trivial, rfl, hinv', rfl⟩

/-- Every CPU goes through calls, one after the other. -/
theorem calls_in_turn {m m' : Gates C G} {h h' : List (MarkEvent C G)} {i : C × MarkChoice G}
    (hstep : recording Gates.step MarkEvent.record (m, h) i = some (m', h'))
    (hold : ∀ c, exec CallState.next .outside (h.filter fun e => e.cpu = c) =
      some (m.pc c).state) (c : C) :
    exec CallState.next .outside (h'.filter fun e => e.cpu = c) = some (m'.pc c).state := by
  obtain ⟨hmove, hrecord⟩ := recording_eq_some.1 hstep
  obtain ⟨hother, hcpu, hself⟩ := (Gates.step_move hmove).state
  rw [← show h ++ (MarkEvent.ofStep m (i.1, i.2)).toList = h' from hrecord, List.filter_append]
  by_cases hc : c = i.1
  · subst hc
    have hall : (MarkEvent.ofStep m (i.1, i.2)).toList.filter (fun e => e.cpu = i.1) =
        (MarkEvent.ofStep m (i.1, i.2)).toList :=
      List.filter_eq_self.2 fun e he => decide_eq_true (hcpu e he)
    rw [hall]
    exact exec_append (hold i.1) hself
  · have hnone : (MarkEvent.ofStep m (i.1, i.2)).toList.filter (fun e => e.cpu = c) = [] :=
      List.filter_eq_nil_iff.2 fun e he => by simpa [hcpu e he] using Ne.symm hc
    rw [hnone, List.append_nil, hother c hc]
    exact hold c

variable {m : Gates C G} {h : List (MarkEvent C G)}

theorem stores_of_run
    (hrun : Reaches (recording Gates.step MarkEvent.record) (Gates.init, []) (m, h)) :
    m.LockInv ∧ exec markStep (fun _ => false) (stores h) = some m.queueFlag := by
  obtain ⟨js, flag, hstores, -, hexec, hinv, hflag⟩ :=
    stores_simulate.run ⟨Gates.lockInv_init, rfl⟩ hrun
  refine ⟨hinv, ?_⟩
  rw [show stores h = js from hstores.trans (List.map_id js), hflag]
  exact hexec

/-- In every run every CPU makes calls, one after the other, and a call returns what its store
found; the stores, in their order, are calls executed as a whole and lead to the marks; and the
spinlock of a gate is free unless one CPU, and no other, holds it. -/
theorem gate_mark_linearizable
    (hrun : Reaches (recording Gates.step MarkEvent.record) (Gates.init, []) (m, h)) :
    (∀ c, exec CallState.next .outside (h.filter fun e => e.cpu = c) = some (m.pc c).state) ∧
      exec markStep (fun _ => false) (stores h) = some m.queueFlag ∧
      ∀ g, (m.gateLock g).lock = 0 ∨
        ∃ c, (m.pc c).holds = some g ∧ ∀ d, (m.pc d).holds = some g → d = c := by
  obtain ⟨hinv, hexec⟩ := stores_of_run hrun
  refine ⟨?_, hexec, fun g => ?_⟩
  · refine Runs.invariant hrun (I := fun p => ∀ c, exec CallState.next .outside
      (p.2.filter fun e => e.cpu = c) = some (p.1.pc c).state) (fun c => rfl) ?_
    intro p p' i hp _ hstep
    exact calls_in_turn hstep hp
  · by_cases hnone : ∀ c, (m.pc c).holds ≠ some g
    · exact .inl (hinv.free g hnone)
    · push Not at hnone
      obtain ⟨c, hc⟩ := hnone
      exact .inr ⟨c, hc, fun d hd => hinv.single d c g hd hc⟩

omit [DecidableEq C] in
/-- A mark stays until `set_dequeued` is called. -/
theorem mark_stays {g : G} {l : List (C × MarkCall G × Option Bool)} :
    ∀ {flag flag' : G → Bool}, exec markStep flag l = some flag' → flag g = true →
      (∀ i ∈ l, i.2.1 ≠ .setDequeued g) → flag' g = true := by
  induction l with
  | nil =>
      intro flag flag' hexec hg _
      obtain rfl := Option.some.inj hexec
      exact hg
  | cons i l ih =>
      intro flag flag' hexec hg hl
      obtain ⟨flag₁, hfirst, hrest⟩ := exec_cons_cases hexec
      refine ih hrest ?_ fun j hj => hl j (List.mem_cons_of_mem i hj)
      unfold markStep at hfirst
      split at hfirst
      case isFalse => cases hfirst
      case isTrue =>
          obtain rfl := Option.some.inj hfirst
          by_cases hgate : g = i.2.1.gate
          · -- another call on `g`, which can only be one of `set_queued`
            rw [hgate, Function.update_self]
            cases hcall : i.2.1 with
            | setQueued g' => rfl
            | setDequeued g' =>
                rw [hcall] at hgate
                exact absurd (hgate ▸ hcall) (hl i List.mem_cons_self)
          · rw [Function.update_of_ne hgate]
            exact hg

/-- After a call of `set_queued` that found a gate unmarked, the next one that does comes after a
call of `set_dequeued`. -/
theorem set_queued_wins_once
    (hrun : Reaches (recording Gates.step MarkEvent.record) (Gates.init, []) (m, h)) {c d : C}
    {g : G} {before between behind : List (MarkEvent C G)}
    (hh : h = before ++ .stored c (.setQueued g) (some true) ::
      (between ++ .stored d (.setQueued g) (some true) :: behind)) :
    ∃ c' status, .stored c' (.setDequeued g) status ∈ between := by
  by_contra hnone
  have hexec := (stores_of_run hrun).2
  -- the marks behind the first of the two stores, and in front of the second one
  simp only [hh, stores, List.filterMap_append, List.filterMap_cons, MarkEvent.store?] at hexec
  obtain ⟨flag₀, -, hexec⟩ := exec_append_cases hexec
  obtain ⟨flag₁, hfirst, hexec⟩ := exec_cons_cases hexec
  obtain ⟨flag₂, hbetween, hexec⟩ := exec_append_cases hexec
  obtain ⟨flag₃, hsecond, -⟩ := exec_cons_cases hexec
  have hmarked : flag₁ g = true := by
    unfold markStep at hfirst
    split at hfirst
    case isFalse => cases hfirst
    case isTrue =>
        obtain rfl := Option.some.inj hfirst
        exact Function.update_self g true flag₀
  have hstill : flag₂ g = true := by
    refine mark_stays hbetween hmarked fun i hi hcall => hnone ?_
    obtain ⟨ev, hev, hstore⟩ := List.mem_filterMap.1 hi
    cases ev with
    | stored c' x status =>
        obtain rfl := Option.some.inj hstore
        obtain rfl : x = .setDequeued g := hcall
        exact ⟨c', status, hev⟩
    | called c' x => cases hstore
    | returned c' x status => cases hstore
  simp [markStep, MarkCall.answer, MarkCall.gate, hstill] at hsecond

end Calls

/-! ## The calls of the guard -/

section Guard

open MPStuBS.Thread

variable {c : Cpu} {k : Kernel} {intr : Bool}

/-- CPU `c₁` waits for the spinlock while `c₀` marks the gate of the timer. `c₂` takes the mark away,
and `c₁` sets it again. -/
def markTimer (c₀ c₁ c₂ : Cpu) : List (Cpu × MarkChoice Gate) :=
  [(c₀, .call (.setQueued .watch)), (c₁, .call (.setQueued .watch)), (c₀, .stmt), (c₁, .stmt),
    (c₀, .stmt), (c₁, .stmt), (c₀, .stmt), (c₀, .stmt), (c₀, .stmt), (c₁, .stmt), (c₁, .stmt),
    (c₁, .stmt), (c₁, .stmt), (c₁, .stmt)] ++
  (c₂, .call (.setDequeued .watch)) :: List.replicate 4 (c₂, .stmt) ++
    (c₁, .call (.setQueued .watch)) :: List.replicate 5 (c₁, .stmt)

theorem gate_mark_linearizable_timer : ∃ m h,
    Reaches (recording Gates.step MarkEvent.record) ((Gates.init : Gates Cpu Gate), []) (m, h) ∧
    exec markStep (fun _ => false) (stores h) = some m.queueFlag ∧
    stores h = [(0, .setQueued .watch, some true), (1, .setQueued .watch, some false),
      (2, .setDequeued .watch, none), (1, .setQueued .watch, some true)] := by
  have hrun : ∃ m h, exec (recording Gates.step MarkEvent.record)
      ((Gates.init : Gates Cpu Gate), []) (markTimer 0 1 2) = some (m, h) ∧
      stores h = [(0, .setQueued .watch, some true), (1, .setQueued .watch, some false),
        (2, .setDequeued .watch, none), (1, .setQueued .watch, some true)] := ⟨_, _, rfl, rfl⟩
  obtain ⟨m, h, hm, hstores⟩ := hrun
  exact ⟨m, h, reaches_of_exec hm, (gate_mark_linearizable (reaches_of_exec hm)).2.1, hstores⟩

theorem set_queued_wins_once_timer : ∃ m before between behind,
    Reaches (recording Gates.step MarkEvent.record) ((Gates.init : Gates Cpu Gate), [])
      (m, before ++ .stored 0 (.setQueued .watch) (some true) ::
        (between ++ .stored 1 (.setQueued .watch) (some true) :: behind)) ∧
    ∃ c' status, .stored c' (.setDequeued .watch) status ∈ between := by
  have hrun : ∃ m before between behind, exec (recording Gates.step MarkEvent.record)
      ((Gates.init : Gates Cpu Gate), []) (markTimer 0 1 2) =
        some (m, before ++ .stored 0 (.setQueued .watch) (some true) ::
          (between ++ .stored 1 (.setQueued .watch) (some true) :: behind)) :=
    ⟨_, [.called 0 (.setQueued .watch), .called 1 (.setQueued .watch)],
      [.returned 0 (.setQueued .watch) (some true), .stored 1 (.setQueued .watch) (some false),
        .returned 1 (.setQueued .watch) (some false), .called 2 (.setDequeued .watch),
        .stored 2 (.setDequeued .watch) none, .returned 2 (.setDequeued .watch) none,
        .called 1 (.setQueued .watch)],
      [.returned 1 (.setQueued .watch) (some true)], rfl⟩
  obtain ⟨m, before, between, behind, hm⟩ := hrun
  exact ⟨m, before, between, behind, reaches_of_exec hm,
    set_queued_wins_once (reaches_of_exec hm) rfl⟩

/-- `relay` calls `set_queued` as a whole, and it enqueues the gate if the call found it unmarked. -/
theorem guardianStep_setQueued (g : Gate) (answer : Bool) (currCpu : Cpu) :
    ∃ status, markStep k.queueFlag (c, .setQueued g, some status) =
        some (guardianStep c k intr g answer (.setQueued currCpu)).kernel.queueFlag ∧
      (guardianStep c k intr g answer (.setQueued currCpu)).ctl =
        .next (if status then .enqueue currCpu else .ackIRQLast .merged) := by
  have hmark : markStep k.queueFlag (c, .setQueued g, some !k.queueFlag g) =
      some (Function.update k.queueFlag g true) := if_pos rfl
  refine ⟨!k.queueFlag g, ?_⟩
  cases hg : k.queueFlag g with
  | true => exact ⟨by rw [← hg, hmark]; simp [guardianStep, hg, Kernel.setMark], by
      simp [guardianStep, hg]⟩
  | false => exact ⟨by rw [← hg, hmark]; simp [guardianStep, hg, Kernel.setMark], by
      simp [guardianStep, hg]⟩

/-- `leave` calls `set_dequeued` as a whole. -/
theorem leaveStep_setDequeued (item : Gate) :
    markStep k.queueFlag (c, .setDequeued item, none) =
      some (leaveStep c k intr (.setDequeued item)).kernel.queueFlag :=
  if_pos rfl

end Guard

end MPStuBS.Guard
