import MPStuBS.Lib.Run
import MPStuBS.Machine.Toc

/-!
# Context switches

Any number of threads, of which several may run at the same time on different CPUs. A thread that
runs writes where it likes except to the stacks and contexts of the others, and calls `toc_switch`
with whatever is in its registers. What a thread needs in order to go on is on its own stack and in
its own context (`Settled`, `Suspended`), so no run of the others can change it, and
`toc_switch` and `toc_go` load it (`load_resumes`). A call of one of them is a single step here:
it touches only the memory of the two threads, which nobody else writes.
-/

set_option autoImplicit false

namespace MPStuBS.Thread

open MPStuBS.Lib MPStuBS.Lib.X86 MPStuBS.Machine

/-- Where the functions and the threads are in the memory. The threads do not share any of it, and
the `regs` of a thread are not on its stack. -/
structure Layout (ι : Type) where
  enterpanic : Word
  tocGo : Word
  tocSwitch : Word
  stack : ι → Set Word
  regs : ι → Word
  stack_regs : ∀ t, Disjoint (range (regs t) 20) (stack t)
  threads : ∀ t u, t ≠ u → Disjoint (stack t ∪ range (regs t) 20) (stack u ∪ range (regs u) 20)

/-- What a thread does. One that is suspended has called `toc_switch` in the given state, with the
return address. One that has left called `toc_go`, which does not save its registers. -/
inductive Phase where
  | new
  | settled (tos kickoff object : Word)
  | running
  | suspended (m : Machine) (back : Word)
  | left

/-- The thread can go on when it is given a CPU. -/
def Phase.Ready : Phase → Prop
  | .settled _ _ _ | .suspended _ _ => True
  | _ => False

/-- The memory and the threads. -/
structure Threads (ι : Type) where
  mem : Bytes
  phase : ι → Phase

/-- What happens to the threads. The code that runs or calls `toc_go` may be none of the threads. -/
inductive Act (ι : Type) where
  | settle (t : ι) (tos kickoff object : Word)
  | run (who : Option ι) (mem : Bytes)
  | resume (t next : ι) (m : Machine) (back : Word)
  | go (who : Option ι) (t : ι) (m : Machine) (back : Word)

namespace Layout

variable {ι : Type}

/-- The memory of a thread. -/
def own (L : Layout ι) (t : ι) : Set Word := L.stack t ∪ range (L.regs t) 20

/-- `toc_go` is called in `m`. -/
def go (L : Layout ι) (m : Machine) (back : Word) : Machine :=
  Instr.exec (exec id Machine.tocGo) m (.call L.tocGo back)

/-- `toc_switch` is called in `m`. -/
def switch (L : Layout ι) (m : Machine) (back : Word) : Machine :=
  Instr.exec (exec id Machine.tocSwitch) m (.call L.tocSwitch back)

end Layout

namespace Threads

variable {ι : Type} [DecidableEq ι]

/-- Nobody has prepared a thread. -/
def init (mem : Bytes) : Threads ι := ⟨mem, fun _ => .new⟩

/-- The phases after `who` has gone for good. -/
def leave (phase : ι → Phase) : Option ι → ι → Phase
  | none => phase
  | some t => Function.update phase t .left

/-- `m` gets a CPU for `t`. -/
def activate (phase : ι → Phase) (t : ι) (m : Machine) : Threads ι :=
  ⟨m.mem, Function.update phase t .running⟩

/-- The effect of an act. -/
def step (L : Layout ι) (s : Threads ι) : Act ι → Option (Threads ι)
  | .settle t tos kickoff object =>
      some ⟨tocSettle L.enterpanic (L.regs t) tos kickoff object s.mem,
        Function.update s.phase t (.settled tos kickoff object)⟩
  | .run _ mem => some { s with mem := mem }
  | .resume t next m back =>
      some (activate (Function.update s.phase t (.suspended m back)) next (L.switch m back))
  | .go who t m back => some (activate (leave s.phase who) t (L.go m back))

/-- `who` runs, if it is a thread. -/
def Runs (s : Threads ι) (who : Option ι) : Prop := ∀ t, who = some t → s.phase t = .running

/-- When an act is possible. A thread is prepared while it does not run, with the upper end of
its stack. It runs without a write to the memory of another thread. It calls `toc_switch` with
pointers to its own context and to that of a thread that is ready, which may also be itself. -/
def Admits (L : Layout ι) (s : Threads ι) : Act ι → Prop
  | .settle t tos _ _ => s.phase t ≠ .running ∧ range (tos - 8) 12 ⊆ L.stack t
  | .run who mem => s.Runs who ∧ ∀ t, some t ≠ who → ∀ x ∈ L.own t, mem x = s.mem x
  | .resume t next m _ =>
      s.phase t = .running ∧ m.mem = s.mem ∧ range (m.reg .esp - 4) 12 ⊆ L.stack t ∧
        m.stack 0 = L.regs t ∧ m.stack 4 = L.regs next ∧ (next ≠ t → (s.phase next).Ready)
  | .go who t m _ =>
      s.Runs who ∧ m.mem = s.mem ∧
        (∀ u, some u ≠ who → Disjoint (range (m.reg .esp - 4) 4) (L.own u)) ∧
        m.stack 0 = L.regs t ∧ (s.phase t).Ready

end Threads

/-! ## What a thread needs to go on -/

section Held

variable {ι : Type} {L : Layout ι} {mem mem' : Bytes} {t : ι}

/-- The thread has been prepared. -/
structure Settled (L : Layout ι) (mem : Bytes) (t : ι) (tos kickoff object : Word) : Prop where
  stack : range (tos - 8) 12 ⊆ L.stack t
  words : ∀ w ∈ settled L.enterpanic (L.regs t) (tos - 8) kickoff object, read mem w.1 = w.2

/-- The thread has been suspended in `m`. -/
structure Suspended (L : Layout ι) (mem : Bytes) (t : ι) (m : Machine) (back : Word) : Prop where
  stack : range (m.reg .esp - 4) 4 ⊆ L.stack t
  regs : ∀ r ∈ toc, r ≠ .esp → read mem (L.regs t + offset r) = m.reg r
  esp : read mem (L.regs t + offset .esp) = m.reg .esp - 4
  back : read mem (m.reg .esp - 4) = back

/-- The memory has what the phase says. -/
def Phase.Held (L : Layout ι) (mem : Bytes) (t : ι) : Phase → Prop
  | .settled tos kickoff object => Settled L mem t tos kickoff object
  | .suspended m back => Suspended L mem t m back
  | _ => True

/-- `m` is a thread that goes on from its phase: after its call of `toc_switch` with the registers
that it had there, or at the start of `kickoff`, as if called from `enterpanic` with the object as
argument. -/
def Phase.Resumes (L : Layout ι) (m : Machine) : Phase → Prop
  | .settled _ kickoff object =>
      m.eip = kickoff ∧ m.stack 0 = L.enterpanic ∧ m.stack 4 = object
  | .suspended m' back => (∀ r ∈ toc, m.reg r = m'.reg r) ∧ m.eip = back
  | _ => False

theorem range_regs {r : Reg} (hr : r ∈ toc) : range (L.regs t + offset r) 4 ⊆ L.own t :=
  (range_offset hr).trans Set.subset_union_right

theorem Settled.congr {tos kickoff object : Word} (h : Settled L mem t tos kickoff object)
    (hmem : ∀ x ∈ L.own t, mem' x = mem x) : Settled L mem' t tos kickoff object := by
  refine ⟨h.stack, ?_⟩
  intro w hw
  rw [← h.words w hw]
  refine read_congr fun x hx => hmem x ?_
  rcases range_of_settled hw hx with hregs | hstack
  · exact Set.mem_union_right _ hregs
  · exact Set.mem_union_left _ (h.stack hstack)

theorem Suspended.congr {m : Machine} {back : Word} (h : Suspended L mem t m back)
    (hmem : ∀ x ∈ L.own t, mem' x = mem x) : Suspended L mem' t m back := by
  have hread : ∀ r ∈ toc, read mem' (L.regs t + offset r) = read mem (L.regs t + offset r) :=
    fun r hr => read_congr fun x hx => hmem x (range_regs hr hx)
  refine ⟨h.stack, ?_, ?_, ?_⟩
  · intro r hr hesp
    rw [hread r hr]
    exact h.regs r hr hesp
  · rw [hread .esp (by decide)]
    exact h.esp
  · rw [← h.back]
    exact read_congr fun x hx => hmem x (Set.mem_union_left _ (h.stack hx))

theorem Phase.Held.congr {p : Phase} (h : p.Held L mem t)
    (hmem : ∀ x ∈ L.own t, mem' x = mem x) : p.Held L mem' t := by
  cases p with
  | settled tos kickoff object => exact Settled.congr h hmem
  | suspended m back => exact Suspended.congr h hmem
  | new | running | left => exact h

/-- The thread of the context that is loaded goes on from its phase. -/
theorem load_resumes {p : Phase} {m : Machine} (h : p.Held L m.mem t) (hready : p.Ready) :
    p.Resumes L (load m (L.regs t)) := by
  cases p with
  | settled tos kickoff object =>
      have hread := h.words
      simp only [settled, List.forall_mem_cons] at hread
      obtain ⟨-, hobject, hreturn, hkickoff, hesp, -⟩ := hread
      rw [add_zero] at hkickoff
      refine ⟨?_, ?_, ?_⟩
      · show read m.mem (read m.mem (L.regs t + offset .esp)) = kickoff
        rw [hesp, hkickoff]
      · show read m.mem (read m.mem (L.regs t + offset .esp) + 4 + 0) = L.enterpanic
        rw [hesp, add_zero, hreturn]
      · show read m.mem (read m.mem (L.regs t + offset .esp) + 4 + 4) = object
        rw [hesp, add_assoc]
        exact hobject
  | suspended m' back =>
      refine ⟨?_, ?_⟩
      · intro r hr
        by_cases hesp : r = .esp
        · rw [hesp]
          show read m.mem (L.regs t + offset .esp) + 4 = m'.reg .esp
          rw [h.esp, sub_add_cancel]
        · rw [load_reg hr hesp, h.regs r hr hesp]
      · show read m.mem (read m.mem (L.regs t + offset .esp)) = back
        rw [h.esp, h.back]
  | new | running | left => exact hready.elim

end Held

/-! ## The calls -/

section Calls

variable {ι : Type} {L : Layout ι} {t next : ι} {m : Machine} {back : Word}

/-- `toc_switch` has saved the registers of `t`, which has called it in `m`. -/
def saved (L : Layout ι) (t : ι) (m : Machine) (back : Word) : Machine :=
  let entered : Machine := { m.push back with eip := L.tocSwitch }
  entered.withMem (save entered (L.regs t))

/-- Only the memory of `t` has changed. -/
theorem saved_mem (hstack : range (m.reg .esp - 4) 12 ⊆ L.stack t) {x : Word} (hx : x ∉ L.own t) :
    (saved L t m back).mem x = m.mem x := by
  have hpush : x ∉ range (m.reg .esp - 4) 4 := by
    intro hmem
    exact hx (Set.mem_union_left _ (hstack (range_subset (by simp) hmem)))
  have hsave : (saved L t m back).mem x = (m.push back).mem x :=
    save_of_not_mem fun hmem => hx (Set.mem_union_right _ hmem)
  exact hsave.trans (write_of_not_mem hpush)

/-- The stack of `t` is as it was when `toc_switch` was entered. -/
theorem saved_stack (hstack : range (m.reg .esp - 4) 12 ⊆ L.stack t) {k : Word}
    (hk : k.toNat + 4 ≤ 12) : (saved L t m back).stack k = (m.push back).stack k := by
  show read (saved L t m back).mem (m.reg .esp - 4 + k) =
    read (m.push back).mem (m.reg .esp - 4 + k)
  apply read_congr
  intro x hx
  apply save_of_not_mem
  exact Set.disjoint_right.1 (L.stack_regs t) (hstack (range_add hk hx))

theorem saved_suspended (hstack : range (m.reg .esp - 4) 12 ⊆ L.stack t) :
    Suspended L (saved L t m back).mem t m back := by
  have hregs : ∀ r ∈ toc,
      read (saved L t m back).mem (L.regs t + offset r) = (m.push back).reg r :=
    fun _ hr => read_save hr
  refine ⟨(range_subset (by simp)).trans hstack, ?_, ?_, ?_⟩
  · intro r hr hesp
    rw [hregs r hr, Machine.push_reg hesp]
  · rw [hregs .esp (by decide), Machine.push_esp]
  · have hback : read (saved L t m back).mem (m.reg .esp - 4 + 0) = back :=
      (saved_stack hstack (by decide)).trans (Machine.push_stack_top rfl)
    rwa [add_zero] at hback

/-- `toc_switch` loads the context of the other thread from this memory. -/
theorem switch_eq (hstack : range (m.reg .esp - 4) 12 ⊆ L.stack t) (hnow : m.stack 0 = L.regs t)
    (hthen : m.stack 4 = L.regs next) :
    L.switch m back = load (saved L t m back) (L.regs next) := by
  have hfirst : (m.push back).stack 4 = L.regs t :=
    (Machine.push_stack (by decide)).trans hnow
  have hsecond : (m.push back).stack 8 = L.regs next :=
    (Machine.push_stack (by decide)).trans hthen
  have hentered : ({ m.push back with eip := L.tocSwitch } : Machine).stack 4 = L.regs t := hfirst
  have hcall : L.switch m back =
      exec id Machine.tocSwitch { m.push back with eip := L.tocSwitch } := rfl
  rw [hcall, tocSwitch_eq, hentered]
  show load (saved L t m back) ((saved L t m back).stack 8) = _
  rw [saved_stack hstack (by decide), hsecond]

/-- `toc_go` loads it from the memory with the return address pushed. -/
theorem go_eq (hregs : m.stack 0 = L.regs t) :
    L.go m back = load { m.push back with eip := L.tocGo } (L.regs t) := by
  have hfirst : (m.push back).stack 4 = L.regs t :=
    (Machine.push_stack (by decide)).trans hregs
  rw [← hfirst]
  exact tocGo_eq { m.push back with eip := L.tocGo }

end Calls

/-! ## Runs -/

namespace Threads

variable {ι : Type} [DecidableEq ι] {L : Layout ι} {s s' : Threads ι}

/-- Every thread has what it needs to go on. -/
def Kept (L : Layout ι) (s : Threads ι) : Prop := ∀ t, (s.phase t).Held L s.mem t

omit [DecidableEq ι] in
theorem kept_init (mem : Bytes) : Kept L (init mem) := fun _ => trivial

omit [DecidableEq ι] in
/-- Two threads have nothing in common. -/
theorem not_own {t u : ι} {x : Word} (h : u ≠ t) (hx : x ∈ L.own u) : x ∉ L.own t :=
  Set.disjoint_left.1 (L.threads u t h) hx

/-- Only the phase of `t` changes, and nothing in the memory of another thread. -/
theorem Kept.update {t : ι} {p : Phase} {mem : Bytes} (h : Kept L s)
    (hmem : ∀ u, u ≠ t → ∀ x ∈ L.own u, mem x = s.mem x) (hp : p.Held L mem t) :
    Kept L ⟨mem, Function.update s.phase t p⟩ := by
  intro u
  show (Function.update s.phase t p u).Held L mem u
  by_cases hu : u = t
  · subst hu
    rwa [Function.update_self]
  · rw [Function.update_of_ne hu]
    exact (h u).congr (hmem u hu)

/-- A thread that gets a CPU needs nothing more. -/
theorem Kept.activate {t : ι} {m : Machine} {phase : ι → Phase} (h : Kept L ⟨m.mem, phase⟩) :
    Kept L (activate phase t m) :=
  h.update (fun _ _ _ _ => rfl) trivial

theorem Kept.settle {t : ι} {tos kickoff object : Word} (h : Kept L s)
    (hstack : range (tos - 8) 12 ⊆ L.stack t) :
    Kept L ⟨tocSettle L.enterpanic (L.regs t) tos kickoff object s.mem,
      Function.update s.phase t (.settled tos kickoff object)⟩ := by
  rw [tocSettle_eq]
  refine h.update ?_ ⟨hstack, ?_⟩
  · intro u hu x hx
    apply writes_of_not_mem
    intro w hw hx'
    apply not_own hu hx
    rcases range_of_settled hw hx' with hregs | hmem
    · exact Set.mem_union_right _ hregs
    · exact Set.mem_union_left _ (hstack hmem)
  · intro w hw
    exact read_writes (settled_apart ((L.stack_regs t).mono_right hstack)) hw

omit [DecidableEq ι] in
theorem Kept.run {who : Option ι} {mem : Bytes} (h : Kept L s) (hrun : s.Runs who)
    (hmem : ∀ t, some t ≠ who → ∀ x ∈ L.own t, mem x = s.mem x) :
    Kept L { s with mem := mem } := by
  intro t
  show (s.phase t).Held L mem t
  by_cases ht : some t = who
  · rw [hrun t ht.symm]
    trivial
  · exact (h t).congr (hmem t ht)

/-- `t` has called `toc_switch` in `m`, and its registers are saved. -/
theorem Kept.suspend {t : ι} {m : Machine} {back : Word} (h : Kept L s) (hm : m.mem = s.mem)
    (hstack : range (m.reg .esp - 4) 12 ⊆ L.stack t) :
    Kept L ⟨(saved L t m back).mem, Function.update s.phase t (.suspended m back)⟩ := by
  refine h.update ?_ (saved_suspended hstack)
  intro u hu x hx
  rw [saved_mem hstack (not_own hu hx), hm]

/-- `who` has called `toc_go` and does not come back. -/
theorem Kept.leave {who : Option ι} {m : Machine} {back : Word} (h : Kept L s) (hm : m.mem = s.mem)
    (hpush : ∀ u, some u ≠ who → Disjoint (range (m.reg .esp - 4) 4) (L.own u)) :
    Kept L ⟨(m.push back).mem, leave s.phase who⟩ := by
  have hmem : ∀ u, some u ≠ who → ∀ x ∈ L.own u, (m.push back).mem x = s.mem x := by
    intro u hu x hx
    rw [Machine.push_mem, write_of_not_mem (Set.disjoint_right.1 (hpush u hu) hx), hm]
  cases who with
  | none =>
      intro u
      exact (h u).congr (hmem u (Option.some_ne_none u))
  | some t =>
      exact h.update (fun u hu => hmem u fun heq => hu (Option.some.inj heq)) trivial

/-- A thread that is ready has not just left. -/
theorem leave_phase {who : Option ι} {t : ι} (hrun : s.Runs who) (hready : (s.phase t).Ready) :
    leave s.phase who t = s.phase t := by
  cases who with
  | none => rfl
  | some u =>
      have hne : t ≠ u := by
        rintro rfl
        rw [hrun t rfl] at hready
        exact hready
      exact Function.update_of_ne hne _ _

theorem Kept.step {a : Act ι} (h : Kept L s) (hok : Admits L s a)
    (hstep : Threads.step L s a = some s') : Kept L s' := by
  cases a with
  | settle t tos kickoff object =>
      obtain rfl := Option.some.inj hstep
      exact h.settle hok.2
  | run who mem =>
      obtain rfl := Option.some.inj hstep
      exact h.run hok.1 hok.2
  | resume t next m back =>
      obtain rfl := Option.some.inj hstep
      obtain ⟨-, hm, hstack, hnow, hthen, -⟩ := hok
      rw [switch_eq hstack hnow hthen]
      exact (h.suspend hm hstack).activate
  | go who t m back =>
      obtain rfl := Option.some.inj hstep
      obtain ⟨-, hm, hpush, hregs, -⟩ := hok
      rw [go_eq hregs]
      exact (h.leave hm hpush).activate

/-- The act gives `t` a CPU, or prepares it anew. -/
def Wakes (t : ι) : Act ι → Prop
  | .settle u _ _ _ | .resume _ u _ _ | .go _ u _ _ => u = t
  | .run _ _ => False

theorem phase_step {t : ι} {a : Act ι} (hready : (s.phase t).Ready) (hok : Admits L s a)
    (hwakes : ¬ Wakes t a) (hstep : Threads.step L s a = some s') : s'.phase t = s.phase t := by
  cases a with
  | settle u tos kickoff object =>
      obtain rfl := Option.some.inj hstep
      exact Function.update_of_ne (Ne.symm hwakes) _ _
  | run who mem =>
      obtain rfl := Option.some.inj hstep
      rfl
  | resume u next m back =>
      obtain rfl := Option.some.inj hstep
      have hne : t ≠ u := by
        rintro rfl
        rw [hok.1] at hready
        exact hready
      exact (Function.update_of_ne (Ne.symm hwakes) _ _).trans (Function.update_of_ne hne _ _)
  | go who u m back =>
      obtain rfl := Option.some.inj hstep
      exact (Function.update_of_ne (Ne.symm hwakes) _ _).trans (leave_phase hok.1 hready)

/-- A thread is where it was suspended for the last time until it gets a CPU again. -/
theorem phase_of_runs {t : ι} (hready : (s.phase t).Ready)
    (h : Run.Runs (Threads.step L) (fun s a => Admits L s a ∧ ¬ Wakes t a) s s') :
    s'.phase t = s.phase t := by
  refine h.invariant (I := fun s' => s'.phase t = s.phase t) rfl ?_
  intro a b i ha hok hstep
  rw [← ha] at hready
  exact (phase_step hready hok.1 hok.2 hstep).trans ha

theorem kept_of_runs {mem : Bytes} (h : Run.Runs (Threads.step L) (Admits L) (init mem) s) :
    Kept L s :=
  h.invariant (kept_init mem) fun _ _ _ hk hok hstep => hk.step hok hstep

/-- Whenever a thread gets a CPU, from `toc_switch` or from `toc_go`, it goes on from its phase. A
thread that switches to itself goes on from the call that it has just made. -/
theorem threads_preserved (L : Layout ι) {mem : Bytes} {s : Threads ι}
    (h : Run.Runs (Threads.step L) (Admits L) (init mem) s) :
    (∀ t next m back, Admits L s (.resume t next m back) →
      (Function.update s.phase t (.suspended m back) next).Resumes L (L.switch m back)) ∧
    ∀ who t m back, Admits L s (.go who t m back) → (s.phase t).Resumes L (L.go m back) := by
  have hk := kept_of_runs h
  refine ⟨?_, ?_⟩
  · rintro t next m back ⟨-, hm, hstack, hnow, hthen, hready⟩
    rw [switch_eq hstack hnow hthen]
    refine load_resumes (hk.suspend hm hstack next) ?_
    by_cases hnext : next = t
    · subst hnext
      rw [Function.update_self]
      trivial
    · rw [Function.update_of_ne hnext]
      exact hready hnext
  · rintro who t m back ⟨hrun, hm, hpush, hregs, hready⟩
    rw [go_eq hregs, ← leave_phase hrun hready]
    refine load_resumes (hk.leave hm hpush t) ?_
    rwa [leave_phase hrun hready]

end Threads

/-! ## Two threads -/

namespace TwoThreads

open Threads

/-- The stacks are at `0x1000` and `0x2000`, the `regs` at `0x3000` and `0x4000`. -/
def layout : Layout Bool where
  enterpanic := 0x500
  tocGo := 0x600
  tocSwitch := 0x700
  stack t := range (if t then 0x2000 else 0x1000) 0x100
  regs t := if t then 0x4000 else 0x3000
  stack_regs t := by
    cases t <;> exact disjoint_range (by decide) (by decide)
  threads t u htu := by
    have hfirst : Disjoint (range 0x1000 0x100 ∪ range 0x3000 20)
        (range 0x2000 0x100 ∪ range 0x4000 20) := by
      simp only [Set.disjoint_union_left, Set.disjoint_union_right]
      exact ⟨⟨disjoint_range (by decide) (by decide), disjoint_range (by decide) (by decide)⟩,
        disjoint_range (by decide) (by decide), disjoint_range (by decide) (by decide)⟩
    cases t with
    | false =>
        cases u with
        | false => exact absurd rfl htu
        | true => exact hfirst
    | true =>
        cases u with
        | false => exact hfirst.symm
        | true => exact absurd rfl htu

/-- The arguments of the calls lie where they are made: of `toc_go` at `0x5000`, of `toc_switch` on
the stacks. -/
def argumentsMem : Bytes :=
  writes (fun _ => 0)
    [(0x5000, 0x3000), (0x10e4, 0x3000), (0x10e8, 0x4000), (0x20e4, 0x4000), (0x20e8, 0x3000)]

/-- A CPU at a call, with something in the registers. -/
def caller (mem : Bytes) (esp ebx : Word) : Machine :=
  ⟨fun r => if r = .esp then esp else ebx, 0x800, 8, 2, mem⟩

/-- The memory after the two calls of `toc_settle`. -/
def settledMem : Bytes :=
  tocSettle 0x500 0x4000 0x20f8 0x900 0x4100
    (tocSettle 0x500 0x3000 0x10f8 0x900 0x3100 argumentsMem)

/-- Both threads have been prepared. -/
def prepared : Threads Bool :=
  ⟨settledMem, Function.update (Function.update (fun _ => .new) false
    (.settled 0x10f8 0x900 0x3100)) true (.settled 0x20f8 0x900 0x4100)⟩

/-- The start of the first thread. -/
def starter : Machine := caller settledMem 0x5000 0

/-- The first thread calls `toc_switch`. -/
def first : Machine := caller (layout.go starter 0xa00).mem 0x10e4 7

/-- The second one switches back to it. -/
def second : Machine := caller (layout.switch first 0xb00).mem 0x20e4 9

/-- The two threads have run, and the second one is about to switch back to the first one. -/
theorem reaches_second : ∃ s,
    Run.Runs (step layout) (Admits layout) (init argumentsMem) s ∧
      Admits layout s (.resume true false second 0xc00) ∧
      s.phase false = .suspended first 0xb00 := by
  have hprepared : Run.Runs (step layout) (Admits layout) (init argumentsMem) prepared := by
    refine (Run.Runs.refl.tail (i := .settle false 0x10f8 0x900 0x3100) ?_ rfl).tail
      (i := .settle true 0x20f8 0x900 0x4100) ?_ rfl
    · exact ⟨fun h => Phase.noConfusion h, range_subset (by decide)⟩
    · exact ⟨fun h => Phase.noConfusion h, range_subset (by decide)⟩
  have hgo : Admits layout prepared (.go none false starter 0xa00) := by
    refine ⟨fun t ht => absurd ht.symm (Option.some_ne_none t), rfl, ?_, by decide +kernel, trivial⟩
    intro t _
    have hown : Disjoint (range (0x5000 - 4) 4) (layout.own t) := by
      cases t <;>
        exact Set.disjoint_union_right.2
          ⟨disjoint_range (by decide) (by decide), disjoint_range (by decide) (by decide)⟩
    exact hown
  have hfirst : Admits layout (activate prepared.phase false (layout.go starter 0xa00))
      (.resume false true first 0xb00) :=
    ⟨rfl, rfl, range_subset (by decide), by decide +kernel, by decide +kernel, fun _ => trivial⟩
  refine ⟨_, (hprepared.tail hgo rfl).tail hfirst rfl, ?_, rfl⟩
  exact ⟨rfl, rfl, range_subset (by decide), by decide +kernel, by decide +kernel, fun _ => trivial⟩

/-- The first thread goes on after its call, with its registers. -/
theorem threads_preserved_twoThreads :
    (∀ r ∈ toc, (layout.switch second 0xc00).reg r = first.reg r) ∧
      (layout.switch second 0xc00).eip = 0xb00 := by
  obtain ⟨s, h, hok, hphase⟩ := reaches_second
  have hresumes := (threads_preserved layout h).1 true false second 0xc00 hok
  rw [Function.update_of_ne (by decide), hphase] at hresumes
  exact hresumes

end TwoThreads

end MPStuBS.Thread
