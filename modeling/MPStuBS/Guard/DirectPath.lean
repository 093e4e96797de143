import MPStuBS.Guard.MutualExclusion

/-!
# Epilogues on the direct path

When `relay` finds the level flag clear it runs the epilogue itself, on the
stack of the interrupted thread. It enables interrupts before `enter` sets the
flag. An interrupt in this window finds the flag clear as well, and its epilogue
may switch the thread away, with the first epilogue not yet started
(`epilogue_left_behind`).

`DirectAlone` admits the steps that do not use the window: a handler takes the
direct path only above epilogues that have started. In runs of such steps no
thread is switched away with an epilogue that has not started
(`no_epilogue_left_behind`).
-/

set_option autoImplicit false

namespace MPStuBS.Guard

open MPStuBS.Object MPStuBS.Machine MPStuBS.Thread MPStuBS.Lib.Run

/-- The points of the direct path before the first statement of the epilogue. -/
def GuardianPc.unstarted : GuardianPc → Bool
  | .enableInt => true
  | .enter _ => true
  | .epilogue .start => true
  | _ => false

/-- An activation of `relay` on the direct path whose epilogue has not started. -/
def Activation.unstarted : Activation → Bool
  | .guardian _ pc => pc.unstarted
  | _ => false

/-- An activation of `relay` on the direct path. -/
def Activation.direct : Activation → Bool
  | .guardian _ pc => pc.direct
  | _ => false

theorem Activation.unstarted_of_schedPc? {a : Activation} {sp : SchedPc}
    (h : a.schedPc? = some sp) : a.unstarted = false := by
  cases a with
  | guardian g pc =>
      cases pc with
      | epilogue pc =>
          cases pc with
          | start => cases h
          | assassinCheck current => rfl
          | sched pc => rfl
      | enableInt => cases h
      | enter pc => cases h
      | _ => rfl
  | _ => rfl

/-- Below a handler on the direct path every epilogue has started. -/
def WindowOk : List Activation → Prop
  | [] => True
  | a :: below => (a.direct = true → ∀ b ∈ below, b.unstarted = false) ∧ WindowOk below

theorem windowOk_of_started {s : List Activation} (h : ∀ a ∈ s, a.unstarted = false) :
    WindowOk s := by
  induction s with
  | nil => trivial
  | cons a below ih =>
      constructor
      · intro _ b hb
        exact h b (List.mem_cons_of_mem a hb)
      · apply ih
        intro b hb
        exact h b (List.mem_cons_of_mem a hb)

/-- With the innermost activation inside the scheduler, every epilogue of the stack has started. -/
theorem WindowOk.started {a : Activation} {below : List Activation} (h : WindowOk (a :: below))
    (hs : StackOk (a :: below)) {sp : SchedPc} (hsp : a.schedPc? = some sp) :
    ∀ b ∈ a :: below, b.unstarted = false := by
  intro b hb
  rcases List.mem_cons.1 hb with rfl | hb'
  · exact Activation.unstarted_of_schedPc? hsp
  · cases hs with
    | bottom ha => simp at hb'
    | @handler g pc below hbelow hmasked hdirect hdeferred =>
        have hphase : (Activation.guardian g pc).phase? = some .owning :=
          Activation.phase?_of_schedPc? hsp
        have hpc : pc.phase? = some .owning := hphase
        exact h.1 (GuardianPc.direct_of_phase? (by rw [hpc]; rfl)) b hb'

namespace Multiprocessor

/-- The condition on a step: a handler that finds the level flag clear is above epilogues that have
started. -/
def directAlone (m : Multiprocessor) (i : Cpu × Choice) : Bool :=
  match (m.cpu i.1).stack, i.2 with
  | .guardian _ .testFlag :: below, .stmt _ =>
      m.kernel.flag i.1 || below.all fun a => !a.unstarted
  | _, _ => true

/-- The steps that do not use the window. -/
def DirectAlone (m : Multiprocessor) (i : Cpu × Choice) : Prop := m.directAlone i = true

/-- The invariant of the runs without the window. -/
structure WindowInv (m : Multiprocessor) : Prop where
  guard : m.GuardInv
  stack : ∀ c, WindowOk (m.cpu c).stack
  saved : ∀ t, ∀ a ∈ m.regs t, a.unstarted = false

theorem windowInv_boot (on : Cpu → Bool) : (boot on).WindowInv where
  guard := guardInv_boot on
  stack c := windowOk_of_started fun a ha => by
    obtain rfl := List.mem_singleton.1 ha
    rfl
  saved t a ha := by
    obtain rfl := List.mem_singleton.1 ha
    rfl

/-- A statement of the innermost activation keeps the stack in order, if the direct path is taken
above started epilogues only. -/
theorem windowOk_target {c : Cpu} {k : Kernel} {intr : Bool} {a a' : Activation}
    {below : List Activation} {ch : Choice} {e : Effect Activation} (h : WindowOk (a :: below))
    (hok : ∀ g answer, ch = .stmt answer → a = .guardian g .testFlag → k.flag c = false →
      ∀ b ∈ below, b.unstarted = false)
    (he : activationStep c k intr a ch = some e) (ht : e.ctl.target? = some a') :
    WindowOk (a' :: below) := by
  refine ⟨fun hd => ?_, h.2⟩
  cases a with
  | guardian g pc =>
      obtain ⟨answer, hch, -, rfl⟩ := activationStep_guardian he
      obtain ⟨pc', hpc', rfl⟩ := Control.target?_liftRet ht
      rcases (guardianStep_target hpc').1 hd with hold | ⟨rfl, hf⟩
      · exact h.1 hold
      · exact hok g answer hch rfl hf
  | _ =>
      -- the code of a thread goes on as such, never on the direct path
      have hthread := (activationStep_isHandler rfl he).2 a' ht
      cases a' with
      | guardian g pc => cases hthread
      | _ => cases hd

theorem WindowInv.step {m m' : Multiprocessor} {i : Cpu × Choice} (h : m.WindowInv)
    (hok : m.DirectAlone i) (hstep : Multiprocessor.step m i = some m') : m'.WindowInv := by
  obtain ⟨c, ch⟩ := i
  obtain ⟨hstack, hsaved⟩ := stacks_step (Q := WindowOk)
    (R := fun s => ∀ b ∈ s, b.unstarted = false) hstep (fun _ hs => windowOk_of_started hs)
    (fun _ _ hwin => hwin.2) h.stack h.saved
    (by
      rintro g rfl
      refine ⟨fun hd => ?_, h.stack c⟩
      cases hd)
    (by
      intro a below e a' hs he ht
      have hwin : WindowOk (a :: below) := hs ▸ h.stack c
      refine windowOk_target hwin ?_ he (by rw [ht]; rfl)
      -- the direct path is taken above started epilogues, by the condition on the step
      rintro g answer rfl rfl hf b hb
      have hall : m.directAlone (c, .stmt answer) = true := hok
      simp only [directAlone, hs, hf, Bool.false_or, List.all_eq_true] at hall
      simpa using hall b hb)
    (by
      -- the whole stack has started, so the suspended thread has
      intro a below e old next a' hs he ht b hb
      have hwin : WindowOk (a :: below) := hs ▸ h.stack c
      have hstk : StackOk (a :: below) := hs ▸ h.guard.stack c
      obtain ⟨hsp, hsp'⟩ := activationStep_switch he ht
      rcases List.mem_cons.1 hb with rfl | hb
      · exact Activation.unstarted_of_schedPc? hsp'
      · exact hwin.started hstk hsp b (List.mem_cons_of_mem a hb))
  exact ⟨h.guard.step hstep, hstack, hsaved⟩

/-- In runs that do not use the window, a CPU that is about to switch away from a thread has started
every epilogue on its stack, and so no suspended thread holds one that has not. -/
theorem no_epilogue_left_behind {on : Cpu → Bool} {m : Multiprocessor}
    (h : Runs step DirectAlone (boot on) m) :
    (∀ c a old next, m.Executes c a → a.schedPc? = some (.dispatchSwitch old next) →
      ∀ b ∈ (m.cpu c).stack, b.unstarted = false) ∧
      ∀ t, ∀ b ∈ m.regs t, b.unstarted = false := by
  have hinv : m.WindowInv := by
    apply Runs.invariant h
    · exact windowInv_boot on
    · intro a b i ha hok hstep
      exact ha.step hok hstep
  refine ⟨?_, hinv.saved⟩
  intro c a old next hexec hsp
  obtain ⟨below, hs⟩ := List.head?_eq_some_iff.1 hexec.2
  have hwin := hinv.stack c
  have hstk := hinv.guard.stack c
  rw [hs] at hwin hstk ⊢
  exact hwin.started hstk hsp

/-- A timer interrupt alone: every epilogue has started when it switches to the other thread. -/
theorem no_epilogue_left_behind_timer : ∃ m, Runs step DirectAlone (boot fun _ => true) m ∧
    ∃ a, m.Executes 0 a ∧ a.schedPc? = some (.dispatchSwitch (some 1) (some 2)) ∧
      ∀ b ∈ (m.cpu 0).stack, b.unstarted = false := by
  have hrun : ∃ m, exec (fun m i => if m.directAlone i then step m i else none)
      (boot fun _ => true)
      (startTwo 0 ++ (0, .accept .watch) :: List.replicate 18 (0, .stmt true)) =
        some m ∧ ∃ a, m.Executes 0 a ∧ a.schedPc? = some (.dispatchSwitch (some 1) (some 2)) :=
    ⟨_, rfl, _, ⟨rfl, rfl⟩, rfl⟩
  obtain ⟨m, hm, a, hexec, hsp⟩ := hrun
  have hruns : Runs step DirectAlone (boot fun _ => true) m :=
    runs_of_exec_if (fun _ _ htest => htest) hm
  exact ⟨m, hruns, a, hexec, hsp, (no_epilogue_left_behind hruns).1 0 a _ _ hexec hsp⟩

/-- A keyboard interrupt and, before `enter` sets the level flag, a timer interrupt: the epilogue of
the timer switches the thread away with the epilogue of the keyboard not started. -/
theorem epilogue_left_behind : ¬ ∀ (on : Cpu → Bool) (m : Multiprocessor), Reachable on m →
    ∀ c a old next, m.Executes c a → a.schedPc? = some (.dispatchSwitch (some old) (some next)) →
      ∀ b ∈ (m.cpu c).stack, b.unstarted = false := by
  intro hclaim
  have hrun : ∃ m, exec step (boot fun _ => true)
      (startTwo 0 ++ (0, .accept .keyboard) :: List.replicate 4 (0, .stmt true) ++
        (0, .accept .watch) :: List.replicate 18 (0, .stmt true)) = some m ∧
      ∃ a, m.Executes 0 a ∧ a.schedPc? = some (.dispatchSwitch (some 1) (some 2)) ∧
        Activation.guardian .keyboard (.enter .disableInt) ∈ (m.cpu 0).stack :=
    ⟨_, rfl, _, ⟨rfl, rfl⟩, rfl, .tail _ (.head _)⟩
  obtain ⟨m, hm, a, hexec, hsp, hmem⟩ := hrun
  have hstarted := hclaim _ m (reaches_of_exec hm) 0 a 1 2 hexec hsp _ hmem
  cases hstarted

end Multiprocessor

end MPStuBS.Guard
