import MPStuBS.Guard.Phase

/-!
# Stacks of activations

The stack of a CPU ends in user code, a guarded section or the start of a
thread; above it are interrupt handlers, each of which interrupted a point where
interrupts are enabled (`StackOk`). A handler on the direct path interrupted code
outside of the guard, one on the deferred path code under the level flag.

`activationStep_sound` and `activationStep_target` say what a statement of the
innermost activation does to the phase of the stack and to its shape, and
`step_cases` what a step of the multiprocessor is. All invariants of the guard
are derived from these three. An invariant that looks at one stack at a time is
carried through a step by `stacks_step`.
-/

set_option autoImplicit false

namespace MPStuBS.Guard

open MPStuBS.Object MPStuBS.Machine MPStuBS.Thread MPStuBS.Lib.Run

/-- A handler of an interrupt, in contrast to the code of a thread. -/
def Activation.isHandler : Activation → Bool
  | .guardian _ _ => true
  | _ => false

/-- The innermost activation is at a point where interrupts are disabled. -/
def stackMasked : List Activation → Bool
  | [] => false
  | a :: _ => a.masked

/-- The stacks of running CPUs and of suspended threads. -/
inductive StackOk : List Activation → Prop
  | bottom {a : Activation} (ha : a.isHandler = false) : StackOk [a]
  | handler {g : Gate} {pc : GuardianPc} {below : List Activation} (hbelow : StackOk below)
      (hmasked : stackMasked below = false)
      (hdirect : pc.direct = true → stackPhase below = .free)
      (hdeferred : pc.deferred = true → (stackPhase below).flag = true) :
      StackOk (.guardian g pc :: below)

namespace StackOk

/-- Below a handler on the direct path nothing is left of the guard. -/
theorem below_free {g : Gate} {pc : GuardianPc} {below : List Activation}
    (h : StackOk (.guardian g pc :: below)) (hpc : pc.direct = true) :
    stackPhase below = .free := by
  cases h with
  | bottom ha => simp [Activation.isHandler] at ha
  | handler hbelow hmasked hdirect hdeferred => exact hdirect hpc

end StackOk

/-! ## Settled phases -/

theorem EnterPc.settled (pc : EnterPc) : pc.phase.settled = true := by
  cases pc <;> rfl

theorem LeavePc.settled_of_unmasked (pc : LeavePc) (h : pc.masked = false) :
    pc.phase.settled = true := by
  cases pc with
  | unlock => simp [LeavePc.masked] at h
  | unlockStore loaded => simp [LeavePc.masked] at h
  | disableInt => rfl
  | dequeue => rfl
  | setDequeued item => rfl
  | enableInt item => rfl
  | epilogue item pc => rfl
  | clearFlag => rfl
  | enableIntReturn => rfl

/-- An unmasked point with a phase of its own is not in the middle of giving the lock back. -/
theorem Activation.settled_of_unmasked {a : Activation} {p : Phase} (hp : a.phase? = some p)
    (h : a.masked = false) : p.settled = true := by
  cases a with
  | user =>
      obtain rfl := Option.some.inj hp
      rfl
  | secure pc =>
      cases pc with
      | enter op pc =>
          obtain rfl := Option.some.inj hp
          exact pc.settled
      | body pc =>
          obtain rfl := Option.some.inj hp
          rfl
      | leave pc =>
          obtain rfl := Option.some.inj hp
          exact pc.settled_of_unmasked h
  | kickoff pc =>
      obtain rfl := Option.some.inj hp
      exact pc.settled_of_unmasked h
  | guardian g pc =>
      cases pc with
      | enter pc =>
          obtain rfl := Option.some.inj hp
          exact pc.settled
      | epilogue pc =>
          obtain rfl := Option.some.inj hp
          rfl
      | leave pc =>
          obtain rfl := Option.some.inj hp
          exact pc.settled_of_unmasked h
      | _ => simp [Activation.phase?, GuardianPc.phase?] at hp

/-- The code of a thread has a phase of its own everywhere. -/
theorem Activation.phase?_isSome {a : Activation} (h : a.isHandler = false) :
    ∃ p, a.phase? = some p := by
  cases a with
  | user => exact ⟨_, rfl⟩
  | secure pc => cases pc <;> exact ⟨_, rfl⟩
  | kickoff pc => exact ⟨_, rfl⟩
  | guardian g pc => simp [Activation.isHandler] at h

theorem stackPhase_cons_of_some {a : Activation} {p : Phase} (h : a.phase? = some p)
    (below : List Activation) : stackPhase (a :: below) = p := by
  simp [stackPhase, h]

theorem stackPhase_cons_of_none {a : Activation} (h : a.phase? = none)
    (below : List Activation) : stackPhase (a :: below) = stackPhase below := by
  simp [stackPhase, h]

/-- Where an interrupt can arrive, the phase is settled. -/
theorem StackOk.settled {s : List Activation} (h : StackOk s) :
    stackMasked s = false → (stackPhase s).settled = true := by
  induction h with
  | bottom ha =>
      intro hm
      obtain ⟨p, hp⟩ := Activation.phase?_isSome ha
      rw [stackPhase_cons_of_some hp]
      exact Activation.settled_of_unmasked hp hm
  | @handler g pc below hbelow hmasked hdirect hdeferred ih =>
      intro hm
      cases hp : (Activation.guardian g pc).phase? with
      | none =>
          rw [stackPhase_cons_of_none hp]
          exact ih hmasked
      | some p =>
          rw [stackPhase_cons_of_some hp]
          exact Activation.settled_of_unmasked hp hm

/-- A settled phase without the level flag is outside of the guard. -/
theorem Phase.eq_free {p : Phase} (hs : p.settled = true) (hf : p.flag = false) : p = .free := by
  cases p with
  | free => rfl
  | flagged => simp [Phase.flag] at hf
  | waiting ticket => simp [Phase.flag] at hf
  | owning => simp [Phase.flag] at hf
  | unlocking => simp [Phase.settled] at hs
  | releasing loaded => simp [Phase.settled] at hs

theorem GuardianPc.direct_of_phase? {pc : GuardianPc} (h : pc.phase?.isSome = true) :
    pc.direct = true := by
  cases pc <;> first | rfl | simp [GuardianPc.phase?] at h

theorem GuardianPc.phase?_of_deferred {pc : GuardianPc} (h : pc.deferred = true) :
    pc.phase? = none := by
  cases pc <;> first | rfl | simp [GuardianPc.deferred] at h

/-- Without the level flag no handler of the stack is on the deferred path. -/
theorem StackOk.not_deferred_of_flag {s : List Activation} (h : StackOk s) :
    (stackPhase s).flag = false → ∀ g pc, Activation.guardian g pc ∈ s → pc.deferred = false := by
  induction h with
  | bottom ha =>
      intro _ g pc hmem
      obtain rfl := List.mem_singleton.1 hmem
      simp [Activation.isHandler] at ha
  | @handler i pc' below hbelow hmasked hdirect hdeferred ih =>
      intro hf g pc hmem
      -- the code below is not under the level flag either
      have hbf : (stackPhase below).flag = false := by
        cases hp : (Activation.guardian i pc').phase? with
        | none => rwa [stackPhase_cons_of_none hp] at hf
        | some p =>
            have hp' : pc'.phase? = some p := hp
            rw [hdirect (GuardianPc.direct_of_phase? (by simp [hp']))]
            rfl
      rcases List.mem_cons.1 hmem with heq | hmem
      · obtain ⟨rfl, rfl⟩ := Activation.guardian.inj heq
        by_contra hd
        rw [hdeferred (by simpa using hd)] at hbf
        cases hbf
      · exact ih hbf g pc hmem

/-- Nor while the innermost activation is in the guard itself. -/
theorem StackOk.not_deferred_of_phase {a : Activation} {below : List Activation}
    (h : StackOk (a :: below)) (ha : a.phase?.isSome = true) {g : Gate} {pc : GuardianPc}
    (hmem : Activation.guardian g pc ∈ a :: below) : pc.deferred = false := by
  cases h with
  | bottom hb =>
      obtain rfl := List.mem_singleton.1 hmem
      simp [Activation.isHandler] at hb
  | @handler i pc' below hbelow hmasked hdirect hdeferred =>
      rcases List.mem_cons.1 hmem with heq | hmem
      · obtain ⟨rfl, rfl⟩ := Activation.guardian.inj heq
        by_contra hd
        have hnone : (Activation.guardian g pc).phase? = none :=
          GuardianPc.phase?_of_deferred (by simpa using hd)
        simp [hnone] at ha
      · refine hbelow.not_deferred_of_flag ?_ g pc hmem
        rw [hdirect (GuardianPc.direct_of_phase? ha)]
        rfl

/-! ## Where a statement leads -/

/-- The point at which the same activation goes on, at once or after it was switched away. -/
def Control.target? {Pc : Type} : Control Pc → Option Pc
  | .next pc => some pc
  | .switch _ _ cont => some cont
  | _ => none

theorem Control.target?_lift {Pc Pc' : Type} {ctl : Control Pc} {f : Pc → Pc'} {pc₀ pc' : Pc'}
    (h : (ctl.lift f (.next pc₀)).target? = some pc') :
    (∃ pc, ctl.target? = some pc ∧ pc' = f pc) ∨ pc' = pc₀ := by
  cases ctl with
  | next pc => exact Or.inl ⟨pc, rfl, (Option.some.inj h).symm⟩
  | ret => exact Or.inr (Option.some.inj h).symm
  | switch t u cont => exact Or.inl ⟨cont, rfl, (Option.some.inj h).symm⟩
  | _ => simp [Control.lift, Control.target?] at h

theorem Control.target?_liftRet {Pc Pc' : Type} {ctl : Control Pc} {f : Pc → Pc'} {pc' : Pc'}
    (h : (ctl.lift f .ret).target? = some pc') : ∃ pc, ctl.target? = some pc ∧ pc' = f pc := by
  cases ctl with
  | next pc => exact ⟨pc, rfl, (Option.some.inj h).symm⟩
  | switch t u cont => exact ⟨cont, rfl, (Option.some.inj h).symm⟩
  | _ => simp [Control.lift, Control.target?] at h

theorem Control.lift_ne_ret {Pc Pc' : Type} {ctl : Control Pc} {f : Pc → Pc'} {pc₀ : Pc'} :
    ctl.lift f (.next pc₀) ≠ .ret := by
  cases ctl <;> simp [Control.lift]

variable {c : Cpu} {k : Kernel} {intr : Bool}

/-- A handler gets onto one of its two paths by the test of the level flag only. -/
theorem guardianStep_target {g : Gate} {answer : Bool} {pc pc' : GuardianPc}
    (h : (guardianStep c k intr g answer pc).ctl.target? = some pc') :
    (pc'.direct = true → pc.direct = true ∨ pc = .testFlag ∧ k.flag c = false) ∧
      (pc'.deferred = true → pc.deferred = true ∨ pc = .testFlag ∧ k.flag c = true) := by
  cases pc with
  | prologue =>
      cases answer with
      | true =>
          obtain rfl := Option.some.inj h
          simp [GuardianPc.direct, GuardianPc.deferred]
      | false =>
          obtain rfl := Option.some.inj h
          simp [GuardianPc.direct, GuardianPc.deferred]
  | ackIRQ =>
      obtain rfl := Option.some.inj h
      simp [GuardianPc.direct, GuardianPc.deferred]
  -- the one statement that decides between the two paths
  | testFlag =>
      by_cases hf : k.flag c = true
      · simp only [guardianStep, hf, if_true] at h
        obtain rfl := Option.some.inj h
        simp [GuardianPc.direct, hf]
      · simp only [guardianStep, hf] at h
        obtain rfl := Option.some.inj h
        simp [GuardianPc.deferred, hf]
  | setQueued currCpu =>
      refine ⟨fun hpc => ?_, fun _ => Or.inl rfl⟩
      by_cases hq : k.queueFlag g = true
      · simp only [guardianStep, hq, if_true] at h
        obtain rfl := Option.some.inj h
        simp [GuardianPc.direct] at hpc
      · simp only [guardianStep, hq] at h
        obtain rfl := Option.some.inj h
        simp [GuardianPc.direct] at hpc
  | enqueue currCpu =>
      obtain rfl := Option.some.inj h
      simp [GuardianPc.direct, GuardianPc.deferred]
  | ackIRQLast via =>
      obtain rfl := Option.some.inj h
      simp [GuardianPc.direct, GuardianPc.deferred]
  | enableIntLast via =>
      obtain rfl := Option.some.inj h
      simp [GuardianPc.direct, GuardianPc.deferred]
  | enableInt =>
      obtain rfl := Option.some.inj h
      simp [GuardianPc.direct, GuardianPc.deferred]
  | enter pc =>
      refine ⟨fun _ => Or.inl rfl, fun hpc => ?_⟩
      simp only [guardianStep, Effect.lift] at h
      rcases Control.target?_lift h with ⟨pc', -, rfl⟩ | rfl <;> simp [GuardianPc.deferred] at hpc
  | epilogue pc =>
      refine ⟨fun _ => Or.inl rfl, fun hpc => ?_⟩
      simp only [guardianStep, Effect.lift] at h
      rcases Control.target?_lift h with ⟨pc', -, rfl⟩ | rfl <;> simp [GuardianPc.deferred] at hpc
  | leave pc =>
      refine ⟨fun _ => Or.inl rfl, fun hpc => ?_⟩
      simp only [guardianStep, Effect.lift] at h
      rcases Control.target?_lift h with ⟨pc', -, rfl⟩ | rfl <;> simp [GuardianPc.deferred] at hpc
  | iret via => simp [guardianStep, Control.target?] at h

/-- The statement of a handler, and the answers its prologue can give. -/
theorem activationStep_guardian {g : Gate} {pc : GuardianPc} {ch : Choice} {e : Effect Activation}
    (h : activationStep c k intr (.guardian g pc) ch = some e) :
    ∃ answer, ch = .stmt answer ∧ (pc = .prologue → g.prologueAnswers answer = true) ∧
      e = (guardianStep c k intr g answer pc).lift (.guardian g) .ret := by
  cases ch with
  | stmt answer =>
      refine ⟨answer, rfl, ?_⟩
      cases pc with
      | prologue =>
          by_cases hg : g.prologueAnswers answer = true
          · simp only [activationStep, hg, if_true] at h
            exact ⟨fun _ => hg, (Option.some.inj h).symm⟩
          · simp [activationStep, hg] at h
      | _ => exact ⟨fun hpc => GuardianPc.noConfusion hpc, (Option.some.inj h).symm⟩
  | _ => cases pc <;> simp [activationStep] at h

/-- The statement of the code of a thread: user code enters a guarded section or ends, and a
guarded section or the start of a thread executes a statement of one of three functions. -/
theorem activationStep_thread {a : Activation} {ch : Choice} {e : Effect Activation}
    (ha : a.isHandler = false) (h : activationStep c k intr a ch = some e) :
    (∃ op, a = .user ∧ ch = .secure op ∧
        e = ⟨k, intr, .next (.secure (.enter op .disableInt))⟩) ∨
      (a = .user ∧ ch = .finish ∧ e = ⟨k, false, .die⟩) ∨
      (∃ answer, ch = .stmt answer ∧
        ((∃ op pc, a = .secure (.enter op pc) ∧
            e = (enterStep c k intr pc).lift (fun pc => .secure (.enter op pc))
              (.next (.secure (.body op.start)))) ∨
          (∃ pc, a = .secure (.body pc) ∧
            e = (schedStep c k intr pc).lift (fun pc => .secure (.body pc))
              (.next (.secure (.leave .disableInt)))) ∨
          (∃ pc, a = .secure (.leave pc) ∧
            e = (leaveStep c k intr pc).lift (fun pc => .secure (.leave pc)) (.next .user)) ∨
          ∃ pc, a = .kickoff pc ∧ e = (leaveStep c k intr pc).lift .kickoff (.next .user))) := by
  cases a with
  | user =>
      cases ch with
      | secure op => exact Or.inl ⟨op, rfl, rfl, (Option.some.inj h).symm⟩
      | finish => exact Or.inr (Or.inl ⟨rfl, rfl, (Option.some.inj h).symm⟩)
      | accept g => simp [activationStep] at h
      | stmt answer => simp [activationStep] at h
  | secure pc =>
      cases ch with
      | stmt answer =>
          refine Or.inr (Or.inr ⟨answer, rfl, ?_⟩)
          cases pc with
          | enter op pc => exact Or.inl ⟨op, pc, rfl, (Option.some.inj h).symm⟩
          | body pc => exact Or.inr (Or.inl ⟨pc, rfl, (Option.some.inj h).symm⟩)
          | leave pc => exact Or.inr (Or.inr (Or.inl ⟨pc, rfl, (Option.some.inj h).symm⟩))
      | _ => cases pc <;> simp [activationStep] at h
  | kickoff pc =>
      cases ch with
      | stmt answer =>
          exact Or.inr (Or.inr ⟨answer, rfl,
            Or.inr (Or.inr (Or.inr ⟨pc, rfl, (Option.some.inj h).symm⟩))⟩)
      | _ => simp [activationStep] at h
  | guardian g pc => simp [Activation.isHandler] at ha

/-- A statement belongs to a handler or to the code of a thread. -/
theorem activationStep_cases {a : Activation} {ch : Choice} {e : Effect Activation}
    (h : activationStep c k intr a ch = some e) :
    (∃ g pc answer, a = .guardian g pc ∧ ch = .stmt answer ∧
      e = (guardianStep c k intr g answer pc).lift (.guardian g) .ret) ∨ a.isHandler = false := by
  cases a with
  | guardian g pc =>
      obtain ⟨answer, hch, -, he⟩ := activationStep_guardian h
      exact Or.inl ⟨g, pc, answer, rfl, hch, he⟩
  | _ => exact Or.inr rfl

/-- A statement of the innermost activation, seen from the whole stack. -/
theorem activationStep_sound {a : Activation} {below : List Activation} {ch : Choice}
    {e : Effect Activation} (hs : StackOk (a :: below)) (hmask : a.masked = true → intr = false)
    (h : activationStep c k intr a ch = some e) :
    e.Sound c k (stackPhase (a :: below)) (fun a' => stackPhase (a' :: below)) Activation.masked
      (stackPhase below) := by
  rcases activationStep_cases h with ⟨g, pc, answer, rfl, -, rfl⟩ | ha
  · exact (guardianStep_sound g answer pc hmask hs.below_free).liftRet _ (fun _ => rfl)
      fun _ => rfl
  · rcases activationStep_thread ha h with ⟨op, rfl, -, rfl⟩ | ⟨rfl, -, rfl⟩ | ⟨answer, -, h⟩
    · exact ⟨.stay .free (.refl k), fun hm => Bool.noConfusion hm⟩
    · exact LockSame.refl k
    · -- a guarded section, or the start of a thread in `kickoff`
      rcases h with ⟨op, pc, rfl, rfl⟩ | ⟨pc, rfl, rfl⟩ | ⟨pc, rfl, rfl⟩ | ⟨pc, rfl, rfl⟩
      · exact (enterStep_sound pc hmask).lift _ _ (fun _ => rfl) (fun _ => rfl) rfl rfl
      · exact (schedStep_sound pc).lift _ _ (fun _ => rfl) (fun _ => rfl) rfl rfl
      · exact (leaveStep_sound pc hmask).lift _ _ (fun _ => rfl) (fun _ => rfl) rfl rfl
      · exact (leaveStep_sound pc hmask).lift _ _ (fun _ => rfl) (fun _ => rfl) rfl rfl

/-- The code of a thread does not return, and it goes on as code of a thread. -/
theorem activationStep_isHandler {a : Activation} {ch : Choice} {e : Effect Activation}
    (ha : a.isHandler = false) (h : activationStep c k intr a ch = some e) :
    e.ctl ≠ .ret ∧ ∀ a', e.ctl.target? = some a' → a'.isHandler = false := by
  have hlift : ∀ {Pc : Type} {e' : Effect Pc} {f : Pc → Activation} {a₀ : Activation},
      (∀ pc, (f pc).isHandler = false) → a₀.isHandler = false →
        (e'.lift f (.next a₀)).ctl ≠ .ret ∧
          ∀ a', (e'.lift f (.next a₀)).ctl.target? = some a' → a'.isHandler = false := by
    intro Pc e' f a₀ hf h₀
    refine ⟨Control.lift_ne_ret, fun a' ht => ?_⟩
    rcases Control.target?_lift ht with ⟨pc, -, rfl⟩ | rfl
    · exact hf pc
    · exact h₀
  rcases activationStep_thread ha h with ⟨op, rfl, -, rfl⟩ | ⟨rfl, -, rfl⟩ | ⟨answer, -, h⟩
  · refine ⟨by simp, fun a' ht => ?_⟩
    obtain rfl := Option.some.inj ht
    rfl
  · exact ⟨by simp, fun a' ht => by simp [Control.target?] at ht⟩
  · rcases h with ⟨op, pc, rfl, rfl⟩ | ⟨pc, rfl, rfl⟩ | ⟨pc, rfl, rfl⟩ | ⟨pc, rfl, rfl⟩
    · exact hlift (fun _ => rfl) rfl
    · exact hlift (fun _ => rfl) rfl
    · exact hlift (fun _ => rfl) rfl
    · exact hlift (fun _ => rfl) rfl

/-- The activation that goes on fits on the stack. -/
theorem activationStep_target {a a' : Activation} {below : List Activation} {ch : Choice}
    {e : Effect Activation} (hs : StackOk (a :: below))
    (hflag : k.flag c = (stackPhase (a :: below)).flag)
    (h : activationStep c k intr a ch = some e) (ht : e.ctl.target? = some a') :
    StackOk (a' :: below) := by
  cases hs with
  | bottom ha => exact .bottom ((activationStep_isHandler ha h).2 a' ht)
  | @handler g pc below hbelow hmasked hdirect hdeferred =>
      obtain ⟨answer, -, -, rfl⟩ := activationStep_guardian h
      obtain ⟨pc', hpc', rfl⟩ := Control.target?_liftRet ht
      obtain ⟨hdir, hdef⟩ := guardianStep_target hpc'
      refine .handler hbelow hmasked (fun hd => ?_) fun hd => ?_
      -- the flag was found clear, and interrupted code is in a settled phase
      · rcases hdir hd with hd | ⟨rfl, hf⟩
        · exact hdirect hd
        · exact Phase.eq_free (hbelow.settled hmasked) (hflag.symm.trans hf)
      · rcases hdef hd with hd | ⟨rfl, hf⟩
        · exact hdeferred hd
        · exact hflag.symm.trans hf

/-- Only the handler of an interrupt returns, to the code it interrupted. -/
theorem activationStep_ret {a : Activation} {below : List Activation} {ch : Choice}
    {e : Effect Activation} (hs : StackOk (a :: below))
    (h : activationStep c k intr a ch = some e) (hr : e.ctl = .ret) :
    StackOk below ∧ stackMasked below = false := by
  cases hs with
  | bottom ha => exact absurd hr (activationStep_isHandler ha h).1
  | handler hbelow hmasked hdirect hdeferred => exact ⟨hbelow, hmasked⟩

/-! ## Steps of the multiprocessor -/

/-- A step accepts an interrupt or executes a statement of the innermost activation. -/
theorem Multiprocessor.step_cases {m m' : Multiprocessor} {c : Cpu} {ch : Choice}
    (h : Multiprocessor.step m (c, ch) = some m') :
    (m.cpu c).status = .running ∧
      ((∃ g, ch = .accept g ∧ (m.cpu c).intr = true ∧ m' = m.accept c g) ∨
        ∃ a below e, (m.cpu c).stack = a :: below ∧
          activationStep c m.kernel (m.cpu c).intr a ch = some e ∧ m' = m.apply c a below e) := by
  cases hst : (m.cpu c).status with
  | running =>
      refine ⟨rfl, ?_⟩
      -- the three other choices execute the innermost activation
      have hstmt : ∀ ch' : Choice,
          (match (m.cpu c).stack with
            | [] => none
            | a :: below =>
                (activationStep c m.kernel (m.cpu c).intr a ch').map (m.apply c a below)) =
              some m' →
            ∃ a below e, (m.cpu c).stack = a :: below ∧
              activationStep c m.kernel (m.cpu c).intr a ch' = some e ∧
                m' = m.apply c a below e := by
        intro ch' h'
        cases hs : (m.cpu c).stack with
        | nil => simp [hs] at h'
        | cons a below =>
            simp only [hs, Option.map_eq_some_iff] at h'
            obtain ⟨e, he, rfl⟩ := h'
            exact ⟨a, below, e, rfl, he, rfl⟩
      cases ch with
      | accept g =>
          by_cases hi : (m.cpu c).intr = true
          · simp only [Multiprocessor.step, hst, hi, if_true] at h
            exact Or.inl ⟨g, rfl, hi, (Option.some.inj h).symm⟩
          · simp [Multiprocessor.step, hst, hi] at h
      | secure op =>
          simp only [Multiprocessor.step, hst] at h
          exact Or.inr (hstmt _ h)
      | finish =>
          simp only [Multiprocessor.step, hst] at h
          exact Or.inr (hstmt _ h)
      | stmt answer =>
          simp only [Multiprocessor.step, hst] at h
          exact Or.inr (hstmt _ h)
  | off => simp [Multiprocessor.step, hst] at h
  | halted => simp [Multiprocessor.step, hst] at h
  | wild => simp [Multiprocessor.step, hst] at h

/-- A property `Q` of the stacks of the CPUs, and a stronger one `R` of those of the suspended
threads, are kept by a step: `Q` when an activation returns, `haccept` when an interrupt arrives,
`hnext` when the innermost activation goes on and `hswitch` when its thread is switched away. -/
theorem Multiprocessor.stacks_step {Q R : List Activation → Prop} {m m' : Multiprocessor} {c : Cpu}
    {ch : Choice} (hstep : Multiprocessor.step m (c, ch) = some m') (hRQ : ∀ s, R s → Q s)
    (hbelow : ∀ a below, Q (a :: below) → Q below) (hstack : ∀ d, Q (m.cpu d).stack)
    (hsaved : ∀ t, R (m.regs t))
    (haccept : ∀ g, ch = .accept g → Q (.guardian g .prologue :: (m.cpu c).stack))
    (hnext : ∀ a below e a', (m.cpu c).stack = a :: below →
      activationStep c m.kernel (m.cpu c).intr a ch = some e → e.ctl = .next a' →
        Q (a' :: below))
    (hswitch : ∀ a below e old next a', (m.cpu c).stack = a :: below →
      activationStep c m.kernel (m.cpu c).intr a ch = some e → e.ctl = .switch old next a' →
        R (a' :: below)) :
    (∀ d, Q (m'.cpu d).stack) ∧ ∀ t, R (m'.regs t) := by
  have hset : ∀ s : CpuState, Q s.stack → ∀ d, Q (Function.update m.cpu c s d).stack := by
    intro s hs
    apply (Function.forall_update_iff m.cpu fun _ s => Q s.stack).2
    exact ⟨hs, fun d _ => hstack d⟩
  obtain ⟨-, hcases⟩ := step_cases hstep
  rcases hcases with ⟨g, rfl, -, rfl⟩ | ⟨a, below, e, hs, he, rfl⟩
  · exact ⟨hset _ (haccept g rfl), hsaved⟩
  · have hold : Q (a :: below) := hs ▸ hstack c
    obtain ⟨k', intr', ctl⟩ := e
    cases ctl with
    | next a' => exact ⟨hset _ (hnext a below _ a' hs he rfl), hsaved⟩
    | ret => exact ⟨hset _ (hbelow a below hold), hsaved⟩
    | die => exact ⟨hset _ hold, hsaved⟩
    | wild => exact ⟨hset _ hold, hsaved⟩
    -- the old stack is saved first, so `next` may be `old`
    | switch old next a' =>
        have hregs : ∀ t, R (Function.update m.regs old (a' :: below) t) := by
          apply (Function.forall_update_iff m.regs fun _ s => R s).2
          exact ⟨hswitch a below _ old next a' hs he rfl, fun t _ => hsaved t⟩
        exact ⟨hset _ (hRQ _ (hregs next)), hregs⟩
    | start next => exact ⟨hset _ (hRQ _ (hsaved next)), hsaved⟩

end MPStuBS.Guard
