import MPStuBS.Guard.MutualExclusion
import Mathlib.Data.List.Forall2

/-!
# End of interrupt

`relay` acknowledges an interrupt behind the prologue, and once more at its end. On the
path without an epilogue only the second acknowledgement is executed, and on the direct
path only the first. When the level flag is set both are, and the second one is written
while no interrupt is in service (`eoi_twice`).

Every activation is counted how many EOIs it has written (`AckCounts`); the counts move
with the stacks. `FlagClear` admits the steps at which a handler that tests the level flag
finds it clear. In runs of such steps every handler writes one EOI, before it enables
interrupts (`one_eoi`).
-/

set_option autoImplicit false

namespace MPStuBS.Guard

open MPStuBS.Object MPStuBS.Machine MPStuBS.Thread MPStuBS.Lib.Run

/-! ## The EOIs of an activation -/

/-- How many EOIs the activations on the stacks have written, of the CPUs and of the threads that do
not run. -/
structure AckCounts where
  cpu : Cpu → List Nat
  regs : ThreadPtr → List Nat

namespace AckCounts

/-- One activation on every stack. -/
def boot : AckCounts := ⟨fun _ => [0], fun _ => [0]⟩

/-- The innermost activation has written `n` more. -/
def add (n : Nat) : List Nat → List Nat
  | [] => []
  | k :: ks => (k + n) :: ks

/-- A statement of CPU `c` that writes `n` EOIs. -/
def apply (h : AckCounts) (c : Cpu) (n : Nat) : Control Activation → AckCounts
  | .next _ | .die | .wild => { h with cpu := Function.update h.cpu c (add n (h.cpu c)) }
  | .ret => { h with cpu := Function.update h.cpu c (h.cpu c).tail }
  | .switch old next _ =>
      let regs := Function.update h.regs old (add n (h.cpu c))
      ⟨Function.update h.cpu c (regs next), regs⟩
  | .start next => { h with cpu := Function.update h.cpu c (h.regs next) }

/-- The counts after a step. -/
def record (m : Multiprocessor) (i : Cpu × Choice) (h : AckCounts) : AckCounts :=
  match i.2 with
  | .accept _ => { h with cpu := Function.update h.cpu i.1 (0 :: h.cpu i.1) }
  | ch =>
      match (m.cpu i.1).stack with
      | [] => h
      | a :: _ =>
          match activationStep i.1 m.kernel (m.cpu i.1).intr a ch with
          | none => h
          | some e => h.apply i.1 (e.kernel.eoi i.1 - m.kernel.eoi i.1) e.ctl

end AckCounts

/-- The points from the statement on that enables interrupts for the first time. -/
def GuardianPc.enabling : GuardianPc → Bool
  | .enableInt | .enableIntLast _ | .enter _ | .epilogue _ | .leave _ | .iret _ => true
  | _ => false

/-- A handler writes one EOI, before it enables interrupts; the code of a thread writes none. -/
def Acknowledged : Activation → Nat → Prop
  | .guardian _ pc, n => n ≤ 1 ∧ (pc.enabling = true → n = 1)
  | _, n => n = 0

/-- 1, if the innermost activation handles an interrupt that it has not acknowledged. -/
def inService : List Activation → List Nat → Nat
  | a :: _, n :: _ => if a.isHandler = true ∧ n = 0 then 1 else 0
  | _, _ => 0

/-- The EOIs in a state: every handler has written one, and on every CPU as many are written as
interrupts were taken, apart from the one in service. A step that writes one finds an interrupt in
service. -/
structure Multiprocessor.OneEoi (m : Multiprocessor) (h : AckCounts) : Prop where
  stack : ∀ c, List.Forall₂ Acknowledged (m.cpu c).stack (h.cpu c)
  saved : ∀ t, List.Forall₂ Acknowledged (m.regs t) (h.regs t)
  total : ∀ c, m.kernel.taken c = m.kernel.eoi c + inService (m.cpu c).stack (h.cpu c)
  served : ∀ i m', Multiprocessor.step m i = some m' → ∀ c,
    m'.kernel.eoi c ≠ m.kernel.eoi c → m.kernel.eoi c < m.kernel.taken c

/-! ## What a statement does -/

/-- The EOIs of the statement at a point. -/
def GuardianPc.writes : GuardianPc → Nat
  | .ackIRQ | .ackIRQLast _ => 1
  | _ => 0

/-- The EOIs still to be written at a point, where the level flag is not found set. -/
def GuardianPc.pending : GuardianPc → Nat
  | .prologue | .ackIRQ | .ackIRQLast _ => 1
  | _ => 0

def Activation.writes : Activation → Nat
  | .guardian _ pc => pc.writes
  | _ => 0

def Activation.pending : Activation → Nat
  | .guardian _ pc => pc.pending
  | _ => 0

/-- The statement of CPU `c` writes `n` EOIs. -/
structure Effect.Writes {Pc : Type} (c : Cpu) (k : Kernel) (n : Nat) (e : Effect Pc) : Prop where
  taken : e.kernel.taken = k.taken
  eoi : e.kernel.eoi = Function.update k.eoi c (k.eoi c + n)

section Statements

variable {c : Cpu} {k : Kernel} {intr : Bool}

theorem Effect.Writes.lift {Pc Pc' : Type} {n : Nat} {e : Effect Pc} (h : e.Writes c k n)
    (f : Pc → Pc') (onRet : Control Pc') : (e.lift f onRet).Writes c k n :=
  ⟨h.taken, h.eoi⟩

theorem Effect.Writes.none {Pc : Type} {e : Effect Pc} (htaken : e.kernel.taken = k.taken)
    (heoi : e.kernel.eoi = k.eoi) : e.Writes c k 0 :=
  ⟨htaken, heoi.trans (Function.update_eq_self c k.eoi).symm⟩

theorem schedStep_writes (pc : SchedPc) : (schedStep c k intr pc).Writes c k 0 := by
  cases pc with
  | resumeRelist curr => cases curr <;> exact .none rfl rfl
  | resumeSkip next =>
      cases next with
      | none => exact .none rfl rfl
      | some t =>
          simp only [schedStep]
          split <;> exact .none rfl rfl
  | dispatchSwitch old next => cases old <;> cases next <;> exact .none rfl rfl
  | killRemove that prev current =>
      simp only [schedStep]
      split <;> exact .none rfl rfl
  | schedule =>
      simp only [schedStep]
      split <;> exact .none rfl rfl
  | _ => exact .none rfl rfl

theorem epilogueStep_writes (g : Gate) (pc : EpiloguePc) :
    (epilogueStep c k intr g pc).Writes c k 0 := by
  cases pc with
  | start => cases g <;> exact .none rfl rfl
  | assassinCheck current =>
      cases current with
      | none => exact .none rfl rfl
      | some t =>
          simp only [epilogueStep]
          split <;> exact .none rfl rfl
  | sched pc => exact (schedStep_writes pc).lift _ _

theorem enterStep_writes (pc : EnterPc) : (enterStep c k intr pc).Writes c k 0 := by
  cases pc with
  | spin current =>
      simp only [enterStep]
      split <;> exact .none rfl rfl
  | _ => exact .none rfl rfl

theorem leaveStep_writes (pc : LeavePc) : (leaveStep c k intr pc).Writes c k 0 := by
  cases pc with
  | dequeue =>
      simp only [leaveStep]
      split <;> exact .none rfl rfl
  | epilogue item pc => exact (epilogueStep_writes item pc).lift _ _
  | _ => exact .none rfl rfl

theorem guardianStep_writes (g : Gate) (answer : Bool) (pc : GuardianPc) :
    (guardianStep c k intr g answer pc).Writes c k pc.writes := by
  cases pc with
  | prologue => cases answer <;> exact .none rfl rfl
  | ackIRQ => exact ⟨rfl, rfl⟩
  | testFlag =>
      simp only [guardianStep]
      split <;> exact .none rfl rfl
  | setQueued currCpu =>
      simp only [guardianStep]
      split <;> exact .none rfl rfl
  | enqueue currCpu => exact .none rfl rfl
  | ackIRQLast via => exact ⟨rfl, rfl⟩
  | enableIntLast via => exact .none rfl rfl
  | enableInt => exact .none rfl rfl
  | enter pc => exact (enterStep_writes pc).lift _ _
  | epilogue pc => exact (epilogueStep_writes g pc).lift _ _
  | leave pc => exact (leaveStep_writes pc).lift _ _
  | iret via => exact .none rfl rfl

/-- The statement of an activation writes the EOI of its point. -/
theorem activationStep_writes {a : Activation} {ch : Choice} {e : Effect Activation}
    (h : activationStep c k intr a ch = some e) : e.Writes c k a.writes := by
  rcases activationStep_cases h with ⟨g, pc, answer, rfl, -, rfl⟩ | ha
  · exact (guardianStep_writes g answer pc).lift _ _
  · have hzero : a.writes = 0 := by
      cases a with
      | guardian g pc => cases ha
      | _ => rfl
    rw [hzero]
    rcases activationStep_thread ha h with ⟨op, -, -, rfl⟩ | ⟨-, -, rfl⟩ | ⟨answer, -, h⟩
    · exact .none rfl rfl
    · exact .none rfl rfl
    · rcases h with ⟨op, pc, -, rfl⟩ | ⟨pc, -, rfl⟩ | ⟨pc, -, rfl⟩ | ⟨pc, -, rfl⟩
      · exact (enterStep_writes pc).lift _ _
      · exact (schedStep_writes pc).lift _ _
      · exact (leaveStep_writes pc).lift _ _
      · exact (leaveStep_writes pc).lift _ _

/-- Off the deferred path a handler goes on towards its only EOI. -/
theorem guardianStep_pending {g : Gate} {answer : Bool} {pc pc' : GuardianPc}
    (hdef : pc.deferred = false) (hclear : pc = .testFlag → k.flag c = false)
    (h : (guardianStep c k intr g answer pc).ctl.target? = some pc') :
    pc'.deferred = false ∧ pc.pending = pc.writes + pc'.pending := by
  constructor
  · by_contra hd
    rcases (guardianStep_target h).2 (by simpa using hd) with hold | ⟨rfl, hset⟩
    · rw [hdef] at hold
      cases hold
    · rw [hclear rfl] at hset
      cases hset
  · cases pc with
    | prologue =>
        cases answer with
        | true =>
            obtain rfl := Option.some.inj h
            rfl
        | false =>
            obtain rfl := Option.some.inj h
            rfl
    | ackIRQ =>
        obtain rfl := Option.some.inj h
        rfl
    | testFlag =>
        simp only [guardianStep, hclear rfl] at h
        obtain rfl := Option.some.inj h
        rfl
    | setQueued currCpu => cases hdef
    | enqueue currCpu => cases hdef
    | ackIRQLast via =>
        obtain rfl := Option.some.inj h
        rfl
    | enableIntLast via =>
        obtain rfl := Option.some.inj h
        rfl
    | enableInt =>
        obtain rfl := Option.some.inj h
        rfl
    | enter pc =>
        simp only [guardianStep, Effect.lift] at h
        rcases Control.target?_lift h with ⟨pc', -, rfl⟩ | rfl <;> rfl
    | epilogue pc =>
        simp only [guardianStep, Effect.lift] at h
        rcases Control.target?_lift h with ⟨pc', -, rfl⟩ | rfl <;> rfl
    | leave pc =>
        simp only [guardianStep, Effect.lift] at h
        rcases Control.target?_lift h with ⟨pc', -, rfl⟩ | rfl <;> rfl
    | iret via => cases h

/-- As long as the EOI is to be written, the handler goes on at once. -/
theorem activationStep_pending {a : Activation} {ch : Choice} {e : Effect Activation}
    (h : activationStep c k intr a ch = some e) (ha : a.pending ≠ 0) :
    ∃ a', e.ctl = .next a' := by
  cases a with
  | guardian g pc =>
      obtain ⟨answer, -, -, rfl⟩ := activationStep_guardian h
      cases pc with
      | prologue => cases answer <;> exact ⟨_, rfl⟩
      | ackIRQ => exact ⟨_, rfl⟩
      | ackIRQLast via => exact ⟨_, rfl⟩
      | _ => exact absurd rfl ha
  | _ => exact absurd rfl ha

end Statements

/-! ## The invariant -/

/-- The activation has written the EOIs that lie before its point. -/
def Counted : Activation → Nat → Prop
  | .guardian _ pc, n => n + pc.pending = 1 ∧ pc.deferred = false
  | _, n => n = 0

section Counted

variable {a a' : Activation} {n : Nat} {s : List Activation} {ns : List Nat}

theorem GuardianPc.pending_of_enabling {pc : GuardianPc} (h : pc.enabling = true) :
    pc.pending = 0 := by
  cases pc with
  | prologue => cases h
  | ackIRQ => cases h
  | ackIRQLast via => cases h
  | _ => rfl

theorem Activation.pending_of_unmasked (h : a.masked = false) : a.pending = 0 := by
  cases a with
  | guardian g pc =>
      cases pc with
      | prologue => cases h
      | ackIRQ => cases h
      | ackIRQLast via => cases h
      | _ => rfl
  | _ => rfl

theorem Activation.pending_of_writes (h : a.writes ≠ 0) : a.pending = 1 := by
  cases a with
  | guardian g pc =>
      cases pc with
      | ackIRQ => rfl
      | ackIRQLast via => rfl
      | _ => exact absurd rfl h
  | _ => exact absurd rfl h

theorem Counted.acknowledged (h : Counted a n) : Acknowledged a n := by
  cases a with
  | guardian g pc =>
      obtain ⟨hn, -⟩ := h
      refine ⟨by omega, fun hen => ?_⟩
      rwa [GuardianPc.pending_of_enabling hen, Nat.add_zero] at hn
  | _ => exact h

/-- Where an activation does not go on at once, no EOI is left to write. -/
theorem activationStep_acknowledged {c : Cpu} {k : Kernel} {intr : Bool} {ch : Choice}
    {e : Effect Activation} (he : activationStep c k intr a ch = some e)
    (hctl : ∀ a', e.ctl ≠ .next a') : a.pending = 0 ∧ a.writes = 0 := by
  have hpending : a.pending = 0 := by
    by_contra hne
    obtain ⟨a', ha'⟩ := activationStep_pending he hne
    exact hctl a' ha'
  refine ⟨hpending, ?_⟩
  by_contra hne
  rw [Activation.pending_of_writes hne] at hpending
  cases hpending

/-- The interrupt is in service until its handler has written the EOI. -/
theorem Counted.inService_eq (h : Counted a n) : inService (a :: s) (n :: ns) = a.pending := by
  cases a with
  | guardian g pc =>
      obtain ⟨hn, -⟩ := h
      show (if true = true ∧ n = 0 then 1 else 0) = pc.pending
      by_cases hzero : n = 0
      · rw [if_pos ⟨rfl, hzero⟩]
        omega
      · rw [if_neg fun hcond => hzero hcond.2]
        omega
  | _ => rfl

theorem inService_of_unmasked (h : List.Forall₂ Counted s ns) (hs : stackMasked s = false) :
    inService s ns = 0 := by
  cases h with
  | nil => rfl
  | cons ha _ => exact ha.inService_eq.trans (Activation.pending_of_unmasked hs)

/-- A statement counts the EOI that it writes. -/
theorem Counted.target {c : Cpu} {k : Kernel} {intr : Bool} {ch : Choice} {e : Effect Activation}
    (h : Counted a n) (hclear : ∀ g, a = .guardian g .testFlag → k.flag c = false)
    (he : activationStep c k intr a ch = some e) (ht : e.ctl.target? = some a') :
    Counted a' (n + a.writes) ∧ a.pending = a.writes + a'.pending := by
  cases a with
  | guardian g pc =>
      obtain ⟨hn, hdef⟩ := h
      obtain ⟨answer, -, -, rfl⟩ := activationStep_guardian he
      obtain ⟨pc', hpc', rfl⟩ := Control.target?_liftRet ht
      obtain ⟨hdef', hpending⟩ := guardianStep_pending hdef (fun hpc => hclear g (by rw [hpc])) hpc'
      refine ⟨⟨?_, hdef'⟩, hpending⟩
      show n + pc.writes + pc'.pending = 1
      omega
  | _ =>
      -- the code of a thread goes on as such
      have hthread := (activationStep_isHandler rfl he).2 a' ht
      obtain rfl : n = 0 := h
      cases a' with
      | guardian g pc => cases hthread
      | _ => exact ⟨rfl, rfl⟩

end Counted

/-- What holds of two families holds of them with one more value each. -/
theorem forall_update₂ {ι α β : Type} [DecidableEq ι] {R : α → β → Prop} {f : ι → α} {g : ι → β}
    (h : ∀ i, R (f i) (g i)) {x : α} {y : β} (hxy : R x y) (j i : ι) :
    R (Function.update f j x i) (Function.update g j y i) := by
  by_cases hi : i = j
  · subst hi
    rwa [Function.update_self, Function.update_self]
  · rw [Function.update_of_ne hi, Function.update_of_ne hi]
    exact h i

namespace Multiprocessor

/-- The condition on a step: a handler that tests the level flag of its CPU finds it clear. -/
def flagClear (m : Multiprocessor) (i : Cpu × Choice) : Bool :=
  match (m.cpu i.1).stack, i.2 with
  | .guardian _ .testFlag :: _, .stmt _ => !m.kernel.flag i.1
  | _, _ => true

/-- The steps at which no handler finds the level flag set. -/
def FlagClear (m : Multiprocessor) (i : Cpu × Choice) : Prop := m.flagClear i = true

/-- The invariant of runs of such steps. -/
structure EoiInv (m : Multiprocessor) (h : AckCounts) : Prop where
  guard : m.GuardInv
  stack : ∀ c, List.Forall₂ Counted (m.cpu c).stack (h.cpu c)
  saved : ∀ t, List.Forall₂ Counted (m.regs t) (h.regs t)
  total : ∀ c, m.kernel.taken c = m.kernel.eoi c + inService (m.cpu c).stack (h.cpu c)

theorem eoiInv_boot (on : Cpu → Bool) : (boot on).EoiInv AckCounts.boot where
  guard := guardInv_boot on
  stack _ := .cons rfl .nil
  saved _ := .cons rfl .nil
  total _ := rfl

/-- One CPU goes on with a new stack and new counts. -/
theorem EoiInv.setCpu {m : Multiprocessor} {h : AckCounts} (hinv : m.EoiInv h) {c : Cpu}
    {s : CpuState} {k : Kernel} {regs : ThreadPtr → List Activation} {ns : List Nat}
    {saved : ThreadPtr → List Nat}
    (hguard : (Multiprocessor.setCpu ⟨m.cpu, k, regs⟩ c s).GuardInv)
    (hstack : List.Forall₂ Counted s.stack ns)
    (hsaved : ∀ t, List.Forall₂ Counted (regs t) (saved t))
    (hframe : ∀ d, d ≠ c → k.taken d = m.kernel.taken d ∧ k.eoi d = m.kernel.eoi d)
    (htotal : k.taken c = k.eoi c + inService s.stack ns) :
    (Multiprocessor.setCpu ⟨m.cpu, k, regs⟩ c s).EoiInv
      ⟨Function.update h.cpu c ns, saved⟩ := by
  have hcpu : ∀ d, List.Forall₂ Counted (Function.update m.cpu c s d).stack
      (Function.update h.cpu c ns d) :=
    forall_update₂ (R := fun (s : CpuState) ns => List.Forall₂ Counted s.stack ns) hinv.stack
      hstack c
  refine ⟨hguard, hcpu, hsaved, fun d => ?_⟩
  show k.taken d = k.eoi d +
    inService (Function.update m.cpu c s d).stack (Function.update h.cpu c ns d)
  by_cases hd : d = c
  · subst hd
    rwa [Function.update_self, Function.update_self]
  · rw [Function.update_of_ne hd, Function.update_of_ne hd, (hframe d hd).1, (hframe d hd).2]
    exact hinv.total d

/-- Where interrupts are enabled, every interrupt is acknowledged. -/
theorem EoiInv.total_of_unmasked {m : Multiprocessor} {h : AckCounts} (hinv : m.EoiInv h) {c : Cpu}
    (hs : stackMasked (m.cpu c).stack = false) : m.kernel.taken c = m.kernel.eoi c := by
  have htotal := hinv.total c
  rwa [inService_of_unmasked (hinv.stack c) hs] at htotal

theorem EoiInv.accept {m : Multiprocessor} {h : AckCounts} (hinv : m.EoiInv h) {c : Cpu}
    (hst : (m.cpu c).status = .running) (hi : (m.cpu c).intr = true) (g : Gate) :
    (m.accept c g).EoiInv (AckCounts.record m (c, .accept g) h) := by
  have htaken := hinv.total_of_unmasked (hinv.guard.unmasked hst hi)
  refine hinv.setCpu (hinv.guard.accept hst hi g) (.cons ⟨rfl, rfl⟩ (hinv.stack c)) hinv.saved ?_ ?_
  · intro d hd
    exact ⟨Function.update_of_ne hd _ _, rfl⟩
  · show Function.update m.kernel.taken c (m.kernel.taken c + 1) c = m.kernel.eoi c + 1
    rw [Function.update_self, htaken]

/-- A statement moves the counts with the stacks. -/
theorem record_stmt {m : Multiprocessor} {h : AckCounts} {c : Cpu} {a : Activation}
    {below : List Activation} {ch : Choice} {e : Effect Activation}
    (hs : (m.cpu c).stack = a :: below)
    (he : activationStep c m.kernel (m.cpu c).intr a ch = some e) :
    AckCounts.record m (c, ch) h = h.apply c a.writes e.ctl := by
  have hwrites : e.kernel.eoi c - m.kernel.eoi c = a.writes := by
    rw [(activationStep_writes he).eoi, Function.update_self, Nat.add_sub_cancel_left]
  cases ch with
  | accept g =>
      rcases activationStep_cases he with ⟨g, pc, answer, -, hch, -⟩ | ha
      · cases hch
      · rcases activationStep_thread ha he with ⟨op, -, hch, -⟩ | ⟨-, hch, -⟩ | ⟨answer, hch, -⟩ <;>
          cases hch
  | _ => simp only [AckCounts.record, hs, he, hwrites]

theorem EoiInv.apply {m : Multiprocessor} {h : AckCounts} (hinv : m.EoiInv h) {c : Cpu}
    {a : Activation} {below : List Activation} {ch : Choice} {e : Effect Activation}
    (hst : (m.cpu c).status = .running) (hs : (m.cpu c).stack = a :: below)
    (hclear : ∀ g, a = .guardian g .testFlag → m.kernel.flag c = false)
    (he : activationStep c m.kernel (m.cpu c).intr a ch = some e) :
    (m.apply c a below e).EoiInv (h.apply c a.writes e.ctl) := by
  have hguard := hinv.guard.apply hst hs he
  have hok : StackOk (a :: below) := hs ▸ hinv.guard.stack c
  obtain ⟨n, ns, hn, hns, hcpu⟩ := List.forall₂_cons_left_iff.1 (hs ▸ hinv.stack c)
  obtain ⟨htaken, heoi⟩ := activationStep_writes he
  have htotal : m.kernel.taken c = m.kernel.eoi c + a.pending := by
    rw [hinv.total c, hs, hcpu, hn.inService_eq]
  have hframe : ∀ d, d ≠ c → e.kernel.taken d = m.kernel.taken d ∧
      e.kernel.eoi d = m.kernel.eoi d := by
    intro d hd
    rw [htaken, heoi, Function.update_of_ne hd]
    exact ⟨rfl, rfl⟩
  have heoi' : e.kernel.eoi c = m.kernel.eoi c + a.writes := by
    rw [heoi, Function.update_self]
  have hadd : AckCounts.add a.writes (h.cpu c) = (n + a.writes) :: ns := by
    rw [hcpu]
    rfl
  -- where the activation does not go on at once, no interrupt is in service before or after
  have hdone : (∀ a', e.ctl ≠ .next a') → ∀ {s ns}, inService s ns = 0 →
      e.kernel.taken c = e.kernel.eoi c + inService s ns := by
    intro hctl s ns hs
    obtain ⟨hpending, hwrites⟩ := activationStep_acknowledged he hctl
    rw [htaken, heoi', hs]
    omega
  have hstay : (∀ a', e.ctl ≠ .next a') →
      List.Forall₂ Counted (a :: below) (AckCounts.add a.writes (h.cpu c)) ∧
        inService (a :: below) (AckCounts.add a.writes (h.cpu c)) = 0 := by
    intro hctl
    obtain ⟨hpending, hwrites⟩ := activationStep_acknowledged he hctl
    rw [hadd, hwrites]
    exact ⟨.cons hn hns, hn.inService_eq.trans hpending⟩
  obtain ⟨k', intr', ctl⟩ := e
  cases ctl with
  | next a' =>
      obtain ⟨hn', hpending⟩ := hn.target hclear he rfl
      show EoiInv _ ⟨Function.update h.cpu c (AckCounts.add a.writes (h.cpu c)), h.regs⟩
      rw [hadd]
      refine hinv.setCpu hguard (.cons hn' hns) hinv.saved hframe ?_
      rw [hn'.inService_eq, htaken, heoi']
      omega
  | ret =>
      have hunmasked := (activationStep_ret hok he rfl).2
      show EoiInv _ ⟨Function.update h.cpu c (h.cpu c).tail, h.regs⟩
      rw [hcpu]
      exact hinv.setCpu hguard hns hinv.saved hframe
        (hdone (by simp) (inService_of_unmasked hns hunmasked))
  | die =>
      obtain ⟨hcounted, hzero⟩ := hstay (by simp)
      exact hinv.setCpu hguard hcounted hinv.saved hframe (hdone (by simp) hzero)
  | wild =>
      obtain ⟨hcounted, hzero⟩ := hstay (by simp)
      exact hinv.setCpu hguard hcounted hinv.saved hframe (hdone (by simp) hzero)
  | switch old next a' =>
      have hsaved : ∀ t, List.Forall₂ Counted (Function.update m.regs old (a' :: below) t)
          (Function.update h.regs old (AckCounts.add a.writes (h.cpu c)) t) := by
        apply forall_update₂ hinv.saved
        rw [hadd]
        exact .cons (hn.target hclear he rfl).1 hns
      exact hinv.setCpu hguard (hsaved next) hsaved hframe
        (hdone (by simp) (inService_of_unmasked (hsaved next) (hguard.saved next).unmasked))
  | start next =>
      exact hinv.setCpu hguard (hinv.saved next) hinv.saved hframe
        (hdone (by simp) (inService_of_unmasked (hinv.saved next) (hinv.guard.saved next).unmasked))

theorem EoiInv.step {p q : Multiprocessor × AckCounts} {i : Cpu × Choice} (h : p.1.EoiInv p.2)
    (hok : p.1.FlagClear i)
    (hstep : recording Multiprocessor.step AckCounts.record p i = some q) : q.1.EoiInv q.2 := by
  obtain ⟨m, hist⟩ := p
  obtain ⟨m', hist'⟩ := q
  obtain ⟨c, ch⟩ := i
  obtain ⟨hst, rfl⟩ := recording_eq_some.1 hstep
  dsimp only at h hok hst ⊢
  obtain ⟨hrunning, hcases⟩ := step_cases hst
  rcases hcases with ⟨g, rfl, hi, rfl⟩ | ⟨a, below, e, hs, he, rfl⟩
  · exact h.accept hrunning hi g
  · show EoiInv _ (AckCounts.record m (c, ch) hist)
    rw [record_stmt hs he]
    refine h.apply hrunning hs ?_ he
    rintro g rfl
    obtain ⟨answer, rfl, -, -⟩ := activationStep_guardian he
    have hflag : m.flagClear (c, .stmt answer) = true := hok
    simpa [flagClear, hs] using hflag

/-- An EOI is written only while an interrupt is in service. -/
theorem EoiInv.served {m m' : Multiprocessor} {h : AckCounts} {i : Cpu × Choice} (hinv : m.EoiInv h)
    (hstep : Multiprocessor.step m i = some m') {c : Cpu}
    (hc : m'.kernel.eoi c ≠ m.kernel.eoi c) : m.kernel.eoi c < m.kernel.taken c := by
  obtain ⟨d, ch⟩ := i
  obtain ⟨-, hcases⟩ := step_cases hstep
  rcases hcases with ⟨g, rfl, -, rfl⟩ | ⟨a, below, e, hs, he, rfl⟩
  · exact absurd rfl hc
  · have hkernel : (m.apply d a below e).kernel = e.kernel := by
      obtain ⟨k', intr', ctl⟩ := e
      cases ctl <;> rfl
    rw [hkernel, (activationStep_writes he).eoi] at hc
    by_cases hcd : c = d
    · subst hcd
      rw [Function.update_self] at hc
      have hone : a.pending = 1 := Activation.pending_of_writes fun hzero => hc (by rw [hzero]; rfl)
      obtain ⟨n, ns, hn, -, hcpu⟩ := List.forall₂_cons_left_iff.1 (hs ▸ hinv.stack c)
      have htotal := hinv.total c
      rw [hs, hcpu, hn.inService_eq, hone] at htotal
      omega
    · exact absurd (Function.update_of_ne hcd _ _) hc

theorem EoiInv.oneEoi {m : Multiprocessor} {h : AckCounts} (hinv : m.EoiInv h) : m.OneEoi h where
  stack c := (hinv.stack c).imp fun _ _ hn => hn.acknowledged
  saved t := (hinv.saved t).imp fun _ _ hn => hn.acknowledged
  total := hinv.total
  served _ _ hstep _ hc := hinv.served hstep hc

/-- In runs in which no handler finds the level flag set, every handler writes one EOI, before it
enables interrupts, and no EOI is written without an interrupt in service. -/
theorem one_eoi {on : Cpu → Bool} {m : Multiprocessor} {h : AckCounts}
    (hruns : Runs (recording step AckCounts.record) (fun p i => p.1.FlagClear i)
      (boot on, AckCounts.boot) (m, h)) : m.OneEoi h := by
  have hinv : (m, h).1.EoiInv (m, h).2 := by
    apply Runs.invariant (I := fun p => p.1.EoiInv p.2) hruns
    · exact eoiInv_boot on
    · intro p q i hp hok hstep
      exact hp.step hok hstep
  exact hinv.oneEoi

/-- The EOIs of such a run, without its history: as many as interrupts were taken wherever
interrupts are enabled. -/
theorem eoi_eq_taken {on : Cpu → Bool} {m : Multiprocessor}
    (hruns : Runs step FlagClear (boot on) m) {c : Cpu} (hst : (m.cpu c).status = .running)
    (hi : (m.cpu c).intr = true) :
    m.kernel.eoi c = m.kernel.taken c := by
  obtain ⟨h, hrec⟩ := hruns.recorded AckCounts.record AckCounts.boot
  have hinv : (m, h).1.EoiInv (m, h).2 := by
    apply Runs.invariant (I := fun p => p.1.EoiInv p.2) hrec
    · exact eoiInv_boot on
    · intro p q i hp hok hstep
      exact hp.step hok hstep
  exact (hinv.total_of_unmasked (hinv.guard.unmasked hst hi)).symm

/-- A timer interrupt, and before it sets the level flag a keyboard interrupt. -/
theorem one_eoi_nested : ∃ m h, Runs (recording step AckCounts.record)
      (fun p i => p.1.FlagClear i) (boot fun _ => true, AckCounts.boot) (m, h) ∧
    m.kernel.taken 0 = 2 ∧ h.cpu 0 = [1, 1, 0] ∧ m.OneEoi h := by
  have hrun : ∃ p : Multiprocessor × AckCounts, exec (fun p i => if p.1.flagClear i then
        recording step AckCounts.record p i else none) (boot fun _ => true, AckCounts.boot)
      (startTwo 0 ++ (0, .accept .watch) :: List.replicate 4 (0, .stmt true) ++
        (0, .accept .keyboard) :: List.replicate 4 (0, .stmt true)) = some p ∧
      p.1.kernel.taken 0 = 2 ∧ p.2.cpu 0 = [1, 1, 0] := ⟨_, rfl, rfl, rfl⟩
  obtain ⟨p, hp, htaken, hcounts⟩ := hrun
  have hruns : Runs (recording step AckCounts.record) (fun p i => p.1.FlagClear i)
      (boot fun _ => true, AckCounts.boot) (p.1, p.2) :=
    runs_of_exec_if (fun _ _ htest => htest) hp
  exact ⟨p.1, p.2, hruns, htaken, hcounts, one_eoi hruns⟩

/-- A keyboard interrupt in a guarded section: its handler writes two EOIs. -/
theorem eoi_twice : ¬ ∀ (on : Cpu → Bool) (m : Multiprocessor) (h : AckCounts),
    Runs (recording step AckCounts.record) (fun _ _ => True) (boot on, AckCounts.boot) (m, h) →
      m.OneEoi h := by
  intro hclaim
  have hrun : ∃ p : Multiprocessor × AckCounts, exec (recording step AckCounts.record)
      (boot fun _ => true, AckCounts.boot)
      ((0, .secure .work) :: List.replicate 5 (0, .stmt true) ++
        (0, .accept .keyboard) :: List.replicate 6 (0, .stmt true)) = some p ∧
      p.1.kernel.taken 0 = 1 ∧ p.1.kernel.eoi 0 = 2 := ⟨_, rfl, rfl, rfl⟩
  obtain ⟨p, hp, htaken, heoi⟩ := hrun
  have htotal := (hclaim _ p.1 p.2 (reaches_of_exec hp)).total 0
  omega

end Multiprocessor

end MPStuBS.Guard
