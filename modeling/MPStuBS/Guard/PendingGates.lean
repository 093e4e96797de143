import MPStuBS.Guard.GateQueues

/-!
# Pending gates

The invariant of the queues over all runs. A marked gate is pending: it is in
exactly one of the queues, or in transit on exactly one CPU. A CPU without the
level flag has an empty queue, so `leave` strands no epilogue
(`no_stranded_epilogue`), and no gate is ever listed twice
(`gate_queued_once`).

The mark belongs to the gate and not to the CPU. A request on one CPU is
therefore also dropped when the gate is pending on another CPU
(`relay_keeps_request`, `request_merged_across_cpus`).
-/

set_option autoImplicit false

namespace MPStuBS.Guard

open MPStuBS.Object MPStuBS.Machine MPStuBS.Thread MPStuBS.Lib.Run

/-- The queues represent `Q`, the marks say which gates are pending, and a CPU without the level
flag has none. -/
structure Kernel.GatesOk (k : Kernel) (tr : Cpu → Option Transit) (Q : Lists Cpu Gate) :
    Prop where
  represents : k.queues.Represents Q
  marked : ∀ d g, g ∈ Q d → k.queueFlag g = true
  transit : ∀ d t, tr d = some t → k.queueFlag t.gate = true ∧ (∀ d', t.gate ∉ Q d') ∧
    ∀ d' t', tr d' = some t' → t'.gate = t.gate → d' = d
  pending : ∀ g, k.queueFlag g = true → (∃ d, g ∈ Q d) ∨ ∃ d t, tr d = some t ∧ t.gate = g
  idle : ∀ d, k.flag d = false → Q d = []

section Moves

variable {c : Cpu} {k k' : Kernel} {t t' : Option Transit} {tr : Cpu → Option Transit}
  {Q : Lists Cpu Gate}

/-- A statement touches no queue object but that of its CPU. -/
theorem GateMove.queue_of_ne (h : GateMove c k k' t t') {d : Cpu} (hd : d ≠ c) :
    k'.queues.queue d = k.queues.queue d := by
  cases h with
  | stay hsame => rw [hsame.queues]
  | setQueued g hg => rfl
  | enqueue g hflag => exact Function.update_of_ne hd _ _
  | dequeue g hg => exact Function.update_of_ne hd _ _
  | setDequeued g => rfl

/-- What a move leaves in the queues: other CPUs keep theirs, the CPU itself loses a gate only by
taking it out, and a gate on its way arrives. -/
structure QueueStep (c : Cpu) (t t' : Option Transit) (Q Q' : Lists Cpu Gate) : Prop where
  other : ∀ d, d ≠ c → Q' d = Q d
  kept : (∀ g, t' ≠ some (.leaving g)) → ∀ g ∈ Q c, g ∈ Q' c
  entered : ∀ g, t = some (.entering g) → g ∈ Q' c

/-- A CPU with nothing in transit gets a transit: that of the other CPUs remains. -/
theorem transit_update {d : Cpu} {x : Transit} (ht : tr c = none) (hd : tr d = some x)
    (t' : Option Transit) : Function.update tr c t' d = some x := by
  have hdc : d ≠ c := by
    rintro rfl
    rw [ht] at hd
    cases hd
  rw [Function.update_of_ne hdc]
  exact hd

/-- When a CPU has nothing in transit any more, what is left is that of the other CPUs. -/
theorem transit_of_update_none {d : Cpu} {x : Transit}
    (hd : Function.update tr c none d = some x) : d ≠ c ∧ tr d = some x := by
  have hdc : d ≠ c := by
    rintro rfl
    simp at hd
  rw [Function.update_of_ne hdc] at hd
  exact ⟨hdc, hd⟩

theorem Kernel.GatesOk.stay (hk : k.GatesOk tr Q) (hsame : GateSame k k') : k'.GatesOk tr Q where
  represents := hsame.queues ▸ hk.represents
  marked := hsame.mark ▸ hk.marked
  transit := hsame.mark ▸ hk.transit
  pending := hsame.mark ▸ hk.pending
  idle d hd := by
    rcases hsame.flag d hd with hd | hd
    · exact hk.idle d hd
    · have hhead := (hk.represents.chain d).head_eq
      rw [Kernel.QueueEmpty] at hd
      rw [hd] at hhead
      exact List.head?_eq_none_iff.1 hhead.symm

theorem Kernel.GatesOk.setQueued (hk : k.GatesOk tr Q) (ht : tr c = none) {g : Gate}
    (hg : k.queueFlag g = false) :
    (k.setMark g true).GatesOk (Function.update tr c (some (.entering g))) Q := by
  -- the gate was not marked, so it is in no queue and in transit nowhere
  have hnew : ∀ d, g ∉ Q d := fun d hd => by
    have := hk.marked d g hd
    simp [hg] at this
  have hold : ∀ x, k.queueFlag x = true → (k.setMark g true).queueFlag x = true := by
    intro x hx
    by_cases hxg : x = g
    · subst hxg
      exact k.setMark_self x true
    · exact (k.setMark_of_ne hxg true).trans hx
  have hfree : ∀ d t, tr d = some t → t.gate ≠ g := fun d t hd e => by
    have := (hk.transit d t hd).1
    rw [e, hg] at this
    cases this
  refine ⟨hk.represents, fun d x hx => hold x (hk.marked d x hx), ?_, ?_, hk.idle⟩
  · intro d t hd
    by_cases hdc : d = c
    -- the new transit
    · subst hdc
      rw [Function.update_self] at hd
      obtain rfl := Option.some.inj hd
      refine ⟨k.setMark_self g true, hnew, fun d' t' hd' hgate => ?_⟩
      by_contra hne
      rw [Function.update_of_ne hne] at hd'
      exact hfree d' t' hd' hgate
    · rw [Function.update_of_ne hdc] at hd
      obtain ⟨hmark, hno, huniq⟩ := hk.transit d t hd
      refine ⟨hold _ hmark, hno, fun d' t' hd' hgate => ?_⟩
      by_cases hdc' : d' = c
      · subst hdc'
        rw [Function.update_self] at hd'
        obtain rfl := Option.some.inj hd'
        exact absurd hgate.symm (hfree d t hd)
      · rw [Function.update_of_ne hdc'] at hd'
        exact huniq d' t' hd' hgate
  · intro x hx
    by_cases hxg : x = g
    · subst hxg
      exact Or.inr ⟨c, .entering x, Function.update_self _ _ _, rfl⟩
    · have hx' : k.queueFlag x = true := (k.setMark_of_ne hxg true).symm.trans hx
      rcases hk.pending x hx' with hq | ⟨d, t, hd, hgate⟩
      · exact Or.inl hq
      · exact Or.inr ⟨d, t, transit_update ht hd _, hgate⟩

theorem Kernel.GatesOk.enqueue (hk : k.GatesOk tr Q) {g : Gate}
    (ht : tr c = some (.entering g)) (hflag : k.flag c = true) :
    { k with queues := k.queues.put c ((k.queues.mem c).enqueue g) : Kernel }.GatesOk
      (Function.update tr c none) (Function.update Q c (Q c ++ [g])) := by
  obtain ⟨hmark, hno, huniq⟩ := hk.transit c _ ht
  -- the queues hold what they held, and the gate that arrives
  have hmem : ∀ d x, x ∈ Function.update Q c (Q c ++ [g]) d → x ∈ Q d ∨ x = g := by
    intro d x hx
    by_cases hdc : d = c
    · subst hdc
      simpa using hx
    · rw [Function.update_of_ne hdc] at hx
      exact Or.inl hx
  refine ⟨hk.represents.enqueue c hno, ?_, ?_, ?_, ?_⟩
  · intro d x hx
    rcases hmem d x hx with hx | rfl
    · exact hk.marked d x hx
    · exact hmark
  · intro d t hd
    obtain ⟨hdc, hd⟩ := transit_of_update_none hd
    obtain ⟨hmark', hno', huniq'⟩ := hk.transit d t hd
    refine ⟨hmark', fun d' hx => ?_, fun d' t' hd' hgate => ?_⟩
    · rcases hmem d' _ hx with hx | hx
      · exact hno' d' hx
      · exact hdc (huniq d t hd hx)
    · exact huniq' d' t' (transit_of_update_none hd').2 hgate
  · intro x hx
    rcases hk.pending x hx with ⟨d, hd⟩ | ⟨d, t, hd, hgate⟩
    · refine Or.inl ⟨d, ?_⟩
      by_cases hdc : d = c
      · subst hdc
        simp [hd]
      · rwa [Function.update_of_ne hdc]
    · by_cases hdc : d = c
      · subst hdc
        rw [ht] at hd
        obtain rfl := Option.some.inj hd
        refine Or.inl ⟨d, ?_⟩
        rw [← hgate]
        simp [Transit.gate]
      · exact Or.inr ⟨d, t, (Function.update_of_ne hdc _ tr).trans hd, hgate⟩
  · intro d hd
    have hdc : d ≠ c := fun e => by
      subst e
      rw [hflag] at hd
      cases hd
    rw [Function.update_of_ne hdc]
    exact hk.idle d hd

theorem Kernel.GatesOk.dequeue (hk : k.GatesOk tr Q) (ht : tr c = none) {g : Gate}
    (hg : (k.queues.mem c).dequeue.1 = some g) :
    { k with queues := k.queues.put c (k.queues.mem c).dequeue.2 : Kernel }.GatesOk
      (Function.update tr c (some (.leaving g))) (Function.update Q c (Q c).tail) := by
  obtain ⟨hout, hrep⟩ := hk.represents.dequeue c
  have hhead : (Q c).head? = some g := hout.symm.trans hg
  obtain ⟨l, hl⟩ := List.head?_eq_some_iff.1 hhead
  have hgc : g ∈ Q c := by simp [hl]
  -- the queues hold nothing new, and the gate no more
  have hmem : ∀ d x, x ∈ Function.update Q c (Q c).tail d → x ∈ Q d := by
    intro d x hx
    by_cases hdc : d = c
    · subst hdc
      rw [Function.update_self] at hx
      exact List.mem_of_mem_tail hx
    · rwa [Function.update_of_ne hdc] at hx
  have hout' : ∀ d, g ∉ Function.update Q c (Q c).tail d := by
    intro d hd
    by_cases hdc : d = c
    · subst hdc
      rw [Function.update_self, hl, List.tail_cons] at hd
      have hnd := hk.represents.nodup d
      rw [hl] at hnd
      exact (List.nodup_cons.1 hnd).1 hd
    · exact hk.represents.disjoint c d (Ne.symm hdc) g hgc (hmem d g hd)
  refine ⟨hrep, fun d x hx => hk.marked d x (hmem d x hx), ?_, ?_, ?_⟩
  · intro d t hd
    by_cases hdc : d = c
    · subst hdc
      rw [Function.update_self] at hd
      obtain rfl := Option.some.inj hd
      refine ⟨hk.marked d g hgc, hout', fun d' t' hd' hgate => ?_⟩
      by_contra hne
      rw [Function.update_of_ne hne] at hd'
      exact (hk.transit d' t' hd').2.1 d (by rw [hgate]; exact hgc)
    · rw [Function.update_of_ne hdc] at hd
      obtain ⟨hmark, hno, huniq⟩ := hk.transit d t hd
      refine ⟨hmark, fun d' hx => hno d' (hmem d' _ hx), fun d' t' hd' hgate => ?_⟩
      by_cases hdc' : d' = c
      · subst hdc'
        rw [Function.update_self] at hd'
        obtain rfl := Option.some.inj hd'
        have hgate : g = t.gate := hgate
        exact absurd (hgate ▸ hgc) (hno d')
      · rw [Function.update_of_ne hdc'] at hd'
        exact huniq d' t' hd' hgate
  -- the first gate of the queue is now in transit, the others stay where they are
  · intro x hx
    rcases hk.pending x hx with ⟨d, hd⟩ | ⟨d, t, hd, hgate⟩
    · by_cases hdc : d = c
      · subst hdc
        rw [hl] at hd
        rcases List.mem_cons.1 hd with rfl | hd
        · exact Or.inr ⟨d, .leaving x, Function.update_self _ _ _, rfl⟩
        · exact Or.inl ⟨d, by rw [Function.update_self, hl]; exact hd⟩
      · exact Or.inl ⟨d, by rwa [Function.update_of_ne hdc]⟩
    · exact Or.inr ⟨d, t, transit_update ht hd _, hgate⟩
  · intro d hd
    by_cases hdc : d = c
    · subst hdc
      rw [Function.update_self, hk.idle d hd]
      rfl
    · rw [Function.update_of_ne hdc]
      exact hk.idle d hd

theorem Kernel.GatesOk.setDequeued (hk : k.GatesOk tr Q) {g : Gate}
    (ht : tr c = some (.leaving g)) :
    (k.setMark g false).GatesOk (Function.update tr c none) Q := by
  -- only the mark of this gate changes, and the gate is in no queue
  obtain ⟨-, hno, huniq⟩ := hk.transit c _ ht
  have hold : ∀ x, x ≠ g → (k.setMark g false).queueFlag x = k.queueFlag x := fun x hx =>
    k.setMark_of_ne hx false
  refine ⟨hk.represents, ?_, ?_, ?_, hk.idle⟩
  · intro d x hx
    have hxg : x ≠ g := fun e => hno d (e ▸ hx)
    exact (hold x hxg).trans (hk.marked d x hx)
  · intro d t hd
    obtain ⟨hdc, hd⟩ := transit_of_update_none hd
    obtain ⟨hmark, hno', huniq'⟩ := hk.transit d t hd
    refine ⟨(hold _ fun e => hdc (huniq d t hd e)).trans hmark, hno', fun d' t' hd' hgate => ?_⟩
    exact huniq' d' t' (transit_of_update_none hd').2 hgate
  · intro x hx
    have hxg : x ≠ g := fun e => by
      subst e
      rw [k.setMark_self x false] at hx
      cases hx
    rcases hk.pending x ((hold x hxg).symm.trans hx) with hq | ⟨d, t, hd, hgate⟩
    · exact Or.inl hq
    · have hdc : d ≠ c := fun e => by
        subst e
        rw [ht] at hd
        obtain rfl := Option.some.inj hd
        exact hxg hgate.symm
      exact Or.inr ⟨d, t, (Function.update_of_ne hdc _ tr).trans hd, hgate⟩

/-- Every move keeps the invariant of the queues. -/
theorem GateMove.gatesOk (h : GateMove c k k' t t') (hk : k.GatesOk tr Q) (ht : tr c = t) :
    ∃ Q', k'.GatesOk (Function.update tr c t') Q' ∧ QueueStep c t t' Q Q' := by
  have hsame : QueueStep c none none Q Q :=
    ⟨fun _ _ => rfl, fun _ _ hg => hg, fun _ hg => by cases hg⟩
  cases h with
  | stay hs =>
      refine ⟨Q, ?_, hsame⟩
      rw [← ht, Function.update_eq_self]
      exact hk.stay hs
  | setQueued g hg =>
      exact ⟨Q, hk.setQueued ht hg, fun _ _ => rfl, fun _ _ hx => hx, fun _ hx => by cases hx⟩
  | enqueue g hflag =>
      refine ⟨_, hk.enqueue ht hflag, fun d hd => Function.update_of_ne hd _ Q, ?_, ?_⟩
      · intro _ x hx
        rw [Function.update_self]
        exact List.mem_append_left [g] hx
      · intro x hx
        obtain rfl := Transit.entering.inj (Option.some.inj hx)
        simp
  | dequeue g hg =>
      refine ⟨_, hk.dequeue ht hg, fun d hd => Function.update_of_ne hd _ Q, ?_, ?_⟩
      · intro hx
        exact absurd rfl (hx g)
      · intro x hx
        cases hx
  | setDequeued g =>
      exact ⟨Q, hk.setDequeued ht, fun _ _ => rfl, fun _ _ hx => hx, fun _ hx => by cases hx⟩

end Moves

/-! ## The invariant of the multiprocessor -/

/-- Only the insertion leads an activation to the points after it. -/
theorem guardianStep_viaQueued {c : Cpu} {k : Kernel} {intr answer : Bool} {g : Gate}
    {pc pc' : GuardianPc} (h : (guardianStep c k intr g answer pc).ctl.target? = some pc')
    (hpc : pc'.viaQueued = true) : pc.viaQueued = true ∨ pc.transit? g = some (.entering g) := by
  cases pc with
  | prologue =>
      cases answer <;>
        · obtain rfl := Option.some.inj h
          simp [GuardianPc.viaQueued] at hpc
  | testFlag =>
      cases hf : k.flag c <;>
        · simp only [guardianStep, hf] at h
          obtain rfl := Option.some.inj h
          simp [GuardianPc.viaQueued] at hpc
  | setQueued currCpu =>
      cases hq : k.queueFlag g <;>
        · simp only [guardianStep, hq] at h
          obtain rfl := Option.some.inj h
          simp [GuardianPc.viaQueued] at hpc
  -- here the request gets into the queue
  | enqueue currCpu => exact Or.inr rfl
  | ackIRQLast via =>
      obtain rfl := Option.some.inj h
      exact Or.inl hpc
  | enableIntLast via =>
      obtain rfl := Option.some.inj h
      exact Or.inl hpc
  | enter pc =>
      simp only [guardianStep, Effect.lift] at h
      rcases Control.target?_lift h with ⟨pc', -, rfl⟩ | rfl <;> simp [GuardianPc.viaQueued] at hpc
  | epilogue pc =>
      simp only [guardianStep, Effect.lift] at h
      rcases Control.target?_lift h with ⟨pc', -, rfl⟩ | rfl <;> simp [GuardianPc.viaQueued] at hpc
  | leave pc =>
      simp only [guardianStep, Effect.lift] at h
      rcases Control.target?_lift h with ⟨pc', -, rfl⟩ | rfl <;> simp [GuardianPc.viaQueued] at hpc
  | iret via => simp [guardianStep, Control.target?] at h
  | _ =>
      obtain rfl := Option.some.inj h
      simp [GuardianPc.viaQueued] at hpc

theorem GuardianPc.deferred_of_viaQueued {pc : GuardianPc} (h : pc.viaQueued = true) :
    pc.deferred = true := by
  cases pc with
  | ackIRQLast via =>
      obtain rfl : via = .queued := by simpa [GuardianPc.viaQueued] using h
      rfl
  | enableIntLast via =>
      obtain rfl : via = .queued := by simpa [GuardianPc.viaQueued] using h
      rfl
  | iret via =>
      obtain rfl : via = .queued := by simpa [GuardianPc.viaQueued] using h
      rfl
  | _ => simp [GuardianPc.viaQueued] at h

/-- The gate in transit on a stack: interrupts are disabled then, so it is that of the innermost
activation. -/
def stackTransit : List Activation → Option Transit
  | [] => none
  | a :: _ => a.transit?

theorem stackTransit_of_unmasked {s : List Activation} (h : stackMasked s = false) :
    stackTransit s = none := by
  cases s with
  | nil => rfl
  | cons a below => exact (Activation.unmasked h).1

theorem head_unmasked {s : List Activation} {a : Activation} (h : stackMasked s = false)
    (ha : s.head? = some a) : a.masked = false := by
  cases s with
  | nil => simp at ha
  | cons b below =>
      obtain rfl := Option.some.inj ha
      exact h

namespace Multiprocessor

/-- The gate in transit on every CPU. -/
def transit (m : Multiprocessor) (c : Cpu) : Option Transit := stackTransit (m.cpu c).stack

/-- The invariant of the guard, extended by the queues. A gate that an activation of the stack put
into the queue of the CPU is still there. -/
structure GateInv (m : Multiprocessor) (Q : Lists Cpu Gate) : Prop where
  guard : m.GuardInv
  gates : m.kernel.GatesOk m.transit Q
  point : ∀ c a, (m.cpu c).status = .running → (m.cpu c).stack.head? = some a →
    a.PointOk m.kernel c
  queued : ∀ c g pc, Activation.guardian g pc ∈ (m.cpu c).stack → pc.viaQueued = true → g ∈ Q c

theorem gateInv_boot (on : Cpu → Bool) : (boot on).GateInv fun _ => [] where
  guard := guardInv_boot on
  gates :=
    { represents := Queues.represents_init
      marked := fun _ _ h => by cases h
      transit := fun _ _ h => by cases h
      pending := fun _ h => by cases h
      idle := fun _ _ => rfl }
  point c a _ ha := by
    obtain rfl := Option.some.inj ha
    trivial
  queued c g pc hmem := by
    have hmem : Activation.guardian g pc ∈ [Activation.user] := hmem
    simp at hmem

/-- The points of other CPUs rely on their own queues only. -/
theorem pointOk_frame {k k' : Kernel} {d : Cpu} (h : k'.queues.queue d = k.queues.queue d)
    {a : Activation} (ha : a.PointOk k d) : a.PointOk k' d := by
  have hleave : ∀ pc : LeavePc, pc.PointOk k d → pc.PointOk k' d := by
    intro pc hpc
    cases pc with
    | clearFlag =>
        show (k'.queues.queue d).head = none
        rw [h]
        exact hpc
    | _ => trivial
  cases a with
  | user => trivial
  | secure pc =>
      cases pc with
      | leave pc => exact hleave pc ha
      | _ => trivial
  | kickoff pc => exact hleave pc ha
  | guardian g pc =>
      cases pc with
      | leave pc => exact hleave pc ha
      | setQueued currCpu => exact ha
      | enqueue currCpu => exact ha
      | _ => trivial

/-- A step of CPU `c` that is a move of its gate and leaves the stacks of the other CPUs alone. -/
theorem GateInv.move {m m' : Multiprocessor} {Q : Lists Cpu Gate} {c : Cpu} {s : CpuState}
    (h : m.GateInv Q) (hguard : m'.GuardInv) (hcpu : m'.cpu = Function.update m.cpu c s)
    (hmove : GateMove c m.kernel m'.kernel (m.transit c) (stackTransit s.stack))
    (hpoint : ∀ a, s.status = .running → s.stack.head? = some a → a.PointOk m'.kernel c)
    (hqueued : ∀ g pc, Activation.guardian g pc ∈ s.stack → pc.viaQueued = true →
      (∃ pc', Activation.guardian g pc' ∈ (m.cpu c).stack ∧ pc'.viaQueued = true) ∨
        m.transit c = some (.entering g)) :
    ∃ Q', m'.GateInv Q' := by
  have hself : m'.cpu c = s := by rw [hcpu, Function.update_self]
  have hother : ∀ d, d ≠ c → m'.cpu d = m.cpu d := fun d hd => by
    rw [hcpu, Function.update_of_ne hd]
  obtain ⟨Q', hgates, hstep⟩ := hmove.gatesOk h.gates rfl
  refine ⟨Q', hguard, ?_, ?_, ?_⟩
  -- only this CPU changes its transit
  · have htr : m'.transit = Function.update m.transit c (stackTransit s.stack) := by
      funext d
      rw [transit, hcpu]
      exact Function.apply_update (fun _ s => stackTransit s.stack) m.cpu c s d
    rw [htr]
    exact hgates
  · intro d a hst ha
    by_cases hd : d = c
    · subst hd
      rw [hself] at hst ha
      exact hpoint a hst ha
    · rw [hother d hd] at hst ha
      exact pointOk_frame (hmove.queue_of_ne hd) (h.point d a hst ha)
  · intro d g pc hmem hvia
    by_cases hd : d = c
    · subst hd
      rw [hself] at hmem
      -- a gate is taken out only by `leave`, above which no activation is on the deferred path
      have hleave : ∀ x, stackTransit s.stack ≠ some (.leaving x) := by
        intro x hx
        cases hs : s.stack with
        | nil => simp [hs] at hmem
        | cons a below =>
            rw [hs] at hx hmem
            have hok : StackOk (a :: below) := by
              rw [← hs, ← hself]
              exact hguard.stack d
            have hnot := hok.not_deferred_of_phase (Activation.phase?_of_leaving hx) hmem
            rw [GuardianPc.deferred_of_viaQueued hvia] at hnot
            cases hnot
      rcases hqueued g pc hmem hvia with ⟨pc', hold, hvia'⟩ | hent
      · exact hstep.kept hleave g (h.queued d g pc' hold hvia')
      · exact hstep.entered g hent
    · rw [hother d hd] at hmem
      rw [hstep.other d hd]
      exact h.queued d g pc hmem hvia

theorem GateInv.accept {m : Multiprocessor} {Q : Lists Cpu Gate} (h : m.GateInv Q) {c : Cpu}
    (hst : (m.cpu c).status = .running) (hi : (m.cpu c).intr = true) (g : Gate) :
    ∃ Q', (m.accept c g).GateInv Q' := by
  have hm := h.guard.unmasked hst hi
  refine h.move (h.guard.accept hst hi g) rfl ?_ ?_ ?_
  · rw [transit, stackTransit_of_unmasked hm]
    exact .stay ⟨rfl, rfl, fun _ hd => Or.inl hd⟩
  · intro a _ ha
    obtain rfl := Option.some.inj ha
    trivial
  · intro x pc hmem hvia
    rcases List.mem_cons.1 hmem with heq | hmem
    · obtain ⟨-, rfl⟩ := Activation.guardian.inj heq
      cases hvia
    · exact Or.inl ⟨pc, hmem, hvia⟩

/-- The stack of a suspended thread holds no activation on the deferred path. -/
theorem not_viaQueued_of_suspended {s : List Activation} (h : Suspended s) {g : Gate}
    {pc : GuardianPc} (hmem : Activation.guardian g pc ∈ s) (hvia : pc.viaQueued = true) :
    False := by
  obtain ⟨a, below, rfl, ha, -, hok⟩ := h
  have hnot := hok.not_deferred_of_phase (by simp [ha]) hmem
  rw [GuardianPc.deferred_of_viaQueued hvia] at hnot
  cases hnot

theorem GateInv.apply {m : Multiprocessor} {Q : Lists Cpu Gate} (h : m.GateInv Q) {c : Cpu}
    {a : Activation} {below : List Activation} {ch : Choice} {e : Effect Activation}
    (hst : (m.cpu c).status = .running) (hs : (m.cpu c).stack = a :: below)
    (he : activationStep c m.kernel (m.cpu c).intr a ch = some e) :
    ∃ Q', (m.apply c a below e).GateInv Q' := by
  have hok : StackOk (a :: below) := hs ▸ h.guard.stack c
  have hpoint : a.PointOk m.kernel c := h.point c a hst (by simp [hs])
  have hflag : m.kernel.flag c = (stackPhase (a :: below)).flag := by
    rw [← hs]
    exact h.guard.tracks.flag c
  have htr : m.transit c = a.transit? := congrArg stackTransit hs
  have hmask : a.masked = true → (m.cpu c).intr = false := fun ha =>
    h.guard.masked c hst (by rw [hs]; exact ha)
  have hsound := activationStep_sound hok hmask he
  have hgates := activationStep_gates hok hpoint hflag he
  have hguard := h.guard.apply hst hs he
  have hbelow : ∀ g pc, Activation.guardian g pc ∈ below → pc.viaQueued = true →
      (∃ pc', Activation.guardian g pc' ∈ (m.cpu c).stack ∧ pc'.viaQueued = true) ∨
        m.transit c = some (.entering g) := by
    intro g pc hmem hvia
    exact Or.inl ⟨pc, hs ▸ List.mem_cons_of_mem a hmem, hvia⟩
  have hsusp : ∀ {s : List Activation}, Suspended s → ∀ g pc, Activation.guardian g pc ∈ s →
      pc.viaQueued = true →
        (∃ pc', Activation.guardian g pc' ∈ (m.cpu c).stack ∧ pc'.viaQueued = true) ∨
          m.transit c = some (.entering g) := by
    intro s hs' g pc hmem hvia
    exact (not_viaQueued_of_suspended hs' hmem hvia).elim
  obtain ⟨k', intr', ctl⟩ := e
  cases ctl with
  | next a' =>
      refine h.move hguard rfl (htr ▸ hgates.1) ?_ ?_
      · intro b _ hb
        obtain rfl := Option.some.inj hb
        exact hgates.2
      · intro g pc hmem hvia
        rcases List.mem_cons.1 hmem with rfl | hmem
        · -- the innermost activation itself: it was queued before, or it is being inserted
          cases a with
          | guardian i pc₀ =>
              obtain ⟨answer, -, -, heff⟩ := activationStep_guardian he
              have htarget : ((guardianStep c m.kernel (m.cpu c).intr i answer pc₀).ctl.lift
                  (Activation.guardian i) .ret).target? = some (.guardian g pc) :=
                (congrArg (fun e => e.ctl.target?) heff).symm
              obtain ⟨pc₁, hpc₁, heq⟩ := Control.target?_liftRet htarget
              obtain ⟨rfl, rfl⟩ := Activation.guardian.inj heq
              rcases guardianStep_viaQueued hpc₁ hvia with hold | hent
              · exact Or.inl ⟨pc₀, by simp [hs], hold⟩
              · exact Or.inr (htr.trans hent)
          | _ =>
              have hthread := (activationStep_isHandler rfl he).2 _ rfl
              simp [Activation.isHandler] at hthread
        · exact hbelow g pc hmem hvia
  -- the interrupted activation below goes on, with interrupts enabled
  | ret =>
      obtain ⟨-, hun⟩ := activationStep_ret hok he rfl
      obtain ⟨hmove, ht⟩ := hgates
      refine h.move hguard rfl ?_ ?_ hbelow
      · rw [htr, ht, stackTransit_of_unmasked hun]
        exact hmove
      · intro b _ hb
        exact (Activation.unmasked (head_unmasked hun hb)).2 _ _
  | die =>
      obtain ⟨hmove, ht⟩ := hgates
      refine h.move hguard rfl ?_ (fun _ hr => by cases hr) fun g pc hmem hvia =>
        Or.inl ⟨pc, hs ▸ hmem, hvia⟩
      rw [htr, stackTransit, ht]
      exact hmove
  | wild =>
      obtain ⟨hmove, ht⟩ := hgates
      refine h.move hguard rfl ?_ (fun _ hr => by cases hr) fun g pc hmem hvia =>
        Or.inl ⟨pc, hs ▸ hmem, hvia⟩
      rw [htr, stackTransit, ht]
      exact hmove
  | switch old next a' =>
      -- the CPU goes on with a suspended stack, which has no gate in transit
      have hsaved : Suspended (Function.update m.regs old (a' :: below) next) := hguard.saved next
      have hcont : a'.transit? = none := (Activation.unmasked hsound.2.2.2).1
      refine h.move hguard rfl ?_ ?_ (hsusp hsaved)
      · rw [htr, stackTransit_of_unmasked hsaved.unmasked, ← hcont]
        exact hgates.1
      · intro b _ hb
        exact (Activation.unmasked (head_unmasked hsaved.unmasked hb)).2 _ _
  | start next =>
      obtain ⟨hmove, ht⟩ := hgates
      have hsaved : Suspended (m.regs next) := hguard.saved next
      refine h.move hguard rfl ?_ ?_ (hsusp hsaved)
      · rw [htr, ht, stackTransit_of_unmasked hsaved.unmasked]
        exact hmove
      · intro b _ hb
        exact (Activation.unmasked (head_unmasked hsaved.unmasked hb)).2 _ _

theorem GateInv.step {m m' : Multiprocessor} {Q : Lists Cpu Gate} {i : Cpu × Choice}
    (h : m.GateInv Q) (hstep : Multiprocessor.step m i = some m') : ∃ Q', m'.GateInv Q' := by
  obtain ⟨c, ch⟩ := i
  obtain ⟨hst, hcases⟩ := step_cases hstep
  rcases hcases with ⟨g, rfl, hi, rfl⟩ | ⟨a, below, e, hs, he, rfl⟩
  · exact h.accept hst hi g
  · exact h.apply hst hs he

theorem Reachable.gateInv {on : Cpu → Bool} {m : Multiprocessor} (h : Reachable on m) :
    ∃ Q, m.GateInv Q := by
  apply Runs.invariant h
  · exact ⟨fun _ => [], gateInv_boot on⟩
  · rintro a b i ⟨Q, ha⟩ - hstep
    exact ha.step hstep

/-! ## Results -/

/-- Timer interrupts on two CPUs that are in the guard: the gate is queued on the first, and
the request on the second is merged with it. -/
def twoTimers (c d : Cpu) : List (Cpu × Choice) :=
  (c, .secure .work) :: List.replicate 3 (c, .stmt true) ++
    (c, .accept .watch) :: List.replicate 7 (c, .stmt true) ++
      (d, .secure .work) :: List.replicate 3 (d, .stmt true) ++
        (d, .accept .watch) :: List.replicate 6 (d, .stmt true)

/-- After both timer interrupts the queue of CPU 0 lists the gate, that of CPU 1 is empty. -/
theorem twoTimers_reaches : ∃ m, Reachable (fun _ => true) m ∧
    m.Executes 0 (.guardian .watch (.iret .queued)) ∧
      m.Executes 1 (.guardian .watch (.iret .merged)) ∧
        m.kernel.QueueEmpty 1 ∧ m.kernel.flag 1 = true ∧ m.kernel.flag 2 = false := by
  have hrun : ∃ m, exec step (boot fun _ => true) (twoTimers 0 1) = some m ∧
      m.Executes 0 (.guardian .watch (.iret .queued)) ∧
        m.Executes 1 (.guardian .watch (.iret .merged)) ∧
          m.kernel.QueueEmpty 1 ∧ m.kernel.flag 1 = true ∧ m.kernel.flag 2 = false :=
    ⟨_, rfl, ⟨rfl, rfl⟩, ⟨rfl, rfl⟩, rfl, rfl, rfl⟩
  obtain ⟨m, hm, hrest⟩ := hrun
  exact ⟨m, reaches_of_exec hm, hrest⟩

/-- No stranded epilogue: a CPU without the level flag has an empty queue. In particular the queue
is empty when `leave` returns to level 0, and `relay` inserts on its own CPU only, under the level
flag. -/
theorem no_stranded_epilogue {on : Cpu → Bool} {m : Multiprocessor} (h : Reachable on m) :
    ∃ Q, m.kernel.queues.Represents Q ∧ (∀ c, m.kernel.flag c = false → Q c = []) ∧
      (∀ c a, m.Executes c a → a.leavePc? = some .enableIntReturn → Q c = []) ∧
      ∀ c g d, m.Executes c (.guardian g (.enqueue d)) → d = c ∧ m.kernel.flag c = true := by
  obtain ⟨Q, hinv⟩ := h.gateInv
  refine ⟨Q, hinv.gates.represents, hinv.gates.idle, ?_, ?_⟩
  · intro c a hexec ha
    apply hinv.gates.idle
    rw [hinv.guard.tracks.flag, hexec.phase_eq (Activation.phase?_of_leavePc? ha)]
    rfl
  · intro c g d hexec
    refine ⟨hinv.point c _ hexec.1 hexec.2, ?_⟩
    obtain ⟨below, hs⟩ := List.head?_eq_some_iff.1 hexec.2
    -- the point has no phase of its own: the flag is that of the interrupted code
    have hstack := hinv.guard.stack c
    rw [hinv.guard.tracks.flag, phase, hs]
    rw [hs] at hstack
    cases hstack with
    | bottom ha => cases ha
    | handler hbelow hmasked hdirect hdeferred => exact hdeferred rfl

theorem no_stranded_epilogue_twoTimers : ∃ m, Reachable (fun _ => true) m ∧
    m.kernel.flag 1 = true ∧ m.kernel.flag 2 = false ∧
      ∃ Q, m.kernel.queues.Represents Q ∧ ∀ c, m.kernel.flag c = false → Q c = [] := by
  obtain ⟨m, hm, -, -, -, h1, h2⟩ := twoTimers_reaches
  obtain ⟨Q, hrep, hidle, -, -⟩ := no_stranded_epilogue hm
  exact ⟨m, hm, h1, h2, Q, hrep, hidle⟩

/-- A gate is in transit on a CPU: between `set_queued` and its insertion, or between its removal
and `set_dequeued`. -/
def InTransit (m : Multiprocessor) (c : Cpu) (g : Gate) : Prop :=
  ∃ t, m.transit c = some t ∧ t.gate = g

/-- A gate is queued at most once system-wide, and exactly the marked gates are queued or in
transit. -/
theorem gate_queued_once {on : Cpu → Bool} {m : Multiprocessor} (h : Reachable on m) :
    ∃ Q, m.kernel.queues.Represents Q ∧ (∀ c, (Q c).Nodup) ∧
      (∀ g c d, g ∈ Q c → g ∈ Q d → c = d) ∧ (∀ g c, g ∈ Q c → m.kernel.queueFlag g = true) ∧
      ∀ g, m.kernel.queueFlag g = false → (∀ c, g ∉ Q c) ∧ ∀ c, ¬ m.InTransit c g := by
  obtain ⟨Q, hinv⟩ := h.gateInv
  have hrep := hinv.gates.represents
  refine ⟨Q, hrep, hrep.nodup, ?_, fun g c => hinv.gates.marked c g, ?_⟩
  · intro g c d hc hd
    by_contra hne
    exact hrep.disjoint c d hne g hc hd
  · intro g hg
    refine ⟨fun c hc => ?_, ?_⟩
    · rw [hinv.gates.marked c g hc] at hg
      cases hg
    · rintro c ⟨t, ht, rfl⟩
      rw [(hinv.gates.transit c t ht).1] at hg
      cases hg

theorem gate_queued_once_twoTimers : ∃ m, Reachable (fun _ => true) m ∧
    m.Executes 1 (.guardian .watch (.iret .merged)) ∧ ∃ Q, m.kernel.queues.Represents Q ∧
      ∀ g c d, g ∈ Q c → g ∈ Q d → c = d := by
  obtain ⟨m, hm, -, h1, -⟩ := twoTimers_reaches
  obtain ⟨Q, hrep, -, hone, -⟩ := gate_queued_once hm
  exact ⟨m, hm, h1, Q, hrep, hone⟩

/-- A gate is pending: it is in the queue of one CPU, or in transit on one CPU. -/
def Pending (m : Multiprocessor) (Q : Lists Cpu Gate) (g : Gate) : Prop :=
  (∃! c, g ∈ Q c) ∨ ∃! c, m.InTransit c g

theorem GateInv.pending {m : Multiprocessor} {Q : Lists Cpu Gate} (h : m.GateInv Q) {g : Gate}
    (hg : m.kernel.queueFlag g = true) : m.Pending Q g := by
  rcases h.gates.pending g hg with ⟨c, hc⟩ | ⟨c, t, ht, rfl⟩
  · refine Or.inl ⟨c, hc, fun d hd => ?_⟩
    by_contra hne
    exact h.gates.represents.disjoint d c hne g hd hc
  · refine Or.inr ⟨c, ⟨t, ht, rfl⟩, ?_⟩
    rintro d ⟨t', ht', hgate⟩
    exact (h.gates.transit c t ht).2.2 d t' ht' hgate

/-- A request that finds the level flag set: `set_queued` either admits the gate to the queue of
this CPU, where it still is when `relay` returns and which is emptied before the flag is cleared,
or it finds the gate pending, on this CPU or another. -/
theorem relay_keeps_request {on : Cpu → Bool} {m : Multiprocessor} (h : Reachable on m) :
    ∃ Q, m.kernel.queues.Represents Q ∧
      (∀ c g answer m', m.Executes c (.guardian g .testFlag) → m.kernel.flag c = true →
        step m (c, .stmt answer) = some m' → m'.Executes c (.guardian g (.setQueued c))) ∧
      (∀ c g d answer m', m.Executes c (.guardian g (.setQueued d)) →
        step m (c, .stmt answer) = some m' →
          m'.Executes c (.guardian g (.enqueue c)) ∨
            m'.Executes c (.guardian g (.ackIRQLast .merged)) ∧ m.Pending Q g) ∧
      (∀ c g, m.Executes c (.guardian g (.iret .queued)) → g ∈ Q c) ∧
      ∀ c, m.kernel.flag c = false → Q c = [] := by
  obtain ⟨Q, hinv⟩ := h.gateInv
  -- a statement of a handler is a statement of `guardian`
  have hstmt : ∀ {c g pc answer m'}, m.Executes c (.guardian g pc) →
      step m (c, .stmt answer) = some m' → ∃ below, m' = m.apply c (.guardian g pc) below
        ((guardianStep c m.kernel (m.cpu c).intr g answer pc).lift (.guardian g) .ret) := by
    intro c g pc answer m' hexec hstep
    obtain ⟨-, hcases⟩ := step_cases hstep
    rcases hcases with ⟨i, hch, -, -⟩ | ⟨a, below, e, hs, he, rfl⟩
    · cases hch
    · have ha := hexec.2
      rw [hs] at ha
      obtain rfl := Option.some.inj ha
      obtain ⟨answer', hch, -, rfl⟩ := activationStep_guardian he
      obtain rfl := Choice.stmt.inj hch
      exact ⟨below, rfl⟩
  refine ⟨Q, hinv.gates.represents, ?_, ?_, ?_, hinv.gates.idle⟩
  · intro c g answer m' hexec hf hstep
    obtain ⟨below, rfl⟩ := hstmt hexec hstep
    simp [Executes, apply, setCpu, guardianStep, Effect.lift, Control.lift, hf]
  · intro c g d answer m' hexec hstep
    obtain rfl : d = c := hinv.point c _ hexec.1 hexec.2
    obtain ⟨below, rfl⟩ := hstmt hexec hstep
    -- the mark decides, and a marked gate is pending
    cases hq : m.kernel.queueFlag g with
    | true =>
        refine Or.inr ⟨?_, hinv.pending hq⟩
        simp [Executes, apply, setCpu, guardianStep, Effect.lift, Control.lift, hq]
    | false =>
        refine Or.inl ?_
        simp [Executes, apply, setCpu, guardianStep, Effect.lift, Control.lift, hq]
  · intro c g hexec
    exact hinv.queued c g _ (List.mem_of_mem_head? hexec.2) rfl

theorem relay_keeps_request_twoTimers : ∃ m, Reachable (fun _ => true) m ∧
    m.Executes 0 (.guardian .watch (.iret .queued)) ∧
      ∃ Q, m.kernel.queues.Represents Q ∧ Gate.watch ∈ Q 0 := by
  obtain ⟨m, hm, h0, -⟩ := twoTimers_reaches
  obtain ⟨Q, hrep, -, -, hqueued, -⟩ := relay_keeps_request hm
  exact ⟨m, hm, h0, Q, hrep, hqueued 0 .watch h0⟩

/-- When `relay` returns under the level flag, its gate need not be in the queue of the CPU: it may
be that of another CPU. -/
theorem request_merged_across_cpus : ¬ ∀ (on : Cpu → Bool) (m : Multiprocessor), Reachable on m →
    ∀ c g via, (via = .queued ∨ via = .merged) → m.Executes c (.guardian g (.iret via)) →
      ∃ Q, m.kernel.queues.Represents Q ∧ g ∈ Q c := by
  intro hclaim
  obtain ⟨m, hm, -, h1, hempty, -⟩ := twoTimers_reaches
  obtain ⟨Q, hrep, hmem⟩ := hclaim _ m hm 1 .watch .merged (Or.inr rfl) h1
  have hhead : (Q 1).head? = none := (hrep.chain 1).head_eq.symm.trans hempty
  rw [List.head?_eq_none_iff.1 hhead] at hmem
  cases hmem

end Multiprocessor

end MPStuBS.Guard
