import MPStuBS.Lib.Simulation
import MPStuBS.Machine.IoApic

/-!
# The redirection table

The methods of `IOAPIC` are those of a table whose entries have only the fields that
software can write (`Redirection`). A run of calls, access by access, leads to the
table and gives the answers of the same calls executed as a whole
(`redirection_calls`), whatever the chip does to its other fields in between.
-/

set_option autoImplicit false

namespace MPStuBS.Machine

open MPStuBS.Lib MPStuBS.Lib.Run

/-! ## The table -/

/-- The writable fields of a slot. -/
structure RedirectionEntry where
  vector : BitVec 8
  deliveryMode : BitVec 3
  destinationMode : BitVec 1
  polarity : BitVec 1
  triggerMode : BitVec 1
  mask : BitVec 1
  logicalDestination : BitVec 8
  deriving DecidableEq

/-- The vector replaced; the trigger mode is set again. -/
def RedirectionEntry.setVector (e : RedirectionEntry) (vector : BitVec 8) : RedirectionEntry :=
  { e with vector := vector, triggerMode := triggerEdge }

/-- The mask replaced. -/
def RedirectionEntry.setMask (e : RedirectionEntry) (mask : BitVec 1) : RedirectionEntry :=
  { e with mask := mask }

/-- The entry that two registers hold. -/
def RedirectionEntry.ofRegs (low high : BitVec 32) : RedirectionEntry where
  vector := ioredtblL.get .vector low
  deliveryMode := ioredtblL.get .deliveryMode low
  destinationMode := ioredtblL.get .destinationMode low
  polarity := ioredtblL.get .polarity low
  triggerMode := ioredtblL.get .triggerMode low
  mask := maskBit low
  logicalDestination := ioredtblH.get .logicalDestination high

/-- The id of the chip, and the entries of its slots. -/
structure Redirection where
  id : BitVec 4
  entry : Fin 24 → RedirectionEntry

namespace Redirection

/-- The entry of a slot changed. -/
def modify (t : Redirection) (slot : BitVec 8) (f : RedirectionEntry → RedirectionEntry) :
    Redirection :=
  { t with entry := fun p => if p.val = slot.toNat then f (t.entry p) else t.entry p }

/-- What a call does to the table. -/
def apply (t : Redirection) : IoApicCall → Redirection
  | .init ioapicID cpumask =>
      ⟨ioapicID.setWidth 4, fun _ =>
        ⟨34, lowestPri, logicalMode, polarityHigh, triggerEdge, maskDisabled, cpumask⟩⟩
  | .config slot vector => t.modify slot fun e => e.setVector vector
  | .allow slot => t.modify slot fun e => e.setMask maskEnabled
  | .forbid slot => t.modify slot fun e => e.setMask maskDisabled
  | .status _ => t

/-- What a call answers. -/
def answer (t : Redirection) : IoApicCall → Option Bool
  | .status slot =>
      if h : slot.toNat < 24 then some (decide ((t.entry ⟨slot.toNat, h⟩).mask = maskEnabled))
      else none
  | _ => none

/-- A call executed as a whole, with its answer. -/
def step (t : Redirection) (c : IoApicCall × Option Bool) : Option Redirection :=
  if c.2 = t.answer c.1 then some (t.apply c.1) else none

end Redirection

/-- The table that the registers hold. -/
def IoApic.table (s : IoApic) : Redirection where
  id := ioapicIdLayout.get .id (s.reg 0)
  entry p := .ofRegs (s.reg (lowReg p)) (s.reg (highReg p))

/-! ## Registers and slots -/

section Registers

variable {slot slot' : Nat}

theorem lowReg_toNat (h : slot < 24) : (lowReg slot).toNat = slot * 2 + 16 := by
  rw [lowReg, BitVec.toNat_ofNat, Nat.mod_eq_of_lt (by omega)]

theorem highReg_toNat (h : slot < 24) : (highReg slot).toNat = slot * 2 + 17 := by
  rw [highReg, BitVec.toNat_ofNat, Nat.mod_eq_of_lt (by omega)]

theorem lowReg_inj (h : slot < 24) (h' : slot' < 24) (heq : lowReg slot = lowReg slot') :
    slot = slot' := by
  have hnat := congrArg BitVec.toNat heq
  rw [lowReg_toNat h, lowReg_toNat h'] at hnat
  omega

theorem highReg_ne_lowReg (h : slot < 24) (h' : slot' < 24) : highReg slot ≠ lowReg slot' := by
  intro heq
  have hnat := congrArg BitVec.toNat heq
  rw [highReg_toNat h, lowReg_toNat h'] at hnat
  omega

theorem lowReg_ne_zero (h : slot < 24) : (0 : BitVec 32) ≠ lowReg slot := by
  intro heq
  have hnat := congrArg BitVec.toNat heq
  rw [lowReg_toNat h] at hnat
  simp at hnat

theorem writable_id : writable 0 = ioapicIdLayout.fieldMask [.id] := if_pos rfl

theorem writable_low (h : slot < 24) :
    writable (lowReg slot) = ioredtblL.fieldMask writableLow := by
  have hnat := lowReg_toNat h
  rw [writable, if_neg (lowReg_ne_zero h).symm, if_pos (by omega), if_pos (by omega)]

theorem writable_high (h : slot < 24) :
    writable (highReg slot) = ioredtblH.fieldMask [.logicalDestination] := by
  have hnat := highReg_toNat h
  have hne : highReg slot ≠ 0 := by
    intro heq
    rw [heq] at hnat
    simp at hnat
  rw [writable, if_neg hne, if_pos (by omega), if_neg (by omega)]

end Registers

/-- Two chips whose registers agree in all bits that software can write. -/
def IoApic.Same (s s' : IoApic) : Prop := Registers.Same writable s.reg s'.reg

theorem IoApic.Same.table {s s' : IoApic} (h : s.Same s') : s.table = s'.table := by
  have hid : ioapicIdLayout.get .id (s.reg 0) = ioapicIdLayout.get .id (s'.reg 0) :=
    BitLayout.get_of_agreeOn (writable_id ▸ h 0) (by simp)
  have hentry : s.table.entry = s'.table.entry := by
    funext p
    have hlow : AgreeOn (ioredtblL.fieldMask writableLow) (s.reg (lowReg p)) (s'.reg (lowReg p)) :=
      writable_low p.isLt ▸ h (lowReg p)
    have hhigh : AgreeOn (ioredtblH.fieldMask [.logicalDestination]) (s.reg (highReg p))
        (s'.reg (highReg p)) := writable_high p.isLt ▸ h (highReg p)
    have hget : ∀ f ∈ writableLow,
        ioredtblL.get f (s.reg (lowReg p)) = ioredtblL.get f (s'.reg (lowReg p)) := fun f hf =>
      BitLayout.get_of_agreeOn hlow hf
    simp only [IoApic.table, RedirectionEntry.ofRegs, maskBit,
      hget .vector (by decide), hget .deliveryMode (by decide), hget .destinationMode (by decide),
      hget .polarity (by decide), hget .triggerMode (by decide), hget .mask (by decide),
      BitLayout.get_of_agreeOn hhigh List.mem_cons_self]
  exact congrArg₂ Redirection.mk hid hentry

/-! ## Whole calls -/

namespace IoApic

/-- An action executed as a whole; bits that software cannot write do not matter. -/
def perform (s : IoApic) : RegAction → IoApic
  | .modify reg change => { s with reg := Registers.modify s.reg reg change }
  | .test _ _ => s

variable {s : IoApic} {slot : Nat}

theorem perform_modify_reg (reg : BitVec 32) (change : BitVec 32 → BitVec 32) (r : BitVec 32) :
    (s.perform (.modify reg change)).reg r =
      if r = reg then change (s.reg reg) else s.reg r := by
  by_cases h : r = reg
  · rw [if_pos h, h]
    exact Registers.modify_self
  · rw [if_neg h]
    exact Registers.modify_of_ne h

/-- A change of `IOREDTBL_L` is one of its entry. -/
theorem table_perform_low (h : slot < 24) {change : BitVec 32 → BitVec 32}
    {f : RedirectionEntry → RedirectionEntry}
    (hf : ∀ low high, RedirectionEntry.ofRegs (change low) high = f (.ofRegs low high)) :
    (s.perform (.modify (lowReg slot) change)).table =
      ⟨s.table.id, fun p => if p.val = slot then f (s.table.entry p) else s.table.entry p⟩ := by
  refine congrArg₂ Redirection.mk ?_ (funext fun p => ?_)
  · rw [perform_modify_reg, if_neg (lowReg_ne_zero h)]
    rfl
  · rw [perform_modify_reg, perform_modify_reg, if_neg (highReg_ne_lowReg p.isLt h)]
    by_cases hp : p.val = slot
    · rw [if_pos hp, if_pos (congrArg lowReg hp), hf, ← hp]
      rfl
    · rw [if_neg hp, if_neg fun heq => hp (lowReg_inj p.isLt h heq)]
      rfl

end IoApic

theorem ofRegs_config (vector : BitVec 8) (low high : BitVec 32) :
    RedirectionEntry.ofRegs
        (ioredtblL.set .triggerMode triggerEdge (ioredtblL.set .vector vector low)) high =
      (RedirectionEntry.ofRegs low high).setVector vector := by
  simp (disch := decide) only [RedirectionEntry.ofRegs, RedirectionEntry.setVector, maskBit,
    BitLayout.get_set_of_ne, BitLayout.get_set_self]

theorem ofRegs_mask (mask : BitVec 1) (low high : BitVec 32) :
    RedirectionEntry.ofRegs (ioredtblL.set .mask mask low) high =
      (RedirectionEntry.ofRegs low high).setMask mask := by
  simp (disch := decide) only [RedirectionEntry.ofRegs, RedirectionEntry.setMask, maskBit,
    BitLayout.get_set_of_ne, BitLayout.get_set_self]

theorem ofRegs_init (cpumask : BitVec 8) (low high : BitVec 32) :
    RedirectionEntry.ofRegs (initLow low) (ioredtblH.set .logicalDestination cpumask high) =
      ⟨34, lowestPri, logicalMode, polarityHigh, triggerEdge, maskDisabled, cpumask⟩ := by
  simp (disch := decide) only [RedirectionEntry.ofRegs, maskBit, initLow, BitLayout.get_set_of_ne,
    BitLayout.get_set_self]

namespace IoApic

variable {s : IoApic}

/-- Actions on different registers change each of them once. -/
theorem foldl_perform_reg {l : List (BitVec 32 × (BitVec 32 → BitVec 32))}
    (hl : (l.map Prod.fst).Nodup) : ∀ s : IoApic,
      (∀ a ∈ l, ((l.map fun a => RegAction.modify a.1 a.2).foldl perform s).reg a.1 =
        a.2 (s.reg a.1)) ∧
      ∀ r, r ∉ l.map Prod.fst →
        ((l.map fun a => RegAction.modify a.1 a.2).foldl perform s).reg r = s.reg r := by
  induction l with
  | nil => exact fun s => ⟨fun a ha => (by cases ha), fun r _ => rfl⟩
  | cons b l ih =>
      intro s
      rw [List.map_cons, List.nodup_cons] at hl
      obtain ⟨hin, hout⟩ := ih hl.2 (s.perform (.modify b.1 b.2))
      refine ⟨fun a ha => ?_, fun r hr => ?_⟩
      · rw [List.map_cons, List.foldl_cons]
        rcases List.mem_cons.1 ha with rfl | ha
        · rw [hout a.1 hl.1, perform_modify_reg, if_pos rfl]
        · have hne : a.1 ≠ b.1 := fun heq => hl.1 (heq ▸ List.mem_map_of_mem ha)
          rw [hin a ha, perform_modify_reg, if_neg hne]
      · rw [List.map_cons, List.mem_cons, not_or] at hr
        rw [List.map_cons, List.foldl_cons, hout r hr.2, perform_modify_reg, if_neg hr.1]

/-- The registers that `IOAPIC::init` changes, with the changes. -/
def initChanges (ioapicID cpumask : BitVec 8) : List (BitVec 32 × (BitVec 32 → BitVec 32)) :=
  (0, ioapicIdLayout.set .id (ioapicID.setWidth 4)) :: (List.range 24).flatMap fun i =>
    [(lowReg i, initLow), (highReg i, ioredtblH.set .logicalDestination cpumask)]

theorem initActions_eq (ioapicID cpumask : BitVec 8) :
    IoApicCall.initActions ioapicID cpumask =
      (initChanges ioapicID cpumask).map fun a => .modify a.1 a.2 := by
  rfl

theorem initChanges_nodup (ioapicID cpumask : BitVec 8) :
    ((initChanges ioapicID cpumask).map Prod.fst).Nodup := by
  have hregs : (initChanges ioapicID cpumask).map Prod.fst =
      0 :: (List.range 48).map fun j => BitVec.ofNat 32 (j + 16) := rfl
  rw [hregs]
  decide

theorem table_init (ioapicID cpumask : BitVec 8) (s : IoApic) :
    ((IoApicCall.initActions ioapicID cpumask).foldl perform s).table =
      s.table.apply (.init ioapicID cpumask) := by
  rw [initActions_eq]
  obtain ⟨hreg, -⟩ := foldl_perform_reg (initChanges_nodup ioapicID cpumask) s
  generalize (((initChanges ioapicID cpumask).map _).foldl perform s) = t at hreg
  have hid : t.reg 0 = ioapicIdLayout.set .id (ioapicID.setWidth 4) (s.reg 0) :=
    hreg _ List.mem_cons_self
  have hpin : ∀ p : Fin 24, t.reg (lowReg p) = initLow (s.reg (lowReg p)) ∧
      t.reg (highReg p) = ioredtblH.set .logicalDestination cpumask (s.reg (highReg p)) := by
    intro p
    have hmem : ∀ a ∈ [(lowReg p, initLow),
        (highReg p, ioredtblH.set .logicalDestination cpumask)],
          a ∈ initChanges ioapicID cpumask := fun a ha =>
      List.mem_cons_of_mem _ (List.mem_flatMap.2 ⟨p, List.mem_range.2 p.isLt, ha⟩)
    exact ⟨hreg _ (hmem _ List.mem_cons_self),
      hreg _ (hmem _ (List.mem_cons_of_mem _ List.mem_cons_self))⟩
  refine congrArg₂ Redirection.mk ?_ (funext fun p => ?_)
  · rw [hid, BitLayout.get_set_self]
  · rw [(hpin p).1, (hpin p).2, ofRegs_init]

/-- The actions of a call, executed as a whole, are the call. -/
theorem table_call {c : IoApicCall} (hc : c.SlotOk) (s : IoApic) :
    (c.actions.foldl perform s).table = s.table.apply c := by
  cases c with
  | init ioapicID cpumask => exact table_init ioapicID cpumask s
  | config slot vector =>
      rw [IoApicCall.actions, IoApicCall.configActions, List.foldl_cons, List.foldl_nil,
        table_perform_low (f := fun e => e.setVector vector) (hc slot rfl) (ofRegs_config vector)]
      rfl
  | allow slot =>
      rw [IoApicCall.actions, IoApicCall.allowActions, List.foldl_cons, List.foldl_nil,
        table_perform_low (f := fun e => e.setMask maskEnabled) (hc slot rfl)
          (ofRegs_mask maskEnabled)]
      rfl
  | forbid slot =>
      rw [IoApicCall.actions, IoApicCall.forbidActions, List.foldl_cons, List.foldl_nil,
        table_perform_low (f := fun e => e.setMask maskDisabled) (hc slot rfl)
          (ofRegs_mask maskDisabled)]
      rfl
  | status slot => rfl

end IoApic

/-! ## Calls, access by access -/

/-- A change is uniform; an answer depends on writable bits only. -/
def RegAction.Respects : RegAction → Prop
  | .modify _ change => Uniform change
  | .test reg answer => ∀ x y, AgreeOn (writable reg) x y → answer x = answer y

theorem uniform_initLow : Uniform initLow :=
  (uniform_set ioredtblL .mask maskDisabled).comp <|
    (uniform_set ioredtblL .triggerMode triggerEdge).comp <|
      (uniform_set ioredtblL .polarity polarityHigh).comp <|
        (uniform_set ioredtblL .destinationMode logicalMode).comp <|
          (uniform_set ioredtblL .deliveryMode lowestPri).comp (uniform_set ioredtblL .vector 34)

theorem IoApicCall.actions_respect {c : IoApicCall} (hc : c.SlotOk) :
    ∀ a ∈ c.actions, a.Respects := by
  cases c with
  | init ioapicID cpumask =>
      intro a ha
      rcases List.mem_cons.1 ha with rfl | ha
      · exact uniform_set ioapicIdLayout .id _
      · obtain ⟨i, -, ha⟩ := List.mem_flatMap.1 ha
        rcases List.mem_cons.1 ha with rfl | ha
        · exact uniform_initLow
        · obtain rfl := List.mem_singleton.1 ha
          exact uniform_set ioredtblH .logicalDestination _
  | config slot vector =>
      intro a ha
      obtain rfl := List.mem_singleton.1 ha
      exact (uniform_set ioredtblL .triggerMode _).comp (uniform_set ioredtblL .vector _)
  | allow slot =>
      intro a ha
      obtain rfl := List.mem_singleton.1 ha
      exact uniform_set ioredtblL .mask _
  | forbid slot =>
      intro a ha
      obtain rfl := List.mem_singleton.1 ha
      exact uniform_set ioredtblL .mask _
  | status slot =>
      intro a ha
      obtain rfl := List.mem_singleton.1 ha
      intro x y h
      rw [writable_low (hc slot rfl)] at h
      have hmask : maskBit x = maskBit y := BitLayout.get_of_agreeOn h (by decide)
      exact congrArg (fun mask => decide (mask = maskEnabled)) hmask

/-- Only `status` reads a register without writing it back, and it does nothing else. -/
theorem IoApicCall.test_mem {c : IoApicCall} {reg : BitVec 32} {answer : BitVec 32 → Bool}
    (h : RegAction.test reg answer ∈ c.actions) : ∃ slot, c = .status slot := by
  cases c with
  | init ioapicID cpumask =>
      rw [IoApicCall.actions, IoApic.initActions_eq, List.mem_map] at h
      obtain ⟨a, -, ha⟩ := h
      cases ha
  | config slot vector => cases List.mem_singleton.1 h
  | allow slot => cases List.mem_singleton.1 h
  | forbid slot => cases List.mem_singleton.1 h
  | status slot => exact ⟨slot, rfl⟩

namespace IoApicRun

/-- The access in progress goes to the register of its action, and the value to be stored is the
change of what the register holds. -/
def AtAction (s : IoApicRun) : Prop :=
  match s.todo, s.pc with
  | .modify reg _ :: _, .load => s.apic.ioregsel = reg
  | .modify reg change :: _, .store value =>
      s.apic.ioregsel = reg ∧ AgreeOn (writable reg) value (change (s.apic.reg reg))
  | .test reg _ :: _, .load => s.apic.ioregsel = reg
  | .test _ _ :: _, .store _ => False
  | _, _ => True

/-- The call `c` began with the table `t`. In the bits that software can write, the chip is as after
the actions that are over, each executed as a whole. -/
structure MidCall (s : IoApicRun) (c : IoApicCall) (t : Redirection) : Prop where
  slot : c.SlotOk
  progress : ∃ s₀ pre, s₀.table = t ∧ c.actions = pre ++ s.todo ∧
    (∀ reg answer, RegAction.test reg answer ∉ pre) ∧ (pre.foldl IoApic.perform s₀).Same s.apic
  action : s.AtAction

/-- The table of the chip is `t`, or was `t` when the call in progress began. -/
def Follows (s : IoApicRun) (t : Redirection) : Prop :=
  match s.call with
  | none => s.apic.table = t
  | some c => s.MidCall c t

variable {s s' : IoApicRun} {c : IoApicCall} {t : Redirection}

theorem atAction_select (h : s.pc = .select) : s.AtAction := by
  obtain ⟨apic, call, todo, pc, done⟩ := s
  obtain rfl : pc = .select := h
  cases todo with
  | nil => exact trivial
  | cons a rest => cases a <;> exact trivial

theorem MidCall.activity (h : s.MidCall c t) (bits : BitVec 32 → BitVec 32) :
    MidCall { s with apic := s.apic.activity bits } c t := by
  obtain ⟨s₀, pre, h₀, hpre, htest, hsame⟩ := h.progress
  refine ⟨h.slot, ⟨s₀, pre, h₀, hpre, htest,
    hsame.trans (Registers.same_activity s.apic.reg bits)⟩, ?_⟩
  obtain ⟨apic, call, todo, pc, done⟩ := s
  have hat := h.action
  cases todo with
  | nil => cases pc <;> exact trivial
  | cons a rest =>
      cases a with
      | modify reg change =>
          cases pc with
          | select => exact trivial
          | load => exact hat
          | store value =>
              have hrespects := IoApicCall.actions_respect h.slot (.modify reg change)
                (hpre ▸ List.mem_append_right _ List.mem_cons_self)
              exact ⟨hat.1, hat.2.trans (hrespects _ _ _ (Registers.same_activity _ bits reg))⟩
      | test reg answer =>
          cases pc with
          | select => exact trivial
          | load => exact hat
          | store value => exact hat.elim

theorem Follows.activity (h : s.Follows t) (bits : BitVec 32 → BitVec 32) :
    Follows { s with apic := s.apic.activity bits } t := by
  obtain ⟨apic, call, todo, pc, done⟩ := s
  cases call with
  | none =>
      have hsame : apic.Same (apic.activity bits) := Registers.same_activity apic.reg bits
      exact hsame.table.symm.trans h
  | some c => exact MidCall.activity h bits

/-- An access leads on in the call, or the call returns. -/
theorem MidCall.access (h : s.MidCall c t) (hcall : s.call = some c) :
    (s.accessStep c).call = some c ∧ (s.accessStep c).done = s.done ∧ (s.accessStep c).MidCall c t ∨
      s.accessStep c = s.ret c (t.answer c) ∧ s.apic.table = t.apply c := by
  obtain ⟨s₀, pre, h₀, hpre, htest, hsame⟩ := h.progress
  obtain ⟨apic, call, todo, pc, done⟩ := s
  obtain rfl : call = some c := hcall
  have hat := h.action
  cases todo with
  | nil =>
      -- all actions are over
      rw [List.append_nil] at hpre
      have hanswer : t.answer c = none := by
        cases c with
        | status slot =>
            subst hpre
            exact absurd List.mem_cons_self (htest _ _)
        | _ => rfl
      refine .inr ⟨by rw [hanswer]; rfl, ?_⟩
      rw [← h₀, ← IoApic.table_call h.slot, hpre]
      exact hsame.table.symm
  | cons a rest =>
      have hmem : a ∈ c.actions := hpre ▸ List.mem_append_right _ List.mem_cons_self
      cases a with
      | modify reg change =>
          cases pc with
          | select => exact .inl ⟨rfl, rfl, h.slot, ⟨s₀, pre, h₀, hpre, htest, hsame⟩, rfl⟩
          | load =>
              refine .inl ⟨rfl, rfl, h.slot, ⟨s₀, pre, h₀, hpre, htest, hsame⟩, ?_⟩
              obtain rfl : apic.ioregsel = reg := hat
              exact ⟨rfl, AgreeOn.refl _⟩
          | store value =>
              obtain ⟨rfl, hvalue⟩ : apic.ioregsel = reg ∧
                AgreeOn (writable reg) value (change (apic.reg reg)) := hat
              refine .inl ⟨rfl, rfl, h.slot, ⟨s₀, pre ++ [.modify apic.ioregsel change], h₀, ?_, ?_,
                ?_⟩, atAction_select rfl⟩
              · rw [hpre, List.append_assoc]
                rfl
              · intro reg answer hmem
                rcases List.mem_append.1 hmem with hmem | hmem
                · exact htest reg answer hmem
                · cases List.mem_singleton.1 hmem
              · rw [List.foldl_append, List.foldl_cons, List.foldl_nil]
                exact hsame.modify_store (IoApicCall.actions_respect h.slot _ hmem) hvalue
      | test reg answer =>
          cases pc with
          | select => exact .inl ⟨rfl, rfl, h.slot, ⟨s₀, pre, h₀, hpre, htest, hsame⟩, rfl⟩
          | load =>
              obtain rfl : apic.ioregsel = reg := hat
              obtain ⟨slot, rfl⟩ := IoApicCall.test_mem hmem
              -- nothing came before the test
              have hpre' : [RegAction.test (lowReg slot.toNat) fun value =>
                  decide (maskBit value = maskEnabled)] =
                  pre ++ RegAction.test apic.ioregsel answer :: rest := hpre
              obtain rfl : pre = [] := by
                cases pre with
                | nil => rfl
                | cons b pre =>
                    have hlength := congrArg List.length hpre'
                    simp at hlength
              obtain ⟨hreg, hanswer⟩ := RegAction.test.inj (List.cons.inj hpre').1
              have hslot : slot.toNat < 24 := h.slot slot rfl
              have hmask : maskBit (s₀.reg (lowReg slot.toNat)) = maskBit apic.load := by
                have hagree := hsame (lowReg slot.toNat)
                rw [writable_low hslot] at hagree
                rw [IoApic.load, ← hreg]
                exact BitLayout.get_of_agreeOn hagree (by decide)
              refine .inr ⟨?_, hsame.table.symm.trans h₀⟩
              have hans : answer apic.load =
                  decide ((s₀.table.entry ⟨slot.toNat, hslot⟩).mask = maskEnabled) := by
                rw [← hanswer]
                exact congrArg (fun mask => decide (mask = maskEnabled)) hmask.symm
              rw [← h₀, Redirection.answer, dif_pos hslot, ← hans]
              rfl
          | store value => exact hat.elim

/-- The methods are called for slots of the chip. -/
def Admits (_ : IoApicRun) (l : IoApicLabel) : Prop := ∀ c, l = .call c → c.SlotOk

/-- The accesses of the methods perform the calls of the table. -/
theorem calls_simulate : Simulation step Admits Redirection.step (fun _ _ => True)
    (fun s => s.done) id Follows where
  matched := by
    intro s s' t l hR hok hstep
    have hstay : s'.done = s.done → s'.Follows t → ∃ js t', s'.done = s.done ++ js.map id ∧
        ExecOk Redirection.step (fun _ _ => True) t js ∧ exec Redirection.step t js = some t' ∧
          s'.Follows t' := fun hdone h => ⟨[], t, by rw [hdone]; simp, trivial, rfl, h⟩
    cases l with
    | call c =>
        cases hcall : s.call with
        | some c' => simp [step, hcall] at hstep
        | none =>
            simp only [step, hcall, Option.some.injEq] at hstep
            subst hstep
            rw [Follows, hcall] at hR
            exact hstay rfl ⟨hok c rfl, ⟨s.apic, [], hR, rfl, fun _ _ h => (by cases h), fun _ =>
              AgreeOn.refl _⟩, atAction_select rfl⟩
    | activity bits =>
        obtain rfl := Option.some.inj hstep
        exact hstay rfl (hR.activity bits)
    | access =>
        cases hcall : s.call with
        | none => simp [step, hcall] at hstep
        | some c =>
            simp only [step, hcall, Option.map_some, Option.some.injEq] at hstep
            subst hstep
            rw [Follows, hcall] at hR
            rcases hR.access hcall with ⟨hcall', hdone, hmid⟩ | ⟨heq, htable⟩
            · refine hstay hdone ?_
              rw [Follows, hcall']
              exact hmid
            · rw [heq]
              refine ⟨[(c, t.answer c)], t.apply c, rfl, ⟨trivial, fun u _ => trivial⟩, ?_, htable⟩
              exact exec_single (if_pos rfl)

/-- The calls that have returned, with their answers, are calls of the table, executed as a whole;
while no call is in progress the chip holds the table that they lead to. -/
theorem redirection_calls {apic : IoApic} (hrun : Runs step Admits (idle apic) s) :
    ∃ t, exec Redirection.step apic.table s.done = some t ∧
      (s.call = none → s.apic.table = t) := by
  have hR₀ : (idle apic).Follows apic.table := rfl
  obtain ⟨js, t, hdone, -, hexec, hR⟩ := calls_simulate.run hR₀ hrun
  rw [List.map_id] at hdone
  refine ⟨t, ?_, fun hcall => ?_⟩
  · rw [show s.done = js from hdone]
    exact hexec
  · rw [Follows, hcall] at hR
    exact hR

/-- A decidable form of `Admits`. -/
def admitted (_ : IoApicRun) : IoApicLabel → Bool
  | .call c => c.slot?.all fun slot => slot.toNat < 24
  | _ => true

theorem admits_of_admitted {l : IoApicLabel} (h : s.admitted l = true) : s.Admits l := by
  rintro c rfl slot hslot
  obtain hslot : c.slot? = some slot := hslot
  simpa [admitted, hslot] using h

/-- Slot 1 is given a vector and allowed, then asked for; the chip delivers in between. -/
def keyboardLabels : List IoApicLabel :=
  [.call (.config 1 33), .access, .access, .activity fun _ => 0xFFFFFFFF, .access, .access,
    .call (.allow 1), .access, .access, .access, .activity fun _ => 0, .access,
    .call (.status 1), .access, .access]

theorem redirection_calls_keyboard :
    ∃ s, Runs step Admits (idle ⟨0, fun _ => 0x10000⟩) s ∧
      s.done = [(.config 1 33, none), (.allow 1, none), (.status 1, some true)] ∧
      ∃ t, exec Redirection.step (IoApic.table ⟨0, fun _ => 0x10000⟩) s.done = some t ∧
        (s.call = none → s.apic.table = t) := by
  obtain ⟨s, hexec, hdone⟩ : ∃ s, exec (fun a i => if admitted a i then step a i else none)
      (idle ⟨0, fun _ => 0x10000⟩) keyboardLabels = some s ∧
        s.done = [(.config 1 33, none), (.allow 1, none), (.status 1, some true)] := ⟨_, rfl, rfl⟩
  have hrun : Runs step Admits (idle ⟨0, fun _ => 0x10000⟩) s :=
    runs_of_exec_if (fun _ _ h => admits_of_admitted h) hexec
  exact ⟨s, hrun, hdone, redirection_calls hrun⟩

end IoApicRun

end MPStuBS.Machine
