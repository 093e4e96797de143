import MPStuBS.Device.Watch
import MPStuBS.Guard.UnhandledInterrupts
import MPStuBS.Machine.IrqMap
import MPStuBS.Machine.PinDelivery

/-!
# The devices that `main` sets up

Before `main` starts the other CPUs it initialises the I/O APIC, gives the slot of the
keyboard its vector and allows it, and lets keyboard, assassin and watch assign their
gates in the plugbox. So, if this slot is one of the chip's, the only pin whose interrupts are delivered is the one of the
keyboard: they may reach every CPU that the configuration counts, and no other, and
they have the gate of the keyboard there (`interrupts_routed`). The timer of the local
APIC has the vector of the watch, the interrupt that `kill` sends that of the assassin,
and all other vectors keep the gate `panic`.
-/

set_option autoImplicit false

namespace MPStuBS.Main

open MPStuBS.Device MPStuBS.Guard MPStuBS.Lib.Loop MPStuBS.Lib.Run MPStuBS.Machine

/-! ## The calls of `main` -/

/-- `Plugbox::Vector::keyboard` -/
def keyboardVector : BitVec 8 := 33

/-- `Plugbox::Vector::assassin` -/
def assassinVector : BitVec 8 := 100

/-- The slot that `main` gets for `Device::keyboard`. -/
def kbdSlot (conf : SystemConfig) : BitVec 8 := BitVec.ofNat 8 (getIOAPICSlot conf 1)

/-- `ioapic.init()`, `ioapic.config(kbd_slot, ..)`, `ioapic.allow(kbd_slot)` -/
def pinCalls (conf : SystemConfig) (cpumask : BitVec 8) : List IoApicCall :=
  [.init (BitVec.ofInt 8 conf.ioapicId) cpumask, .config (kbdSlot conf) keyboardVector,
    .allow (kbdSlot conf)]

/-- `Keyboard::plugin` -/
def plugin (s : WatchState) : WatchState := Watch.assign keyboardVector.toNat .keyboard s

/-- `Assassin::hire` -/
def hire (s : WatchState) : WatchState := Watch.assign assassinVector.toNat .assassin s

/-- `keyboard.plugin()`, `assassin.hire()`, `watch.windup(40000)`; the result is not looked at. -/
def plugGates (fuel : Nat) (tm : BitVec 32) (s : WatchState) : Option WatchState :=
  (Watch.windup fuel tm 40000 (hire (plugin s))).map Prod.snd

/-! ## The gates -/

/-- The table of the gates. -/
def plugbox (s : WatchState) : Plugbox := ⟨fun vector => some (s.gateobjs vector)⟩

theorem report_plugbox (s : WatchState) (vector : BitVec 8) :
    (plugbox s).report (vector.setWidth 32) = some (s.gateobjs vector.toNat) := by
  have hnat : (vector.setWidth 32).toNat = vector.toNat := BitVec.toNat_setWidth_of_le (by decide)
  have hle : vector.toNat ≤ 255 := Nat.le_of_lt_succ vector.isLt
  rw [Plugbox.report, hnat, if_pos hle]
  rfl

/-- If `windup` returns true it has assigned the gate and given the timer its vector. -/
theorem windup_plugs {fuel : Nat} {tm us : BitVec 32} {s s' : WatchState}
    (h : Watch.windup fuel tm us s = some (true, s')) :
    s'.gateobjs = Function.update s.gateobjs timerVector.toNat .watch ∧
      s'.timer.vector = timerVector := by
  simp only [Watch.windup] at h
  split at h
  case h_1 => cases h
  case h_2 =>
      split at h
      case h_1 => cases h
      case h_2 => simp at h
      case h_3 =>
          simp only [Option.some.injEq, Prod.mk.injEq, true_and] at h
          subst h
          exact ⟨rfl, rfl⟩

theorem assign_gateobjs (s : WatchState) (vector : BitVec 8) (gate : Gate) :
    (Watch.assign vector.toNat gate s).gateobjs =
      Function.update s.gateobjs vector.toNat gate := by
  rw [Watch.assign, if_pos (Nat.le_of_lt_succ vector.isLt)]

theorem assign_watch (s : WatchState) (vector : Nat) (gate : Gate) :
    (Watch.assign vector gate s).watch = s.watch := by
  rw [Watch.assign]
  split <;> rfl

/-- Which gate each vector has in the end. -/
def gateOf (vector : BitVec 8) : Gate :=
  if vector = timerVector then .watch
  else if vector = assassinVector then .assassin
  else if vector = keyboardVector then .keyboard
  else .panic

/-- The state of `windup`, which returns true whatever the frequency of the timer is. -/
theorem plugGates_returns (tm : BitVec 32) {s : WatchState} (hs : s.watch = .fresh) :
    ∃ s', Returns (fun fuel => plugGates fuel tm s) s' ∧
      ∃ fuel, Watch.windup fuel tm 40000 (hire (plugin s)) = some (true, s') := by
  have hfresh : (hire (plugin s)).watch = .fresh := by
    rw [hire, plugin, assign_watch, assign_watch, hs]
  obtain ⟨-, s', ⟨enough, henough⟩, -⟩ := Watch.windup_returns 40000 tm (hire (plugin s)) hfresh
  refine ⟨s', ⟨enough, fun fuel hfuel => ?_⟩, enough, henough enough (Nat.le_refl enough)⟩
  show plugGates fuel tm s = some s'
  exact congrArg (Option.map Prod.snd) (henough fuel hfuel)

/-- The three gates are assigned, and the timer gets the vector of the watch. -/
theorem plugGates_gateobjs {tm : BitVec 32} {s s' : WatchState} (hs : s.watch = .fresh)
    (hpanic : s.gateobjs = fun _ => .panic) (h : Returns (fun fuel => plugGates fuel tm s) s') :
    (∀ vector : BitVec 8, s'.gateobjs vector.toNat = gateOf vector) ∧
      s'.timer.vector = timerVector := by
  obtain ⟨t, ht, fuel, hwindup⟩ := plugGates_returns tm hs
  obtain rfl := h.unique ht
  obtain ⟨hgateobjs, htimer⟩ := windup_plugs hwindup
  refine ⟨fun vector => ?_, htimer⟩
  rw [hgateobjs, hire, assign_gateobjs, plugin, assign_gateobjs, hpanic, gateOf]
  simp only [Function.update_apply, BitVec.toNat_inj]

/-! ## The result -/

/-- The slot fits into an `unsigned char`. -/
theorem kbdSlot_toNat (conf : SystemConfig) : (kbdSlot conf).toNat = getIOAPICSlot conf 1 := by
  rw [kbdSlot, BitVec.toNat_ofNat]
  exact Nat.mod_eq_of_lt (conf.slotMap 1).isLt

section Result

variable {conf : SystemConfig} {mask : BitVec 8} {apic : IoApic} {s : IoApicRun} {tm : BitVec 32}
  {w w' : WatchState}

/-- After the calls of `main` a pin reaches the CPUs that are counted if it is the keyboard's. -/
theorem mayReach_pinCalls (hmask : Returns (fun fuel => cpumask fuel conf.cpuCount) mask)
    (hrun : Runs IoApicRun.step IoApicRun.Admits (.idle apic) s) (hcall : s.call = none)
    (hcalls : s.calls = pinCalls conf mask) {p : Fin 24} {vector : BitVec 8} {c : Nat} :
    (s.apic.table.entry p).MayReach vector c ↔
      p.val = getIOAPICSlot conf 1 ∧ vector = keyboardVector ∧ c < conf.cpuCount ∧ c < 8 := by
  obtain ⟨-, rfl⟩ := cpumask_returns_iff.1 hmask
  rw [← kbdSlot_toNat]
  have hcpus : lastWritten IoApicCall.destination s.calls = some (lowOnes conf.cpuCount) :=
    hcalls ▸ rfl
  have hmode : lastWritten IoApicCall.destinationMode s.calls = some logicalMode := hcalls ▸ rfl
  by_cases hp : p.val = (kbdSlot conf).toNat
  · have hm : lastWritten (IoApicCall.maskFor p) s.calls = some maskEnabled := by
      simp [hcalls, pinCalls, IoApicCall.maskFor, hp]
    have hv : lastWritten (IoApicCall.vectorFor p) s.calls = some keyboardVector := by
      simp [hcalls, pinCalls, IoApicCall.vectorFor, hp]
    rw [IoApicRun.mayReach_iff hrun hcall hm hv hcpus hmode, getLsbD_lowOnes, Bool.and_eq_true,
      decide_eq_true_eq, decide_eq_true_eq]
    constructor
    · rintro ⟨-, rfl, hc8, hc⟩
      exact ⟨hp, rfl, hc, hc8⟩
    · rintro ⟨-, rfl, hc, hc8⟩
      exact ⟨rfl, rfl, hc8, hc⟩
  · have hm : lastWritten (IoApicCall.maskFor p) s.calls = some maskDisabled := by
      simp [hcalls, pinCalls, IoApicCall.maskFor, hp]
    have hv : lastWritten (IoApicCall.vectorFor p) s.calls = some 34 := by
      simp [hcalls, pinCalls, IoApicCall.vectorFor, hp]
    rw [IoApicRun.mayReach_iff hrun hcall hm hv hcpus hmode]
    -- the entry is masked
    exact ⟨fun h => absurd h.1 (by decide), fun h => absurd h.1 hp⟩

/-- If the slot of the keyboard is one of the 24 of the chip, then interrupts at its pin, and at no
other pin, may reach the CPUs that are counted, and no other, and have the gate of the keyboard
there. The vectors of timer and assassin have their gates, and all others the gate `panic`. -/
theorem interrupts_routed (hmask : Returns (fun fuel => cpumask fuel conf.cpuCount) mask)
    (hrun : Runs IoApicRun.step IoApicRun.Admits (.idle apic) s) (hcall : s.call = none)
    (hcalls : s.calls = pinCalls conf mask) (hw : w.watch = .fresh)
    (hpanic : w.gateobjs = fun _ => .panic)
    (hgates : Returns (fun fuel => plugGates fuel tm w) w') :
    (∀ p c gate, (∃ vector, (s.apic.table.entry p).MayReach vector c ∧
        (plugbox w').report (vector.setWidth 32) = some gate) ↔
      p.val = getIOAPICSlot conf 1 ∧ (c < conf.cpuCount ∧ c < 8) ∧ gate = .keyboard) ∧
    (plugbox w').report (w'.timer.vector.setWidth 32) = some .watch ∧
    (plugbox w').report (assassinVector.setWidth 32) = some .assassin ∧
    ∀ vector : BitVec 8, vector ∉ [timerVector, keyboardVector, assassinVector] →
      (plugbox w').report (vector.setWidth 32) = some .panic := by
  obtain ⟨hgateobjs, htimer⟩ := plugGates_gateobjs hw hpanic hgates
  have hreport : ∀ vector : BitVec 8,
      (plugbox w').report (vector.setWidth 32) = some (gateOf vector) := fun vector => by
    rw [report_plugbox, hgateobjs]
  refine ⟨fun p c gate => ?_, ?_, ?_, fun vector hvector => ?_⟩
  · constructor
    · rintro ⟨vector, hreach, hgate⟩
      obtain ⟨hp, rfl, hc⟩ := (mayReach_pinCalls hmask hrun hcall hcalls).1 hreach
      rw [hreport] at hgate
      exact ⟨hp, hc, (Option.some.inj hgate).symm⟩
    · rintro ⟨hp, hc, rfl⟩
      exact ⟨keyboardVector, (mayReach_pinCalls hmask hrun hcall hcalls).2 ⟨hp, rfl, hc⟩,
        hreport keyboardVector⟩
  · rw [htimer]
    exact hreport timerVector
  · exact hreport assassinVector
  · simp only [List.mem_cons, List.not_mem_nil, or_false, not_or] at hvector
    obtain ⟨htimer, hkeyboard, hassassin⟩ := hvector
    rw [hreport, gateOf, if_neg htimer, if_neg hassassin, if_neg hkeyboard]

end Result

/-- Four CPUs, and the keyboard at slot 1. -/
def fourCpus : SystemConfig := { generateIRQMap .fresh with cpuCount := 4, ioapicId := 0 }

/-- A watch that was not used, and a plugbox with the gate `panic` everywhere. -/
def unplugged : WatchState := ⟨.fresh, fun _ => .panic, .measured⟩

theorem interrupts_routed_fourCpus : ∃ (s : IoApicRun) (w' : WatchState),
    (∀ (p : Fin 24) (c : Nat) (gate : Gate),
      (∃ vector : BitVec 8, (s.apic.table.entry p).MayReach vector c ∧
        (plugbox w').report (vector.setWidth 32) = some gate) ↔
      p.val = getIOAPICSlot fourCpus 1 ∧ (c < 4 ∧ c < 8) ∧ gate = .keyboard) ∧
    getIOAPICSlot fourCpus 1 = 1 := by
  have hslot : kbdSlot fourCpus = 1 := by decide
  have hok : ∀ c ∈ pinCalls fourCpus (lowOnes 4), c.SlotOk := by
    intro c hc
    simp only [pinCalls, hslot, List.mem_cons, List.not_mem_nil, or_false] at hc
    rcases hc with rfl | rfl | rfl <;> rintro slot ⟨⟩ <;> decide
  obtain ⟨s, hrun, hcall, hcalls⟩ :=
    IoApicRun.runs_calls hok (s := .idle ⟨0, fun _ => 0⟩) rfl
  obtain ⟨w', hgates, -⟩ := plugGates_returns 1000 (s := unplugged) rfl
  have hmask : Returns (fun fuel => cpumask fuel fourCpus.cpuCount) (lowOnes 4) :=
    cpumask_returns_iff.2 ⟨by decide, rfl⟩
  exact ⟨s, w', (interrupts_routed hmask hrun hcall hcalls rfl rfl hgates).1, by decide⟩

end MPStuBS.Main
