import MPStuBS.Lib.Loop
import MPStuBS.Lib.Registers
import MPStuBS.Lib.Run

/-!
# The I/O APIC

The registers of the I/O APIC are reached through two words: the number of a
register is written to `IOREGSEL`, and `IOWIN` is then this register. So each
method of `IOAPIC` is a sequence of accesses, in which a register is selected, read,
changed in some of its fields and written back (`RegAction`), and between any two of
them the chip may change the fields that software cannot write.

`init` lets every CPU of the mask take part in the delivery of an interrupt. The loop
that makes this mask counts with 8 bits (`cpumask_returns_iff`).
-/

set_option autoImplicit false

namespace MPStuBS.Machine

open MPStuBS.Lib MPStuBS.Lib.Loop MPStuBS.Lib.Run

/-! ## Registers -/

/-- The fields of `IOAPICID`. -/
inductive IdField where
  | reserved2
  | id
  | reserved1
  deriving DecidableEq

/-- The fields of `IOREDTBL_L`. -/
inductive LowField where
  | vector
  | deliveryMode
  | destinationMode
  | deliveryStatus
  | polarity
  | remoteIrr
  | triggerMode
  | mask
  | reserved
  deriving DecidableEq

/-- The fields of `IOREDTBL_H`. -/
inductive HighField where
  | reserved
  | logicalDestination
  deriving DecidableEq

@[reducible] def IdField.width : IdField → Nat
  | .reserved2 => 24
  | .id => 4
  | .reserved1 => 4

@[reducible] def LowField.width : LowField → Nat
  | .vector => 8
  | .deliveryMode => 3
  | .destinationMode => 1
  | .deliveryStatus => 1
  | .polarity => 1
  | .remoteIrr => 1
  | .triggerMode => 1
  | .mask => 1
  | .reserved => 15

@[reducible] def HighField.width : HighField → Nat
  | .reserved => 24
  | .logicalDestination => 8

/-- The fields of the three registers, as they follow one another. -/
def IdField.all : List IdField := [.reserved2, .id, .reserved1]

def LowField.all : List LowField :=
  [.vector, .deliveryMode, .destinationMode, .deliveryStatus, .polarity, .remoteIrr, .triggerMode,
    .mask, .reserved]

def HighField.all : List HighField := [.reserved, .logicalDestination]

theorem IdField.mem_all (i : IdField) : i ∈ all := by cases i <;> decide

theorem LowField.mem_all (i : LowField) : i ∈ all := by cases i <;> decide

theorem HighField.mem_all (i : HighField) : i ∈ all := by cases i <;> decide

abbrev ioapicIdLayout : BitLayout IdField 32 := .packed IdField.width IdField.all IdField.mem_all rfl

abbrev ioredtblL : BitLayout LowField 32 := .packed LowField.width LowField.all LowField.mem_all rfl

abbrev ioredtblH : BitLayout HighField 32 :=
  .packed HighField.width HighField.all HighField.mem_all rfl

/-- The fields of `IOREDTBL_L` that are R/W. -/
def writableLow : List LowField :=
  [.vector, .deliveryMode, .destinationMode, .polarity, .triggerMode, .mask]

/-- The number of `IOREDTBL_L` of a slot; `IOREDTBL_H` is the next register. -/
def lowReg (slot : Nat) : BitVec 32 := BitVec.ofNat 32 (slot * 2 + 0x10)

def highReg (slot : Nat) : BitVec 32 := BitVec.ofNat 32 (slot * 2 + 0x10 + 1)

/-- The bits of a register that software can write. -/
def writable (reg : BitVec 32) : BitVec 32 :=
  if reg = 0 then ioapicIdLayout.fieldMask [.id]
  else if 0x10 ≤ reg.toNat ∧ reg.toNat < 0x40 then
    if reg.toNat % 2 = 0 then ioredtblL.fieldMask writableLow
    else ioredtblH.fieldMask [.logicalDestination]
  else 0

/-- `DELIVERY_MODE_LOWESTPRI` -/
def lowestPri : BitVec 3 := 1

/-- `DESTINATION_MODE_LOGICAL` -/
def logicalMode : BitVec 1 := 1

/-- `POLARITY_HIGH` -/
def polarityHigh : BitVec 1 := 0

/-- `TRIGGER_MODE_EDGE` -/
def triggerEdge : BitVec 1 := 0

/-- `MASK_ENABLED` -/
def maskEnabled : BitVec 1 := 0

/-- `MASK_DISABLED` -/
def maskDisabled : BitVec 1 := 1

/-- The value of `mask`. -/
def maskBit (low : BitVec 32) : BitVec 1 := ioredtblL.get .mask low

/-- The selected register, and the registers by their numbers. -/
structure IoApic where
  ioregsel : BitVec 32
  reg : BitVec 32 → BitVec 32

namespace IoApic

/-- `*IOREGSEL_REG = reg` -/
def select (s : IoApic) (reg : BitVec 32) : IoApic := { s with ioregsel := reg }

/-- A read of `*IOWIN_REG`. -/
def load (s : IoApic) : BitVec 32 := s.reg s.ioregsel

/-- `*IOWIN_REG = value` -/
def store (s : IoApic) (value : BitVec 32) : IoApic :=
  { s with reg := Registers.store writable s.reg s.ioregsel value }

/-- The chip changes bits that software cannot write. -/
def activity (s : IoApic) (bits : BitVec 32 → BitVec 32) : IoApic :=
  { s with reg := Registers.activity writable s.reg bits }

end IoApic

/-! ## The methods -/

/-- What a method does with one register: it selects it, reads it, changes the value and writes it
back, or it selects and reads it and returns an answer. -/
inductive RegAction where
  | modify (reg : BitVec 32) (change : BitVec 32 → BitVec 32)
  | test (reg : BitVec 32) (answer : BitVec 32 → Bool)

/-- The fields of `IOREDTBL_L` that `IOAPIC::init` sets. -/
def initLow (value : BitVec 32) : BitVec 32 :=
  ioredtblL.set .mask maskDisabled (ioredtblL.set .triggerMode triggerEdge
    (ioredtblL.set .polarity polarityHigh (ioredtblL.set .destinationMode logicalMode
      (ioredtblL.set .deliveryMode lowestPri (ioredtblL.set .vector 34 value)))))

/-- One round of the loop in `IOAPIC::init` that makes the mask of the CPUs; the counter has 8
bits. -/
def cpumaskRound (cpuCount : Nat) (s : BitVec 8 × BitVec 8) :
    Option (Round (BitVec 8 × BitVec 8) (BitVec 8)) :=
  if s.1.toNat < cpuCount then some (.next (s.1 + 1, (s.2 <<< 1) + 1)) else some (.done s.2)

/-- The mask of the CPUs, at most `fuel` rounds. -/
def cpumask (fuel cpuCount : Nat) : Option (BitVec 8) := loop (cpumaskRound cpuCount) fuel (0, 0)

/-- A call of a method. `init` is given what `getIOAPICID()` returns, and the mask of the CPUs. -/
inductive IoApicCall where
  | init (ioapicID cpumask : BitVec 8)
  | config (slot vector : BitVec 8)
  | allow (slot : BitVec 8)
  | forbid (slot : BitVec 8)
  | status (slot : BitVec 8)

namespace IoApicCall

/-- `IOAPIC::init` -/
def initActions (ioapicID cpumask : BitVec 8) : List RegAction :=
  .modify 0 (ioapicIdLayout.set .id (ioapicID.setWidth 4)) :: (List.range 24).flatMap fun i =>
    [.modify (lowReg i) initLow,
      .modify (highReg i) (ioredtblH.set .logicalDestination cpumask)]

/-- `IOAPIC::config` -/
def configActions (slot vector : BitVec 8) : List RegAction :=
  [.modify (lowReg slot.toNat) fun value =>
    ioredtblL.set .triggerMode triggerEdge (ioredtblL.set .vector vector value)]

/-- `IOAPIC::allow` -/
def allowActions (slot : BitVec 8) : List RegAction :=
  [.modify (lowReg slot.toNat) (ioredtblL.set .mask maskEnabled)]

/-- `IOAPIC::forbid` -/
def forbidActions (slot : BitVec 8) : List RegAction :=
  [.modify (lowReg slot.toNat) (ioredtblL.set .mask maskDisabled)]

/-- `IOAPIC::status` -/
def statusActions (slot : BitVec 8) : List RegAction :=
  [.test (lowReg slot.toNat) fun value => decide (maskBit value = maskEnabled)]

def actions : IoApicCall → List RegAction
  | .init ioapicID cpumask => initActions ioapicID cpumask
  | .config slot vector => configActions slot vector
  | .allow slot => allowActions slot
  | .forbid slot => forbidActions slot
  | .status slot => statusActions slot

/-- The slot that a call is about. -/
def slot? : IoApicCall → Option (BitVec 8)
  | .init _ _ => none
  | .config slot _ => some slot
  | .allow slot => some slot
  | .forbid slot => some slot
  | .status slot => some slot

/-- The slot is one of the chip. -/
def SlotOk (c : IoApicCall) : Prop := ∀ slot ∈ c.slot?, slot.toNat < 24

end IoApicCall

/-- Where the access to one register is. -/
inductive AccessPc where
  | select
  | load
  | store (value : BitVec 32)

/-- The chip, the call in progress with what is left of it, and the calls that have returned, with
their answers. -/
structure IoApicRun where
  apic : IoApic
  call : Option IoApicCall
  todo : List RegAction
  pc : AccessPc
  done : List (IoApicCall × Option Bool)

/-- A method is called, the next access is made, or the chip changes bits of its own. -/
inductive IoApicLabel where
  | call (c : IoApicCall)
  | access
  | activity (bits : BitVec 32 → BitVec 32)

namespace IoApicRun

/-- No call is in progress. -/
def idle (apic : IoApic) : IoApicRun := ⟨apic, none, [], .select, []⟩

/-- The call `c` returns. -/
def ret (s : IoApicRun) (c : IoApicCall) (answer : Option Bool) : IoApicRun :=
  ⟨s.apic, none, [], .select, s.done ++ [(c, answer)]⟩

/-- One access of the call `c`. -/
def accessStep (s : IoApicRun) (c : IoApicCall) : IoApicRun :=
  match s.todo, s.pc with
  | [], _ => s.ret c none
  | .modify reg _ :: _, .select => { s with apic := s.apic.select reg, pc := .load }
  | .modify _ change :: _, .load => { s with pc := .store (change s.apic.load) }
  | .modify _ _ :: rest, .store value =>
      { s with apic := s.apic.store value, todo := rest, pc := .select }
  | .test reg _ :: _, .select => { s with apic := s.apic.select reg, pc := .load }
  | .test _ answer :: _, _ => s.ret c (some (answer s.apic.load))

def step (s : IoApicRun) : IoApicLabel → Option IoApicRun
  | .call c =>
      match s.call with
      | none => some { s with call := some c, todo := c.actions, pc := .select }
      | some _ => none
  | .access => s.call.map s.accessStep
  | .activity bits => some { s with apic := s.apic.activity bits }

end IoApicRun

/-! ## The mask of the CPUs -/

/-- The mask after `i` rounds. -/
def lowOnes (i : Nat) : BitVec 8 := BitVec.ofNat 8 (2 ^ i - 1)

theorem getLsbD_lowOnes (i c : Nat) :
    (lowOnes i).getLsbD c = (decide (c < 8) && decide (c < i)) := by
  rw [lowOnes, BitVec.getLsbD_ofNat, Nat.testBit_two_pow_sub_one]

theorem lowOnes_succ (i : Nat) : (lowOnes i <<< 1) + 1 = lowOnes (i + 1) := by
  apply BitVec.eq_of_toNat_eq
  have hpos : 0 < 2 ^ i := Nat.two_pow_pos i
  have hdouble : 2 ^ (i + 1) = 2 ^ i * 2 := pow_succ 2 i
  have hone : (1 : BitVec 8).toNat = 1 := rfl
  simp only [lowOnes, BitVec.toNat_add, BitVec.toNat_shiftLeft, BitVec.toNat_ofNat,
    Nat.shiftLeft_eq, hdouble, hone]
  omega

/-- The loop counts up to the number of CPUs, if its counter can. -/
theorem cpumask_leads {cpuCount : Nat} (i : Nat) (hi : i ≤ cpuCount) (hcount : cpuCount ≤ 256) :
    Leads (cpumaskRound cpuCount) i (0, 0) (BitVec.ofNat 8 i, lowOnes i) := by
  induction i with
  | zero => exact .refl _
  | succ i ih =>
      have hlt : (BitVec.ofNat 8 i).toNat < cpuCount := by
        rw [BitVec.toNat_ofNat, Nat.mod_eq_of_lt (by omega)]
        exact hi
      have hnext : cpumaskRound cpuCount (BitVec.ofNat 8 i, lowOnes i) =
          some (.next (BitVec.ofNat 8 (i + 1), lowOnes (i + 1))) := by
        rw [cpumaskRound, if_pos hlt, lowOnes_succ, BitVec.ofNat_add]
        rfl
      exact (ih (Nat.le_of_succ_le hi)).trans (.single hnext)

/-- The counter is always less than 256. -/
theorem loop_cpumaskRound_none {cpuCount : Nat} (hcount : 256 ≤ cpuCount) (fuel : Nat) :
    ∀ s, loop (cpumaskRound cpuCount) fuel s = none := by
  induction fuel with
  | zero => exact fun _ => rfl
  | succ fuel ih =>
      intro s
      have hlt : s.1.toNat < cpuCount := Nat.lt_of_lt_of_le s.1.isLt hcount
      have hnext : cpumaskRound cpuCount s = some (.next (s.1 + 1, (s.2 <<< 1) + 1)) := if_pos hlt
      rw [loop_of_next hnext, ih]

/-- The loop ends for up to 255 CPUs, and its mask has the bits of these CPUs, as far as it has
bits. -/
theorem cpumask_returns_iff {cpuCount : Nat} {mask : BitVec 8} :
    Returns (fun fuel => cpumask fuel cpuCount) mask ↔
      cpuCount ≤ 255 ∧ mask = lowOnes cpuCount := by
  have hreturns : cpuCount ≤ 255 →
      Returns (fun fuel => cpumask fuel cpuCount) (lowOnes cpuCount) := by
    intro hcount
    have hdone : cpumaskRound cpuCount (BitVec.ofNat 8 cpuCount, lowOnes cpuCount) =
        some (.done (lowOnes cpuCount)) := by
      rw [cpumaskRound, if_neg]
      rw [BitVec.toNat_ofNat, Nat.mod_eq_of_lt (by omega)]
      exact Nat.lt_irrefl cpuCount
    refine ⟨cpuCount + 1, fun fuel hfuel => ?_⟩
    obtain ⟨more, rfl⟩ := Nat.exists_eq_add_of_le hfuel
    have hleads := cpumask_leads cpuCount (Nat.le_refl cpuCount) (by omega)
    show loop (cpumaskRound cpuCount) (cpuCount + 1 + more) (0, 0) = _
    rw [Nat.add_assoc, hleads.loop_eq, Nat.add_comm 1 more]
    exact loop_of_done hdone
  constructor
  · intro h
    by_cases hcount : cpuCount ≤ 255
    · exact ⟨hcount, h.unique (hreturns hcount)⟩
    · obtain ⟨fuel, -, hfuel⟩ := h.exists_ge 0
      have hnone := loop_cpumaskRound_none (Nat.succ_le_of_lt (Nat.lt_of_not_le hcount)) fuel (0, 0)
      cases hnone.symm.trans hfuel
  · rintro ⟨hcount, rfl⟩
    exact hreturns hcount

end MPStuBS.Machine
