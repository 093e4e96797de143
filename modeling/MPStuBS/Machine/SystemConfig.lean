import Mathlib.Logic.Function.Basic

/-!
# The system configuration

The physical memory that the detection code reads, and `SystemConfig`, which it
fills in. An address is a 32-bit word, and words lie in memory with the low byte
first. The arrays of the configuration are total functions; `ioapic_irqs` has 24
elements, `slot_map` 16 and `lapic_id` `CPU_MAX`. The count of the CPUs is a number:
a table has less than 65536 bytes, and few tables are read.
-/

set_option autoImplicit false

namespace MPStuBS.Machine

/-- A physical address. -/
abbrev Addr := BitVec 32

/-- The bytes of the physical memory. -/
abbrev Memory := Addr → BitVec 8

namespace Memory

/-- An `unsigned short`. -/
def read16 (mem : Memory) (a : Addr) : BitVec 16 := mem (a + 1) ++ mem a

/-- An `unsigned int`. -/
def read32 (mem : Memory) (a : Addr) : BitVec 32 :=
  mem (a + 3) ++ mem (a + 2) ++ mem (a + 1) ++ mem a

/-- The sum of `len` bytes. -/
def byteSum (mem : Memory) (start : Addr) : Nat → Nat
  | 0 => 0
  | len + 1 => (mem start).toNat + mem.byteSum (start + 1) len

end Memory

/-- `CPU_MAX` -/
def cpuMax : Nat := 8

/-- `struct system_configuration` -/
structure SystemConfig where
  cpuCount : Nat
  bspId : Nat
  ioapicId : Int
  disablePICs : Bool
  ioapicIrqs : Nat → BitVec 8
  slotMap : Nat → BitVec 8
  lapicId : Nat → Nat

namespace SystemConfig

/-- The constructor. It leaves `lapic_id` alone, which is zero in a global object. -/
def fresh : SystemConfig where
  cpuCount := 0
  bspId := 0
  ioapicId := -1
  disablePICs := false
  ioapicIrqs _ := -1
  slotMap _ := -1
  lapicId _ := 0

/-- The choice of `detectSystemType` between the two configurations. -/
def choose (acpiConf mpsConf : SystemConfig) : SystemConfig :=
  if mpsConf.cpuCount ≤ acpiConf.cpuCount then acpiConf else mpsConf

/-- `*sys_conf` after `detectSystemType`: without a second CPU the count is set to 1. -/
def detected (acpiConf mpsConf : SystemConfig) : SystemConfig :=
  let sysConf := choose acpiConf mpsConf
  if 1 < sysConf.cpuCount then sysConf else { sysConf with cpuCount := 1 }

/-- So `main` finds at least one CPU. -/
theorem detected_pos (acpiConf mpsConf : SystemConfig) :
    1 ≤ (detected acpiConf mpsConf).cpuCount := by
  rw [detected]
  generalize choose acpiConf mpsConf = sysConf
  split
  case isTrue hseveral => exact Nat.le_of_lt hseveral
  case isFalse => exact Nat.le_refl 1

/-- With several CPUs in the MP table, and none in the ACPI tables, the former is chosen. -/
theorem detected_mps {acpiConf mpsConf : SystemConfig} (hacpi : acpiConf.cpuCount = 0)
    (hmps : 1 < mpsConf.cpuCount) : detected acpiConf mpsConf = mpsConf := by
  have hchoose : choose acpiConf mpsConf = mpsConf := if_neg (by omega)
  rw [detected, hchoose]
  exact if_pos hmps

end SystemConfig

end MPStuBS.Machine
