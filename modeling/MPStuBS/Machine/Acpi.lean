import MPStuBS.Lib.Loop
import MPStuBS.Machine.SystemConfig

/-!
# The ACPI tables

`APICSystem::queryACPI` follows the root system description pointer to the RSDT, takes
the last MADT that this points to, and reads its structures into a configuration. A
pointer is an address, and 0 is the null pointer; but the code goes on with a null
pointer to the RSDT.

The loop over the structures compares addresses modulo `2 ^ 32`, so it takes the number
of rounds that it may make. A store behind the 24 elements of `ioapic_irqs` is no step.
-/

set_option autoImplicit false

namespace MPStuBS.Machine

open MPStuBS.Lib.Loop

/-- `CHARS_TO_UINT32`, where the arguments are signed characters. -/
def charsToUInt32 (a b c d : BitVec 8) : BitVec 32 :=
  a.signExtend 32 ||| b.signExtend 32 <<< 8 ||| c.signExtend 32 <<< 16 ||| d.signExtend 32 <<< 24

/-- `sums_to_zero`. Only the low byte of the sum is tested, to which the signs add nothing, and a
negative `len` is counted down as well. -/
def sumsToZero (mem : Memory) (start : Addr) (len : BitVec 32) : Bool :=
  if len = 0 then false else mem.byteSum start len.toNat &&& 0xff == 0

/-! ## System description tables -/

namespace DescriptionTable

/-- `getLength` -/
def length (mem : Memory) (table : Addr) : BitVec 32 := mem.read32 (table + 4)

/-- `check_sum` -/
def checkSum (mem : Memory) (table : Addr) : Bool := sumsToZero mem table (length mem table)

/-- `getType` -/
def type (mem : Memory) (table : Addr) : BitVec 32 :=
  charsToUInt32 (mem table) (mem (table + 1)) (mem (table + 2)) (mem (table + 3))

/-- `System_Description_Table::RSDT` -/
def rsdt : BitVec 32 := charsToUInt32 0x52 0x53 0x44 0x54

/-- `System_Description_Table::MADT`, the characters "APIC". -/
def madt : BitVec 32 := charsToUInt32 0x41 0x50 0x49 0x43

end DescriptionTable

/-! ## The root system description pointer -/

namespace Rsdp

/-- `is_ACPI_1_0` -/
def isACPI10 (mem : Memory) (rsdp : Addr) : Bool := mem (rsdp + 15) == 0

/-- `check_sum` -/
def checkSum (mem : Memory) (rsdp : Addr) : Bool :=
  if isACPI10 mem rsdp then sumsToZero mem rsdp 20
  else sumsToZero mem rsdp (mem.read32 (rsdp + 20))

/-- `getRSDTPtr` -/
def rsdtPtr (mem : Memory) (rsdp : Addr) : Addr := mem.read32 (rsdp + 16)

/-- The two words of the signature, "RSD " and "PTR ". -/
def signatureOK (mem : Memory) (search : Addr) : Bool :=
  mem.read32 search == charsToUInt32 0x52 0x53 0x44 0x20 &&
    mem.read32 (search + 4) == charsToUInt32 0x50 0x54 0x52 0x20

/-- The loop of `find(start, len)` with at most `n` rounds. -/
def findFrom (mem : Memory) (stop : Addr) : Nat → Addr → Addr
  | 0, _ => 0
  | n + 1, search =>
      if search < stop then
        if signatureOK mem search && checkSum mem search then search
        else findFrom mem stop n (search + 16)
      else 0

/-- `find(start, len)`, where `len` is a multiple of 16. After `len / 16` rounds the end is reached,
and if the end lies in front of the start there is no round. -/
def findIn (mem : Memory) (start : Addr) (len : Nat) : Addr :=
  findFrom mem (start + BitVec.ofNat 32 len) (len / 16) start

/-- `find`: the EBDA, and the BIOS ROM. -/
def find (mem : Memory) : Addr :=
  let found := findIn mem (mem.read32 0x40e) 0x400
  if found ≠ 0 then found else findIn mem 0xe0000 0x20000

end Rsdp

/-! ## The RSDT -/

namespace Rsdt

/-- `getNumSDTPtrs` -/
def numSDTPtrs (mem : Memory) (rsdt : Addr) : BitVec 32 :=
  (DescriptionTable.length mem rsdt - 36) / 4

/-- `getSDTPtr` -/
def sdtPtr (mem : Memory) (rsdt : Addr) (num : Nat) : Addr :=
  mem.read32 (rsdt + 36 + BitVec.ofNat 32 (4 * num))

/-- The loop over the pointers: a later MADT replaces an earlier one. -/
def findMadt (mem : Memory) (rsdt : Addr) : Addr :=
  (List.range (numSDTPtrs mem rsdt).toNat).foldl (fun madt idx =>
    let entry := sdtPtr mem rsdt idx
    if DescriptionTable.type mem entry = DescriptionTable.madt then entry else madt) 0

end Rsdt

/-! ## The structures of the MADT -/

/-- What the loop over the structures changes apart from `entry`. -/
structure MadtState where
  foundBsp : Bool
  conf : SystemConfig

namespace Madt

/-- `has_PCAT_COMPAT` -/
def hasPcatCompat (mem : Memory) (madt : Addr) : Bool := (mem.read32 (madt + 40)).getLsbD 0

/-- `getFirstAPICStructurePtr` -/
def first (madt : Addr) : Addr := madt + 44

/-- `getRearPtr` -/
def rear (mem : Memory) (madt : Addr) : Addr := madt + DescriptionTable.length mem madt

/-- `isEnabled` of a local APIC structure. -/
def isEnabled (mem : Memory) (entry : Addr) : Bool := (mem.read32 (entry + 4)).getLsbD 0

/-- The two tests that drop a CPU; `current_cpu` is an `unsigned char`. -/
def full (cpuCount : Nat) : Bool := cpuCount == cpuMax || decide (cpuMax ≤ cpuCount % 256)

/-- `case LOCAL_APIC` -/
def readLocalApic (mem : Memory) (entry : Addr) (s : MadtState) : MadtState :=
  if !isEnabled mem entry then s
  else if full s.conf.cpuCount then s
  else
    let lapicId := (mem (entry + 3)).toNat
    let currentCpu := s.conf.cpuCount % 256
    { foundBsp := true
      conf := { s.conf with
        cpuCount := s.conf.cpuCount + 1
        lapicId := Function.update s.conf.lapicId currentCpu lapicId
        bspId := if s.foundBsp then s.conf.bspId else lapicId } }

/-- `case IO_APIC` -/
def readIoApic (mem : Memory) (entry : Addr) (s : MadtState) : MadtState :=
  { s with conf := { s.conf with ioapicId := (mem (entry + 2)).toInt } }

/-- `getGlobalSystemInterrupt` of a source override. -/
def globalSystemInterrupt (mem : Memory) (entry : Addr) : Nat := (mem.read32 (entry + 4)).toNat

/-- `case SOURCE_OVERRIDE`; the index comes from the table as it is. -/
def readOverride (mem : Memory) (entry : Addr) (s : MadtState) : Option MadtState :=
  if mem (entry + 2) ≠ 0 then some s
  else if globalSystemInterrupt mem entry < 24 then
    some { s with conf := { s.conf with
      ioapicIrqs := Function.update s.conf.ioapicIrqs (globalSystemInterrupt mem entry)
        (mem (entry + 3)) } }
  else none

/-- The `switch` over the type of the structure. -/
def readStructure (mem : Memory) (s : MadtState) (entry : Addr) : Option MadtState :=
  match (mem entry).toNat with
  | 0 => some (readLocalApic mem entry s)
  | 1 => some (readIoApic mem entry s)
  | 2 => readOverride mem entry s
  | _ => some s

/-- `getLength` of a structure. -/
def structureLength (mem : Memory) (entry : Addr) : BitVec 8 := mem (entry + 1)

/-- `getNextAPICStructurePtr` -/
def next (mem : Memory) (entry : Addr) : Addr := entry + (structureLength mem entry).setWidth 32

/-- One round of `while (entry < end)`. -/
def round (mem : Memory) (stop : Addr) (s : Addr × MadtState) :
    Option (Round (Addr × MadtState) SystemConfig) :=
  if s.1 < stop then
    if structureLength mem s.1 = 0 then some (.done s.2.conf)
    else
      match readStructure mem s.2 s.1 with
      | none => none
      | some t => some (.next (next mem s.1, t))
  else some (.done s.2.conf)

/-- `conf.disablePICs = true`, if the MADT says that there are PICs. -/
def compat (mem : Memory) (madt : Addr) (conf : SystemConfig) : SystemConfig :=
  if hasPcatCompat mem madt then { conf with disablePICs := true } else conf

/-- `queryACPI` from the MADT on. -/
def parse (fuel : Nat) (mem : Memory) (madt : Addr) (conf : SystemConfig) : Option SystemConfig :=
  loop (round mem (rear mem madt)) fuel (first madt, ⟨false, compat mem madt conf⟩)

end Madt

/-- The MADT that `queryACPI` comes to from this RSDP. -/
def madtPtr (mem : Memory) (rsdp : Addr) : Addr := Rsdt.findMadt mem (Rsdp.rsdtPtr mem rsdp)

/-- `APICSystem::queryACPI`. A null pointer to the RSDT is only reported. -/
def queryACPI (fuel : Nat) (mem : Memory) (conf : SystemConfig) : Option SystemConfig :=
  let rsdp := Rsdp.find mem
  if rsdp = 0 then some conf
  else
    let madt := madtPtr mem rsdp
    if madt = 0 then some conf else Madt.parse fuel mem madt conf

end MPStuBS.Machine
