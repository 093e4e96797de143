import MPStuBS.Lib.Loop
import MPStuBS.Machine.SystemConfig

/-!
# The MP configuration table

`APICSystem::searchConfig` looks for the MP floating pointer structure in a range
of the memory, and `APICSystem::readMPCT` reads the configuration table that it
points to. `detectSystemType` searches five ranges, one after the other, until a
search has found more than one CPU, and all searches fill the same configuration.

The loop over the entries of a table does not advance at an entry whose type it does
not know; so the functions take the number of rounds that it may make.
-/

set_option autoImplicit false

namespace MPStuBS.Machine

open MPStuBS.Lib.Loop

/-- What a search writes: members of `APICSystem`, and the configuration that it is given. -/
structure Detection where
  compatibilityMode : BitVec 8
  cpuFamily : Nat → BitVec 32
  cpuModel : Nat → BitVec 32
  lapicVersion : Nat → BitVec 8
  conf : SystemConfig

/-- The static `system` object before the detection. -/
def Detection.fresh : Detection where
  compatibilityMode := 0
  cpuFamily _ := 0
  cpuModel _ := 0
  lapicVersion _ := 0
  conf := .fresh

/-- `APICSystem::mpbChecksumOK` -/
def mpbChecksumOK (mem : Memory) (startAddress : Addr) (len : Nat) : Bool :=
  mem.byteSum startAddress len &&& 0xff == 0

/-! ## The entries of a table -/

/-- `CPU_ENABLED` is set in the flags of a processor entry. -/
def cpuEnabled (mem : Memory) (m : Addr) : Bool := (mem (m + 3)).getLsbD 0

/-- `CPU_BOOTPROCESSOR` is set in the flags of a processor entry. -/
def cpuBootProcessor (mem : Memory) (m : Addr) : Bool := (mem (m + 3)).getLsbD 1

/-- `case MPCT_PROCESSOR` -/
def readProcessor (mem : Memory) (m : Addr) (d : Detection) : Detection :=
  if cpuEnabled mem m then
    let lapicid := (mem (m + 1)).toNat
    let conf := { d.conf with
      cpuCount := d.conf.cpuCount + 1
      bspId := if cpuBootProcessor mem m then lapicid else d.conf.bspId }
    -- the count goes on behind the end of the array, only the stores stop
    if conf.cpuCount ≤ cpuMax then
      let current := conf.cpuCount - 1
      let cpusignature := mem.read32 (m + 4)
      { d with
        conf := { conf with lapicId := Function.update conf.lapicId current lapicid }
        lapicVersion := Function.update d.lapicVersion current (mem (m + 2))
        cpuFamily := Function.update d.cpuFamily current ((cpusignature &&& 0xf00) >>> 8)
        cpuModel := Function.update d.cpuModel current ((cpusignature &&& 0xf0) >>> 4) }
    else
      { d with conf := conf }
  else
    d

/-- `case MPCT_IOAPIC` -/
def readIoapic (mem : Memory) (m : Addr) (d : Detection) : Detection :=
  { d with conf := { d.conf with ioapicId := (mem (m + 1)).toNat } }

/-- `case MPCT_IOINT` -/
def readIoint (mem : Memory) (m : Addr) (d : Detection) : Detection :=
  let srcbus := mem (m + 4)
  let srcbusirq := mem (m + 5)
  let dstirq := mem (m + 7)
  if srcbus = 0 ∧ srcbusirq.toNat < 16 ∧ dstirq.toNat < 24 then
    { d with conf := { d.conf with
      ioapicIrqs := Function.update d.conf.ioapicIrqs dstirq.toNat srcbusirq
      slotMap := Function.update d.conf.slotMap srcbusirq.toNat dstirq } }
  else
    d

/-- The `switch` over the type of the entry: the size by which it advances, and what it stores.
There is no case for a type above 4. -/
def readEntry (mem : Memory) (mpt : Addr) (d : Detection) : Option (Nat × Detection) :=
  match (mem mpt).toNat with
  -- `MPCT_PROCESSOR`, the only entry with 20 bytes
  | 0 => some (20, readProcessor mem mpt d)
  | 2 => some (8, readIoapic mem mpt d)
  | 1 => some (8, d)
  | 3 => some (8, readIoint mem mpt d)
  | 4 => some (8, d)
  | _ => none

/-! ## The table -/

/-- The signature of the table header is "PCMP". -/
def signatureOK (mem : Memory) (mpcth : Addr) : Bool :=
  mem mpcth == 0x50 && mem (mpcth + 1) == 0x43 && mem (mpcth + 2) == 0x4d &&
    mem (mpcth + 3) == 0x50

/-- `mpcth->length` -/
def tableLength (mem : Memory) (mpcth : Addr) : Nat := (mem.read16 (mpcth + 4)).toNat

/-- `slot_map` initialised with the ISA legacy interrupts. -/
def legacySlotMap (slotMap : Nat → BitVec 8) (i : Nat) : BitVec 8 :=
  if i = 0 then 2
  else if i = 1 then 1
  else if i = 2 then -1
  else if i < 16 then BitVec.ofNat 8 i
  else slotMap i

/-- The variables of the loop over the entries. -/
structure TableState where
  mpt : Addr
  count : Nat
  detection : Detection

/-- One round of the loop; `length` is the length of the table. -/
def tableRound (mem : Memory) (length : Nat) (s : TableState) : Round TableState Detection :=
  if s.count < length then
    match readEntry mem s.mpt s.detection with
    | some (size, d) => .next ⟨s.mpt + BitVec.ofNat 32 size, s.count + size, d⟩
    -- neither `mpt` nor `count` changes
    | none => .next s
  else
    .done s.detection

/-- `APICSystem::readMPCT`; the header takes 44 bytes. -/
def readMPCT (fuel : Nat) (mem : Memory) (mpcth : Addr) (d : Detection) : Option Detection :=
  if !signatureOK mem mpcth then some d
  else if !mpbChecksumOK mem mpcth (tableLength mem mpcth) then some d
  else
    loop (fun s => some (tableRound mem (tableLength mem mpcth) s)) fuel
      ⟨mpcth + 44, 44, { d with conf := { d.conf with slotMap := legacySlotMap d.conf.slotMap } }⟩

/-! ## The search for the floating pointer structure -/

/-- `searchConfig` does not continue with the next 16 bytes: there is a floating pointer structure
with a reasonable length, a checksum and a version of the specification. -/
def floatingPointer (mem : Memory) (bp : Addr) : Bool :=
  mem.read32 bp == 0x5f504d5f && mem (bp + 8) == 1 && mpbChecksumOK mem bp 16 &&
    (mem (bp + 9) == 1 || mem (bp + 9) == 4)

/-- `mpfps->physptr` -/
def physptr (mem : Memory) (mpfps : Addr) : Addr := mem.read32 (mpfps + 4)

/-- `feature1` is 0 and there is a pointer to a table. -/
def hasTable (mem : Memory) (mpfps : Addr) : Bool :=
  mem (mpfps + 11) == 0 && physptr mem mpfps != 0

/-- What `searchConfig` does with the structure that it has found. -/
def readPointer (fuel : Nat) (mem : Memory) (mpfps : Addr) (d : Detection) :
    Option (Bool × Detection) := do
  let mode := mem (mpfps + 12) &&& 0x80
  -- `disable_pics` is never taken back
  let conf := { d.conf with disablePICs := mode == 0x80 || d.conf.disablePICs }
  let d' : Detection := { d with compatibilityMode := mode, conf := conf }
  let r ← if hasTable mem mpfps then readMPCT fuel mem (physptr mem mpfps) d' else some d'
  -- a table with one CPU is no success
  some (decide (1 < r.conf.cpuCount), r)

/-- The loop of `searchConfig` over `n` paragraphs of 16 bytes. -/
def searchFrom (fuel : Nat) (mem : Memory) : Nat → Addr → Detection → Option (Bool × Detection)
  | 0, _, d => some (false, d)
  | n + 1, bp, d =>
      if floatingPointer mem bp then readPointer fuel mem bp d
      else searchFrom fuel mem n (bp + 16) d

/-- A range of the memory; the length is a multiple of 16. -/
structure SearchRange where
  base : Addr
  length : Nat

/-- `APICSystem::searchConfig` -/
def searchConfig (fuel : Nat) (mem : Memory) (r : SearchRange) (d : Detection) :
    Option (Bool × Detection) :=
  searchFrom fuel mem (r.length / 16) (r.base &&& ~~~0xf) d

/-- The five ranges: the EBDA, the end of the base memory as the BIOS data area gives it, the two
usual ends of the base memory, and the BIOS ROM. -/
def searchRanges (mem : Memory) : List SearchRange :=
  [⟨(mem.read16 0x40e).setWidth 32 <<< 4, 1024⟩,
    ⟨(mem.read16 0x413).setWidth 32 * 1024, 1024⟩,
    ⟨511 * 1024, 1024⟩,
    ⟨639 * 1024, 1024⟩,
    ⟨0x000f0000, 0x000fffff - 0x000f0000 + 1⟩]

/-- Calls of `searchConfig` joined by `||`. -/
def searchConfigs (fuel : Nat) (mem : Memory) : List SearchRange → Detection → Option Detection
  | [], d => some d
  | r :: rs, d => do
      let (found, d') ← searchConfig fuel mem r d
      if found then some d' else searchConfigs fuel mem rs d'

/-- The search of `detectSystemType` for an MP configuration. -/
def searchMPS (fuel : Nat) (mem : Memory) : Option Detection :=
  searchConfigs fuel mem (searchRanges mem) .fresh

end MPStuBS.Machine
