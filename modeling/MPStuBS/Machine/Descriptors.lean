import MPStuBS.Lib.BitLayout
import MPStuBS.Machine.IrqEntry

/-!
# Descriptors

The CPU finds the handler of an interrupt in two steps. The vector selects an entry of the
`idt` of `boot/startup.asm`, a gate with an offset and a selector, and the selector selects an
entry of `gdt_descriptors` of `machine/gdt.cc`, a segment with a base and a limit. Offset,
base and limit are cut into parts, which lie in different places.

The constructor of `GDTDescriptor` builds a segment with any base, but counts in
pages of 4096 bytes if the limit does not fit into 16 bits. Such a segment then ends with its last
page (`segment_covers`). The kernel's code segment has all addresses, so that every vector
leads to its own entry point (`interrupt_delivered`).
-/

set_option autoImplicit false

namespace MPStuBS.Machine

open MPStuBS.Lib MPStuBS.Lib.X86

/-! ## The entries of the tables -/

/-- The fields of `GDTDescriptor`. -/
inductive GdtField where
  | limitLow
  | baseLow
  | accessed
  | readWrite
  | conformingExpandDown
  | code
  | always1
  | dpl
  | present
  | limitHigh
  | available
  | always0
  | big
  | granularity
  | baseHigh
  deriving DecidableEq

@[reducible] def GdtField.width : GdtField → Nat
  | .limitLow => 16
  | .baseLow => 24
  | .accessed => 1
  | .readWrite => 1
  | .conformingExpandDown => 1
  | .code => 1
  | .always1 => 1
  | .dpl => 2
  | .present => 1
  | .limitHigh => 4
  | .available => 1
  | .always0 => 1
  | .big => 1
  | .granularity => 1
  | .baseHigh => 8

/-- The fields as they follow one another. -/
def GdtField.all : List GdtField :=
  [.limitLow, .baseLow, .accessed, .readWrite, .conformingExpandDown, .code, .always1, .dpl,
    .present, .limitHigh, .available, .always0, .big, .granularity, .baseHigh]

theorem GdtField.mem_all (i : GdtField) : i ∈ all := by cases i <;> decide

abbrev gdtLayout : BitLayout GdtField 64 := .packed GdtField.width GdtField.all GdtField.mem_all rfl

/-- The constructor of `GDTDescriptor` for a segment. -/
def gdtDescriptor (base limit : Word) (code user bits32 : Bool) : BitVec 64 :=
  let limitLow := if limit > 0xffff then (limit >>> 12) &&& 0x0000ffff else limit &&& 0x0000ffff
  let limitHigh := if limit > 0xffff then (limit >>> 28) &&& 0xf else (limit >>> 16) &&& 0xf
  gdtLayout.set .baseHigh (((base &&& 0xff000000) >>> 24).setWidth 8) <|
    gdtLayout.set .granularity (if limit > 0xffff then 1 else 0) <|
    gdtLayout.set .big (if bits32 then 1 else 0) <|
    gdtLayout.set .always0 0 <|
    gdtLayout.set .available 0 <|
    gdtLayout.set .limitHigh (limitHigh.setWidth 4) <|
    gdtLayout.set .present 1 <|
    gdtLayout.set .dpl (if user then 3 else 0) <|
    gdtLayout.set .always1 1 <|
    gdtLayout.set .code (if code then 1 else 0) <|
    gdtLayout.set .conformingExpandDown 0 <|
    gdtLayout.set .readWrite 1 <|
    gdtLayout.set .accessed 0 <|
    gdtLayout.set .baseLow ((base &&& 0x00ffffff).setWidth 24) <|
    gdtLayout.set .limitLow (limitLow.setWidth 16) 0

/-- `gdt_descriptors`: nothing, the code and the data of the kernel, and data and code for 16 bits.
-/
def gdtDescriptors : List (BitVec 64) :=
  [0, gdtDescriptor 0 0xffffffff true false true, gdtDescriptor 0 0xffffffff false false true,
    gdtDescriptor 0x90000 0xffff false false false, gdtDescriptor 0x90000 0xffff true false false]

/-- The words of an `idt_entry`. -/
inductive IdtField where
  | offsetLow
  | selector
  | attributes
  | offsetHigh
  deriving DecidableEq

@[reducible] def IdtField.width (_ : IdtField) : Nat := 16

def IdtField.all : List IdtField := [.offsetLow, .selector, .attributes, .offsetHigh]

theorem IdtField.mem_all (i : IdtField) : i ∈ all := by cases i <;> decide

abbrev idtLayout : BitLayout IdtField 64 := .packed IdtField.width IdtField.all IdtField.mem_all rfl

/-- The address that `startup` has in memory. -/
def multibootStartAddress : Word := 0x1000000

/-- `idt_entry`, with the addresses of `startup` and of the entry point. -/
def idtEntry (startup irqEntry : Word) : BitVec 64 :=
  let address := irqEntry - startup + multibootStartAddress
  idtLayout.set .offsetHigh (((address &&& 0xffff0000) >>> 16).setWidth 16) <|
    idtLayout.set .attributes 0x8e00 <|
    idtLayout.set .selector 0x0008 <|
    idtLayout.set .offsetLow ((address &&& 0xffff).setWidth 16) 0

/-! ## What the CPU reads -/

/-- A segment of code or data. -/
structure Segment where
  base : Word
  limit : Word
  code : Bool
  conformingExpandDown : Bool
  readWrite : Bool
  dpl : BitVec 2
  big : Bool

/-- A segment descriptor has to be present, and no descriptor of the system. -/
def Segment.ofDescriptor (d : BitVec 64) : Option Segment :=
  let limit := (d.extractLsb' 48 4).setWidth 32 <<< 16 ||| (d.extractLsb' 0 16).setWidth 32
  if d.extractLsb' 47 1 = 1 ∧ d.extractLsb' 44 1 = 1 then
    some {
      base := (d.extractLsb' 56 8).setWidth 32 <<< 24 ||| (d.extractLsb' 16 24).setWidth 32
      -- a limit in pages ends with the last byte of a page
      limit := if d.extractLsb' 55 1 = 1 then limit <<< 12 ||| 0xfff else limit
      code := d.extractLsb' 43 1 = 1
      conformingExpandDown := d.extractLsb' 42 1 = 1
      readWrite := d.extractLsb' 41 1 = 1
      dpl := d.extractLsb' 45 2
      big := d.extractLsb' 54 1 = 1 }
  else none

/-- The offsets in the segment: up to the limit, or above it in data that expand down. -/
def Segment.Contains (segment : Segment) (offset : Word) : Prop :=
  if segment.code = false ∧ segment.conformingExpandDown = true then
    segment.limit < offset ∧ (segment.big = true ∨ offset ≤ 0xffff)
  else offset ≤ segment.limit

/-- An interrupt gate. -/
structure InterruptGate where
  offset : Word
  selector : BitVec 16

/-- The gate has to be present, and an interrupt gate for 32 bits. -/
def InterruptGate.ofDescriptor (d : BitVec 64) : Option InterruptGate :=
  if d.extractLsb' 47 1 = 1 ∧ d.extractLsb' 40 5 = 0xe then
    some {
      offset := (d.extractLsb' 48 16).setWidth 32 <<< 16 ||| (d.extractLsb' 0 16).setWidth 32
      selector := d.extractLsb' 16 16 }
  else none

/-- A table of descriptors, and its size in bytes minus 1. -/
structure DescriptorTable where
  limit : Nat
  entries : List (BitVec 64)

/-- An entry of the table, which has to lie within the limit. -/
def DescriptorTable.entry (t : DescriptorTable) (index : Nat) : Option (BitVec 64) :=
  if 8 * index + 7 ≤ t.limit then t.entries[index]? else none

/-- The CPU enters the handler of an interrupt, if gate and segment allow it. -/
def deliver (idt gdt : DescriptorTable) (errorCode : Option Word) (vector : BitVec 8)
    (m : Machine) : Option Machine := do
  let gate ← InterruptGate.ofDescriptor (← idt.entry vector.toNat)
  let segment ← Segment.ofDescriptor (← gdt.entry (gate.selector >>> 3).toNat)
  -- the selector is one of the global table, the segment has the privileges of the kernel, which
  -- is interrupted, and the offset is within the segment
  if gate.selector &&& 4 = 0 ∧ segment.code ∧ segment.dpl = 0 ∧ gate.offset ≤ segment.limit then
    return interrupt errorCode gate.selector (segment.base + gate.offset) m
  else none

/-- `gdt_desc_global` -/
def gdtDescGlobal : DescriptorTable := ⟨8 * gdtDescriptors.length - 1, gdtDescriptors⟩

/-- `idt_desc_global`, with the addresses of `startup` and of the entry points. -/
def idtDescGlobal (startup : Word) (irqEntry : Nat → Word) : DescriptorTable :=
  ⟨256 * 8 - 1, (List.range 256).map fun i => idtEntry startup (irqEntry i)⟩

/-! ## Segments -/

/-- The limit of the segment that the constructor builds. -/
def effectiveLimit (limit : Word) : Word := if limit > 0xffff then limit ||| 0xfff else limit

theorem segment_base (base : Word) :
    (((base &&& 0xff000000) >>> 24).setWidth 8).setWidth 32 <<< 24 |||
      ((base &&& 0x00ffffff).setWidth 24).setWidth 32 = base := by
  rw [BitVec.ushiftRight_and_distrib, setWidth_and (by decide), setWidth_and (by decide)]
  exact join_parts base.isLt

/-- The two parts of the limit, read together. -/
theorem segment_limit (limit : Word) :
    ((if limit > 0xffff then limit >>> 28 &&& 0xf else limit >>> 16 &&& 0xf).setWidth 4).setWidth
        32 <<< 16 |||
      ((if limit > 0xffff then limit >>> 12 &&& 0xffff else limit &&& 0xffff).setWidth 16).setWidth
        32 = if limit > 0xffff then limit >>> 12 else limit := by
  by_cases hpages : limit > 0xffff
  · have hshift : limit >>> 28 = limit >>> 12 >>> 16 := (BitVec.shiftRight_add limit 12 16)
    have hlt : (limit >>> 12).toNat < 2 ^ (16 + 4) := by
      rw [BitVec.toNat_ushiftRight, Nat.shiftRight_eq_div_pow]
      have := limit.isLt
      omega
    rw [if_pos hpages, if_pos hpages, if_pos hpages, setWidth_and (by decide),
      setWidth_and (by decide), hshift]
    exact join_parts hlt
  · have hlt : limit.toNat < 2 ^ (16 + 4) := by
      have hle := mt BitVec.lt_def.2 hpages
      have hmax : (0xffff : Word).toNat = 0xffff := rfl
      omega
    rw [if_neg hpages, if_neg hpages, if_neg hpages, setWidth_and (by decide),
      setWidth_and (by decide)]
    exact join_parts hlt

/-- What the CPU reads are the fields. -/
theorem ofDescriptor_eq (d : BitVec 64) : Segment.ofDescriptor d =
    if gdtLayout.get .present d = 1 ∧ gdtLayout.get .always1 d = 1 then
      some {
        base := (gdtLayout.get .baseHigh d).setWidth 32 <<< 24 |||
          (gdtLayout.get .baseLow d).setWidth 32
        limit :=
          let limit := (gdtLayout.get .limitHigh d).setWidth 32 <<< 16 |||
            (gdtLayout.get .limitLow d).setWidth 32
          if gdtLayout.get .granularity d = 1 then limit <<< 12 ||| 0xfff else limit
        code := gdtLayout.get .code d = 1
        conformingExpandDown := gdtLayout.get .conformingExpandDown d = 1
        readWrite := gdtLayout.get .readWrite d = 1
        dpl := gdtLayout.get .dpl d
        big := gdtLayout.get .big d = 1 }
    else none := rfl

/-- The bits of an address within a page. -/
theorem ones_pageBits : ∀ i < 32, (0xfff : Word).getLsbD i = decide (i < 12) := by decide

/-- The last byte of a page. -/
theorem toNat_or_pageBits (x : Word) : (x ||| 0xfff).toNat = x.toNat / 4096 * 4096 + 4095 := by
  have hx := x.isLt
  have hpage : (x.toNat / 4096) <<< 12 = x.toNat / 4096 * 4096 := Nat.shiftLeft_eq _ 12
  have hlt : (x.toNat / 4096) <<< 12 < 2 ^ 32 := by
    rw [hpage]
    omega
  have hor := Nat.shiftLeft_add_eq_or_of_lt (show 4095 < 2 ^ 12 by decide) (x.toNat / 4096)
  rw [← shift_or_ones ones_pageBits, BitVec.toNat_or, BitVec.toNat_shiftLeft,
    BitVec.toNat_ushiftRight, Nat.shiftRight_eq_div_pow]
  show (x.toNat / 4096) <<< 12 % 2 ^ 32 ||| 4095 = _
  rw [Nat.mod_eq_of_lt hlt, ← hor, hpage]

theorem same_page_iff {x y : Word} :
    x >>> 12 = y >>> 12 ↔ x.toNat / 4096 = y.toNat / 4096 := by
  rw [← BitVec.toNat_inj, BitVec.toNat_ushiftRight, BitVec.toNat_ushiftRight,
    Nat.shiftRight_eq_div_pow, Nat.shiftRight_eq_div_pow]

theorem bit_eq_one (b : Bool) : decide ((if b then 1 else 0 : BitVec 1) = 1) = b := by
  cases b <;> decide

/-- What the CPU reads from the descriptor of a segment. -/
theorem segment_gdtDescriptor (base limit : Word) (code user bits32 : Bool) :
    Segment.ofDescriptor (gdtDescriptor base limit code user bits32) = some
      { base := base
        limit := effectiveLimit limit
        code := code
        conformingExpandDown := false
        readWrite := true
        dpl := if user then 3 else 0
        big := bits32 } := by
  have hlimit : (if (if limit > 0xffff then 1 else 0 : BitVec 1) = 1 then
      (if limit > 0xffff then limit >>> 12 else limit) <<< 12 ||| 0xfff
      else if limit > 0xffff then limit >>> 12 else limit) = effectiveLimit limit := by
    by_cases hpages : limit > 0xffff
    · rw [effectiveLimit, if_pos hpages, if_pos rfl, if_pos hpages, if_pos hpages,
        shift_or_ones ones_pageBits]
    · rw [effectiveLimit, if_neg hpages, if_neg (by decide), if_neg hpages, if_neg hpages]
  rw [ofDescriptor_eq, gdtDescriptor]
  simp (disch := decide) only [BitLayout.get_set_self, BitLayout.get_set_of_ne, segment_base,
    segment_limit, bit_eq_one, hlimit]
  rfl

/-- For every base and limit there is a segment that begins at the base and contains all offsets up
to the limit. It ends there exactly if the limit needs no pages or ends one, and otherwise with
the page. It does not expand down. -/
theorem segment_covers (base limit : Word) (code user bits32 : Bool) : ∃ segment,
    Segment.ofDescriptor (gdtDescriptor base limit code user bits32) = some segment ∧
      segment.base = base ∧ segment.code = code ∧ segment.dpl = (if user then 3 else 0) ∧
      (∀ offset : Word, segment.Contains offset ↔
        offset ≤ limit ∨ limit > 0xffff ∧ offset >>> 12 = limit >>> 12) := by
  refine ⟨_, segment_gdtDescriptor base limit code user bits32, rfl, rfl, rfl, fun offset => ?_⟩
  rw [Segment.Contains, if_neg (by simp)]
  show offset ≤ effectiveLimit limit ↔ _
  by_cases hpages : limit > 0xffff
  · rw [effectiveLimit, if_pos hpages, BitVec.le_def, BitVec.le_def, toNat_or_pageBits,
      same_page_iff]
    simp only [hpages, true_and]
    omega
  · rw [effectiveLimit, if_neg hpages]
    simp only [hpages, false_and, or_false]

/-! ## Interrupts -/

/-- The bits of the third word. -/
theorem extractLsb'_attributes (d : BitVec 64) {i k : Nat} (h : i + k ≤ 16) :
    d.extractLsb' (32 + i) k = (idtLayout.get .attributes d).extractLsb' i k := by
  apply BitVec.eq_of_getLsbD_eq
  intro j hj
  have hstart : idtLayout.start .attributes = 32 := rfl
  have hin : i + j < 16 := by omega
  rw [BitVec.getLsbD_extractLsb', BitVec.getLsbD_extractLsb', BitLayout.getLsbD_get, hstart,
    Nat.add_assoc]
  simp [hin]

theorem gate_address (address : Word) :
    (((address &&& 0xffff0000) >>> 16).setWidth 16).setWidth 32 <<< 16 |||
      ((address &&& 0xffff).setWidth 16).setWidth 32 = address := by
  rw [BitVec.ushiftRight_and_distrib, setWidth_and (by decide), setWidth_and (by decide)]
  exact join_parts address.isLt

theorem ofDescriptor_idt (d : BitVec 64) : InterruptGate.ofDescriptor d =
    if (idtLayout.get .attributes d).extractLsb' 15 1 = 1 ∧
        (idtLayout.get .attributes d).extractLsb' 8 5 = 0xe then
      some {
        offset := (idtLayout.get .offsetHigh d).setWidth 32 <<< 16 |||
          (idtLayout.get .offsetLow d).setWidth 32
        selector := idtLayout.get .selector d }
    else none := by
  rw [← extractLsb'_attributes d (by decide), ← extractLsb'_attributes d (by decide)]
  rfl

theorem gate_idtEntry (startup irqEntry : Word) :
    InterruptGate.ofDescriptor (idtEntry startup irqEntry) =
      some ⟨irqEntry - startup + multibootStartAddress, 0x0008⟩ := by
  rw [ofDescriptor_idt, idtEntry]
  simp (disch := decide) only [BitLayout.get_set_self, BitLayout.get_set_of_ne, gate_address]
  rfl

/-- The table has an entry for every vector. -/
theorem idt_entry (startup : Word) (irqEntry : Nat → Word) (vector : BitVec 8) :
    (idtDescGlobal startup irqEntry).entry vector.toNat =
      some (idtEntry startup (irqEntry vector.toNat)) := by
  have hvector : vector.toNat < 256 := vector.isLt
  have hlimit : 8 * vector.toNat + 7 ≤ 256 * 8 - 1 := by omega
  rw [DescriptorTable.entry, idtDescGlobal, if_pos hlimit, List.getElem?_map,
    List.getElem?_range hvector]
  rfl

/-- The segment that the gates select. -/
theorem selected_entry : gdtDescGlobal.entry ((0x0008 : BitVec 16) >>> 3).toNat =
    some (gdtDescriptor 0 0xffffffff true false true) := by
  have hindex : ((0x0008 : BitVec 16) >>> 3).toNat = 1 := by decide
  have hlimit : 8 * 1 + 7 ≤ 8 * gdtDescriptors.length - 1 := by decide
  rw [hindex, DescriptorTable.entry, gdtDescGlobal, if_pos hlimit]
  rfl

/-- The segment has all addresses. -/
theorem le_effectiveLimit (x : Word) : x ≤ effectiveLimit 0xffffffff := by
  have hx := x.isLt
  have hmax : (effectiveLimit 0xffffffff).toNat = 4294967295 := by decide
  rw [BitVec.le_def]
  omega

/-- The handler that gate and segment lead to is entered. -/
theorem deliver_eq {idt gdt : DescriptorTable} {vector : BitVec 8} {d d' : BitVec 64}
    {gate : InterruptGate} {segment : Segment} (errorCode : Option Word) (m : Machine)
    (hd : idt.entry vector.toNat = some d) (hgate : InterruptGate.ofDescriptor d = some gate)
    (hd' : gdt.entry (gate.selector >>> 3).toNat = some d')
    (hsegment : Segment.ofDescriptor d' = some segment) (hglobal : gate.selector &&& 4 = 0)
    (hcode : segment.code = true) (hdpl : segment.dpl = 0) (hoffset : gate.offset ≤ segment.limit) :
    deliver idt gdt errorCode vector m =
      some (interrupt errorCode gate.selector (segment.base + gate.offset) m) := by
  rw [deliver, hd]
  simp only [Option.bind_eq_bind, Option.bind_some, hgate, hd', hsegment]
  exact if_pos ⟨hglobal, hcode, hdpl, hoffset⟩

/-- Every vector leads to its own entry point, with interrupts switched off. -/
theorem interrupt_delivered (startup : Word) (irqEntry : Nat → Word) (errorCode : Option Word)
    (vector : BitVec 8) (m : Machine) :
    deliver (idtDescGlobal startup irqEntry) gdtDescGlobal errorCode vector m =
      some (interrupted errorCode (irqEntry vector.toNat - startup + multibootStartAddress) m) := by
  have hglobal : (0x0008 : BitVec 16) &&& 4 = 0 := by decide
  have hflat : ∀ x : Word, 0 + x = x := BitVec.zero_add
  have hdeliver := deliver_eq errorCode m (idt_entry startup irqEntry vector)
    (gate_idtEntry startup (irqEntry vector.toNat)) selected_entry
    (segment_gdtDescriptor 0 0xffffffff true false true) hglobal rfl rfl (le_effectiveLimit _)
  rw [hdeliver, hflat]
  rfl

end MPStuBS.Machine
