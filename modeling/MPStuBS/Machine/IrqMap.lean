import MPStuBS.Machine.MadtListing

/-!
# The map of the interrupts

`ioapic_irqs` says which ISA interrupt each slot of the I/O APIC belongs to. For the
overrides of the MADT `queryACPI` fills it in, `generateIRQMap` adds the identity for
the slots that no override names, and inverts the result: `slot_map` is the slot of an
interrupt. The second loop goes through the slots in ascending order, so of two slots
with one interrupt the higher one counts.

Two slots have one interrupt if an override moves it away from a slot that no other
override claims, which keeps the identity. Then the override counts only if it leads to
a higher slot (`routing_honoured_iff`).
-/

set_option autoImplicit false

namespace MPStuBS.Machine

open MPStuBS.Lib.Loop

/-! ## The two loops -/

/-- All slots that are not remapped are configured like the legacy PIC layout. -/
def fillLegacy (ioapicIrqs : Nat → BitVec 8) : Nat → BitVec 8 :=
  (List.range 16).foldl
    (fun irqs i => if irqs i = -1 then Function.update irqs i (BitVec.ofNat 8 i) else irqs)
    ioapicIrqs

/-- The slot of each device; `device` is a signed character. -/
def invertIrqs (ioapicIrqs slotMap : Nat → BitVec 8) : Nat → BitVec 8 :=
  (List.range 24).foldl
    (fun map i =>
      let device := (ioapicIrqs i).toInt
      if 0 ≤ device ∧ device < 16 then Function.update map device.toNat (BitVec.ofNat 8 i) else map)
    slotMap

/-- `APICSystem::generateIRQMap`, called with the two arrays of a configuration. -/
def generateIRQMap (conf : SystemConfig) : SystemConfig :=
  let ioapicIrqs := fillLegacy conf.ioapicIrqs
  { conf with
    ioapicIrqs := ioapicIrqs
    slotMap := invertIrqs ioapicIrqs conf.slotMap }

theorem generateIRQMap_slotMap (conf : SystemConfig) :
    (generateIRQMap conf).slotMap = invertIrqs (fillLegacy conf.ioapicIrqs) conf.slotMap := by
  simp only [generateIRQMap]

/-- `APICSystem::getIOAPICSlot` -/
def getIOAPICSlot (sysConf : SystemConfig) (device : Nat) : Nat := (sysConf.slotMap device).toNat

/-- A slot that is not remapped gets its own number, if it is one of the first 16. -/
theorem fillLegacy_eq (irqs : Nat → BitVec 8) (slot : Nat) :
    fillLegacy irqs slot =
      if slot < 16 ∧ irqs slot = -1 then BitVec.ofNat 8 slot else irqs slot := by
  -- after `n` rounds the first `n` slots are done, and the others as they were
  have hloop : ∀ n slot, (List.range n).foldl
      (fun irqs i => if irqs i = -1 then Function.update irqs i (BitVec.ofNat 8 i) else irqs)
        irqs slot =
      if slot < n ∧ irqs slot = -1 then BitVec.ofNat 8 slot else irqs slot := by
    intro n
    induction n with
    | zero =>
        intro slot
        simp
    | succ n ih =>
        intro slot
        rw [List.range_succ, List.foldl_append, List.foldl_cons, List.foldl_nil]
        generalize (List.range n).foldl _ irqs = done at ih
        have hn : done n = irqs n := (ih n).trans (if_neg fun h => Nat.lt_irrefl n h.1)
        rw [hn]
        rcases eq_or_ne slot n with rfl | hne
        · have hlt : slot < slot + 1 := Nat.lt_succ_self slot
          by_cases hfree : irqs slot = -1
          · rw [if_pos hfree, Function.update_self, if_pos ⟨hlt, hfree⟩]
          · rw [if_neg hfree, hn, if_neg fun h => hfree h.2]
        · have hkept : (if irqs n = -1 then Function.update done n (BitVec.ofNat 8 n) else done)
              slot = done slot := by
            split
            · exact Function.update_of_ne hne _ done
            · rfl
          have hlt : slot < n + 1 ↔ slot < n := by omega
          simp only [hkept, ih slot, hlt]
  exact hloop 16 slot

/-- What round `slot` of the second loop stores as the slot of the device. -/
def slotOf (irqs : Nat → BitVec 8) (device slot : Nat) : Option (BitVec 8) :=
  if irqs slot = BitVec.ofNat 8 device then some (BitVec.ofNat 8 slot) else none

/-- A signed character from 0 to 15 is the number of an ISA device. -/
theorem device_iff {b : BitVec 8} {device : Nat} (hd : device < 16) :
    ((0 ≤ b.toInt ∧ b.toInt < 16) ∧ b.toInt.toNat = device) ↔ b = BitVec.ofNat 8 device := by
  have hint : b.toInt = if 2 * b.toNat < 256 then (b.toNat : Int) else b.toNat - 256 :=
    BitVec.toInt_eq_toNat_cond b
  have hlt : b.toNat < 256 := b.isLt
  rw [← BitVec.toNat_inj, BitVec.toNat_ofNat]
  constructor
  · rintro ⟨⟨h0, h16⟩, hnat⟩
    split at hint <;> omega
  · intro hnat
    split at hint <;> omega

/-- The highest slot of a device wins. -/
theorem invertIrqs_of_last {irqs slotMap : Nat → BitVec 8} {device slot : Nat}
    (hd : device < 16) (hslot : slot < 24) (hirq : irqs slot = BitVec.ofNat 8 device)
    (hlast : ∀ j, slot < j → j < 24 → irqs j ≠ BitVec.ofNat 8 device) :
    invertIrqs irqs slotMap device = BitVec.ofNat 8 slot := by
  refine foldl_range_last_write (fun map : Nat → BitVec 8 => map device) (slotOf irqs device) ?_
    hslot (if_pos hirq) fun j hj hj24 => if_neg (hlast j hj hj24)
  intro map i
  show (if 0 ≤ (irqs i).toInt ∧ (irqs i).toInt < 16 then
    Function.update map (irqs i).toInt.toNat (BitVec.ofNat 8 i) else map) device = _
  by_cases hdev : irqs i = BitVec.ofNat 8 device
  · obtain ⟨hrange, hnat⟩ := (device_iff hd).2 hdev
    rw [if_pos hrange, hnat, Function.update_self, slotOf, if_pos hdev]
    rfl
  · rw [slotOf, if_neg hdev]
    split
    case isTrue hrange =>
        have hne : device ≠ (irqs i).toInt.toNat := fun h =>
          hdev ((device_iff hd).1 ⟨hrange, h.symm⟩)
        exact Function.update_of_ne hne _ map
    case isFalse => rfl

/-! ## The overrides that `queryACPI` reads -/

namespace Madt

/-- The next structure is determined, so the structures that the loop visits are. -/
theorem Visits.unique {mem : Memory} {stop entry : Addr} {entries entries' : List Addr}
    (h : Visits mem stop entry entries) (h' : Visits mem stop entry entries') :
    entries = entries' := by
  induction h generalizing entries' with
  | rear hlt =>
      cases h' with
      | rear => rfl
      | empty hlt' => exact absurd hlt' hlt
      | step hlt' => exact absurd hlt' hlt
  | empty hlt hlen =>
      cases h' with
      | rear hlt' => rfl
      | empty => rfl
      | step _ hlen' => exact absurd hlen hlen'
  | step hlt hlen _ ih =>
      cases h' with
      | rear hlt' => exact absurd hlt hlt'
      | empty _ hlen' => exact absurd hlen' hlen
      | step _ _ hrest => rw [ih hrest]

/-- `queryACPI` comes to a MADT. -/
def Found (mem : Memory) : Prop := Rsdp.find mem ≠ 0 ∧ madtPtr mem (Rsdp.find mem) ≠ 0

/-- `queryACPI` comes to these structures of it. -/
def Reads (mem : Memory) (entries : List Addr) : Prop :=
  (¬ Found mem ∧ entries = []) ∨
    Found mem ∧ Visits mem (rear mem (madtPtr mem (Rsdp.find mem)))
      (first (madtPtr mem (Rsdp.find mem))) entries

theorem Reads.unique {mem : Memory} {entries entries' : List Addr} (h : Reads mem entries)
    (h' : Reads mem entries') : entries = entries' := by
  rcases h with ⟨hno, rfl⟩ | ⟨hyes, h⟩
  · exact (h'.resolve_right fun hfound => hno hfound.1).2.symm
  · exact h.unique (h'.resolve_left fun hnone => hnone.1 hyes).2

theorem queryACPI_of_not_found {mem : Memory} (h : ¬ Found mem) (fuel : Nat)
    (conf : SystemConfig) : queryACPI fuel mem conf = some conf := by
  rw [Found, not_and_or, not_not, not_not] at h
  rcases h with hfind | hmadt
  · simp only [queryACPI, if_pos hfind]
  · simp only [queryACPI, if_pos hmadt, ite_self]

theorem queryACPI_of_found {mem : Memory} (h : Found mem) (fuel : Nat) (conf : SystemConfig) :
    queryACPI fuel mem conf = parse fuel mem (madtPtr mem (Rsdp.find mem)) conf := by
  simp only [queryACPI, if_neg h.1, if_neg h.2]

theorem compat_ioapicIrqs (mem : Memory) (madt : Addr) (conf : SystemConfig) :
    (compat mem madt conf).ioapicIrqs = conf.ioapicIrqs := by
  unfold compat
  split <;> rfl

/-- `queryACPI` reads the structures in order, and before them it writes no interrupt. -/
theorem reads_of_queryACPI {mem : Memory} {conf conf' : SystemConfig}
    (h : Returns (fun fuel => queryACPI fuel mem conf) conf') :
    ∃ entries s t, Reads mem entries ∧ s.conf.ioapicIrqs = conf.ioapicIrqs ∧
      entries.foldlM (readStructure mem) s = some t ∧ t.conf = conf' := by
  by_cases hfound : Found mem
  · simp only [queryACPI_of_found hfound] at h
    obtain ⟨entries, t, hvisits, hfold, hconf⟩ := parse_iff.1 h
    exact ⟨entries, _, t, .inr ⟨hfound, hvisits⟩, compat_ioapicIrqs _ _ conf, hfold, hconf⟩
  · obtain ⟨enough, henough⟩ := h
    have hconf : some conf = some conf' :=
      (queryACPI_of_not_found hfound enough conf).symm.trans (henough enough (Nat.le_refl enough))
    exact ⟨[], ⟨false, conf⟩, _, .inl ⟨hfound, rfl⟩, rfl, rfl, Option.some.inj hconf⟩

/-- An override that `queryACPI` reads: the ISA interrupt `source` is connected to slot `pin`. -/
def Overrides (mem : Memory) (source pin : Nat) : Prop :=
  ∃ entries, Reads mem entries ∧ ∃ e ∈ entries, isOverride mem e = true ∧
    (mem (e + 3)).toNat = source ∧ globalSystemInterrupt mem e = pin

/-- The overrides connect different ISA interrupts to different slots of the I/O APIC. -/
structure IsaOverrides (mem : Memory) : Prop where
  source_lt : ∀ source pin, Overrides mem source pin → source < 16
  pin_lt : ∀ source pin, Overrides mem source pin → pin < 24
  pin_unique : ∀ source pin pin', Overrides mem source pin → Overrides mem source pin' → pin = pin'
  source_unique : ∀ source source' pin, Overrides mem source pin → Overrides mem source' pin →
    source = source'

section Irqs

variable {mem : Memory} {conf : SystemConfig}

/-- The last override for a slot is the one stored there. -/
theorem irqs_of_queryACPI (h : Returns (fun fuel => queryACPI fuel mem .fresh) conf) (pin : Nat) :
    (∃ source, Overrides mem source pin ∧ conf.ioapicIrqs pin = BitVec.ofNat 8 source) ∨
      (∀ source, ¬ Overrides mem source pin) ∧ conf.ioapicIrqs pin = -1 := by
  obtain ⟨entries, s, t, hreads, hstart, hfold, rfl⟩ := reads_of_queryACPI h
  have hlast := foldlM_last_write (fun s : MadtState => s.conf.ioapicIrqs pin) (irq mem pin)
    (fun s x t hread => readStructure_irq pin hread) hfold
  simp only [hstart] at hlast
  cases hw : (entries.filterMap (irq mem pin)).getLast? with
  | some v =>
      obtain ⟨e, he, hirq⟩ := List.mem_filterMap.1 (List.mem_of_getLast? hw)
      rw [irq, Option.ite_none_right_eq_some] at hirq
      obtain ⟨⟨hyes, hpin⟩, hv⟩ := hirq
      refine .inl ⟨(mem (e + 3)).toNat, ⟨entries, hreads, e, he, hyes, rfl, hpin⟩, ?_⟩
      rw [hlast, hw, ← Option.some.inj hv, BitVec.ofNat_toNat]
      rfl
  | none =>
      refine .inr ⟨?_, ?_⟩
      · rintro source ⟨entries', hreads', e, he, hyes, -, hpin⟩
        obtain rfl := hreads.unique hreads'
        have hmem : mem (e + 3) ∈ entries.filterMap (irq mem pin) :=
          List.mem_filterMap.2 ⟨e, he, if_pos ⟨hyes, hpin⟩⟩
        rw [List.getLast?_eq_none_iff.1 hw] at hmem
        exact absurd hmem List.not_mem_nil
      · rw [hlast, hw]
        rfl

/-- Which interrupt a slot has after the first loop: that of its override, or its own. -/
theorem fillLegacy_iff (hisa : IsaOverrides mem)
    (h : Returns (fun fuel => queryACPI fuel mem .fresh) conf) {device pin : Nat}
    (hd : device < 16) :
    fillLegacy conf.ioapicIrqs pin = BitVec.ofNat 8 device ↔
      Overrides mem device pin ∨ (pin = device ∧ ∀ source, ¬ Overrides mem source pin) := by
  have hbyte : ∀ {m n : Nat}, m < 16 → n < 16 →
      (BitVec.ofNat 8 m = BitVec.ofNat 8 n ↔ m = n) := by
    intro m n hm hn
    rw [← BitVec.toNat_inj, BitVec.toNat_ofNat, BitVec.toNat_ofNat]
    omega
  have hfree : ∀ {m : Nat}, m < 16 → BitVec.ofNat 8 m ≠ -1 := by
    intro m hm
    rw [ne_eq, ← BitVec.toNat_inj, BitVec.toNat_ofNat]
    have : (-1 : BitVec 8).toNat = 255 := rfl
    omega
  rw [fillLegacy_eq]
  rcases irqs_of_queryACPI h pin with ⟨source, hover, hirq⟩ | ⟨hnone, hirq⟩
  · have hs := hisa.source_lt source pin hover
    rw [hirq, if_neg fun hcond => hfree hs hcond.2, hbyte hs hd]
    constructor
    · rintro rfl
      exact .inl hover
    · rintro (hover' | ⟨-, hno⟩)
      · exact hisa.source_unique source device pin hover hover'
      · exact absurd hover (hno source)
  · rw [hirq]
    constructor
    · intro hdev
      split at hdev
      case isTrue hcond => exact .inr ⟨(hbyte hcond.1 hd).1 hdev, hnone⟩
      case isFalse => exact absurd hdev.symm (hfree hd)
    · rintro (hover | ⟨rfl, -⟩)
      · exact absurd hover (hnone device)
      · exact if_pos ⟨hd, rfl⟩

end Irqs

end Madt

/-! ## The routing -/

open Madt

/-- Every override is honoured, and so is the legacy layout of what no override touches. -/
structure RoutingHonoured (mem : Memory) (conf : SystemConfig) : Prop where
  overridden : ∀ source pin, Overrides mem source pin → getIOAPICSlot conf source = pin
  legacy : ∀ device < 16, (∀ pin, ¬ Overrides mem device pin) →
    (∀ source, ¬ Overrides mem source device) → getIOAPICSlot conf device = device

section Routing

variable {mem : Memory} {conf : SystemConfig} {device slot : Nat}

/-- The slot of an interrupt is the highest one that has it after the first loop. -/
theorem getIOAPICSlot_of_last (hd : device < 16) (hslot : slot < 24)
    (hirq : fillLegacy conf.ioapicIrqs slot = BitVec.ofNat 8 device)
    (hlast : ∀ j, slot < j → fillLegacy conf.ioapicIrqs j ≠ BitVec.ofNat 8 device) :
    getIOAPICSlot (generateIRQMap conf) device = slot := by
  have hmap : invertIrqs (fillLegacy conf.ioapicIrqs) conf.slotMap device = BitVec.ofNat 8 slot :=
    invertIrqs_of_last hd hslot hirq fun j hj _ => hlast j hj
  rw [getIOAPICSlot, generateIRQMap_slotMap, hmap, BitVec.toNat_ofNat]
  omega

variable (hisa : IsaOverrides mem) (h : Returns (fun fuel => queryACPI fuel mem .fresh) conf)

include hisa h

/-- An interrupt whose own slot is not claimed, and that no override moves to a higher one, stays
at that slot. -/
theorem getIOAPICSlot_own (hd : device < 16) (hown : ∀ source, ¬ Overrides mem source device)
    (hlow : ∀ pin, Overrides mem device pin → pin < device) :
    getIOAPICSlot (generateIRQMap conf) device = device := by
  refine getIOAPICSlot_of_last hd (by omega)
    ((fillLegacy_iff hisa h hd).2 (.inr ⟨rfl, hown⟩)) fun j hj hirq => ?_
  rcases (fillLegacy_iff hisa h hd).1 hirq with hover | ⟨rfl, -⟩
  · exact absurd (hlow j hover) (by omega)
  · exact Nat.lt_irrefl j hj

/-- An override to a higher slot counts, and so does one away from a slot that is claimed. -/
theorem getIOAPICSlot_overridden {source pin : Nat} (hover : Overrides mem source pin)
    (hcond : source ≤ pin ∨ ∃ source', Overrides mem source' source) :
    getIOAPICSlot (generateIRQMap conf) source = pin := by
  have hs := hisa.source_lt source pin hover
  refine getIOAPICSlot_of_last hs (hisa.pin_lt source pin hover)
    ((fillLegacy_iff hisa h hs).2 (.inl hover)) fun j hj hirq => ?_
  rcases (fillLegacy_iff hisa h hs).1 hirq with hover' | ⟨rfl, hown⟩
  · have := hisa.pin_unique source pin j hover hover'
    omega
  · rcases hcond with hle | ⟨source', hclaim⟩
    · omega
    · exact hown source' hclaim

end Routing

/-- The overrides are honoured exactly if each of them leads to a slot that is not lower, or leaves
a slot that another one claims. -/
theorem routing_honoured_iff (mem : Memory) (hisa : IsaOverrides mem) (conf : SystemConfig)
    (h : Returns (fun fuel => queryACPI fuel mem .fresh) conf) :
    RoutingHonoured mem (generateIRQMap conf) ↔
      ∀ source pin, Overrides mem source pin →
        source ≤ pin ∨ ∃ source', Overrides mem source' source := by
  constructor
  · intro hhon source pin hover
    by_contra hcond
    rw [not_or, not_exists] at hcond
    obtain ⟨hlt, hown⟩ := hcond
    have hlow : ∀ pin', Overrides mem source pin' → pin' < source := by
      intro pin' hover'
      have := hisa.pin_unique source pin pin' hover hover'
      omega
    -- the interrupt stays at its own slot
    have hslot := getIOAPICSlot_own hisa h (hisa.source_lt source pin hover) hown hlow
    exact absurd ((hhon.overridden source pin hover).symm.trans hslot) (by omega)
  · intro hcond
    refine ⟨fun source pin hover => ?_, fun device hd hno hown => ?_⟩
    · exact getIOAPICSlot_overridden hisa h hover (hcond source pin hover)
    · exact getIOAPICSlot_own hisa h hd hown fun pin hover => absurd hover (hno pin)

/-- A machine whose RSDP is at the start of the BIOS ROM, with an RSDT of one pointer, and a MADT of
these structures. -/
def madtImage (length checksum : BitVec 8) (structures : List (BitVec 8)) : Memory :=
  Memory.overlay 0xe0000
    [0x52, 0x53, 0x44, 0x20, 0x50, 0x54, 0x52, 0x20, 0xb3, 0x00, 0x00, 0x00, 0x00, 0x00, 0x00, 0x00,
      0x20, 0x00, 0x0e, 0x00] <|
  Memory.overlay 0xe0020
    ([0x52, 0x53, 0x44, 0x54, 0x28, 0x00, 0x00, 0x00, 0x00, 0x2d] ++ List.replicate 26 0 ++
      [0x60, 0x00, 0x0e, 0x00]) <|
  Memory.overlay 0xe0060
    ([0x41, 0x50, 0x49, 0x43, length, 0x00, 0x00, 0x00, 0x00, checksum] ++ List.replicate 34 0 ++
      structures) fun _ => 0

/-- The image with a single override. -/
def overrideImage (checksum source pin : BitVec 8) : Memory :=
  madtImage 0x36 checksum [0x02, 0x0a, 0x00, source, pin, 0x00, 0x00, 0x00, 0x00, 0x00]

section OneOverride

variable {mem : Memory} {entry : Addr}

theorem overrides_iff_of_reads (hreads : Reads mem [entry]) (hyes : isOverride mem entry = true)
    {source pin : Nat} : Overrides mem source pin ↔
      (mem (entry + 3)).toNat = source ∧ globalSystemInterrupt mem entry = pin := by
  constructor
  · rintro ⟨entries, hreads', e, he, -, hsource, hpin⟩
    obtain rfl := hreads.unique hreads'
    obtain rfl := List.mem_singleton.1 he
    exact ⟨hsource, hpin⟩
  · rintro ⟨hsource, hpin⟩
    exact ⟨[entry], hreads, entry, List.mem_cons_self, hyes, hsource, hpin⟩

theorem isaOverrides_of_reads (hreads : Reads mem [entry]) (hyes : isOverride mem entry = true)
    (hsource : (mem (entry + 3)).toNat < 16) (hpin : globalSystemInterrupt mem entry < 24) :
    IsaOverrides mem := by
  constructor
  · intro source pin h
    exact ((overrides_iff_of_reads hreads hyes).1 h).1 ▸ hsource
  · intro source pin h
    exact ((overrides_iff_of_reads hreads hyes).1 h).2 ▸ hpin
  · intro source pin pin' h h'
    rw [overrides_iff_of_reads hreads hyes] at h h'
    exact h.2.symm.trans h'.2
  · intro source source' pin h h'
    rw [overrides_iff_of_reads hreads hyes] at h h'
    exact h.1.symm.trans h'.1

end OneOverride

/-- Where the structures come to an end, and name slots that exist, `queryACPI` returns. -/
theorem queryACPI_returns {mem : Memory} {entries : List Addr} (hreads : Reads mem entries)
    (hslots : ∀ e ∈ entries, slotExists mem e = true) (conf : SystemConfig) :
    ∃ conf', Returns (fun fuel => queryACPI fuel mem conf) conf' := by
  rcases hreads with ⟨hno, -⟩ | ⟨hfound, hvisits⟩
  · exact ⟨conf, 0, fun fuel _ => queryACPI_of_not_found hno fuel conf⟩
  · obtain ⟨t, ht⟩ := foldlM_isSome hslots ⟨false, compat mem (madtPtr mem (Rsdp.find mem)) conf⟩
    simp only [queryACPI_of_found hfound]
    exact ⟨t.conf, hvisits.returns ht⟩

/-- What `queryACPI` reads in these images, from the addresses of the RSDP and of the MADT. -/
theorem reads_of_find {mem : Memory} {entries : List Addr} (rsdp madt : Addr) (n : Nat)
    (hfind : Rsdp.find mem = rsdp) (hrsdp : rsdp ≠ 0) (hmadt : madtPtr mem rsdp = madt)
    (hne : madt ≠ 0)
    (hentries : structures mem (rear mem madt) n (first madt) = some entries) :
    Reads mem entries := by
  refine .inr ⟨⟨hfind ▸ hrsdp, ?_⟩, ?_⟩
  · rw [hfind, hmadt]
    exact hne
  · rw [hfind, hmadt]
    exact visits_of_structures hentries

/-- The usual override: the timer, interrupt 0, is connected to slot 2. -/
theorem routing_honoured_timer : ∃ conf,
    Returns (fun fuel => queryACPI fuel (overrideImage 0x9f 0 2) .fresh) conf ∧
    RoutingHonoured (overrideImage 0x9f 0 2) (generateIRQMap conf) := by
  have hreads : Reads (overrideImage 0x9f 0 2) [0xe008c] :=
    reads_of_find 0xe0000 0xe0060 2 (by decide +kernel) (by decide)
      (by decide +kernel) (by decide) (by decide +kernel)
  have hyes : isOverride (overrideImage 0x9f 0 2) 0xe008c = true := by decide +kernel
  have hisa := isaOverrides_of_reads hreads hyes (by decide +kernel) (by decide +kernel)
  obtain ⟨conf, hconf⟩ := queryACPI_returns hreads (List.all_eq_true.1 (by decide +kernel)) .fresh
  refine ⟨conf, hconf, (routing_honoured_iff _ hisa conf hconf).2 fun source pin hover => .inl ?_⟩
  obtain ⟨rfl, rfl⟩ := (overrides_iff_of_reads hreads hyes).1 hover
  decide +kernel

/-- An override that leads to a lower slot: interrupt 9 is connected to slot 5, and the map says
that it is connected to slot 9. -/
theorem routing_lower_slot : IsaOverrides (overrideImage 0x93 9 5) ∧
    Overrides (overrideImage 0x93 9 5) 9 5 ∧ ∃ conf,
      Returns (fun fuel => queryACPI fuel (overrideImage 0x93 9 5) .fresh) conf ∧
      getIOAPICSlot (generateIRQMap conf) 9 = 9 ∧
      ¬ RoutingHonoured (overrideImage 0x93 9 5) (generateIRQMap conf) := by
  have hreads : Reads (overrideImage 0x93 9 5) [0xe008c] :=
    reads_of_find 0xe0000 0xe0060 2 (by decide +kernel) (by decide)
      (by decide +kernel) (by decide) (by decide +kernel)
  have hyes : isOverride (overrideImage 0x93 9 5) 0xe008c = true := by decide +kernel
  have hisa := isaOverrides_of_reads hreads hyes (by decide +kernel) (by decide +kernel)
  have hover : ∀ {source pin : Nat},
      Overrides (overrideImage 0x93 9 5) source pin ↔ source = 9 ∧ pin = 5 := by
    intro source pin
    have hsource : (overrideImage 0x93 9 5 (0xe008c + 3)).toNat = 9 := by decide +kernel
    have hpin : globalSystemInterrupt (overrideImage 0x93 9 5) 0xe008c = 5 := by decide +kernel
    rw [overrides_iff_of_reads hreads hyes, hsource, hpin, eq_comm, eq_comm (a := pin)]
  obtain ⟨conf, hconf⟩ := queryACPI_returns hreads (List.all_eq_true.1 (by decide +kernel)) .fresh
  have hslot : getIOAPICSlot (generateIRQMap conf) 9 = 9 := by
    refine getIOAPICSlot_own hisa hconf (by decide) (fun source h => ?_) fun pin h => ?_
    · exact absurd (hover.1 h).2 (by decide)
    · exact (hover.1 h).2 ▸ by decide
  refine ⟨hisa, hover.2 ⟨rfl, rfl⟩, conf, hconf, hslot, fun hhon => ?_⟩
  exact absurd ((hhon.overridden 9 5 (hover.2 ⟨rfl, rfl⟩)).symm.trans hslot) (by decide)

end MPStuBS.Machine
