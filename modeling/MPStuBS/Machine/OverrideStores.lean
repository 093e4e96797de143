import MPStuBS.Machine.MadtAccesses

/-!
# The stores of the table parsers

`readMPCT` stores an interrupt only if both of its numbers are in range, and a CPU only if
there is room (`tableRound_inRange`). `queryACPI` drops the CPUs that do not fit as well,
but it uses the number of the slot in an override as it is. So its stores are in range
exactly if every override names a slot that exists (`override_stores_iff`). A store that
misses the array is taken not to hit the MADT itself, which the loop goes on to read.
-/

set_option autoImplicit false

namespace MPStuBS.Machine

open MPStuBS.Lib MPStuBS.Lib.Loop

/-- Every store of the computation is to an element that exists. -/
abbrev InRange {α : Type} (x : Logged Access α) : Prop := x.All fun i => i.inRange = true

section Rules

variable {mem : Memory} {m : Addr} {k : Nat}

theorem inRange_field8 : InRange (field8 mem m k) := .note rfl

theorem inRange_field32 : InRange (field32 mem m k) := by
  intro i hi
  simp only [List.mem_cons, List.not_mem_nil, or_false] at hi
  rcases hi with rfl | rfl | rfl | rfl <;> rfl

theorem inRange_storeAt {array : ConfArray} (h : k < array.length) : InRange (storeAt array k) :=
  .note (decide_eq_true h)

end Rules

/-! ## The MP table -/

section Table

variable {mem : Memory} {m : Addr} {d : Detection}

theorem inRange_cpu {current : Nat} (h : current < cpuMax) :
    InRange (cpuAccesses mem m d current) := by
  refine inRange_field8.bind ((inRange_storeAt h).bind ?_)
  refine inRange_field8.bind ((inRange_storeAt h).bind ?_)
  refine inRange_field32.bind ((inRange_storeAt h).bind ?_)
  exact inRange_field32.bind ((inRange_storeAt h).bind .pure)

theorem inRange_processor : InRange (processorAccesses mem m d) := by
  refine inRange_field8.bind (.bind (.ite (fun _ => ?_) fun _ => .pure)
    (inRange_field8.bind (inRange_field8.bind .pure)))
  refine .bind (inRange_field8.bind (.ite (fun _ => inRange_field8.bind .pure) fun _ => .pure))
    (.ite (fun hroom => inRange_cpu ?_) fun _ => .pure)
  -- the CPU behind the ones that are counted
  exact hroom

theorem inRange_intOutput : InRange (intOutput mem m) := by
  refine inRange_field8.bind (inRange_field8.bind (inRange_field8.bind ?_))
  exact inRange_field8.bind (inRange_field8.bind .pure)

theorem inRange_mappable : InRange (mappable mem m) :=
  inRange_field8.bind (.ite (fun _ => inRange_field8.bind .pure) fun _ => .pure)

theorem inRange_iointStores (h : (mappable mem m).value = true) :
    InRange (iointStores mem m d) := by
  rw [mappable_value, decide_eq_true_iff] at h
  refine inRange_field8.bind (inRange_field8.bind ((inRange_storeAt h.2).bind ?_))
  exact inRange_field8.bind (inRange_field8.bind ((inRange_storeAt h.1).bind .pure))

theorem inRange_ioint : InRange (iointAccesses mem m d) := by
  refine inRange_field8.bind (.ite (fun _ => inRange_intOutput.bind ?_) fun _ => .pure)
  exact inRange_mappable.bind (.ite inRange_iointStores fun _ => .pure)

theorem inRange_lint : InRange (lintAccesses mem m d) := by
  refine inRange_field8.bind (.ite (fun _ => inRange_intOutput.bind ?_) fun _ => .pure)
  exact inRange_mappable.bind .pure

/-- `readMPCT` stores only to elements that exist, for every entry. -/
theorem tableRound_inRange (mem : Memory) (length : Nat) (s : TableState) :
    InRange (tableRoundAccesses mem length s) := by
  refine .ite (fun _ => .bind (inRange_field8.bind ?_) .pure) fun _ => .pure
  refine .ite (fun _ => inRange_processor.bind .pure) fun _ => ?_
  refine .ite (fun _ => .bind (inRange_field8.bind .pure) .pure) fun _ => ?_
  refine .ite (fun _ => .pure) fun _ => ?_
  refine .ite (fun _ => inRange_ioint.bind .pure) fun _ => ?_
  exact .ite (fun _ => inRange_lint.bind .pure) fun _ => .pure

end Table

/-! ## The MADT -/

namespace Madt

section Structures

variable {mem : Memory} {entry stop : Addr} {s : MadtState}

theorem inRange_localApic : InRange (localApicAccesses mem entry s) := by
  refine inRange_field32.bind (.ite (fun _ => .pure) fun _ => .ite (fun _ => .pure) fun _ => ?_)
  refine inRange_field8.bind (.ite (fun _ => .pure) fun hroom => ?_)
  exact (inRange_storeAt (Nat.lt_of_not_le hroom)).bind .pure

/-- An override that names a slot that exists. -/
theorem inRange_override (h : mem (entry + 2) = 0 → globalSystemInterrupt mem entry < 24) :
    InRange (overrideAccesses mem entry s) := by
  refine inRange_field8.bind (.ite (fun _ => .pure) fun hbus => ?_)
  refine .bind (inRange_field8.bind (inRange_field32.bind .pure)) ?_
  refine inRange_field8.bind (inRange_field32.bind (.bind (inRange_storeAt ?_) .pure))
  exact h (not_not.1 hbus)

/-- A round stores to an element that does not exist only for an override. -/
theorem inRange_round (h : structureLength mem entry ≠ 0 → slotExists mem entry = true) :
    InRange (roundAccesses mem stop (entry, s)) := by
  refine .ite (fun _ => inRange_field8.bind (inRange_field8.bind ?_)) fun _ => .pure
  refine .ite (fun _ => .pure) fun hlen => .bind ?_ (inRange_field8.bind .pure)
  refine .ite (fun _ => inRange_localApic.bind .pure) fun _ => ?_
  refine .ite (fun _ => .bind (inRange_field8.bind .pure) .pure) fun _ => ?_
  refine .ite (fun htype => inRange_override fun hbus => ?_) fun _ => .pure
  -- the structure is an override, so its slot exists
  have htwo : (mem entry).toNat = 2 := by
    rw [← BitVec.add_zero entry]
    exact htype
  have hyes : isOverride mem entry = true := by
    rw [isOverride, htwo, hbus]
    rfl
  have hslot := h hlen
  rw [slotExists, hyes, Bool.not_true, Bool.false_or] at hslot
  exact of_decide_eq_true hslot

/-- An override is stored, whatever slot it names. -/
theorem store_mem_round (hlt : entry < stop) (hlen : structureLength mem entry ≠ 0)
    (hyes : isOverride mem entry = true) :
    .store .ioapicIrqs (globalSystemInterrupt mem entry) ∈
      (roundAccesses mem stop (entry, s)).log := by
  have htype : (mem (entry + BitVec.ofNat 32 0)).toNat = 2 := by
    rw [BitVec.add_zero]
    exact toNat_of_isOverride hyes
  have hbus : mem (entry + 2) = 0 := by
    rw [isOverride, Bool.and_eq_true] at hyes
    exact beq_iff_eq.1 hyes.2
  -- it comes last in its case of the `switch`
  have hstore : .store .ioapicIrqs (globalSystemInterrupt mem entry) ∈
      (overrideAccesses mem entry s).log := by
    refine List.mem_append_right _ ?_
    show _ ∈ (if mem (entry + 2) ≠ 0 then pure (some s)
      else overrideOutput mem entry >>= fun _ => overrideStore mem entry s : Logged _ _).log
    rw [if_neg (not_not.2 hbus)]
    exact List.mem_append_right _ (List.mem_append_right _ (List.mem_append_right _
      List.mem_cons_self))
  rw [roundAccesses, if_pos hlt]
  refine List.mem_append_right _ (List.mem_append_right _ ?_)
  have hlen' : ¬ mem (entry + 1#32) = 0 := hlen
  dsimp only
  rw [if_neg hlen']
  refine List.mem_append_left _ ?_
  rw [structureAccesses, if_neg (by rw [htype]; decide), if_neg (by rw [htype]; decide),
    if_pos htype]
  exact hstore

end Structures

/-- The stores of `queryACPI` are to elements that exist. -/
def StoresInRange (mem : Memory) (conf : SystemConfig) : Prop :=
  Found mem → ∀ entry s, ComesTo mem (madtPtr mem (Rsdp.find mem)) conf entry s →
    InRange (roundAccesses mem (rear mem (madtPtr mem (Rsdp.find mem))) (entry, s))

/-- The overrides that the loop over this MADT comes to name slots that exist. -/
def SlotsExist (mem : Memory) (madt : Addr) : Prop :=
  ∀ entry, StructureAt mem madt entry → entry < rear mem madt → structureLength mem entry ≠ 0 →
    slotExists mem entry = true

/-- The stores of `queryACPI` are in range exactly if every override for the ISA bus names one of
the 24 slots. -/
theorem override_stores_iff (mem : Memory) (conf : SystemConfig) : StoresInRange mem conf ↔
    (Found mem → SlotsExist mem (madtPtr mem (Rsdp.find mem))) := by
  unfold StoresInRange
  generalize madtPtr mem (Rsdp.find mem) = madt
  constructor
  · intro hall hfound entry hentry hlt hlen
    obtain ⟨s, hs⟩ := (structureAt_iff conf).1 hentry
    cases hyes : isOverride mem entry with
    | false =>
        rw [slotExists, hyes]
        rfl
    | true =>
        have hin := hall hfound entry s hs _ (store_mem_round hlt hlen hyes)
        rw [slotExists, hyes, Bool.not_true, Bool.false_or]
        exact hin
  · intro hslots hfound entry s hs
    have hentry := (structureAt_iff conf).2 ⟨s, hs⟩
    by_cases hlt : entry < rear mem madt
    · exact inRange_round fun hlen => hslots hfound entry hentry hlt hlen
    · intro i hi
      rw [round_log_rear hlt] at hi
      exact absurd hi List.not_mem_nil

/-- One override, from interrupt 9 to slot 24. -/
def slot24Image : Memory := overrideImage 0x80 9 24

/-- Behind the array `ioapic_irqs` is `slot_map[0]`. -/
theorem override_overrun : AcpiTablesValid slot24Image ∧
    (∃ entry s, ComesTo slot24Image (madtPtr slot24Image (Rsdp.find slot24Image)) .fresh entry s ∧
      .store .ioapicIrqs 24 ∈ (roundAccesses slot24Image
        (rear slot24Image (madtPtr slot24Image (Rsdp.find slot24Image))) (entry, s)).log) ∧
    ¬ StoresInRange slot24Image .fresh := by
  have hfind : Rsdp.find slot24Image = 0xe0000 := by decide +kernel
  have hmadt : madtPtr slot24Image 0xe0000 = 0xe0060 := by decide +kernel
  have hvalid : AcpiTablesValid slot24Image := by
    constructor
    · rw [hfind]
      decide +kernel
    · rw [hfind]
      decide +kernel
    · rw [hfind]
      decide +kernel
    · rw [hfind, hmadt]
      decide +kernel
  have hfound : Found slot24Image := ⟨hvalid.rsdp.1, hvalid.madt.1⟩
  obtain ⟨s, hs⟩ : ∃ s, ComesTo slot24Image 0xe0060 .fresh 0xe008c s :=
    (structureAt_iff .fresh).1 .refl
  have hstore : .store .ioapicIrqs 24 ∈
      (roundAccesses slot24Image (rear slot24Image 0xe0060) (0xe008c, s)).log := by
    have hslot : globalSystemInterrupt slot24Image 0xe008c = 24 := by decide +kernel
    rw [← hslot]
    exact store_mem_round (by decide +kernel) (by decide +kernel) (by decide +kernel)
  refine ⟨hvalid, ?_, fun hall => ?_⟩
  · rw [hfind, hmadt]
    exact ⟨0xe008c, s, hs, hstore⟩
  · rw [StoresInRange, hfind, hmadt] at hall
    exact absurd (hall hfound 0xe008c s hs _ hstore) (by decide)

end Madt

end MPStuBS.Machine
