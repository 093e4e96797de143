import MPStuBS.Machine.MadtListing

/-!
# Invalid tables

`readMPCT` tests the signature and the checksum of an MP table before it reads it.
`queryACPI` tests those of the RSDP and the signature of the MADT, but neither checksum
behind the RSDP, nor the signature of the RSDT, nor its pointer. So an invalid table
leaves the configuration alone exactly if no MADT is found, or if what is read from it is
in the configuration already (`Harmless`).
-/

set_option autoImplicit false

namespace MPStuBS.Machine

open MPStuBS.Lib.Loop

/-- The tables on the way to the MADT, and the MADT itself, have their signatures and valid
checksums, and the pointer to the RSDT is not null. -/
structure AcpiTablesValid (mem : Memory) : Prop where
  rsdp : Rsdp.find mem ≠ 0 ∧ Rsdp.signatureOK mem (Rsdp.find mem) = true ∧
    Rsdp.checkSum mem (Rsdp.find mem) = true
  rsdtPtr : Rsdp.rsdtPtr mem (Rsdp.find mem) ≠ 0
  rsdt : DescriptionTable.type mem (Rsdp.rsdtPtr mem (Rsdp.find mem)) = DescriptionTable.rsdt ∧
    DescriptionTable.checkSum mem (Rsdp.rsdtPtr mem (Rsdp.find mem)) = true
  madt : madtPtr mem (Rsdp.find mem) ≠ 0 ∧
    DescriptionTable.type mem (madtPtr mem (Rsdp.find mem)) = DescriptionTable.madt ∧
    DescriptionTable.checkSum mem (madtPtr mem (Rsdp.find mem)) = true

/-- Neither detection changes anything because of an invalid table. -/
def InvalidIgnored (mem : Memory) (conf : SystemConfig) : Prop :=
  (∀ mpcth d, d.conf = conf →
    (signatureOK mem mpcth && mpbChecksumOK mem mpcth (tableLength mem mpcth)) = false →
    Returns (fun fuel => readMPCT fuel mem mpcth d) d) ∧
  (¬ AcpiTablesValid mem → Returns (fun fuel => queryACPI fuel mem conf) conf)

/-- The structures of the MADT are finitely many, they name slots that exist, and what they say is
in the configuration already: there is no room for the CPUs, and the last value for `ioapic_id` and
for each of the interrupts is the one it has. -/
def Harmless (mem : Memory) (madt : Addr) (conf : SystemConfig) : Prop :=
  (Madt.hasPcatCompat mem madt = true → conf.disablePICs = true) ∧
  ∃ entries, Madt.Visits mem (Madt.rear mem madt) (Madt.first madt) entries ∧
    (∀ e ∈ entries, Madt.slotExists mem e = true) ∧
    (∀ e ∈ entries, (Madt.processor mem e).isSome → Madt.full conf.cpuCount = true) ∧
    ((entries.filterMap (Madt.ioApic mem)).getLast?).getD conf.ioapicId = conf.ioapicId ∧
    ∀ slot, ((entries.filterMap (Madt.irq mem slot)).getLast?).getD (conf.ioapicIrqs slot) =
      conf.ioapicIrqs slot

namespace Rsdp

theorem findFrom_valid {mem : Memory} {stop : Addr} : ∀ {n : Nat} {search : Addr},
    findFrom mem stop n search ≠ 0 →
      signatureOK mem (findFrom mem stop n search) = true ∧
        checkSum mem (findFrom mem stop n search) = true := by
  intro n
  induction n with
  | zero => exact fun h => absurd rfl h
  | succ n ih =>
      intro search h
      unfold findFrom at h ⊢
      split at h
      case isTrue hlt =>
          rw [if_pos hlt]
          cases hvalid : signatureOK mem search && checkSum mem search with
          | true => exact Bool.and_eq_true_iff.1 hvalid
          | false =>
              rw [hvalid] at h
              exact ih h
      case isFalse => exact absurd rfl h

/-- What `find` returns has the signature and a valid checksum. -/
theorem find_valid {mem : Memory} (h : find mem ≠ 0) :
    signatureOK mem (find mem) = true ∧ checkSum mem (find mem) = true := by
  by_cases hfound : findIn mem (mem.read32 0x40e) 0x400 ≠ 0
  · have heq : find mem = findIn mem (mem.read32 0x40e) 0x400 := by
      simp only [find, if_pos hfound]
    rw [heq] at h ⊢
    exact findFrom_valid h
  · have heq : find mem = findIn mem 0xe0000 0x20000 := by
      simp only [find, if_neg hfound]
    rw [heq] at h ⊢
    exact findFrom_valid h

end Rsdp

namespace Madt

variable {mem : Memory} {entries : List Addr} {s t : MadtState} {conf : SystemConfig} {madt : Addr}

/-- A structure that was read names a slot that exists. -/
theorem slotExists_of_read {entry : Addr} (h : readStructure mem s entry = some t) :
    slotExists mem entry = true := by
  unfold slotExists
  rcases readStructure_cases h with ⟨htype, -⟩ | ⟨htype, -⟩ | ⟨-, hslot, -⟩ | ⟨-, -, hno, -⟩
  · have hno : isOverride mem entry = false := by rw [isOverride, htype]; rfl
    rw [hno]
    rfl
  · have hno : isOverride mem entry = false := by rw [isOverride, htype]; rfl
    rw [hno]
    rfl
  · rw [decide_eq_true hslot, Bool.or_true]
  · rw [hno]
    rfl

theorem slotExists_of_foldlM : ∀ {s : MadtState}, entries.foldlM (readStructure mem) s = some t →
    ∀ e ∈ entries, slotExists mem e = true := by
  induction entries with
  | nil => exact fun _ e he => absurd he List.not_mem_nil
  | cons entry entries ih =>
      intro s h e he
      rw [List.foldlM_cons] at h
      obtain ⟨u, hu, hrest⟩ := Option.bind_eq_some_iff.1 h
      rcases List.mem_cons.1 he with rfl | he
      · exact slotExists_of_read hu
      · exact ih hrest e he

/-- The count never falls, and if it stays then no CPU found room. -/
theorem count_of_foldlM : ∀ {s : MadtState}, entries.foldlM (readStructure mem) s = some t →
    s.conf.cpuCount ≤ t.conf.cpuCount ∧ (t.conf.cpuCount = s.conf.cpuCount →
      ∀ e ∈ entries, (processor mem e).isSome → full s.conf.cpuCount = true) := by
  induction entries with
  | nil =>
      intro s h
      obtain rfl := Option.some.inj h
      exact ⟨Nat.le_refl _, fun _ e he => absurd he List.not_mem_nil⟩
  | cons entry entries ih =>
      intro s h
      rw [List.foldlM_cons] at h
      obtain ⟨u, hu, hrest⟩ := Option.bind_eq_some_iff.1 h
      obtain ⟨hle, hall⟩ := ih hrest
      -- the first structure leaves the count, or there was room and it grows
      have hfirst : (u.conf.cpuCount = s.conf.cpuCount ∧
          ((processor mem entry).isSome → full s.conf.cpuCount = true)) ∨
          u.conf.cpuCount = s.conf.cpuCount + 1 := by
        cases hcpu : processor mem entry with
        | none => exact .inl ⟨(readStructure_noCpu hu hcpu).1, fun h => absurd h Bool.false_ne_true⟩
        | some id =>
            rcases readStructure_cpu hu hcpu with ⟨hfull, rfl⟩ | ⟨-, hadd, -⟩
            · exact .inl ⟨rfl, fun _ => hfull⟩
            · exact .inr hadd
      rcases hfirst with ⟨hsame, hfull⟩ | hadd
      · rw [hsame] at hle hall
        refine ⟨hle, fun heq e he => ?_⟩
        rcases List.mem_cons.1 he with rfl | he
        · exact hfull
        · exact hall heq e he
      · exact ⟨by omega, fun heq => by omega⟩

/-- Without room the CPUs stay as they are. -/
theorem cpus_of_foldlM : ∀ {s : MadtState}, entries.foldlM (readStructure mem) s = some t →
    (∀ e ∈ entries, (processor mem e).isSome → full s.conf.cpuCount = true) →
    t.conf.cpuCount = s.conf.cpuCount ∧ t.conf.lapicId = s.conf.lapicId ∧
      t.conf.bspId = s.conf.bspId := by
  induction entries with
  | nil =>
      intro s h _
      obtain rfl := Option.some.inj h
      exact ⟨rfl, rfl, rfl⟩
  | cons entry entries ih =>
      intro s h hroom
      rw [List.foldlM_cons] at h
      obtain ⟨u, hu, hrest⟩ := Option.bind_eq_some_iff.1 h
      have hfirst : u.conf.cpuCount = s.conf.cpuCount ∧ u.conf.lapicId = s.conf.lapicId ∧
          u.conf.bspId = s.conf.bspId := by
        cases hcpu : processor mem entry with
        | none => exact readStructure_noCpu hu hcpu
        | some id =>
            have hfull := hroom entry List.mem_cons_self (by rw [hcpu]; rfl)
            rcases readStructure_cpu hu hcpu with ⟨-, rfl⟩ | ⟨hno, -⟩
            · exact ⟨rfl, rfl, rfl⟩
            · rw [hfull] at hno
              cases hno
      obtain ⟨hcount, hids, hbsp⟩ := ih hrest fun e he => by
        rw [hfirst.1]
        exact hroom e (List.mem_cons_of_mem entry he)
      exact ⟨hcount.trans hfirst.1, hids.trans hfirst.2.1, hbsp.trans hfirst.2.2⟩

theorem compat_eq_iff : (compat mem madt conf).disablePICs = conf.disablePICs ↔
    (hasPcatCompat mem madt = true → conf.disablePICs = true) := by
  unfold compat
  cases hasPcatCompat mem madt with
  | false => exact ⟨fun _ h => absurd h Bool.false_ne_true, fun _ => rfl⟩
  | true => exact ⟨fun h _ => h.symm, fun h => (h rfl).symm⟩

theorem compat_other (mem : Memory) (madt : Addr) (conf : SystemConfig) :
    (compat mem madt conf).cpuCount = conf.cpuCount ∧
    (compat mem madt conf).ioapicId = conf.ioapicId ∧
    (compat mem madt conf).ioapicIrqs = conf.ioapicIrqs := by
  unfold compat
  split <;> exact ⟨rfl, rfl, rfl⟩

theorem compat_self (h : hasPcatCompat mem madt = true → conf.disablePICs = true) :
    compat mem madt conf = conf := by
  unfold compat
  split
  case isTrue hpcat =>
      rw [← h hpcat]
  case isFalse => rfl

/-- Parsing a MADT leaves the configuration alone exactly if the MADT is harmless. -/
theorem parse_self_iff : Returns (fun fuel => parse fuel mem madt conf) conf ↔
    Harmless mem madt conf := by
  rw [parse_iff]
  obtain ⟨hcount, hio, hirqs⟩ := compat_other mem madt conf
  constructor
  · rintro ⟨entries, t, hvisits, hfold, rfl⟩
    have hpics := foldlM_kept (fun s : MadtState => s.conf.disablePICs)
      (fun _ _ _ h => (readStructure_kept h).2) hfold
    have hioapic := foldlM_last_write (fun s : MadtState => s.conf.ioapicId) (ioApic mem)
      (fun _ _ _ h => readStructure_ioApic h) hfold
    have hirq := fun slot => foldlM_last_write (fun s : MadtState => s.conf.ioapicIrqs slot)
      (irq mem slot) (fun _ _ _ h => readStructure_irq slot h) hfold
    refine ⟨compat_eq_iff.1 hpics.symm, entries, hvisits, slotExists_of_foldlM hfold, ?_, ?_,
      fun slot => ?_⟩
    · have hall := (count_of_foldlM hfold).2 hcount.symm
      rwa [show (⟨false, compat mem madt t.conf⟩ : MadtState).conf.cpuCount = t.conf.cpuCount
        from hcount] at hall
    · simp only [hio] at hioapic
      exact hioapic.symm
    · have hslot := hirq slot
      simp only [hirqs] at hslot
      exact hslot.symm
  · rintro ⟨hpcat, entries, hvisits, hslots, hroom, hioapic, hirq⟩
    rw [compat_self hpcat]
    obtain ⟨t, ht⟩ := foldlM_isSome hslots ⟨false, conf⟩
    refine ⟨entries, t, hvisits, ht, ?_⟩
    obtain ⟨hcpus, hids, hbsp⟩ := cpus_of_foldlM ht hroom
    have hpics := foldlM_kept (fun s : MadtState => s.conf.disablePICs)
      (fun _ _ _ h => (readStructure_kept h).2) ht
    have hslotMap := foldlM_kept (fun s : MadtState => s.conf.slotMap)
      (fun _ _ _ h => (readStructure_kept h).1) ht
    have hio' := (foldlM_last_write (fun s : MadtState => s.conf.ioapicId) (ioApic mem)
      (fun _ _ _ h => readStructure_ioApic h) ht).trans hioapic
    have hirqs' : t.conf.ioapicIrqs = conf.ioapicIrqs := by
      funext slot
      exact (foldlM_last_write (fun s : MadtState => s.conf.ioapicIrqs slot)
        (irq mem slot) (fun _ _ _ h => readStructure_irq slot h) ht).trans (hirq slot)
    obtain ⟨foundBsp, count, bsp, ioapic, pics, irqs, slots, ids⟩ := t
    simp only at hcpus hids hbsp hpics hslotMap hio' hirqs'
    rw [hcpus, hids, hbsp, hpics, hslotMap, hio', hirqs']

end Madt

theorem queryACPI_self_iff (mem : Memory) (conf : SystemConfig) :
    Returns (fun fuel => queryACPI fuel mem conf) conf ↔
      (Rsdp.find mem = 0 ∨ madtPtr mem (Rsdp.find mem) = 0 ∨
        Harmless mem (madtPtr mem (Rsdp.find mem)) conf) := by
  unfold queryACPI
  by_cases hrsdp : Rsdp.find mem = 0
  · simp only [hrsdp, true_or, iff_true]
    exact ⟨0, fun _ _ => rfl⟩
  · by_cases hmadt : madtPtr mem (Rsdp.find mem) = 0
    · simp only [if_neg hrsdp, hmadt, true_or, or_true, iff_true]
      exact ⟨0, fun _ _ => rfl⟩
    · simp only [hrsdp, hmadt, false_or]
      exact Madt.parse_self_iff

/-- Invalid tables are ignored exactly if all are valid, or no MADT is found, or it is harmless. -/
theorem invalid_ignored_iff (mem : Memory) (conf : SystemConfig) :
    InvalidIgnored mem conf ↔
      (AcpiTablesValid mem ∨ Rsdp.find mem = 0 ∨ madtPtr mem (Rsdp.find mem) = 0 ∨
        Harmless mem (madtPtr mem (Rsdp.find mem)) conf) := by
  have hmps : ∀ (mpcth : Addr) (d : Detection), d.conf = conf →
      (signatureOK mem mpcth && mpbChecksumOK mem mpcth (tableLength mem mpcth)) = false →
      Returns (fun fuel => readMPCT fuel mem mpcth d) d :=
    fun _ d _ hinvalid => ⟨0, fun fuel _ => (table_invalid hinvalid fuel d).2⟩
  unfold InvalidIgnored
  rw [and_iff_right hmps, queryACPI_self_iff]
  exact Classical.or_iff_not_imp_left.symm

/-- A MADT with one CPU and a wrong checksum. -/
theorem wrong_checksum_evaluated :
    ¬ InvalidIgnored (acpiImage 0x34 0x00 [5]) .fresh := by
  intro h
  have hlists : MadtLists (acpiImage 0x34 0x00 [5]) [5] :=
    ⟨by decide +kernel, by decide +kernel, [0x9fc8c],
      Madt.visits_of_structures (n := 2) (by decide +kernel),
      List.all_eq_true.1 (by decide +kernel), by decide +kernel⟩
  have hinvalid : ¬ AcpiTablesValid (acpiImage 0x34 0x00 [5]) :=
    fun hvalid => absurd hvalid.madt.2.2 (by decide +kernel)
  obtain ⟨conf, hconf, hholds⟩ := queryACPI_holds hlists
  obtain rfl := hconf.unique (h.2 hinvalid)
  exact absurd hholds.count (by decide)

end MPStuBS.Machine
