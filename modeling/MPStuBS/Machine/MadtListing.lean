import MPStuBS.Machine.Acpi
import MPStuBS.Machine.MpDetection

/-!
# What the MADT lists

`Visits` says which structures the loop over a MADT comes to, and the loop returns
exactly if they are finitely many and none of them stores behind an array
(`parse_iff`). For a MADT that lists the enabled processors `L`, `queryACPI` drops the
ones behind the eighth, but `readMPCT` goes on counting them: for an MP table that lists
`L` as well, both results agree exactly if `L` fits (`enumerations_agree_iff`).
-/

set_option autoImplicit false

namespace MPStuBS.Machine

open MPStuBS.Lib.Loop

namespace Madt

/-- The structures from `entry` on, up to the end or to a structure without a length. -/
inductive Visits (mem : Memory) (stop : Addr) : Addr → List Addr → Prop
  | rear {entry : Addr} : ¬ entry < stop → Visits mem stop entry []
  | empty {entry : Addr} : entry < stop → structureLength mem entry = 0 →
      Visits mem stop entry []
  | step {entry : Addr} {entries : List Addr} : entry < stop → structureLength mem entry ≠ 0 →
      Visits mem stop (next mem entry) entries → Visits mem stop entry (entry :: entries)

section Walk

variable {mem : Memory} {stop entry madt : Addr} {entries : List Addr} {s t : MadtState}
  {conf conf' : SystemConfig}

theorem round_rear (h : ¬ entry < stop) : round mem stop (entry, s) = some (.done s.conf) :=
  if_neg h

theorem round_empty (h : entry < stop) (hlen : structureLength mem entry = 0) :
    round mem stop (entry, s) = some (.done s.conf) :=
  (if_pos h).trans (if_pos hlen)

theorem round_step (h : entry < stop) (hlen : structureLength mem entry ≠ 0)
    (hread : readStructure mem s entry = some t) :
    round mem stop (entry, s) = some (.next (next mem entry, t)) := by
  simp only [round, if_pos h, if_neg hlen, hread]

/-- The loop reads the structures that it visits. -/
theorem Visits.returns (h : Visits mem stop entry entries)
    (hread : entries.foldlM (readStructure mem) s = some t) :
    Returns (fun fuel => loop (round mem stop) fuel (entry, s)) t.conf := by
  induction h generalizing s with
  | rear hlt =>
      obtain rfl := Option.some.inj hread
      refine ⟨1, fun fuel hfuel => ?_⟩
      obtain ⟨fuel, rfl⟩ := Nat.exists_eq_add_of_le' hfuel
      exact loop_of_done (round_rear hlt)
  | empty hlt hlen =>
      obtain rfl := Option.some.inj hread
      refine ⟨1, fun fuel hfuel => ?_⟩
      obtain ⟨fuel, rfl⟩ := Nat.exists_eq_add_of_le' hfuel
      exact loop_of_done (round_empty hlt hlen)
  | step hlt hlen _ ih =>
      rw [List.foldlM_cons] at hread
      obtain ⟨u, hu, hrest⟩ := Option.bind_eq_some_iff.1 hread
      obtain ⟨enough, henough⟩ := ih hrest
      refine ⟨enough + 1, fun fuel hfuel => ?_⟩
      obtain ⟨fuel, rfl⟩ := Nat.exists_eq_add_of_le' (Nat.le_of_add_left_le hfuel)
      show loop _ (fuel + 1) _ = _
      rw [loop_of_next (round_step hlt hlen hu)]
      exact henough fuel (by omega)

/-- Where the loop returns, it has visited some structures and read them. -/
theorem visits_of_loop {fuel : Nat} :
    ∀ {entry : Addr} {s : MadtState}, loop (round mem stop) fuel (entry, s) = some conf →
      ∃ entries t, Visits mem stop entry entries ∧
        entries.foldlM (readStructure mem) s = some t ∧ t.conf = conf := by
  induction fuel with
  | zero =>
      intro entry s h
      cases h
  | succ fuel ih =>
      intro entry s h
      by_cases hlt : entry < stop
      · by_cases hlen : structureLength mem entry = 0
        · rw [loop_of_done (round_empty hlt hlen)] at h
          exact ⟨[], s, .empty hlt hlen, rfl, Option.some.inj h⟩
        · cases hread : readStructure mem s entry with
          | none =>
              have hround : round mem stop (entry, s) = none := by
                simp only [round, if_pos hlt, if_neg hlen, hread]
              simp only [loop, hround] at h
              cases h
          | some u =>
              rw [loop_of_next (round_step hlt hlen hread)] at h
              obtain ⟨entries, t, hvisits, hfold, hconf⟩ := ih h
              refine ⟨entry :: entries, t, .step hlt hlen hvisits, ?_, hconf⟩
              rw [List.foldlM_cons, hread]
              exact hfold
      · rw [loop_of_done (round_rear hlt)] at h
        exact ⟨[], s, .rear hlt, rfl, Option.some.inj h⟩

/-- `queryACPI` comes to its end exactly if the structures do, and reads each of them. -/
theorem parse_iff : Returns (fun fuel => parse fuel mem madt conf) conf' ↔
    ∃ entries t, Visits mem (rear mem madt) (first madt) entries ∧
      entries.foldlM (readStructure mem) ⟨false, compat mem madt conf⟩ = some t ∧
      t.conf = conf' := by
  constructor
  · rintro ⟨enough, henough⟩
    exact visits_of_loop (henough enough (Nat.le_refl enough))
  · rintro ⟨entries, t, hvisits, hfold, rfl⟩
    exact hvisits.returns hfold

end Walk

/-- The structures that the loop comes to, in at most `n` rounds. -/
def structures (mem : Memory) (stop : Addr) : Nat → Addr → Option (List Addr)
  | 0, _ => none
  | n + 1, entry =>
      if entry < stop then
        if structureLength mem entry = 0 then some []
        else (structures mem stop n (next mem entry)).map (entry :: ·)
      else some []

theorem visits_of_structures {mem : Memory} {stop : Addr} {n : Nat} :
    ∀ {entry : Addr} {entries : List Addr}, structures mem stop n entry = some entries →
      Visits mem stop entry entries := by
  induction n with
  | zero =>
      intro entry entries h
      cases h
  | succ n ih =>
      intro entry entries h
      unfold structures at h
      by_cases hlt : entry < stop
      · rw [if_pos hlt] at h
        by_cases hlen : structureLength mem entry = 0
        · rw [if_pos hlen] at h
          obtain rfl := Option.some.inj h
          exact .empty hlt hlen
        · rw [if_neg hlen] at h
          obtain ⟨rest, hrest, rfl⟩ := Option.map_eq_some_iff.1 h
          exact .step hlt hlen (ih hrest)
      · rw [if_neg hlt] at h
        obtain rfl := Option.some.inj h
        exact .rear hlt

/-! ## What one structure changes -/

/-- The CPU that a structure lists. -/
def processor (mem : Memory) (entry : Addr) : Option Nat :=
  if (mem entry).toNat = 0 ∧ isEnabled mem entry = true then some (mem (entry + 3)).toNat else none

/-- The id that a structure stores as `ioapic_id`. -/
def ioApic (mem : Memory) (entry : Addr) : Option Int :=
  if (mem entry).toNat = 1 then some (mem (entry + 2)).toInt else none

/-- The structure overrides an ISA interrupt. -/
def isOverride (mem : Memory) (entry : Addr) : Bool :=
  (mem entry).toNat == 2 && mem (entry + 2) == 0

/-- The structure overrides nothing, or stores within `ioapic_irqs`. -/
def slotExists (mem : Memory) (entry : Addr) : Bool :=
  !isOverride mem entry || decide (globalSystemInterrupt mem entry < 24)

/-- The value that a structure stores in `ioapic_irqs[slot]`. -/
def irq (mem : Memory) (slot : Nat) (entry : Addr) : Option (BitVec 8) :=
  if isOverride mem entry = true ∧ globalSystemInterrupt mem entry = slot then
    some (mem (entry + 3)) else none

section Structure

variable {mem : Memory} {entry : Addr} {s t : MadtState}

/-- The structures by their types. -/
theorem readStructure_cases (h : readStructure mem s entry = some t) :
    ((mem entry).toNat = 0 ∧ t = readLocalApic mem entry s) ∨
    ((mem entry).toNat = 1 ∧ t = readIoApic mem entry s) ∨
    (isOverride mem entry = true ∧ globalSystemInterrupt mem entry < 24 ∧
      t = { s with conf := { s.conf with
        ioapicIrqs := Function.update s.conf.ioapicIrqs (globalSystemInterrupt mem entry)
          (mem (entry + 3)) } }) ∨
    ((mem entry).toNat ≠ 0 ∧ (mem entry).toNat ≠ 1 ∧ isOverride mem entry = false ∧ t = s) := by
  unfold readStructure at h
  split at h
  case h_1 htype => exact .inl ⟨htype, (Option.some.inj h).symm⟩
  case h_2 htype => exact .inr (.inl ⟨htype, (Option.some.inj h).symm⟩)
  case h_3 htype =>
      unfold readOverride at h
      by_cases hbus : mem (entry + 2) = 0
      · rw [if_neg (not_not.2 hbus)] at h
        split at h
        case isTrue hslot =>
            refine .inr (.inr (.inl ⟨?_, hslot, (Option.some.inj h).symm⟩))
            rw [isOverride, htype, hbus]
            rfl
        case isFalse => cases h
      · rw [if_pos hbus] at h
        refine .inr (.inr (.inr ⟨by omega, by omega, ?_, (Option.some.inj h).symm⟩))
        rw [isOverride, beq_eq_false_iff_ne.2 hbus, Bool.and_false]
  case h_4 h0 h1 h2 =>
      refine .inr (.inr (.inr ⟨h0, h1, ?_, (Option.some.inj h).symm⟩))
      rw [isOverride, beq_eq_false_iff_ne.2 h2, Bool.false_and]

/-- Only an override with a slot that does not exist is no step. -/
theorem readStructure_isSome (s : MadtState)
    (h : slotExists mem entry = true) : ∃ t, readStructure mem s entry = some t := by
  unfold readStructure
  split
  case h_1 => exact ⟨_, rfl⟩
  case h_2 => exact ⟨_, rfl⟩
  case h_3 htype =>
      unfold readOverride
      by_cases hbus : mem (entry + 2) = 0
      · have hyes : isOverride mem entry = true := by
          rw [isOverride, htype, hbus]
          rfl
        rw [slotExists, hyes, Bool.not_true, Bool.false_or] at h
        rw [if_neg (not_not.2 hbus), if_pos (of_decide_eq_true h)]
        exact ⟨_, rfl⟩
      · rw [if_pos hbus]
        exact ⟨_, rfl⟩
  case h_4 => exact ⟨_, rfl⟩

theorem toNat_of_isOverride (h : isOverride mem entry = true) : (mem entry).toNat = 2 := by
  rw [isOverride, Bool.and_eq_true] at h
  exact beq_iff_eq.1 h.1

/-- A structure that lists no CPU leaves the CPUs alone. -/
theorem readStructure_noCpu (h : readStructure mem s entry = some t)
    (hcpu : processor mem entry = none) :
    t.conf.cpuCount = s.conf.cpuCount ∧ t.conf.lapicId = s.conf.lapicId ∧
      t.conf.bspId = s.conf.bspId := by
  rcases readStructure_cases h with ⟨htype, rfl⟩ | ⟨-, rfl⟩ | ⟨-, -, rfl⟩ | ⟨-, -, -, rfl⟩
  · have hdisabled : isEnabled mem entry = false := by
      cases hen : isEnabled mem entry with
      | false => rfl
      | true =>
          rw [processor, if_pos ⟨htype, hen⟩] at hcpu
          cases hcpu
    rw [readLocalApic, hdisabled]
    exact ⟨rfl, rfl, rfl⟩
  · exact ⟨rfl, rfl, rfl⟩
  · exact ⟨rfl, rfl, rfl⟩
  · exact ⟨rfl, rfl, rfl⟩

/-- A structure that lists a CPU adds it, if there is room. -/
theorem readStructure_cpu (h : readStructure mem s entry = some t) {id : Nat}
    (hcpu : processor mem entry = some id) :
    (full s.conf.cpuCount = true ∧ t = s) ∨
    (full s.conf.cpuCount = false ∧ t.conf.cpuCount = s.conf.cpuCount + 1 ∧
      t.conf.lapicId = Function.update s.conf.lapicId (s.conf.cpuCount % 256) id) := by
  rw [processor, Option.ite_none_right_eq_some] at hcpu
  obtain ⟨⟨htype, hen⟩, hid⟩ := hcpu
  obtain rfl := Option.some.inj hid
  have ht : t = readLocalApic mem entry s := by
    rcases readStructure_cases h with ⟨-, ht⟩ | ⟨hone, -⟩ | ⟨htwo, -⟩ | ⟨hzero, -⟩
    · exact ht
    · omega
    · have := toNat_of_isOverride htwo
      omega
    · exact absurd htype hzero
  rw [ht, readLocalApic, hen]
  cases full s.conf.cpuCount with
  | true => exact .inl ⟨rfl, rfl⟩
  | false => exact .inr ⟨rfl, rfl, rfl⟩

theorem readStructure_ioApic (h : readStructure mem s entry = some t) :
    t.conf.ioapicId = (ioApic mem entry).getD s.conf.ioapicId := by
  unfold ioApic
  rcases readStructure_cases h with ⟨htype, rfl⟩ | ⟨htype, rfl⟩ | ⟨htype, -, rfl⟩ | ⟨-, hne, -, rfl⟩
  · rw [if_neg (by omega), readLocalApic]
    split
    · rfl
    · split <;> rfl
  · rw [if_pos htype]
    rfl
  · have := toNat_of_isOverride htype
    rw [if_neg (by omega)]
    rfl
  · rw [if_neg hne]
    rfl

theorem readStructure_irq (slot : Nat) (h : readStructure mem s entry = some t) :
    t.conf.ioapicIrqs slot = (irq mem slot entry).getD (s.conf.ioapicIrqs slot) := by
  have hother : isOverride mem entry = false → irq mem slot entry = none := fun hfalse =>
    if_neg fun hcond => Bool.false_ne_true (hfalse.symm.trans hcond.1)
  have hne : (mem entry).toNat ≠ 2 → isOverride mem entry = false := fun hne => by
    rw [isOverride, beq_eq_false_iff_ne.2 hne, Bool.false_and]
  rcases readStructure_cases h with ⟨htype, rfl⟩ | ⟨htype, rfl⟩ | ⟨htype, -, rfl⟩ | ⟨-, -, hno, rfl⟩
  · rw [hother (hne (by omega)), readLocalApic]
    split
    · rfl
    · split <;> rfl
  · rw [hother (hne (by omega))]
    rfl
  · show Function.update s.conf.ioapicIrqs _ _ slot = _
    by_cases hslot : globalSystemInterrupt mem entry = slot
    · rw [irq, if_pos ⟨htype, hslot⟩, hslot, Function.update_self]
      rfl
    · rw [irq, if_neg fun hcond => hslot hcond.2, Function.update_of_ne (Ne.symm hslot)]
      rfl
  · rw [hother hno]
    rfl

/-- No structure touches the slots of the ISA interrupts, or says that there are PICs. -/
theorem readStructure_kept (h : readStructure mem s entry = some t) :
    t.conf.slotMap = s.conf.slotMap ∧ t.conf.disablePICs = s.conf.disablePICs := by
  rcases readStructure_cases h with ⟨-, rfl⟩ | ⟨-, rfl⟩ | ⟨-, -, rfl⟩ | ⟨-, -, -, rfl⟩
  · rw [readLocalApic]
    split
    · exact ⟨rfl, rfl⟩
    · split <;> exact ⟨rfl, rfl⟩
  · exact ⟨rfl, rfl⟩
  · exact ⟨rfl, rfl⟩
  · exact ⟨rfl, rfl⟩

theorem foldlM_isSome {entries : List Addr}
    (h : ∀ e ∈ entries, slotExists mem e = true) :
    ∀ s : MadtState, ∃ t, entries.foldlM (readStructure mem) s = some t := by
  induction entries with
  | nil => exact fun s => ⟨s, rfl⟩
  | cons e entries ih =>
      intro s
      obtain ⟨u, hu⟩ := readStructure_isSome s (h e List.mem_cons_self)
      obtain ⟨t, ht⟩ := ih (fun e' he' => h e' (List.mem_cons_of_mem e he')) u
      refine ⟨t, ?_⟩
      rw [List.foldlM_cons, hu]
      exact ht

end Structure

/-! ## The CPUs -/

/-- Up to `CPU_MAX` the two tests are one. -/
theorem full_of_le {n : Nat} (h : n ≤ cpuMax) : full n = decide (n = cpuMax) := by
  have hmod : n % 256 = n := Nat.mod_eq_of_lt (Nat.lt_of_le_of_lt h (by decide))
  rw [full, hmod]
  by_cases hn : n = cpuMax
  · rw [hn]
    rfl
  · rw [beq_eq_false_iff_ne.2 hn, decide_eq_false hn, decide_eq_false (by omega)]
    rfl

/-- The CPU that a structure lists is appended to the first eight. -/
theorem readStructure_holds {mem : Memory} {entry : Addr} {s t : MadtState} {ids : List Nat}
    (h : Holds s.conf (ids.take cpuMax)) (hread : readStructure mem s entry = some t) :
    Holds t.conf ((ids ++ (processor mem entry).toList).take cpuMax) := by
  have hcount := h.count
  rw [List.length_take] at hcount
  cases hcpu : processor mem entry with
  | none =>
      obtain ⟨hsame, hids, -⟩ := readStructure_noCpu hread hcpu
      rw [Option.toList_none, List.append_nil]
      exact h.congr hsame hids
  | some id =>
      rw [Option.toList_some]
      have hfull := full_of_le (n := s.conf.cpuCount) (hcount ▸ Nat.min_le_left _ _)
      rcases readStructure_cpu hread hcpu with ⟨hno, ht⟩ | ⟨hyes, hadd, hids⟩
      · rw [ht]
        have heq : s.conf.cpuCount = cpuMax := of_decide_eq_true (hfull.symm.trans hno)
        rwa [List.take_append_of_le_length (by omega)]
      · have hne : s.conf.cpuCount ≠ cpuMax := of_decide_eq_false (hfull.symm.trans hyes)
        have hlt : ids.length < cpuMax := by omega
        have hmod : s.conf.cpuCount % 256 = s.conf.cpuCount :=
          Nat.mod_eq_of_lt (Nat.lt_trans (show s.conf.cpuCount < cpuMax by omega) (by decide))
        rw [List.take_of_length_le (Nat.le_of_lt hlt)] at h
        rw [List.take_of_length_le (by rw [List.length_append]; exact hlt)]
        rw [hmod] at hids
        exact h.append_one hadd (fun _ => hids) fun hle => absurd hle (by omega)

theorem foldlM_holds {mem : Memory} {entries : List Addr} :
    ∀ {s t : MadtState} {ids : List Nat}, Holds s.conf (ids.take cpuMax) →
      entries.foldlM (readStructure mem) s = some t →
      Holds t.conf ((ids ++ entries.filterMap (processor mem)).take cpuMax) := by
  induction entries with
  | nil =>
      intro s t ids h hfold
      obtain rfl := Option.some.inj hfold
      rwa [List.filterMap_nil, List.append_nil]
  | cons entry entries ih =>
      intro s t ids h hfold
      rw [List.foldlM_cons] at hfold
      obtain ⟨u, hu, hrest⟩ := Option.bind_eq_some_iff.1 hfold
      have hall := ih (readStructure_holds h hu) hrest
      rw [List.append_assoc] at hall
      cases hcpu : processor mem entry with
      | none =>
          rw [hcpu] at hall
          rwa [List.filterMap_cons_none hcpu]
      | some id =>
          rw [hcpu] at hall
          rwa [List.filterMap_cons_some hcpu]

end Madt

/-! ## Both enumerations -/

/-- A valid MP table that lists these CPUs. -/
structure MpTableLists (mem : Memory) (mpcth : Addr) (ids : List Nat) : Prop where
  valid : (signatureOK mem mpcth && mpbChecksumOK mem mpcth (tableLength mem mpcth)) = true
  ids : tableIds mem mpcth = some ids

/-- A MADT that `queryACPI` comes to and that lists these CPUs; its overrides name slots that
exist. -/
structure MadtLists (mem : Memory) (ids : List Nat) : Prop where
  rsdp : Rsdp.find mem ≠ 0
  madt : madtPtr mem (Rsdp.find mem) ≠ 0
  structures : ∃ entries,
    Madt.Visits mem (Madt.rear mem (madtPtr mem (Rsdp.find mem)))
      (Madt.first (madtPtr mem (Rsdp.find mem))) entries ∧
    (∀ e ∈ entries, Madt.slotExists mem e = true) ∧
    entries.filterMap (Madt.processor mem) = ids

/-- `queryACPI` reads the first eight CPUs that the MADT lists. -/
theorem queryACPI_holds {mem : Memory} {ids : List Nat} (h : MadtLists mem ids) :
    ∃ conf, Returns (fun fuel => queryACPI fuel mem .fresh) conf ∧
      Holds conf (ids.take cpuMax) := by
  obtain ⟨entries, hvisits, hslots, rfl⟩ := h.structures
  let madt := madtPtr mem (Rsdp.find mem)
  obtain ⟨t, ht⟩ := Madt.foldlM_isSome hslots ⟨false, Madt.compat mem madt .fresh⟩
  have hstart : Holds (Madt.compat mem madt .fresh) (List.take cpuMax []) := by
    unfold Madt.compat
    split
    · exact Holds.fresh.congr rfl rfl
    · exact Holds.fresh
  refine ⟨t.conf, ?_, Madt.foldlM_holds hstart ht⟩
  obtain ⟨enough, henough⟩ := hvisits.returns ht
  refine ⟨enough, fun fuel hfuel => ?_⟩
  show queryACPI fuel mem .fresh = _
  simp only [queryACPI, if_neg h.rsdp, if_neg h.madt]
  exact henough fuel hfuel

/-- Both configurations have the first `CPU_MAX` of these CPUs, and every index below their count
is one of the array, and initialised. -/
structure EnumerationsAgree (ids : List Nat) (mps acpi : SystemConfig) : Prop where
  mpsCount : mps.cpuCount = min ids.length cpuMax
  acpiCount : acpi.cpuCount = min ids.length cpuMax
  lapicId : ∀ i < mps.cpuCount, mps.lapicId i = acpi.lapicId i
  valid : ∀ i < mps.cpuCount, i < cpuMax ∧ ids[i]? = some (mps.lapicId i)

/-- The two detections return configurations that agree. -/
def DetectionsAgree (mem mem' : Memory) (mpcth : Addr) (ids : List Nat) : Prop :=
  ∃ d conf, Returns (fun fuel => readMPCT fuel mem mpcth .fresh) d ∧
    Returns (fun fuel => queryACPI fuel mem' .fresh) conf ∧ EnumerationsAgree ids d.conf conf

section Both

variable {mem mem' : Memory} {mpcth : Addr} {ids : List Nat}

theorem readMPCT_fresh (h : MpTableLists mem mpcth ids) :
    ∃ d, Returns (fun fuel => readMPCT fuel mem mpcth .fresh) d ∧ Holds d.conf ids := by
  obtain ⟨d, hread, hd⟩ := readMPCT_holds (d := .fresh) Holds.fresh h.ids
  exact ⟨d, ⟨65536, hread⟩, hd⟩

/-- With more CPUs the count of `readMPCT` is too large. -/
theorem not_detectionsAgree (h : MpTableLists mem mpcth ids) (hlt : cpuMax < ids.length) :
    ¬ DetectionsAgree mem mem' mpcth ids := by
  rintro ⟨d, conf, hd, -, hagree⟩
  obtain ⟨d', hd', hholds⟩ := readMPCT_fresh h
  obtain rfl := hd.unique hd'
  have hcount := hagree.mpsCount
  rw [hholds.count, Nat.min_eq_right (Nat.le_of_lt hlt)] at hcount
  omega

end Both

/-! ## The theorem and two machines -/

/-- The enumerations agree exactly if there are at most `CPU_MAX` CPUs. -/
theorem enumerations_agree_iff (mem mem' : Memory) (mpcth : Addr) (ids : List Nat)
    (hmps : MpTableLists mem mpcth ids) (hacpi : MadtLists mem' ids) :
    DetectionsAgree mem mem' mpcth ids ↔ ids.length ≤ cpuMax := by
  constructor
  · intro h
    by_contra hlt
    exact not_detectionsAgree hmps (Nat.lt_of_not_le hlt) h
  · intro hle
    obtain ⟨d, hd, hmpsHolds⟩ := readMPCT_fresh hmps
    obtain ⟨conf, hconf, hacpiHolds⟩ := queryACPI_holds hacpi
    rw [List.take_of_length_le hle] at hacpiHolds
    refine ⟨d, conf, hd, hconf, ?_, ?_, fun i hi => ?_, fun i hi => ?_⟩
    · rw [hmpsHolds.count, Nat.min_eq_left hle]
    · rw [hacpiHolds.count, Nat.min_eq_left hle]
    · have hlt : i < cpuMax := Nat.lt_of_lt_of_le hi (hmpsHolds.count ▸ hle)
      rw [hmpsHolds.lapicId i hlt, hacpiHolds.lapicId i hlt]
    · have hids : i < ids.length := hmpsHolds.count ▸ hi
      have hlt : i < cpuMax := Nat.lt_of_lt_of_le hids hle
      refine ⟨hlt, ?_⟩
      rw [hmpsHolds.lapicId i hlt, List.getD_eq_getElem _ _ hids, List.getElem?_eq_getElem hids]

/-- An MP table at 0x9fc10 with these CPUs, all enabled. -/
def mpImage (length checksum : BitVec 8) (ids : List (BitVec 8)) : Memory :=
  Memory.overlay 0x9fc10
    ([0x50, 0x43, 0x4d, 0x50, length, 0x00, 0x04, checksum] ++ List.replicate 36 0 ++
      ids.flatMap fun id => [0x00, id, 0x14, 0x01] ++ List.replicate 16 0) fun _ => 0

/-- The RSDP at the start of the EBDA, the RSDT with one pointer, and a MADT with these CPUs, all
enabled. -/
def acpiImage (length checksum : BitVec 8) (ids : List (BitVec 8)) : Memory :=
  Memory.overlay 0x40e [0x00, 0xfc, 0x09, 0x00] <|
  Memory.overlay 0x9fc00
    [0x52, 0x53, 0x44, 0x20, 0x50, 0x54, 0x52, 0x20, 0xbc, 0x00, 0x00, 0x00, 0x00, 0x00, 0x00, 0x00,
      0x20, 0xfc, 0x09, 0x00] <|
  Memory.overlay 0x9fc20
    ([0x52, 0x53, 0x44, 0x54, 0x28, 0x00, 0x00, 0x00, 0x00, 0x36] ++ List.replicate 26 0 ++
      [0x60, 0xfc, 0x09, 0x00]) <|
  Memory.overlay 0x9fc60
    ([0x41, 0x50, 0x49, 0x43, length, 0x00, 0x00, 0x00, 0x00, checksum] ++ List.replicate 34 0 ++
      ids.flatMap fun id => [0x00, 0x08, id, id, 0x01, 0x00, 0x00, 0x00]) fun _ => 0

/-- Both tables of a machine with two CPUs. -/
theorem enumerations_agree_two :
    MpTableLists (mpImage 0x54 0x4d [0, 1]) 0x9fc10 [0, 1] ∧
    MadtLists (acpiImage 0x3c 0x93 [0, 1]) [0, 1] ∧
    (DetectionsAgree (mpImage 0x54 0x4d [0, 1]) (acpiImage 0x3c 0x93 [0, 1]) 0x9fc10 [0, 1] ↔
      [0, 1].length ≤ cpuMax) := by
  have hmps : MpTableLists (mpImage 0x54 0x4d [0, 1]) 0x9fc10 [0, 1] :=
    ⟨by decide +kernel, by decide +kernel⟩
  have hacpi : MadtLists (acpiImage 0x3c 0x93 [0, 1]) [0, 1] :=
    ⟨by decide +kernel, by decide +kernel, [0x9fc8c, 0x9fc94],
      Madt.visits_of_structures (n := 3) (by decide +kernel),
      List.all_eq_true.1 (by decide +kernel), by decide +kernel⟩
  exact ⟨hmps, hacpi, enumerations_agree_iff _ _ _ _ hmps hacpi⟩

/-- On a machine with nine CPUs the MP table gives the count 9. -/
theorem not_detectionsAgree_nine :
    MpTableLists (mpImage 0xe0 0x0b [0, 1, 2, 3, 4, 5, 6, 7, 8]) 0x9fc10
      [0, 1, 2, 3, 4, 5, 6, 7, 8] ∧
    MadtLists (acpiImage 0x74 0xd6 [0, 1, 2, 3, 4, 5, 6, 7, 8]) [0, 1, 2, 3, 4, 5, 6, 7, 8] ∧
    ¬ DetectionsAgree (mpImage 0xe0 0x0b [0, 1, 2, 3, 4, 5, 6, 7, 8])
      (acpiImage 0x74 0xd6 [0, 1, 2, 3, 4, 5, 6, 7, 8]) 0x9fc10 [0, 1, 2, 3, 4, 5, 6, 7, 8] := by
  have hmps : MpTableLists (mpImage 0xe0 0x0b [0, 1, 2, 3, 4, 5, 6, 7, 8]) 0x9fc10
      [0, 1, 2, 3, 4, 5, 6, 7, 8] := ⟨by decide +kernel, by decide +kernel⟩
  refine ⟨hmps, ⟨by decide +kernel, by decide +kernel, ?_⟩, not_detectionsAgree hmps (by decide)⟩
  exact ⟨[0x9fc8c, 0x9fc94, 0x9fc9c, 0x9fca4, 0x9fcac, 0x9fcb4, 0x9fcbc, 0x9fcc4, 0x9fccc],
    Madt.visits_of_structures (n := 10) (by decide +kernel),
    List.all_eq_true.1 (by decide +kernel), by decide +kernel⟩

end MPStuBS.Machine
