import MPStuBS.Machine.InvalidTables
import MPStuBS.Machine.IrqMap
import MPStuBS.Machine.TableAccesses

/-!
# The accesses of the MADT parser

The loop of `queryACPI` with a log of its accesses, as in `TableAccesses`. A store behind
the end of `ioapic_irqs` is logged as well, and the loop goes on, since `entry` and `end`
are local variables; such a store is taken not to hit the MADT itself. Where no store
misses the array this is the loop of the detection (`roundAccesses_value`).

The loop tests whether a structure begins in front of the end of the MADT, and whether its
length is zero. It reads behind the end exactly if a structure ends too early for what its
type makes the loop read, whatever length it declares (`table_accesses_iff`).
-/

set_option autoImplicit false

namespace MPStuBS.Machine.Madt

open MPStuBS.Lib MPStuBS.Lib.Loop

/-! ## The structures -/

/-- `case LOCAL_APIC` -/
def localApicAccesses (mem : Memory) (entry : Addr) (s : MadtState) :
    Logged Access MadtState := do
  let flags ← field32 mem entry 4
  if !flags.getLsbD 0 then pure s
  else if s.conf.cpuCount = cpuMax then pure s
  else do
    let lapicId ← field8 mem entry 3
    let currentCpu := s.conf.cpuCount % 256
    if cpuMax ≤ currentCpu then pure s
    else do
      storeAt .lapicId currentCpu
      pure
        { foundBsp := true
          conf := { s.conf with
            cpuCount := s.conf.cpuCount + 1
            lapicId := Function.update s.conf.lapicId currentCpu lapicId.toNat
            bspId := if s.foundBsp then s.conf.bspId else lapicId.toNat } }

/-- `case IO_APIC` -/
def ioApicAccesses (mem : Memory) (entry : Addr) (s : MadtState) : Logged Access MadtState := do
  let apicId ← field8 mem entry 2
  pure { s with conf := { s.conf with ioapicId := apicId.toInt } }

/-- The debug output for an override. -/
def overrideOutput (mem : Memory) (entry : Addr) : Logged Access Unit := do
  let _ ← field8 mem entry 3
  let _ ← field32 mem entry 4
  pure ()

/-- The store of an override. -/
def overrideStore (mem : Memory) (entry : Addr) (s : MadtState) :
    Logged Access (Option MadtState) := do
  let source ← field8 mem entry 3
  let slot ← field32 mem entry 4
  storeAt .ioapicIrqs slot.toNat
  pure (if slot.toNat < 24 then
    some { s with conf := { s.conf with
      ioapicIrqs := Function.update s.conf.ioapicIrqs slot.toNat source } }
    else none)

/-- `case SOURCE_OVERRIDE` -/
def overrideAccesses (mem : Memory) (entry : Addr) (s : MadtState) :
    Logged Access (Option MadtState) := do
  let bus ← field8 mem entry 2
  if bus ≠ 0 then pure (some s)
  else do
    overrideOutput mem entry
    overrideStore mem entry s

/-- The `switch` over the type of the structure. -/
def structureAccesses (mem : Memory) (s : MadtState) (entry : Addr) (type : BitVec 8) :
    Logged Access (Option MadtState) :=
  if type.toNat = 0 then do
    let t ← localApicAccesses mem entry s
    pure (some t)
  else if type.toNat = 1 then do
    let t ← ioApicAccesses mem entry s
    pure (some t)
  else if type.toNat = 2 then overrideAccesses mem entry s
  else pure (some s)

/-- One round of the loop. A store behind the array changes neither `entry` nor `end`. -/
def roundAccesses (mem : Memory) (stop : Addr) (s : Addr × MadtState) :
    Logged Access (Round (Addr × MadtState) SystemConfig) :=
  if s.1 < stop then do
    let type ← field8 mem s.1 0
    let length ← field8 mem s.1 1
    if length = 0 then pure (.done s.2.conf)
    else do
      let t ← structureAccesses mem s.2 s.1 type
      let length ← field8 mem s.1 1
      pure (.next (s.1 + length.setWidth 32, t.getD s.2))
  else pure (.done s.2.conf)

section Values

variable {mem : Memory} {entry : Addr} {s : MadtState}

theorem full_iff {n : Nat} : full n = true ↔ n = cpuMax ∨ cpuMax ≤ n % 256 := by
  rw [full, Bool.or_eq_true, beq_iff_eq, decide_eq_true_iff]

theorem localApicAccesses_value :
    (localApicAccesses mem entry s).value = readLocalApic mem entry s := by
  simp only [localApicAccesses, Logged.value_bind, Logged.value_ite, Logged.value_pure]
  unfold readLocalApic
  by_cases hen : (!isEnabled mem entry) = true
  · exact (if_pos hen).trans (if_pos hen).symm
  refine (if_neg hen).trans (Eq.trans ?_ (if_neg hen).symm)
  by_cases heq : s.conf.cpuCount = cpuMax
  · exact (if_pos heq).trans (if_pos (full_iff.2 (.inl heq))).symm
  refine (if_neg heq).trans ?_
  by_cases hge : cpuMax ≤ s.conf.cpuCount % 256
  · exact (if_pos hge).trans (if_pos (full_iff.2 (.inr hge))).symm
  · exact (if_neg hge).trans (if_neg fun hfull => (full_iff.1 hfull).elim heq hge).symm

theorem overrideAccesses_value :
    (overrideAccesses mem entry s).value = readOverride mem entry s := by
  simp only [overrideAccesses, overrideStore, Logged.value_bind, Logged.value_ite,
    Logged.value_pure]
  rfl

theorem readStructure_other (h : 2 < (mem entry).toNat) : readStructure mem s entry = some s := by
  unfold readStructure
  split
  case h_4 => rfl
  all_goals omega

theorem structureAccesses_value :
    (structureAccesses mem s entry (mem entry)).value = readStructure mem s entry := by
  simp only [structureAccesses, Logged.value_ite, Logged.value_bind, Logged.value_pure,
    localApicAccesses_value, overrideAccesses_value]
  have htype : (mem entry).toNat = 0 ∨ (mem entry).toNat = 1 ∨ (mem entry).toNat = 2 ∨
      2 < (mem entry).toNat := by
    omega
  rcases htype with h | h | h | h
  · simp [readStructure, h]
  · simp [readStructure, h, ioApicAccesses, readIoApic]
  · simp [readStructure, h]
  · rw [if_neg (by omega), if_neg (by omega), if_neg (by omega), readStructure_other h]

/-- Where the detection makes a round, this is the same one. -/
theorem roundAccesses_value {stop : Addr} {s : Addr × MadtState}
    {r : Round (Addr × MadtState) SystemConfig} (h : round mem stop s = some r) :
    (roundAccesses mem stop s).value = r := by
  have htype : mem (s.1 + BitVec.ofNat 32 0) = mem s.1 := congrArg mem (BitVec.add_zero s.1)
  simp only [roundAccesses, Logged.value_ite, Logged.value_bind, Logged.value_pure,
    htype, structureAccesses_value]
  unfold round at h
  split at h
  case isTrue hlt =>
      rw [if_pos hlt]
      split at h
      case isTrue hlen => exact (if_pos hlen).trans (Option.some.inj h)
      case isFalse hlen =>
          refine (if_neg hlen).trans ?_
          cases hread : readStructure mem s.2 s.1 with
          | none => rw [hread] at h; cases h
          | some t =>
              rw [hread] at h
              exact Option.some.inj h
  case isFalse hge => exact (if_neg hge).trans (Option.some.inj h)

end Values

/-! ## The last byte of a structure that is read -/

/-- The offset of the last byte that is read of a structure that has a length. -/
def lastField (mem : Memory) (entry : Addr) : Nat :=
  if (mem entry).toNat = 0 then 7
  else if (mem entry).toNat = 1 then 2
  else if (mem entry).toNat = 2 then if mem (entry + 2) = 0 then 7 else 2
  else 1

/-- The offset of the last byte that is read of a structure. -/
def lastByte (mem : Memory) (entry : Addr) : Nat :=
  if structureLength mem entry = 0 then 1 else lastField mem entry

section Peaks

variable {mem : Memory} {entry : Addr} {s : MadtState}

theorem one_le_lastField : 1 ≤ lastField mem entry := by
  unfold lastField
  repeat' split
  all_goals decide

theorem peak_localApic : (localApicAccesses mem entry s).Peak Access.offset 7 := by
  refine .bind_left peak_field32 (.ite (fun _ => .pure) fun _ => .ite (fun _ => .pure) fun _ => ?_)
  refine (below_field8 (by decide)).bind (.ite (fun _ => .pure) fun _ => ?_)
  exact below_store.bind .pure

theorem peak_ioApic : (ioApicAccesses mem entry s).Peak Access.offset 2 :=
  .bind_left peak_field8 .pure

theorem peak_overrideOutput : (overrideOutput mem entry).Peak Access.offset 7 :=
  .bind_right (below_field8 (by decide)) (.bind_left peak_field32 .pure)

theorem below_overrideStore : (overrideStore mem entry s).Below Access.offset 7 := by
  refine (below_field8 (by decide)).bind ((below_field32 (by decide)).bind ?_)
  exact below_store.bind .pure

theorem peak_override : (overrideAccesses mem entry s).Peak Access.offset
    (if mem (entry + 2) = 0 then 7 else 2) := by
  split
  case isTrue hbus =>
      refine .bind_right (below_field8 (by decide)) (.ite (fun hno => absurd hbus hno) fun _ => ?_)
      exact .bind_left peak_overrideOutput below_overrideStore
  case isFalse hbus =>
      exact .bind_left peak_field8 (.ite (fun _ => .pure) fun hyes => absurd hbus hyes)

/-- The structure, and then its length for the next one. -/
theorem peak_structure {g : Option MadtState → BitVec 8 → Round (Addr × MadtState) SystemConfig} :
    (do
      let t ← structureAccesses mem s entry (mem entry)
      let length ← field8 mem entry 1
      pure (g t length) : Logged Access _).Peak Access.offset (lastField mem entry) := by
  have hnext : ∀ {t l}, 1 ≤ l → (do
      let length ← field8 mem entry 1
      pure (g t length) : Logged Access _).Below Access.offset l := fun h =>
    (below_field8 h).bind .pure
  unfold structureAccesses lastField
  by_cases h0 : (mem entry).toNat = 0
  · rw [if_pos h0, if_pos h0]
    exact .bind_left (.bind_left peak_localApic .pure) (hnext (by decide))
  rw [if_neg h0, if_neg h0]
  by_cases h1 : (mem entry).toNat = 1
  · rw [if_pos h1, if_pos h1]
    exact .bind_left (.bind_left peak_ioApic .pure) (hnext (by decide))
  rw [if_neg h1, if_neg h1]
  by_cases h2 : (mem entry).toNat = 2
  · rw [if_pos h2, if_pos h2]
    refine .bind_left peak_override (hnext ?_)
    split <;> decide
  · rw [if_neg h2, if_neg h2]
    exact .bind_right .pure (.bind_left peak_field8 .pure)

/-- What a round reads of the structure that begins in front of the end. -/
theorem peak_round (mem : Memory) (s : MadtState) {stop : Addr} (hlt : entry < stop) :
    (roundAccesses mem stop (entry, s)).Peak Access.offset (lastByte mem entry) := by
  have hfield : field8 mem entry 0 = .note (.read 0) (mem entry) :=
    congrArg (Logged.note _) (congrArg mem (BitVec.add_zero entry))
  have hfirst : ∀ {l}, (Logged.note (.read 0) (mem entry)).Below Access.offset l :=
    Logged.All.note fun _ hn => Option.some.inj hn ▸ Nat.zero_le _
  rw [roundAccesses, if_pos hlt, hfield, lastByte]
  split
  case isTrue hlen =>
      refine .bind_right hfirst (.bind_left peak_field8 ?_)
      exact .ite (fun _ => .pure) fun hno => absurd hlen hno
  case isFalse hlen =>
      refine .bind_right hfirst (.bind_right (below_field8 one_le_lastField) ?_)
      exact .ite (fun hyes => absurd hyes hlen) fun _ => peak_structure

theorem round_log_rear {stop : Addr} (hge : ¬ entry < stop) :
    (roundAccesses mem stop (entry, s)).log = [] := by
  rw [roundAccesses, if_neg hge]
  rfl

end Peaks

/-! ## The bytes of the structures -/

/-- The loop goes on from one structure to another. -/
def NextStructure (mem : Memory) (stop : Addr) (entry entry' : Addr) : Prop :=
  entry < stop ∧ structureLength mem entry ≠ 0 ∧ entry' = next mem entry

/-- A structure of the MADT begins here, or its structures end here: the first one begins behind the
header, and each of the others where the length of the one before says. -/
def StructureAt (mem : Memory) (madt : Addr) : Addr → Prop :=
  Relation.ReflTransGen (NextStructure mem (rear mem madt)) (first madt)

/-- The loop over the structures comes to this one in this state. -/
def ComesTo (mem : Memory) (madt : Addr) (conf : SystemConfig) (entry : Addr) (s : MadtState) :
    Prop :=
  ∃ n, Leads (fun s => some (roundAccesses mem (rear mem madt) s).value) n
    (first madt, ⟨false, compat mem madt conf⟩) (entry, s)

/-- `queryACPI` reads the byte of the structure. -/
def ReadsByte (mem : Memory) (conf : SystemConfig) (entry : Addr) (offset : Nat) : Prop :=
  Found mem ∧ ∃ s, ComesTo mem (madtPtr mem (Rsdp.find mem)) conf entry s ∧
    .read offset ∈ (roundAccesses mem (rear mem (madtPtr mem (Rsdp.find mem))) (entry, s)).log

/-- Every structure has the bytes that are read of it in front of the end of the MADT. -/
def StructuresFit (mem : Memory) (madt : Addr) : Prop :=
  ∀ entry, StructureAt mem madt entry → entry < rear mem madt →
    entry.toNat + lastByte mem entry < (rear mem madt).toNat

section Walk

variable {mem : Memory} {madt entry : Addr} {conf : SystemConfig}

/-- A structure that has a length leads to the next one. -/
theorem roundAccesses_next {stop : Addr} {s : Addr × MadtState} (hlt : s.1 < stop)
    (hlen : structureLength mem s.1 ≠ 0) :
    ∃ t, (roundAccesses mem stop s).value = .next (next mem s.1, t) := by
  simp only [roundAccesses, Logged.value_ite, Logged.value_bind, Logged.value_pure, if_pos hlt]
  exact ⟨_, if_neg hlen⟩

theorem nextStructure_of_round {stop : Addr} {s t : Addr × MadtState}
    (h : some (roundAccesses mem stop s).value = some (.next t)) :
    NextStructure mem stop s.1 t.1 := by
  simp only [roundAccesses, Logged.value_ite, Logged.value_bind, Logged.value_pure] at h
  have h := Option.some.inj h
  split at h
  case isTrue hlt =>
      split at h
      case isTrue => cases h
      case isFalse hlen =>
          cases h
          exact ⟨hlt, hlen, rfl⟩
  case isFalse => cases h

theorem exists_round {stop : Addr} {s : Addr × MadtState} {entry' : Addr}
    (h : NextStructure mem stop s.1 entry') :
    ∃ t, some (roundAccesses mem stop s).value = some (.next t) ∧ t.1 = entry' := by
  obtain ⟨hlt, hlen, rfl⟩ := h
  obtain ⟨t, ht⟩ := roundAccesses_next hlt hlen
  exact ⟨_, congrArg some ht, rfl⟩

/-- The loop comes to the structures of the MADT, and to no other place. -/
theorem structureAt_iff (conf : SystemConfig) :
    StructureAt mem madt entry ↔ ∃ s, ComesTo mem madt conf entry s := by
  have hleads : (∃ n t, Leads (fun s => some (roundAccesses mem (rear mem madt) s).value) n
      (first madt, ⟨false, compat mem madt conf⟩) t ∧ t.1 = entry) ↔ StructureAt mem madt entry :=
    exists_leads_iff Prod.fst (fun _ _ h => .inl (nextStructure_of_round h))
      (fun _ _ => exists_round) _ entry
  constructor
  · intro h
    obtain ⟨n, ⟨entry, s⟩, hn, rfl⟩ := hleads.2 h
    exact ⟨s, n, hn⟩
  · rintro ⟨s, n, hn⟩
    exact hleads.1 ⟨n, (entry, s), hn, rfl⟩

/-- `queryACPI` reads only bytes in front of the end of the MADT exactly if every structure has the
bytes that are read of it. -/
theorem structure_bytes_iff : (∀ entry offset, ReadsByte mem conf entry offset →
      entry.toNat + offset < (rear mem (madtPtr mem (Rsdp.find mem))).toNat) ↔
    (Found mem → StructuresFit mem (madtPtr mem (Rsdp.find mem))) := by
  unfold ReadsByte
  generalize madtPtr mem (Rsdp.find mem) = madt
  constructor
  · intro hall hfound entry hentry hlt
    obtain ⟨s, hs⟩ := (structureAt_iff conf).1 hentry
    apply ((peak_round mem s hlt).all_lt_iff _ _).1
    intro i hi offset hoffset
    cases i with
    | read k =>
        obtain rfl := Option.some.inj hoffset
        exact hall entry k ⟨hfound, s, hs, hi⟩
    | store array index => cases hoffset
  · rintro hfit entry offset ⟨hfound, s, hs, hlog⟩
    by_cases hlt : entry < rear mem madt
    · have hfits := hfit hfound entry ((structureAt_iff conf).2 ⟨s, hs⟩) hlt
      exact ((peak_round mem s hlt).all_lt_iff _ _).2 hfits _ hlog offset rfl
    · rw [round_log_rear hlt] at hlog
      exact absurd hlog List.not_mem_nil

end Walk

/-! ## Both parsers -/

/-- The parsers read only their tables exactly if every entry of a table, and every structure of the
MADT, that begins in front of the end has the bytes that are read of it in front of the end. -/
theorem table_accesses_iff (mem : Memory) :
    (∀ mpcth d, (∀ a, ReadsTableByte mem mpcth d a → InTable mem mpcth a) ↔
      (TablePasses mem mpcth → EntriesFit mem mpcth d.conf.cpuCount)) ∧
    ∀ conf, (∀ entry offset, ReadsByte mem conf entry offset →
        entry.toNat + offset < (rear mem (madtPtr mem (Rsdp.find mem))).toNat) ↔
      (Found mem → StructuresFit mem (madtPtr mem (Rsdp.find mem))) :=
  ⟨fun _ _ => table_bytes_iff, fun _ => structure_bytes_iff⟩

/-- A table of 45 bytes, whose only entry has the type 0. -/
def cutEntryImage : Memory :=
  Memory.overlay 0x9fc00 [0x50, 0x43, 0x4d, 0x50, 0x2d, 0x00, 0x04, 0x9f] fun _ => 0

/-- A MADT of 46 bytes, whose only structure has the type 0 and declares a length of 2. -/
def cutStructureImage : Memory := madtImage 0x2e 0xb3 [0x00, 0x02]

/-- Both tables have valid checksums, and of both a byte behind the end is read: the flags of the
processor. -/
theorem cut_entries_overread :
    (TablePasses cutEntryImage 0x9fc00 ∧
      ∃ a, ReadsTableByte cutEntryImage 0x9fc00 .fresh a ∧ ¬ InTable cutEntryImage 0x9fc00 a) ∧
    (AcpiTablesValid cutStructureImage ∧ ∃ entry offset,
      ReadsByte cutStructureImage .fresh entry offset ∧ ¬ entry.toNat + offset <
        (rear cutStructureImage (madtPtr cutStructureImage (Rsdp.find cutStructureImage))).toNat) :=
    by
  have hpasses : TablePasses cutEntryImage 0x9fc00 := by
    unfold TablePasses
    decide +kernel
  have hfind : Rsdp.find cutStructureImage = 0xe0000 := by decide +kernel
  have hmadt : madtPtr cutStructureImage 0xe0000 = 0xe0060 := by decide +kernel
  refine ⟨⟨hpasses, ?_⟩, ⟨?_, ?_, ?_, ?_⟩, ?_⟩
  · by_contra hno
    simp only [not_exists, not_and, not_not] at hno
    have hfit := table_bytes_iff.1 hno hpasses ⟨0x9fc00 + 44, 44, 0⟩ .refl (by decide +kernel)
    exact absurd hfit (by decide +kernel)
  · rw [hfind]
    decide +kernel
  · rw [hfind]
    decide +kernel
  · rw [hfind]
    decide +kernel
  · rw [hfind, hmadt]
    decide +kernel
  · by_contra hno
    simp only [not_exists, not_and, not_not] at hno
    have hfound : Found cutStructureImage := by
      rw [Found, hfind, hmadt]
      decide
    have hfit := structure_bytes_iff.1 hno hfound
    rw [hfind, hmadt] at hfit
    exact absurd (hfit 0xe008c .refl (by decide +kernel)) (by decide +kernel)

end MPStuBS.Machine.Madt
