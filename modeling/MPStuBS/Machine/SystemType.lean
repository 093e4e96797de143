import MPStuBS.Machine.InvalidTables
import MPStuBS.Machine.IrqMap

/-!
# The type of the system

`detectSystemType` searches for an MP configuration and for the ACPI tables, chooses the
configuration with more CPUs, the one of ACPI if they are equal, and classifies the
system. For a single CPU it tests whether there is an I/O APIC and assigns
`UNDETECTED`, but the next statement assigns `UP_APIC` in either case. So the result is
the one that the types stand for exactly if there are several CPUs or an I/O APIC
(`classified_iff`).
-/

set_option autoImplicit false

namespace MPStuBS.Machine

open MPStuBS.Lib.Loop

/-- `APICSystem::SystemType` -/
inductive SystemType where
  | mpApic
  | upApic
  | undetected
  deriving DecidableEq

/-- The two configurations that `sys_conf` may point to. -/
inductive ConfPtr where
  | acpiConf
  | mpsConf
  deriving DecidableEq

/-- What `detectSystemType` writes: the members that the search for an MP configuration writes, with
`mps_conf` among them, and `acpi_conf`, `sys_conf`, `system_type` and `onlineCPUs`. -/
structure APICSystem where
  detection : Detection
  acpiConf : SystemConfig
  sysConf : ConfPtr
  systemType : SystemType
  onlineCPUs : Nat
  /-- `disablePICs` was called. -/
  picsDisabled : Bool

namespace APICSystem

/-- `*sys_conf` -/
def conf (s : APICSystem) : SystemConfig :=
  match s.sysConf with
  | .acpiConf => s.acpiConf
  | .mpsConf => s.detection.conf

/-- `*sys_conf = conf` -/
def setConf (s : APICSystem) (conf : SystemConfig) : APICSystem :=
  match s.sysConf with
  | .acpiConf => { s with acpiConf := conf }
  | .mpsConf => { s with detection := { s.detection with conf := conf } }

/-- The choice between the configurations. -/
def select (s : APICSystem) : APICSystem :=
  { s with
    sysConf := if s.detection.conf.cpuCount ≤ s.acpiConf.cpuCount then .acpiConf else .mpsConf }

/-- `system_type` for the chosen configuration. -/
def classify (s : APICSystem) : APICSystem :=
  if 1 < s.conf.cpuCount then { s with systemType := .mpApic }
  else
    let s' := if s.conf.ioapicId < 0 then { s with systemType := .undetected } else s
    -- there is no `else` here
    { s' with systemType := .upApic }

/-- Without a second CPU the counts are 1. -/
def setSingle (s : APICSystem) : APICSystem :=
  if s.systemType = .mpApic then s
  else { s.setConf { s.conf with cpuCount := 1 } with onlineCPUs := 1 }

/-- `disablePICs`, if the configuration says that there are PICs. -/
def callDisablePICs (s : APICSystem) : APICSystem :=
  { s with picsDisabled := s.conf.disablePICs }

/-- The object after the searches; the constructor has set the type and the count of the CPUs that
are running. -/
def searched (detection : Detection) (acpiConf : SystemConfig) : APICSystem where
  detection := detection
  acpiConf := generateIRQMap acpiConf
  sysConf := .acpiConf
  systemType := .undetected
  onlineCPUs := 1
  picsDisabled := false

/-- `detectSystemType` behind the searches. -/
def merge (detection : Detection) (acpiConf : SystemConfig) : APICSystem :=
  (searched detection acpiConf).select.callDisablePICs.classify.setSingle

/-- `getNumberOfCPUs` -/
def getNumberOfCPUs (s : APICSystem) : Nat := s.conf.cpuCount

/-- `getCPUID`, where `cpuID` is the array that the boot loop fills. -/
def getCPUID (s : APICSystem) (cpuID : Nat → Nat) (lapicID : Nat) : Nat :=
  if s.systemType = .undetected then 0 else cpuID lapicID

end APICSystem

/-- `APICSystem::detectSystemType` -/
def detectSystemType (fuel : Nat) (mem : Memory) : Option APICSystem := do
  let detection ← searchMPS fuel mem
  let acpiConf ← queryACPI fuel mem .fresh
  some (APICSystem.merge detection acpiConf)

/-- The type and the count are those that the types stand for, where `mps` and `acpi` are the
configurations found. -/
structure Classified (mps acpi : SystemConfig) (s : APICSystem) : Prop where
  selects : s.sysConf = .acpiConf ↔ mps.cpuCount ≤ acpi.cpuCount
  several : s.systemType = .mpApic ↔ 1 < (SystemConfig.choose acpi mps).cpuCount
  unknown : s.systemType = .undetected ↔
    (SystemConfig.choose acpi mps).cpuCount ≤ 1 ∧ (SystemConfig.choose acpi mps).ioapicId < 0
  single : s.systemType = .upApic ↔
    (SystemConfig.choose acpi mps).cpuCount ≤ 1 ∧ ¬ (SystemConfig.choose acpi mps).ioapicId < 0
  positive : 1 ≤ s.getNumberOfCPUs

namespace APICSystem

section Steps

variable (s : APICSystem) (conf : SystemConfig)

@[simp] theorem setConf_conf : (s.setConf conf).conf = conf := by
  obtain ⟨detection, acpiConf, sysConf, systemType, onlineCPUs, picsDisabled⟩ := s
  cases sysConf <;> rfl

@[simp] theorem setConf_sysConf : (s.setConf conf).sysConf = s.sysConf := by
  obtain ⟨detection, acpiConf, sysConf, systemType, onlineCPUs, picsDisabled⟩ := s
  cases sysConf <;> rfl

@[simp] theorem setConf_systemType : (s.setConf conf).systemType = s.systemType := by
  obtain ⟨detection, acpiConf, sysConf, systemType, onlineCPUs, picsDisabled⟩ := s
  cases sysConf <;> rfl

theorem select_conf : s.select.conf = SystemConfig.choose s.acpiConf s.detection.conf := by
  unfold select SystemConfig.choose
  split <;> rfl

@[simp] theorem callDisablePICs_conf : s.callDisablePICs.conf = s.conf := rfl

@[simp] theorem callDisablePICs_sysConf : s.callDisablePICs.sysConf = s.sysConf := rfl

/-- The type depends on the count alone: both branches for a single CPU end with the same one. -/
theorem classify_systemType :
    s.classify.systemType = if 1 < s.conf.cpuCount then .mpApic else .upApic := by
  unfold classify
  split <;> rfl

@[simp] theorem classify_sysConf : s.classify.sysConf = s.sysConf := by
  unfold classify
  split
  · rfl
  · split <;> rfl

@[simp] theorem classify_conf : s.classify.conf = s.conf := by
  unfold classify
  split
  · rfl
  · split <;> rfl

theorem setSingle_conf : s.setSingle.conf =
    if s.systemType = .mpApic then s.conf else { s.conf with cpuCount := 1 } := by
  unfold setSingle
  split
  · rfl
  · exact s.setConf_conf _

@[simp] theorem setSingle_sysConf : s.setSingle.sysConf = s.sysConf := by
  unfold setSingle
  split
  · rfl
  · exact s.setConf_sysConf _

@[simp] theorem setSingle_systemType : s.setSingle.systemType = s.systemType := by
  unfold setSingle
  split
  · rfl
  · exact s.setConf_systemType _

end Steps

section Merge

variable (detection : Detection) (acpi : SystemConfig)

@[simp] theorem generateIRQMap_cpuCount : (generateIRQMap acpi).cpuCount = acpi.cpuCount := by
  simp only [generateIRQMap]

/-- The map of the interrupts does not change the count of the chosen configuration. -/
theorem choose_cpuCount (mps : SystemConfig) :
    (SystemConfig.choose (generateIRQMap acpi) mps).cpuCount =
      (SystemConfig.choose acpi mps).cpuCount := by
  unfold SystemConfig.choose
  rw [generateIRQMap_cpuCount]
  split
  · exact generateIRQMap_cpuCount acpi
  · rfl

theorem searched_select_conf : (searched detection acpi).select.conf =
    SystemConfig.choose (generateIRQMap acpi) detection.conf :=
  select_conf (searched detection acpi)

theorem merge_sysConf : (merge detection acpi).sysConf = .acpiConf ↔
    detection.conf.cpuCount ≤ acpi.cpuCount := by
  rw [merge, setSingle_sysConf, classify_sysConf, callDisablePICs_sysConf, select,
    ← generateIRQMap_cpuCount acpi]
  show (if detection.conf.cpuCount ≤ (generateIRQMap acpi).cpuCount then ConfPtr.acpiConf
    else .mpsConf) = _ ↔ _
  split
  case isTrue hle => exact iff_of_true rfl hle
  case isFalse hlt => exact iff_of_false (by decide) hlt

theorem merge_systemType : (merge detection acpi).systemType =
    if 1 < (SystemConfig.choose acpi detection.conf).cpuCount then .mpApic else .upApic := by
  rw [merge, setSingle_systemType, classify_systemType, callDisablePICs_conf,
    searched_select_conf, choose_cpuCount]

/-- The configuration that the rest of the system sees. -/
theorem merge_conf : (merge detection acpi).conf =
    SystemConfig.detected (generateIRQMap acpi) detection.conf := by
  rw [merge, setSingle_conf, classify_systemType, classify_conf, callDisablePICs_conf,
    searched_select_conf, SystemConfig.detected]
  split
  case isTrue hseveral => exact if_pos rfl
  case isFalse => exact if_neg (by decide)

end Merge

/-- After the detection `getCPUID` always reads the array: the system is never `UNDETECTED`. -/
theorem getCPUID_merge (detection : Detection) (acpi : SystemConfig) (cpuID : Nat → Nat)
    (lapicID : Nat) : (merge detection acpi).getCPUID cpuID lapicID = cpuID lapicID := by
  rw [getCPUID, merge_systemType]
  split
  · exact if_neg (by decide)
  · exact if_neg (by decide)

/-- The system is classified as its types say if there are several CPUs or an I/O APIC, and not
otherwise. -/
theorem classified_merge_iff (detection : Detection) (acpi : SystemConfig) :
    Classified detection.conf acpi (merge detection acpi) ↔
      1 < (SystemConfig.choose acpi detection.conf).cpuCount ∨
        0 ≤ (SystemConfig.choose acpi detection.conf).ioapicId := by
  have htype := merge_systemType detection acpi
  constructor
  · intro h
    by_contra hcond
    rw [not_or, Nat.not_lt, Int.not_le] at hcond
    rw [if_neg (Nat.not_lt.2 hcond.1)] at htype
    cases htype.symm.trans (h.unknown.2 hcond)
  · intro hcond
    refine ⟨?_, ?_, ?_, ?_, ?_⟩
    · exact merge_sysConf detection acpi
    · rw [htype]
      split
      case isTrue hseveral => exact iff_of_true rfl hseveral
      case isFalse hone => exact iff_of_false (by decide) hone
    · rw [htype]
      split
      case isTrue hseveral => exact iff_of_false (by decide) fun h => absurd h.1 (by omega)
      case isFalse hone => exact iff_of_false (by decide) fun h => by omega
    · rw [htype]
      split
      case isTrue hseveral => exact iff_of_false (by decide) fun h => absurd h.1 (by omega)
      case isFalse hone => exact iff_of_true rfl ⟨Nat.not_lt.1 hone, by omega⟩
    · rw [getNumberOfCPUs, merge_conf]
      exact SystemConfig.detected_pos _ _

end APICSystem

/-- Where both searches return, so does the detection. -/
theorem detectSystemType_returns {mem : Memory} {detection : Detection} {acpi : SystemConfig}
    (hmps : Returns (fun fuel => searchMPS fuel mem) detection)
    (hacpi : Returns (fun fuel => queryACPI fuel mem .fresh) acpi) :
    Returns (fun fuel => detectSystemType fuel mem) (.merge detection acpi) := by
  obtain ⟨enough, henough⟩ := hmps
  obtain ⟨enough', henough'⟩ := hacpi
  refine ⟨max enough enough', fun fuel hfuel => ?_⟩
  have hmps := henough fuel (Nat.le_trans (Nat.le_max_left _ _) hfuel)
  have hacpi := henough' fuel (Nat.le_trans (Nat.le_max_right _ _) hfuel)
  show detectSystemType fuel mem = _
  simp only [detectSystemType, hmps, hacpi]
  rfl

/-- The classification is the right one exactly if the chosen configuration has several CPUs or an
I/O APIC. -/
theorem classified_iff (mem : Memory) (detection : Detection) (acpi : SystemConfig)
    (hmps : Returns (fun fuel => searchMPS fuel mem) detection)
    (hacpi : Returns (fun fuel => queryACPI fuel mem .fresh) acpi) :
    ∃ s, Returns (fun fuel => detectSystemType fuel mem) s ∧
      (Classified detection.conf acpi s ↔
        1 < (SystemConfig.choose acpi detection.conf).cpuCount ∨
          0 ≤ (SystemConfig.choose acpi detection.conf).ioapicId) :=
  ⟨_, detectSystemType_returns hmps hacpi, APICSystem.classified_merge_iff detection acpi⟩

/-! ## Two machines -/

/-- Where no paragraph starts with the signature, no MP configuration is found. -/
theorem searchMPS_nothing {mem : Memory}
    (h : collect [] ((searchRanges mem).map (rangeIds mem)) = some []) :
    ∃ detection, Returns (fun fuel => searchMPS fuel mem) detection ∧
      detection.conf.cpuCount = 0 := by
  obtain ⟨detection, hsearch, hholds⟩ :=
    searchConfigs_holds (d := .fresh) Holds.fresh (Nat.zero_le 1) h
  exact ⟨detection, ⟨65536, hsearch⟩, hholds.count⟩

/-- One CPU and one I/O APIC, with the id 2. -/
def oneIoApicImage : Memory :=
  madtImage 0x40 0xcd
    [0x00, 0x08, 0x00, 0x00, 0x01, 0x00, 0x00, 0x00,
      0x01, 0x0c, 0x02, 0x00, 0x00, 0x00, 0xc0, 0xfe, 0x00, 0x00, 0x00, 0x00]

theorem oneIoApicImage_lists :
    collect [] ((searchRanges oneIoApicImage).map (rangeIds oneIoApicImage)) = some [] := by
  have hrom : rangeIds oneIoApicImage ⟨0x000f0000, 0x000fffff - 0x000f0000 + 1⟩ = some [] := by
    show paragraphIds oneIoApicImage 4096 0xf0000 = some []
    apply paragraphIds_zero
    intro k hk
    have hrear : 0xf0000 ≤ ((0xf0000 : Addr) + BitVec.ofNat 32 (16 * k)).toNat := by
      have hbase : (0xf0000 : Addr).toNat = 0xf0000 := rfl
      rw [BitVec.toNat_add, BitVec.toNat_ofNat, hbase]
      omega
    unfold oneIoApicImage madtImage
    rw [Memory.overlay_of_le (Nat.le_trans (by decide) hrear),
      Memory.overlay_of_le (Nat.le_trans (by decide) hrear),
      Memory.overlay_of_le (Nat.le_trans (by decide) hrear)]
  have hlow : ((searchRanges oneIoApicImage).take 4).map (rangeIds oneIoApicImage) =
      [some [], some [], some [], some []] := by
    decide +kernel
  have hall : (searchRanges oneIoApicImage).map (rangeIds oneIoApicImage) =
      ((searchRanges oneIoApicImage).take 4).map (rangeIds oneIoApicImage) ++
        [rangeIds oneIoApicImage ⟨0x000f0000, 0x000fffff - 0x000f0000 + 1⟩] := rfl
  rw [hall, hlow, hrom]
  rfl

/-- A machine with one CPU and an I/O APIC is a single processor system. -/
theorem classified_one_ioapic : ∃ detection acpi s,
    Returns (fun fuel => searchMPS fuel oneIoApicImage) detection ∧
    Returns (fun fuel => queryACPI fuel oneIoApicImage .fresh) acpi ∧
    Returns (fun fuel => detectSystemType fuel oneIoApicImage) s ∧
    Classified detection.conf acpi s := by
  obtain ⟨detection, hmps, hnone⟩ := searchMPS_nothing oneIoApicImage_lists
  have hreads : Madt.Reads oneIoApicImage [0xe008c, 0xe0094] :=
    reads_of_find 0xe0000 0xe0060 3 (by decide +kernel) (by decide)
      (by decide +kernel) (by decide) (by decide +kernel)
  obtain ⟨acpi, hacpi⟩ := queryACPI_returns hreads (List.all_eq_true.1 (by decide +kernel)) .fresh
  obtain ⟨s, hs, hiff⟩ := classified_iff oneIoApicImage detection acpi hmps hacpi
  -- the I/O APIC is the last one of the MADT
  have hid : acpi.ioapicId = 2 := by
    obtain ⟨entries, s₀, t, hreads', -, hfold, rfl⟩ := Madt.reads_of_queryACPI hacpi
    obtain rfl := hreads.unique hreads'
    have hlast := foldlM_last_write (fun s : MadtState => s.conf.ioapicId)
      (Madt.ioApic oneIoApicImage) (fun _ _ _ => Madt.readStructure_ioApic) hfold
    have hlisted : [0xe008c, 0xe0094].filterMap (Madt.ioApic oneIoApicImage) = [2] := by
      decide +kernel
    rw [hlisted] at hlast
    exact hlast
  have hchoose : SystemConfig.choose acpi detection.conf = acpi :=
    if_pos (hnone ▸ Nat.zero_le _)
  refine ⟨detection, acpi, s, hmps, hacpi, hs, hiff.2 (.inr ?_)⟩
  rw [hchoose, hid]
  decide

/-- On a machine without any table there is no I/O APIC, and still the type is `UP_APIC`. -/
theorem not_classified_without_tables : ∃ detection acpi s,
    Returns (fun fuel => searchMPS fuel fun _ => 0) detection ∧
    Returns (fun fuel => queryACPI fuel (fun _ => 0) .fresh) acpi ∧
    Returns (fun fuel => detectSystemType fuel fun _ => 0) s ∧
    (SystemConfig.choose acpi detection.conf).cpuCount = 0 ∧
    (SystemConfig.choose acpi detection.conf).ioapicId = -1 ∧
    s.systemType = .upApic ∧ ¬ Classified detection.conf acpi s := by
  have hlists : collect [] ((searchRanges fun _ => 0).map (rangeIds fun _ => 0)) = some [] := by
    have hempty : ∀ r, rangeIds (fun _ => 0) r = some [] := fun r =>
      paragraphIds_zero fun _ _ => rfl
    have hall : (searchRanges fun _ => 0).map (rangeIds fun _ => 0) =
        List.replicate 5 (some []) :=
      List.map_congr_left fun r _ => hempty r
    rw [hall]
    rfl
  have hfind : Rsdp.find (fun _ => 0) = 0 := by
    by_contra hne
    exact absurd (Rsdp.find_valid hne).1 (by decide)
  have hacpi : Returns (fun fuel => queryACPI fuel (fun _ => 0) .fresh) .fresh :=
    ⟨0, fun fuel _ => Madt.queryACPI_of_not_found (fun hfound => hfound.1 hfind) fuel .fresh⟩
  obtain ⟨detection, hmps, hnone⟩ := searchMPS_nothing hlists
  have hchoose : SystemConfig.choose .fresh detection.conf = .fresh :=
    if_pos (hnone ▸ Nat.le_refl 0)
  refine ⟨detection, .fresh, _, hmps, hacpi, detectSystemType_returns hmps hacpi, ?_, ?_, ?_, ?_⟩
  · rw [hchoose]
    rfl
  · rw [hchoose]
    rfl
  · rw [APICSystem.merge_systemType, hchoose]
    rfl
  · rw [APICSystem.classified_merge_iff, hchoose]
    decide

end MPStuBS.Machine
