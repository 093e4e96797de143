import MPStuBS.Lib.Logged
import MPStuBS.Machine.MpEntries

/-!
# The accesses of the MP table parser

The loop of `readMPCT` once more, with a log of the bytes that it reads through the
pointer to an entry, as offsets from it, and of the elements that it stores to. The
arguments of the debug output are read as well. Without the log it is the loop of the
detection (`tableRoundAccesses_value`).

The loop tests only whether an entry begins in front of the end of the table. So it
reads behind the end exactly if an entry ends too early for what its type makes the loop
read (`table_bytes_iff`).
-/

set_option autoImplicit false

namespace MPStuBS.Machine

open MPStuBS.Lib MPStuBS.Lib.Loop

/-- The arrays that the detection stores into. -/
inductive ConfArray where
  | ioapicIrqs
  | slotMap
  | lapicId
  | lapicVersion
  | cpuFamily
  | cpuModel
  deriving DecidableEq

/-- The number of their elements. -/
def ConfArray.length : ConfArray → Nat
  | .ioapicIrqs => 24
  | .slotMap => 16
  | _ => cpuMax

/-- A byte read through the pointer to an entry, or a store to an element of an array. -/
inductive Access where
  | read (offset : Nat)
  | store (array : ConfArray) (index : Nat)
  deriving DecidableEq

namespace Access

/-- The offset of a byte that is read. -/
def offset : Access → Option Nat
  | .read offset => some offset
  | .store _ _ => none

/-- A store is to an element that exists. -/
def inRange : Access → Bool
  | .read _ => true
  | .store array index => decide (index < array.length)

end Access

/-- A byte of an entry. -/
abbrev field8 (mem : Memory) (entry : Addr) (offset : Nat) : Logged Access (BitVec 8) :=
  .note (.read offset) (mem (entry + BitVec.ofNat 32 offset))

/-- A word of an entry. -/
abbrev field32 (mem : Memory) (entry : Addr) (offset : Nat) : Logged Access (BitVec 32) :=
  ⟨[.read offset, .read (offset + 1), .read (offset + 2), .read (offset + 3)],
    mem.read32 (entry + BitVec.ofNat 32 offset)⟩

/-- A store to an array. -/
abbrev storeAt (array : ConfArray) (index : Nat) : Logged Access Unit :=
  .note (.store array index) ()

/-! ## The entries of an MP table -/

/-- `bsp_id` after the test for the bootstrap CPU. -/
def bspIdAccesses (mem : Memory) (m : Addr) (d : Detection) : Logged Access Nat := do
  let cpuflag ← field8 mem m 3
  if cpuflag.getLsbD 1 then do
    let lapicid ← field8 mem m 1
    pure lapicid.toNat
  else pure d.conf.bspId

/-- The stores for CPU `current`. -/
def cpuAccesses (mem : Memory) (m : Addr) (d : Detection) (current : Nat) :
    Logged Access Detection := do
  let lapicid ← field8 mem m 1
  storeAt .lapicId current
  let lapicver ← field8 mem m 2
  storeAt .lapicVersion current
  let family ← field32 mem m 4
  storeAt .cpuFamily current
  let model ← field32 mem m 4
  storeAt .cpuModel current
  pure { d with
    conf := { d.conf with lapicId := Function.update d.conf.lapicId current lapicid.toNat }
    lapicVersion := Function.update d.lapicVersion current lapicver
    cpuFamily := Function.update d.cpuFamily current ((family &&& 0xf00) >>> 8)
    cpuModel := Function.update d.cpuModel current ((model &&& 0xf0) >>> 4) }

/-- What is done for an enabled processor. -/
def enabledAccesses (mem : Memory) (m : Addr) (d : Detection) : Logged Access Detection := do
  let bspId ← bspIdAccesses mem m d
  let d' := { d with conf := { d.conf with cpuCount := d.conf.cpuCount + 1, bspId := bspId } }
  if d'.conf.cpuCount ≤ cpuMax then cpuAccesses mem m d' (d'.conf.cpuCount - 1) else pure d'

/-- `case MPCT_PROCESSOR` -/
def processorAccesses (mem : Memory) (m : Addr) (d : Detection) : Logged Access Detection := do
  let cpuflag ← field8 mem m 3
  let d' ← (if cpuflag.getLsbD 0 then enabledAccesses mem m d else pure d)
  -- the debug output
  let _ ← field8 mem m 1
  let _ ← field8 mem m 3
  pure d'

/-- `case MPCT_IOAPIC` -/
def ioapicAccesses (mem : Memory) (m : Addr) (d : Detection) : Logged Access Detection := do
  let apicid ← field8 mem m 1
  pure { d with conf := { d.conf with ioapicId := apicid.toNat } }

/-- The debug output for an interrupt entry whose source is the ISA bus. -/
def intOutput (mem : Memory) (m : Addr) : Logged Access Unit := do
  let _ ← field8 mem m 1
  let _ ← field8 mem m 4
  let _ ← field8 mem m 5
  let _ ← field8 mem m 6
  let _ ← field8 mem m 7
  pure ()

/-- `m->srcbusirq < 16 && m->dstirq < 24` -/
def mappable (mem : Memory) (m : Addr) : Logged Access Bool := do
  let srcbusirq ← field8 mem m 5
  if srcbusirq.toNat < 16 then do
    let dstirq ← field8 mem m 7
    pure (decide (dstirq.toNat < 24))
  else pure false

/-- The stores of an interrupt entry. -/
def iointStores (mem : Memory) (m : Addr) (d : Detection) : Logged Access Detection := do
  let dstirq ← field8 mem m 7
  let srcbusirq ← field8 mem m 5
  storeAt .ioapicIrqs dstirq.toNat
  let srcbusirq' ← field8 mem m 5
  let dstirq' ← field8 mem m 7
  storeAt .slotMap srcbusirq'.toNat
  pure { d with conf := { d.conf with
    ioapicIrqs := Function.update d.conf.ioapicIrqs dstirq.toNat srcbusirq
    slotMap := Function.update d.conf.slotMap srcbusirq'.toNat dstirq' } }

/-- `case MPCT_IOINT` -/
def iointAccesses (mem : Memory) (m : Addr) (d : Detection) : Logged Access Detection := do
  let srcbus ← field8 mem m 4
  if srcbus = 0 then do
    intOutput mem m
    let ok ← mappable mem m
    if ok then iointStores mem m d else pure d
  else pure d

/-- `case MPCT_LINT`, which stores nothing. -/
def lintAccesses (mem : Memory) (m : Addr) (d : Detection) : Logged Access Detection := do
  let srcbus ← field8 mem m 4
  if srcbus = 0 then do
    intOutput mem m
    let _ ← mappable mem m
    pure d
  else pure d

/-- The `switch` over the type of the entry. -/
def entryAccesses (mem : Memory) (mpt : Addr) (d : Detection) :
    Logged Access (Option (Nat × Detection)) := do
  let type ← field8 mem mpt 0
  if type.toNat = 0 then do
    let d' ← processorAccesses mem mpt d
    pure (some (20, d'))
  else if type.toNat = 2 then do
    let d' ← ioapicAccesses mem mpt d
    pure (some (8, d'))
  else if type.toNat = 1 then pure (some (8, d))
  else if type.toNat = 3 then do
    let d' ← iointAccesses mem mpt d
    pure (some (8, d'))
  else if type.toNat = 4 then do
    let d' ← lintAccesses mem mpt d
    pure (some (8, d'))
  else pure none

/-- One round of the loop in `readMPCT`. -/
def tableRoundAccesses (mem : Memory) (length : Nat) (s : TableState) :
    Logged Access (Round TableState Detection) :=
  if s.count < length then do
    let entry ← entryAccesses mem s.mpt s.detection
    pure (match entry with
      | some (size, d) => .next ⟨s.mpt + BitVec.ofNat 32 size, s.count + size, d⟩
      | none => .next s)
  else pure (.done s.detection)

section Values

variable {mem : Memory} {m : Addr} {d : Detection}

theorem bspIdAccesses_value : (bspIdAccesses mem m d).value =
    if cpuBootProcessor mem m then (mem (m + 1)).toNat else d.conf.bspId := by
  simp [bspIdAccesses, cpuBootProcessor]

theorem processorAccesses_value :
    (processorAccesses mem m d).value = readProcessor mem m d := by
  simp only [processorAccesses, enabledAccesses, cpuAccesses, Logged.value_bind,
    Logged.value_ite, Logged.value_pure, bspIdAccesses_value]
  rfl

theorem mappable_value : (mappable mem m).value =
    decide ((mem (m + 5)).toNat < 16 ∧ (mem (m + 7)).toNat < 24) := by
  simp [mappable]

theorem iointAccesses_value : (iointAccesses mem m d).value = readIoint mem m d := by
  simp only [iointAccesses, iointStores, Logged.value_bind, Logged.value_ite,
    Logged.value_pure, mappable_value]
  by_cases hbus : mem (m + 4) = 0
  · by_cases hmap : (mem (m + 5)).toNat < 16 ∧ (mem (m + 7)).toNat < 24
    · exact ((if_pos hbus).trans (if_pos (decide_eq_true hmap))).trans
        (if_pos ⟨hbus, hmap⟩).symm
    · exact ((if_pos hbus).trans (if_neg fun h => hmap (of_decide_eq_true h))).trans
        (if_neg fun h => hmap h.2).symm
  · exact (if_neg hbus).trans (if_neg fun h => hbus h.1).symm

theorem lintAccesses_value : (lintAccesses mem m d).value = d := by
  simp [lintAccesses]

/-- Without the log the cases are those of the detection. -/
theorem entryAccesses_value : (entryAccesses mem m d).value = readEntry mem m d := by
  simp only [entryAccesses, Logged.value_bind, Logged.value_ite, Logged.value_pure,
    processorAccesses_value, iointAccesses_value, lintAccesses_value, BitVec.add_zero]
  have htype : (mem m).toNat = 0 ∨ (mem m).toNat = 1 ∨ (mem m).toNat = 2 ∨ (mem m).toNat = 3 ∨
      (mem m).toNat = 4 ∨ 4 < (mem m).toNat := by
    omega
  rcases htype with h | h | h | h | h | h
  · simp only [readEntry, h, if_true]
  · simp [readEntry, h]
  · simp [readEntry, h, ioapicAccesses, readIoapic]
  · simp [readEntry, h]
  · simp [readEntry, h]
  · rw [readEntry_unknown ((entrySize_eq_none_iff _).2 h), if_neg (by omega), if_neg (by omega),
      if_neg (by omega), if_neg (by omega), if_neg (by omega)]

/-- Without the log the rounds are those of the detection. -/
theorem tableRoundAccesses_value (length : Nat) (s : TableState) :
    (tableRoundAccesses mem length s).value = tableRound mem length s := by
  simp only [tableRoundAccesses, Logged.value_ite, Logged.value_bind, Logged.value_pure,
    entryAccesses_value]
  unfold tableRound
  split
  · cases readEntry mem s.mpt s.detection <;> rfl
  · rfl

end Values

/-! ## The last byte of an entry that is read -/

section Peaks

variable {mem : Memory} {m : Addr} {d : Detection} {k l : Nat}

theorem below_field8 (h : k ≤ l) : (field8 mem m k).Below Access.offset l :=
  Logged.All.note fun _ hn => Option.some.inj hn ▸ h

theorem below_store {array : ConfArray} {index : Nat} :
    (storeAt array index).Below Access.offset l :=
  Logged.All.note fun _ hn => nomatch hn

theorem below_field32 (h : k + 3 ≤ l) : (field32 mem m k).Below Access.offset l := by
  intro i hi n hn
  simp only [List.mem_cons, List.not_mem_nil, or_false] at hi
  rcases hi with rfl | rfl | rfl | rfl <;> cases hn <;> omega

theorem peak_field8 : (field8 mem m k).Peak Access.offset k := Logged.Peak.note rfl

theorem peak_field32 : (field32 mem m k).Peak Access.offset (k + 3) :=
  ⟨⟨.read (k + 3), by simp, rfl⟩, below_field32 (Nat.le_refl _)⟩

theorem below_bspId (h : 3 ≤ l) : (bspIdAccesses mem m d).Below Access.offset l := by
  refine (below_field8 h).bind (.ite (fun _ => ?_) fun _ => .pure)
  exact (below_field8 (Nat.le_trans (by decide) h)).bind .pure

/-- The signature of the CPU is the last field that is stored. -/
theorem peak_cpu {current : Nat} : (cpuAccesses mem m d current).Peak Access.offset 7 := by
  refine .bind_right (below_field8 (by decide)) (.bind_right below_store ?_)
  refine .bind_right (below_field8 (by decide)) (.bind_right below_store ?_)
  refine .bind_left peak_field32 (below_store.bind ?_)
  exact (below_field32 (by decide)).bind (below_store.bind .pure)

theorem peak_enabled (hroom : d.conf.cpuCount < cpuMax) :
    (enabledAccesses mem m d).Peak Access.offset 7 := by
  refine .bind_right (below_bspId (by decide)) (.ite (fun _ => peak_cpu) fun hfull => ?_)
  exact absurd hroom hfull

/-- Without room for the CPU only its flags and its id are read. -/
theorem below_enabled (hroom : ¬ d.conf.cpuCount < cpuMax) :
    (enabledAccesses mem m d).Below Access.offset 3 := by
  refine (below_bspId (Nat.le_refl 3)).bind (.ite (fun hfits => ?_) fun _ => .pure)
  exact absurd hfits hroom

/-- The debug output reads nothing behind the flags. -/
theorem below_processorOutput (h : 3 ≤ l) : (do
    let _ ← field8 mem m 1
    let _ ← field8 mem m 3
    pure d : Logged Access Detection).Below Access.offset l :=
  (below_field8 (Nat.le_trans (by decide) h)).bind ((below_field8 h).bind .pure)

theorem peak_processor : (processorAccesses mem m d).Peak Access.offset
    (if cpuEnabled mem m = true ∧ d.conf.cpuCount < cpuMax then 7 else 3) := by
  split
  case isTrue h =>
      refine .bind_right (below_field8 (by decide))
        (.bind_left ?_ (below_processorOutput (by decide)))
      exact .ite (fun _ => peak_enabled h.2) fun hno => absurd h.1 hno
  case isFalse h =>
      refine .bind_left peak_field8 (.bind ?_ (below_processorOutput (by decide)))
      exact .ite (fun hen => below_enabled fun hroom => h ⟨hen, hroom⟩) fun _ => .pure

theorem peak_ioapic : (ioapicAccesses mem m d).Peak Access.offset 1 :=
  .bind_left peak_field8 .pure

theorem peak_intOutput : (intOutput mem m).Peak Access.offset 7 := by
  refine .bind_right (below_field8 (by decide)) (.bind_right (below_field8 (by decide)) ?_)
  refine .bind_right (below_field8 (by decide)) (.bind_right (below_field8 (by decide)) ?_)
  exact .bind_left peak_field8 .pure

theorem below_mappable : (mappable mem m).Below Access.offset 7 := by
  refine (below_field8 (by decide)).bind (.ite (fun _ => ?_) fun _ => .pure)
  exact (below_field8 (by decide)).bind .pure

theorem below_iointStores : (iointStores mem m d).Below Access.offset 7 := by
  refine (below_field8 (by decide)).bind ((below_field8 (by decide)).bind (below_store.bind ?_))
  exact (below_field8 (by decide)).bind ((below_field8 (by decide)).bind (below_store.bind .pure))

theorem peak_ioint : (iointAccesses mem m d).Peak Access.offset
    (if mem (m + 4) = 0 then 7 else 4) := by
  split
  case isTrue hbus =>
      refine .bind_right (below_field8 (by decide)) (.ite (fun _ => ?_) fun hno => absurd hbus hno)
      exact .bind_left peak_intOutput (below_mappable.bind (.ite (fun _ => below_iointStores)
        fun _ => .pure))
  case isFalse hbus =>
      exact .bind_left peak_field8 (.ite (fun hyes => absurd hyes hbus) fun _ => .pure)

theorem peak_lint : (lintAccesses mem m d).Peak Access.offset
    (if mem (m + 4) = 0 then 7 else 4) := by
  split
  case isTrue hbus =>
      refine .bind_right (below_field8 (by decide)) (.ite (fun _ => ?_) fun hno => absurd hbus hno)
      exact .bind_left peak_intOutput (below_mappable.bind .pure)
  case isFalse hbus =>
      exact .bind_left peak_field8 (.ite (fun hyes => absurd hyes hbus) fun _ => .pure)

/-- The offset of the last byte that is read of an entry, where `cpus` CPUs are counted so far. -/
def lastByte (mem : Memory) (mpt : Addr) (cpus : Nat) : Nat :=
  if (mem mpt).toNat = 0 then if cpuEnabled mem mpt = true ∧ cpus < cpuMax then 7 else 3
  else if (mem mpt).toNat = 2 then 1
  else if (mem mpt).toNat = 1 then 0
  else if (mem mpt).toNat = 3 then if mem (mpt + 4) = 0 then 7 else 4
  else if (mem mpt).toNat = 4 then if mem (mpt + 4) = 0 then 7 else 4
  else 0

theorem lastByte_le (mpt : Addr) (cpus : Nat) : lastByte mem mpt cpus ≤ 7 := by
  unfold lastByte
  repeat' split
  all_goals decide

theorem peak_entry :
    (entryAccesses mem m d).Peak Access.offset (lastByte mem m d.conf.cpuCount) := by
  have hfield : field8 mem m 0 = .note (.read 0) (mem m) :=
    congrArg (Logged.note _) (congrArg mem (BitVec.add_zero m))
  have hfirst : ∀ {l}, (Logged.note (.read 0) (mem m)).Below Access.offset l :=
    Logged.All.note fun _ hn => Option.some.inj hn ▸ Nat.zero_le _
  rw [entryAccesses, hfield, lastByte]
  -- the cases of the `switch`, each behind the byte with the type
  refine .bind_ite (x := .note (Access.read 0) (mem m)) (·.toNat = 0) (fun _ => ?_) fun _ => ?_
  · exact .bind_right hfirst (.bind_left peak_processor .pure)
  refine .bind_ite (x := .note (Access.read 0) (mem m)) (·.toNat = 2) (fun _ => ?_) fun _ => ?_
  · exact .bind_right hfirst (.bind_left peak_ioapic .pure)
  refine .bind_ite (x := .note (Access.read 0) (mem m)) (·.toNat = 1) (fun _ => ?_) fun _ => ?_
  · exact .bind_left (.note rfl) .pure
  refine .bind_ite (x := .note (Access.read 0) (mem m)) (·.toNat = 3) (fun _ => ?_) fun _ => ?_
  · exact .bind_right hfirst (.bind_left peak_ioint .pure)
  refine .bind_ite (x := .note (Access.read 0) (mem m)) (·.toNat = 4) (fun _ => ?_) fun _ => ?_
  · exact .bind_right hfirst (.bind_left peak_lint .pure)
  · exact .bind_left (.note rfl) .pure

end Peaks

/-! ## The bytes of an MP table -/

/-- `readMPCT` reads the byte through the pointer to an entry. -/
def ReadsTableByte (mem : Memory) (mpcth : Addr) (d : Detection) (a : Addr) : Prop :=
  TablePasses mem mpcth ∧ ∃ n s offset,
    Leads (entryBody mem mpcth) n (tableStart mpcth d) s ∧
    .read offset ∈ (tableRoundAccesses mem (tableLength mem mpcth) s).log ∧
    a = s.mpt + BitVec.ofNat 32 offset

/-- The byte is one of the `mpcth->length` bytes of the table. -/
def InTable (mem : Memory) (mpcth : Addr) (a : Addr) : Prop :=
  (a - mpcth).toNat < tableLength mem mpcth

/-- Where an entry begins, as an address and as the number of bytes in front of it, and how many
CPUs are counted so far. -/
structure EntryPlace where
  mpt : Addr
  count : Nat
  cpus : Nat

/-- Inside of the table there is an entry of a known type, and the other one is behind it. -/
def NextPlace (mem : Memory) (length : Nat) (p q : EntryPlace) : Prop :=
  p.count < length ∧ ∃ size, entrySize (mem p.mpt) = some size ∧
    q = ⟨p.mpt + BitVec.ofNat 32 size, p.count + size,
      p.cpus + (entryIds mem p.mpt).length⟩

/-- The entries of a table, where `cpus` CPUs are counted in front of it. -/
def PlaceAt (mem : Memory) (mpcth : Addr) (cpus : Nat) : EntryPlace → Prop :=
  Relation.ReflTransGen (NextPlace mem (tableLength mem mpcth)) ⟨mpcth + 44, 44, cpus⟩

/-- Every entry has the bytes that are read of it in front of the end of the table. -/
def EntriesFit (mem : Memory) (mpcth : Addr) (cpus : Nat) : Prop :=
  ∀ p, PlaceAt mem mpcth cpus p → p.count < tableLength mem mpcth →
    p.count + lastByte mem p.mpt p.cpus < tableLength mem mpcth

section Table

variable {mem : Memory} {mpcth : Addr} {d : Detection}

theorem readProcessor_cpuCount {mpt : Addr} (htype : (mem mpt).toNat = 0) :
    (readProcessor mem mpt d).conf.cpuCount = d.conf.cpuCount + (entryIds mem mpt).length := by
  unfold readProcessor entryIds
  by_cases hen : cpuEnabled mem mpt = true
  · rw [if_pos hen, if_pos (And.intro htype hen)]
    dsimp only
    split <;> rfl
  · rw [if_neg hen, if_neg fun hcond => hen hcond.2]
    rfl

/-- An entry counts the CPU that it lists. -/
theorem readEntry_cpuCount {mpt : Addr} {size : Nat} {d' : Detection}
    (h : readEntry mem mpt d = some (size, d')) :
    d'.conf.cpuCount = d.conf.cpuCount + (entryIds mem mpt).length := by
  have hother : (mem mpt).toNat ≠ 0 → (entryIds mem mpt).length = 0 := fun hne => by
    rw [entryIds, if_neg fun hcond => hne hcond.1]
    rfl
  unfold readEntry at h
  split at h
  case h_1 htype =>
      cases h
      exact readProcessor_cpuCount htype
  case h_2 htype =>
      cases h
      exact (congrArg (d.conf.cpuCount + ·) (hother (by omega))).symm
  case h_3 htype =>
      cases h
      exact (congrArg (d.conf.cpuCount + ·) (hother (by omega))).symm
  case h_4 htype =>
      cases h
      rw [hother (by omega), readIoint]
      dsimp only
      split <;> rfl
  case h_5 htype =>
      cases h
      exact (congrArg (d.conf.cpuCount + ·) (hother (by omega))).symm
  case h_6 => cases h

/-- The place of a state of the loop. -/
def TableState.place (s : TableState) : EntryPlace := ⟨s.mpt, s.count, s.detection.conf.cpuCount⟩

theorem entryBody_place {s t : TableState} (h : entryBody mem mpcth s = some (.next t)) :
    NextPlace mem (tableLength mem mpcth) s.place t.place ∨ t.place = s.place := by
  by_cases hlt : s.count < tableLength mem mpcth
  · cases hsize : entrySize (mem s.mpt) with
    | none =>
        rw [entryBody_unknown hlt hsize] at h
        cases h
        exact .inr rfl
    | some size =>
        obtain ⟨d', hentry, -⟩ := readEntry_known s.detection hsize
        rw [entryBody, tableRound, if_pos hlt, hentry] at h
        cases h
        refine .inl ⟨hlt, size, hsize, ?_⟩
        show EntryPlace.mk _ _ _ = _
        rw [readEntry_cpuCount hentry]
        rfl
  · rw [entryBody_done hlt] at h
    cases h

theorem exists_entryBody {s : TableState} {p : EntryPlace}
    (h : NextPlace mem (tableLength mem mpcth) s.place p) :
    ∃ t, entryBody mem mpcth s = some (.next t) ∧ t.place = p := by
  obtain ⟨hlt, size, hsize, rfl⟩ := h
  change s.count < tableLength mem mpcth at hlt
  obtain ⟨d', hentry, -⟩ := readEntry_known s.detection hsize
  change readEntry mem s.mpt s.detection = some (size, d') at hentry
  have hround : entryBody mem mpcth s =
      some (.next ⟨s.mpt + BitVec.ofNat 32 size, s.count + size, d'⟩) := by
    rw [entryBody, tableRound, if_pos hlt, hentry]
  refine ⟨_, hround, ?_⟩
  show EntryPlace.mk _ _ _ = _
  rw [readEntry_cpuCount hentry]
  rfl

/-- The loop comes to the entries of the table, and to no other place. -/
theorem placeAt_iff {p : EntryPlace} : PlaceAt mem mpcth d.conf.cpuCount p ↔
    ∃ n s, Leads (entryBody mem mpcth) n (tableStart mpcth d) s ∧ s.place = p :=
  (exists_leads_iff TableState.place (fun _ _ => entryBody_place) (fun _ _ => exists_entryBody)
    (tableStart mpcth d) p).symm

/-- A place lies as many bytes behind the start of the table as the loop has counted. -/
theorem PlaceAt.mpt_eq {cpus : Nat} {p : EntryPlace} (h : PlaceAt mem mpcth cpus p) :
    p.mpt = mpcth + BitVec.ofNat 32 p.count := by
  induction h with
  | refl => rfl
  | tail _ hnext ih =>
      obtain ⟨-, size, -, rfl⟩ := hnext
      rw [ih, BitVec.ofNat_add, BitVec.add_assoc]

/-- What a round reads of the entry that begins at a place. -/
theorem peak_tableRound (mem : Memory) (mpcth : Addr) {s : TableState}
    (h : s.count < tableLength mem mpcth) :
    (tableRoundAccesses mem (tableLength mem mpcth) s).Peak Access.offset
      (lastByte mem s.mpt s.detection.conf.cpuCount) := by
  rw [tableRoundAccesses, if_pos h]
  exact .bind_left peak_entry .pure

theorem tableRound_log_done {s : TableState} (h : ¬ s.count < tableLength mem mpcth) :
    (tableRoundAccesses mem (tableLength mem mpcth) s).log = [] := by
  rw [tableRoundAccesses, if_neg h]
  rfl

/-- A byte of an entry is one of the table if it lies in front of its end. -/
theorem PlaceAt.inTable_iff {cpus offset : Nat} {p : EntryPlace} (h : PlaceAt mem mpcth cpus p)
    (hlt : p.count < tableLength mem mpcth) (hoffset : offset ≤ 7) :
    InTable mem mpcth (p.mpt + BitVec.ofNat 32 offset) ↔
      p.count + offset < tableLength mem mpcth := by
  have hlength : tableLength mem mpcth < 65536 := (mem.read16 (mpcth + 4)).isLt
  have hbyte : p.mpt + BitVec.ofNat 32 offset - mpcth = BitVec.ofNat 32 (p.count + offset) := by
    rw [h.mpt_eq, BitVec.ofNat_add, BitVec.add_assoc, BitVec.add_comm mpcth, BitVec.add_sub_cancel]
  rw [InTable, hbyte, BitVec.toNat_ofNat, Nat.mod_eq_of_lt (by omega)]

/-- `readMPCT` reads only bytes of the table exactly if every entry has the bytes that are read of
it. -/
theorem table_bytes_iff : (∀ a, ReadsTableByte mem mpcth d a → InTable mem mpcth a) ↔
    (TablePasses mem mpcth → EntriesFit mem mpcth d.conf.cpuCount) := by
  constructor
  · intro hall hpasses p hp hlt
    obtain ⟨n, s, hleads, rfl⟩ := placeAt_iff.1 hp
    have hpeak := peak_tableRound mem mpcth hlt
    apply (hpeak.all_lt_iff _ _).1
    intro i hi offset hoffset
    have hle := Nat.le_trans (hpeak.below i hi offset hoffset) (lastByte_le _ _)
    cases i with
    | read k =>
        obtain rfl := Option.some.inj hoffset
        exact (hp.inTable_iff hlt hle).1 (hall _ ⟨hpasses, n, s, k, hleads, hi, rfl⟩)
    | store array index => cases hoffset
  · rintro hfit a ⟨hpasses, n, s, offset, hleads, hlog, rfl⟩
    by_cases hlt : s.count < tableLength mem mpcth
    · have hp : PlaceAt mem mpcth d.conf.cpuCount s.place := placeAt_iff.2 ⟨n, s, hleads, rfl⟩
      have hpeak := peak_tableRound mem mpcth hlt
      have hle := Nat.le_trans (hpeak.below _ hlog offset rfl) (lastByte_le _ _)
      have hfits := (hpeak.all_lt_iff _ _).2 (hfit hpasses s.place hp hlt) _ hlog offset rfl
      exact (hp.inTable_iff hlt hle).2 hfits
    · rw [tableRound_log_done hlt] at hlog
      exact absurd hlog List.not_mem_nil

end Table

end MPStuBS.Machine
