import MPStuBS.Machine.MpDetection
import Mathlib.Logic.Relation

/-!
# The loop over the entries

Each case of the `switch` in `APICSystem::readMPCT` advances by the size of its entry, and
there are cases for the types 0 to 4 only. At an entry of any other type the loop stays where
it is. So for a table that passes both tests, `readMPCT` returns exactly if no entry that the
loop comes to has such a type (`readMPCT_returns_iff`).
-/

set_option autoImplicit false

namespace MPStuBS.Machine

open MPStuBS.Lib.Loop

/-- The signature and the checksum of the table are right. -/
def TablePasses (mem : Memory) (mpcth : Addr) : Prop :=
  (signatureOK mem mpcth && mpbChecksumOK mem mpcth (tableLength mem mpcth)) = true

/-- The type of the entry that begins `count` bytes behind the start of the table. -/
def entryType (mem : Memory) (mpcth : Addr) (count : Nat) : BitVec 8 :=
  mem (mpcth + BitVec.ofNat 32 count)

/-- Inside of the table there is an entry of a known type, and the other one is behind it. -/
def NextEntry (mem : Memory) (mpcth : Addr) (count count' : Nat) : Prop :=
  count < tableLength mem mpcth ∧
    ∃ size, entrySize (entryType mem mpcth count) = some size ∧ count' = count + size

/-- An entry of the table begins here, or its entries end here: the first one begins behind the
header, and each of the others behind the one before. -/
def EntryAt (mem : Memory) (mpcth : Addr) : Nat → Prop :=
  Relation.ReflTransGen (NextEntry mem mpcth) 44

theorem entrySize_eq_none_iff : ∀ type : BitVec 8, entrySize type = none ↔ 4 < type.toNat := by
  decide

section Table

variable {mem : Memory} {mpcth : Addr} {d : Detection}

/-- The body of the loop. -/
def entryBody (mem : Memory) (mpcth : Addr) (s : TableState) :
    Option (Round TableState Detection) :=
  some (tableRound mem (tableLength mem mpcth) s)

/-! ## One round -/

theorem entryBody_done {s : TableState} (h : ¬ s.count < tableLength mem mpcth) :
    entryBody mem mpcth s = some (.done s.detection) := by
  rw [entryBody, tableRound, if_neg h]

theorem entryBody_unknown {s : TableState} (h : s.count < tableLength mem mpcth)
    (hsize : entrySize (mem s.mpt) = none) : entryBody mem mpcth s = some (.next s) := by
  rw [entryBody, tableRound, if_pos h, readEntry_unknown hsize]

theorem entryBody_known {s : TableState} {size : Nat} (h : s.count < tableLength mem mpcth)
    (hsize : entrySize (mem s.mpt) = some size) :
    ∃ d', entryBody mem mpcth s =
      some (.next ⟨s.mpt + BitVec.ofNat 32 size, s.count + size, d'⟩) := by
  obtain ⟨d', hentry, -⟩ := readEntry_known s.detection hsize
  refine ⟨d', ?_⟩
  rw [entryBody, tableRound, if_pos h, hentry]

/-- The rounds that change nothing. -/
theorem entryBody_repeat_iff {s : TableState} : entryBody mem mpcth s = some (.next s) ↔
    s.count < tableLength mem mpcth ∧ 4 < (mem s.mpt).toNat := by
  rw [← entrySize_eq_none_iff]
  constructor
  · intro hrepeat
    have hlt : s.count < tableLength mem mpcth := by
      by_contra hge
      rw [entryBody_done hge] at hrepeat
      cases hrepeat
    refine ⟨hlt, ?_⟩
    cases hsize : entrySize (mem s.mpt) with
    | none => rfl
    | some size =>
        obtain ⟨d', hnext⟩ := entryBody_known hlt hsize
        have hsame := Round.next.inj (Option.some.inj (hnext.symm.trans hrepeat))
        have hcount : s.count + size = s.count := congrArg TableState.count hsame
        have hpos := entrySize_pos hsize
        omega
  · rintro ⟨hlt, hsize⟩
    exact entryBody_unknown hlt hsize

/-- All other rounds come closer to the end of the table. -/
theorem entryBody_cases (s : TableState) : (∃ r, entryBody mem mpcth s = some (.done r)) ∨
    ∃ t, entryBody mem mpcth s = some (.next t) ∧
      (t = s ∨ tableLength mem mpcth - t.count < tableLength mem mpcth - s.count) := by
  by_cases hlt : s.count < tableLength mem mpcth
  · cases hsize : entrySize (mem s.mpt) with
    | none => exact .inr ⟨s, entryBody_unknown hlt hsize, .inl rfl⟩
    | some size =>
        obtain ⟨d', hnext⟩ := entryBody_known hlt hsize
        have hpos := entrySize_pos hsize
        refine .inr ⟨_, hnext, .inr ?_⟩
        show tableLength mem mpcth - (s.count + size) < _
        omega
  · exact .inl ⟨_, entryBody_done hlt⟩

/-! ## All rounds -/

/-- The loop is at an entry. -/
def AtEntry (mem : Memory) (mpcth : Addr) (s : TableState) : Prop :=
  s.mpt = mpcth + BitVec.ofNat 32 s.count ∧ EntryAt mem mpcth s.count

theorem AtEntry.next {s t : TableState} (hs : AtEntry mem mpcth s)
    (hnext : entryBody mem mpcth s = some (.next t)) : AtEntry mem mpcth t := by
  obtain ⟨hmpt, hentry⟩ := hs
  by_cases hlt : s.count < tableLength mem mpcth
  · cases hsize : entrySize (mem s.mpt) with
    | none =>
        rw [entryBody_unknown hlt hsize] at hnext
        obtain rfl := Round.next.inj (Option.some.inj hnext)
        exact ⟨hmpt, hentry⟩
    | some size =>
        obtain ⟨d', hknown⟩ := entryBody_known hlt hsize
        rw [hknown] at hnext
        obtain rfl := Round.next.inj (Option.some.inj hnext)
        constructor
        · show s.mpt + _ = _
          rw [hmpt, BitVec.ofNat_add, BitVec.add_assoc]
        · apply hentry.tail
          refine ⟨hlt, size, ?_, rfl⟩
          rw [entryType, ← hmpt]
          exact hsize
  · rw [entryBody_done hlt] at hnext
    cases hnext

theorem AtEntry.leads {n : Nat} {s t : TableState}
    (hleads : Leads (entryBody mem mpcth) n s t) (hs : AtEntry mem mpcth s) :
    AtEntry mem mpcth t := by
  induction hleads with
  | refl s => exact hs
  | head hnext _ ih => exact ih (hs.next hnext)

/-- The loop comes to every entry. -/
theorem leads_entry {count : Nat} (h : EntryAt mem mpcth count) :
    ∃ n t, Leads (entryBody mem mpcth) n (tableStart mpcth d) t ∧ t.count = count ∧
      t.mpt = mpcth + BitVec.ofNat 32 count := by
  induction h with
  | refl => exact ⟨0, _, .refl _, rfl, rfl⟩
  | tail _ hnext ih =>
      obtain ⟨n, t, hleads, rfl, hmpt⟩ := ih
      obtain ⟨hlt, size, hsize, rfl⟩ := hnext
      rw [entryType, ← hmpt] at hsize
      obtain ⟨d', hknown⟩ := entryBody_known hlt hsize
      refine ⟨n + 1, _, hleads.trans (.single hknown), rfl, ?_⟩
      show t.mpt + _ = _
      rw [hmpt, BitVec.ofNat_add, BitVec.add_assoc]

/-- `readMPCT` returns for a table that passes both tests exactly if each entry that begins in the
table, as the sizes of the ones before it say, has one of the types from 0 to 4. -/
theorem readMPCT_returns_iff (mem : Memory) (mpcth : Addr) (d : Detection)
    (h : TablePasses mem mpcth) :
    (∃ d', Returns (fun fuel => readMPCT fuel mem mpcth d) d') ↔
      ∀ count, EntryAt mem mpcth count → count < tableLength mem mpcth →
        (entryType mem mpcth count).toNat ≤ 4 := by
  have hloop : (fun fuel => readMPCT fuel mem mpcth d) =
      fun fuel => loop (entryBody mem mpcth) fuel (tableStart mpcth d) := by
    funext fuel
    exact (table_valid h fuel d).2
  rw [hloop, returns_iff_no_repeat (fun s => tableLength mem mpcth - s.count) entryBody_cases]
  constructor
  · intro hnever count hentry hlt
    obtain ⟨n, t, hleads, rfl, hmpt⟩ := leads_entry (d := d) hentry
    have hrepeat := hnever n t hleads
    rw [Ne, entryBody_repeat_iff, hmpt, not_and] at hrepeat
    exact Nat.le_of_not_lt (hrepeat hlt)
  · intro hknown n t hleads hrepeat
    obtain ⟨hmpt, hentry⟩ := AtEntry.leads hleads ⟨rfl, .refl⟩
    obtain ⟨hlt, htype⟩ := entryBody_repeat_iff.1 hrepeat
    have hle := hknown t.count hentry hlt
    rw [entryType, ← hmpt] at hle
    omega

end Table

/-- The table of the machine with one CPU. -/
theorem readMPCT_returns_oneCpu :
    TablePasses oneCpuImage 0x9fc10 ∧
      ((∃ d', Returns (fun fuel => readMPCT fuel oneCpuImage 0x9fc10 .fresh) d') ↔
        ∀ count, EntryAt oneCpuImage 0x9fc10 count → count < tableLength oneCpuImage 0x9fc10 →
          (entryType oneCpuImage 0x9fc10 count).toNat ≤ 4) := by
  have hpasses : TablePasses oneCpuImage 0x9fc10 := by
    unfold TablePasses
    decide +kernel
  exact ⟨hpasses, readMPCT_returns_iff oneCpuImage 0x9fc10 .fresh hpasses⟩

/-- A table of 45 bytes, whose only entry has the type 5. -/
def unknownEntryImage : Memory :=
  Memory.overlay 0x9fc00 [0x50, 0x43, 0x4d, 0x50, 0x2d, 0x00, 0x04, 0x9a] <|
  Memory.overlay 0x9fc2c [0x05] fun _ => 0

theorem unknown_entry_stuck : ¬ ∀ (mem : Memory) (mpcth : Addr) (d : Detection),
    TablePasses mem mpcth → ∃ d', Returns (fun fuel => readMPCT fuel mem mpcth d) d' := by
  intro h
  have hpasses : TablePasses unknownEntryImage 0x9fc00 := by
    unfold TablePasses
    decide +kernel
  have hids : tableIds unknownEntryImage 0x9fc00 = none := by
    decide +kernel
  obtain ⟨d', enough, henough⟩ := h unknownEntryImage 0x9fc00 .fresh hpasses
  have hnone : readMPCT enough unknownEntryImage 0x9fc00 .fresh = none :=
    readMPCT_stuck .fresh hids
  cases hnone.symm.trans (henough enough (Nat.le_refl enough))

end MPStuBS.Machine
