import MPStuBS.Machine.MpTable
import Mathlib.Data.List.GetD

/-!
# What the MP tables list

`rangeIds` says, for a range alone, which enabled processors its table lists:
`none` if the table has an entry of an unknown type, and the empty list if there is
no floating pointer structure or no valid table. A configuration `Holds` the ids
that have been listed so far, as far as its array reaches. `searchConfig` appends
the ids of the range to the ones in the configuration (`searchConfig_holds`), and
where there is an unknown type it does not return (`searchConfig_stuck`).
-/

set_option autoImplicit false

namespace MPStuBS.Machine

open MPStuBS.Lib.Loop

/-- The configuration counts these CPUs and has their ids as far as the array reaches. -/
structure Holds (conf : SystemConfig) (ids : List Nat) : Prop where
  count : conf.cpuCount = ids.length
  lapicId : ∀ i < cpuMax, conf.lapicId i = ids.getD i 0

theorem Holds.fresh : Holds .fresh [] where
  count := rfl
  lapicId _ _ := rfl

/-- The array depends on the CPUs alone. -/
theorem Holds.congr {conf conf' : SystemConfig} {ids : List Nat} (h : Holds conf ids)
    (hcount : conf'.cpuCount = conf.cpuCount) (hids : conf'.lapicId = conf.lapicId) :
    Holds conf' ids where
  count := hcount.trans h.count
  lapicId i hi := by
    rw [hids]
    exact h.lapicId i hi

/-- One more CPU, stored if there is room. -/
theorem Holds.append_one {conf conf' : SystemConfig} {ids : List Nat} {a : Nat} (h : Holds conf ids)
    (hcount : conf'.cpuCount = conf.cpuCount + 1)
    (hroom : conf.cpuCount < cpuMax →
      conf'.lapicId = Function.update conf.lapicId conf.cpuCount a)
    (hfull : cpuMax ≤ conf.cpuCount → conf'.lapicId = conf.lapicId) :
    Holds conf' (ids ++ [a]) where
  count := by
    rw [hcount, h.count, List.length_append, List.length_singleton]
  lapicId i hi := by
    -- the entries in front of the new one, the new one, and the ones behind it
    by_cases hlt : i < ids.length
    · have hkept : conf'.lapicId i = conf.lapicId i := by
        by_cases hcap : conf.cpuCount < cpuMax
        · rw [hroom hcap, Function.update_of_ne]
          rw [h.count]
          omega
        · rw [hfull (by omega)]
      rw [hkept, h.lapicId i hi, List.getD_append _ _ _ _ hlt]
    · have hcap : conf.cpuCount < cpuMax := by
        rw [h.count]
        omega
      rw [hroom hcap, h.count, List.getD_append_right _ _ _ _ (by omega)]
      by_cases heq : i = ids.length
      · rw [heq, Function.update_self, Nat.sub_self]
        rfl
      · rw [Function.update_of_ne heq, h.lapicId i hi, List.getD_eq_default _ _ (by omega)]
        rw [List.getD_eq_default]
        rw [List.length_singleton]
        omega

/-! ## One entry -/

/-- The size of an entry, by its type. -/
def entrySize (type : BitVec 8) : Option Nat :=
  match type.toNat with
  | 0 => some 20
  | 1 => some 8
  | 2 => some 8
  | 3 => some 8
  | 4 => some 8
  | _ => none

theorem entrySize_pos {type : BitVec 8} {size : Nat} (h : entrySize type = some size) :
    0 < size := by
  unfold entrySize at h
  split at h <;> cases h <;> decide

/-- The CPU that an entry lists. -/
def entryIds (mem : Memory) (mpt : Addr) : List Nat :=
  if (mem mpt).toNat = 0 ∧ cpuEnabled mem mpt = true then [(mem (mpt + 1)).toNat] else []

theorem readProcessor_holds {mem : Memory} {m : Addr} {d : Detection} {ids : List Nat}
    (h : Holds d.conf ids) (htype : (mem m).toNat = 0) :
    Holds (readProcessor mem m d).conf (ids ++ entryIds mem m) := by
  unfold readProcessor entryIds
  by_cases hen : cpuEnabled mem m = true
  · rw [if_pos hen, if_pos (And.intro htype hen)]
    dsimp only
    split
    case isTrue hroom =>
      have hlt : d.conf.cpuCount < cpuMax := hroom
      exact h.append_one rfl (fun _ => rfl) (fun hfull => by omega)
    case isFalse hroom =>
      have hfull : ¬ d.conf.cpuCount < cpuMax := hroom
      exact h.append_one rfl (fun hlt => absurd hlt hfull) (fun _ => rfl)
  · rw [if_neg hen, if_neg (fun hcond => hen hcond.2), List.append_nil]
    exact h

theorem readIoint_holds {mem : Memory} {m : Addr} {d : Detection} {ids : List Nat}
    (h : Holds d.conf ids) : Holds (readIoint mem m d).conf ids := by
  unfold readIoint
  dsimp only
  split
  · exact h.congr rfl rfl
  · exact h

/-- The loop advances by the size of the entry, and the entry's CPU is appended. -/
theorem readEntry_known {mem : Memory} {mpt : Addr} {size : Nat} (d : Detection)
    (hsize : entrySize (mem mpt) = some size) :
    ∃ d', readEntry mem mpt d = some (size, d') ∧
      ∀ ids, Holds d.conf ids → Holds d'.conf (ids ++ entryIds mem mpt) := by
  have hother : ∀ d' : Detection, (mem mpt).toNat ≠ 0 →
      (∀ ids, Holds d.conf ids → Holds d'.conf ids) →
      ∀ ids, Holds d.conf ids → Holds d'.conf (ids ++ entryIds mem mpt) := by
    intro d' hne hkeep ids h
    rw [entryIds, if_neg (fun hcond => hne hcond.1), List.append_nil]
    exact hkeep ids h
  unfold entrySize at hsize
  unfold readEntry
  split at hsize
  case h_1 htype =>
      obtain rfl := Option.some.inj hsize
      rw [htype]
      exact ⟨_, rfl, fun ids h => readProcessor_holds h htype⟩
  case h_2 htype =>
      obtain rfl := Option.some.inj hsize
      rw [htype]
      exact ⟨_, rfl, hother _ (by omega) fun ids h => h⟩
  case h_3 htype =>
      obtain rfl := Option.some.inj hsize
      rw [htype]
      exact ⟨_, rfl, hother _ (by omega) fun ids h => h.congr rfl rfl⟩
  case h_4 htype =>
      obtain rfl := Option.some.inj hsize
      rw [htype]
      exact ⟨_, rfl, hother _ (by omega) fun ids h => readIoint_holds h⟩
  case h_5 htype =>
      obtain rfl := Option.some.inj hsize
      rw [htype]
      exact ⟨_, rfl, hother _ (by omega) fun ids h => h⟩
  case h_6 => cases hsize

theorem readEntry_unknown {mem : Memory} {mpt : Addr} {d : Detection}
    (hsize : entrySize (mem mpt) = none) : readEntry mem mpt d = none := by
  unfold entrySize at hsize
  unfold readEntry
  split at hsize
  case h_6 h0 h1 h2 h3 h4 =>
      split
      case h_6 => rfl
      all_goals contradiction
  all_goals cases hsize

/-! ## One table -/

/-- The CPUs that the entries from `mpt` on list, where `left` bytes of the table are left. -/
def idsFrom (mem : Memory) (left : Nat) (mpt : Addr) : Option (List Nat) :=
  if left = 0 then some []
  else
    match _h : entrySize (mem mpt) with
    | none => none
    | some size =>
        (idsFrom mem (left - size) (mpt + BitVec.ofNat 32 size)).map (entryIds mem mpt ++ ·)
termination_by left
decreasing_by
  have hpos := entrySize_pos _h
  omega

theorem idsFrom_done {mem : Memory} {mpt : Addr} : idsFrom mem 0 mpt = some [] := by
  rw [idsFrom, if_pos rfl]

theorem idsFrom_unknown {mem : Memory} {left : Nat} {mpt : Addr} (hleft : left ≠ 0)
    (hsize : entrySize (mem mpt) = none) : idsFrom mem left mpt = none := by
  rw [idsFrom, if_neg hleft]
  split
  case h_1 => rfl
  case h_2 size h => rw [hsize] at h; cases h

theorem idsFrom_entry {mem : Memory} {left size : Nat} {mpt : Addr} (hleft : left ≠ 0)
    (hsize : entrySize (mem mpt) = some size) :
    idsFrom mem left mpt =
      (idsFrom mem (left - size) (mpt + BitVec.ofNat 32 size)).map (entryIds mem mpt ++ ·) := by
  rw [idsFrom, if_neg hleft]
  split
  case h_1 h => rw [hsize] at h; cases h
  case h_2 size' h =>
    rw [hsize] at h
    obtain rfl := Option.some.inj h
    rfl

/-- The loop over the entries appends what they list; a round for each byte is enough. -/
theorem tableLoop_holds {mem : Memory} {length : Nat} {s : TableState} {ids more : List Nat}
    (h : Holds s.detection.conf ids) (hmore : idsFrom mem (length - s.count) s.mpt = some more) :
    ∃ d, (∀ fuel, length - s.count < fuel →
        loop (fun s => some (tableRound mem length s)) fuel s = some d) ∧
      Holds d.conf (ids ++ more) := by
  induction hleft : length - s.count using Nat.strong_induction_on generalizing s ids more with
  | h left ih =>
      rw [hleft] at hmore
      -- the bytes that are left decrease, since every known entry has a size
      by_cases hzero : left = 0
      · have hround : tableRound mem length s = .done s.detection := by
          rw [tableRound, if_neg (by omega)]
        rw [hzero, idsFrom_done] at hmore
        obtain rfl := Option.some.inj hmore
        refine ⟨s.detection, fun fuel hfuel => ?_, ?_⟩
        · obtain ⟨fuel, rfl⟩ := Nat.exists_eq_add_one_of_ne_zero (Nat.ne_zero_of_lt hfuel)
          exact loop_of_done (congrArg some hround)
        · rw [List.append_nil]
          exact h
      · cases hsize : entrySize (mem s.mpt) with
        | none =>
            rw [idsFrom_unknown hzero hsize] at hmore
            cases hmore
        | some size =>
            rw [idsFrom_entry hzero hsize, Option.map_eq_some_iff] at hmore
            obtain ⟨rest, hrest, rfl⟩ := hmore
            obtain ⟨d', hentry, hd'⟩ := readEntry_known s.detection hsize
            have hround : tableRound mem length s =
                .next ⟨s.mpt + BitVec.ofNat 32 size, s.count + size, d'⟩ := by
              rw [tableRound, if_pos (by omega), hentry]
            have hpos := entrySize_pos hsize
            have hleft' : length - (s.count + size) = left - size := by omega
            obtain ⟨d, hloop, hd⟩ := ih (left - size) (by omega)
              (s := ⟨s.mpt + BitVec.ofNat 32 size, s.count + size, d'⟩) (hd' ids h)
              (hleft' ▸ hrest) hleft'
            rw [List.append_assoc] at hd
            refine ⟨d, fun fuel hfuel => ?_, hd⟩
            obtain ⟨fuel, rfl⟩ := Nat.exists_eq_add_one_of_ne_zero (Nat.ne_zero_of_lt hfuel)
            rw [loop_of_next (congrArg some hround)]
            exact hloop fuel (by omega)

/-- At an entry of an unknown type the loop does not end. -/
theorem tableLoop_stuck {mem : Memory} {length fuel : Nat} {s : TableState}
    (hmore : idsFrom mem (length - s.count) s.mpt = none) :
    loop (fun s => some (tableRound mem length s)) fuel s = none := by
  induction fuel generalizing s with
  | zero => rfl
  | succ fuel ih =>
      have hlt : s.count < length := by
        by_contra hge
        have hzero : length - s.count = 0 := by omega
        rw [hzero, idsFrom_done] at hmore
        cases hmore
      have hleft : length - s.count ≠ 0 := by omega
      cases hsize : entrySize (mem s.mpt) with
      | none =>
          have hround : tableRound mem length s = .next s := by
            rw [tableRound, if_pos hlt, readEntry_unknown hsize]
          exact loop_repeat (congrArg some hround) _
      | some size =>
          obtain ⟨d', hentry, -⟩ := readEntry_known s.detection hsize
          have hround : tableRound mem length s =
              .next ⟨s.mpt + BitVec.ofNat 32 size, s.count + size, d'⟩ := by
            rw [tableRound, if_pos hlt, hentry]
          rw [idsFrom_entry hleft hsize, Option.map_eq_none_iff] at hmore
          rw [loop_of_next (congrArg some hround)]
          apply ih
          rw [← Nat.sub_sub]
          exact hmore

/-- The CPUs that a configuration table lists. -/
def tableIds (mem : Memory) (mpcth : Addr) : Option (List Nat) :=
  if signatureOK mem mpcth && mpbChecksumOK mem mpcth (tableLength mem mpcth) then
    idsFrom mem (tableLength mem mpcth - 44) (mpcth + 44)
  else
    some []

/-- An invalid table lists nothing, and `readMPCT` stores nothing. -/
theorem table_invalid {mem : Memory} {mpcth : Addr}
    (h : (signatureOK mem mpcth && mpbChecksumOK mem mpcth (tableLength mem mpcth)) = false)
    (fuel : Nat) (d : Detection) :
    tableIds mem mpcth = some [] ∧ readMPCT fuel mem mpcth d = some d := by
  unfold tableIds readMPCT
  rw [h]
  refine ⟨rfl, ?_⟩
  cases hsig : signatureOK mem mpcth with
  | false => rfl
  | true =>
      rw [hsig, Bool.true_and] at h
      rw [h]
      rfl

/-- The start of the loop over the entries. -/
def tableStart (mpcth : Addr) (d : Detection) : TableState :=
  ⟨mpcth + 44, 44, { d with conf := { d.conf with slotMap := legacySlotMap d.conf.slotMap } }⟩

theorem table_valid {mem : Memory} {mpcth : Addr}
    (h : (signatureOK mem mpcth && mpbChecksumOK mem mpcth (tableLength mem mpcth)) = true)
    (fuel : Nat) (d : Detection) :
    tableIds mem mpcth = idsFrom mem (tableLength mem mpcth - 44) (mpcth + 44) ∧
      readMPCT fuel mem mpcth d =
        loop (fun s => some (tableRound mem (tableLength mem mpcth) s)) fuel
          (tableStart mpcth d) := by
  have hboth := h
  rw [Bool.and_eq_true] at hboth
  unfold tableIds readMPCT
  rw [h, hboth.1, hboth.2]
  exact ⟨rfl, rfl⟩

theorem readMPCT_holds {mem : Memory} {mpcth : Addr} {d : Detection} {ids more : List Nat}
    (h : Holds d.conf ids) (hmore : tableIds mem mpcth = some more) :
    ∃ d', (∀ fuel, 65536 ≤ fuel → readMPCT fuel mem mpcth d = some d') ∧
      Holds d'.conf (ids ++ more) := by
  cases hvalid : signatureOK mem mpcth && mpbChecksumOK mem mpcth (tableLength mem mpcth) with
  | false =>
      rw [(table_invalid hvalid 0 d).1] at hmore
      obtain rfl := Option.some.inj hmore
      refine ⟨d, fun fuel _ => (table_invalid hvalid fuel d).2, ?_⟩
      rw [List.append_nil]
      exact h
  | true =>
      rw [(table_valid hvalid 0 d).1] at hmore
      -- the length has 16 bits
      have hlen : tableLength mem mpcth < 65536 := (mem.read16 (mpcth + 4)).isLt
      obtain ⟨d', hloop, hd'⟩ := tableLoop_holds (s := tableStart mpcth d) (h.congr rfl rfl) hmore
      refine ⟨d', fun fuel hfuel => ?_, hd'⟩
      have hrounds : tableLength mem mpcth - 44 < fuel := by omega
      exact (table_valid hvalid fuel d).2.trans (hloop fuel hrounds)

theorem readMPCT_stuck {mem : Memory} {mpcth : Addr} {fuel : Nat} (d : Detection)
    (hmore : tableIds mem mpcth = none) : readMPCT fuel mem mpcth d = none := by
  cases hvalid : signatureOK mem mpcth && mpbChecksumOK mem mpcth (tableLength mem mpcth) with
  | false =>
      rw [(table_invalid hvalid fuel d).1] at hmore
      cases hmore
  | true =>
      obtain ⟨hids, hread⟩ := table_valid hvalid fuel d
      rw [hids] at hmore
      rw [hread]
      exact tableLoop_stuck (s := tableStart mpcth d) hmore

/-! ## One range -/

/-- The CPUs that a floating pointer structure leads to. -/
def pointerIds (mem : Memory) (mpfps : Addr) : Option (List Nat) :=
  if hasTable mem mpfps then tableIds mem (physptr mem mpfps) else some []

/-- The CPUs that `n` paragraphs lead to. -/
def paragraphIds (mem : Memory) : Nat → Addr → Option (List Nat)
  | 0, _ => some []
  | n + 1, bp =>
      if floatingPointer mem bp then pointerIds mem bp else paragraphIds mem n (bp + 16)

/-- The CPUs that a range alone leads to. -/
def rangeIds (mem : Memory) (r : SearchRange) : Option (List Nat) :=
  paragraphIds mem (r.length / 16) (r.base &&& ~~~0xf)

/-- The signature begins with an underscore. -/
theorem floatingPointer_zero {mem : Memory} {bp : Addr} (h : mem bp = 0) :
    floatingPointer mem bp = false := by
  have hsig : mem.read32 bp ≠ 0x5f504d5f := by
    intro heq
    -- bit 0 of 0x5f
    have hbit := congrArg (fun w : BitVec 32 => w.getLsbD 0) heq
    simp only [Memory.read32, BitVec.getLsbD_append, h] at hbit
    cases hbit
  rw [floatingPointer, beq_eq_false_iff_ne.mpr hsig, Bool.false_and, Bool.false_and, Bool.false_and]

/-- Paragraphs that begin with zero lead to nothing. -/
theorem paragraphIds_zero {mem : Memory} {n : Nat} {bp : Addr}
    (h : ∀ k < n, mem (bp + BitVec.ofNat 32 (16 * k)) = 0) : paragraphIds mem n bp = some [] := by
  induction n generalizing bp with
  | zero => rfl
  | succ n ih =>
      have hfirst : mem bp = 0 := by
        simpa using h 0 (Nat.succ_pos n)
      rw [paragraphIds, floatingPointer_zero hfirst]
      apply ih
      intro k hk
      have hnext := h (k + 1) (Nat.succ_lt_succ hk)
      rwa [Nat.mul_succ, Nat.add_comm, BitVec.ofNat_add, ← BitVec.add_assoc] at hnext

theorem readPointer_holds {mem : Memory} {mpfps : Addr} {d : Detection} {ids more : List Nat}
    (h : Holds d.conf ids) (hmore : pointerIds mem mpfps = some more) :
    ∃ d', (∀ fuel, 65536 ≤ fuel →
        readPointer fuel mem mpfps d = some (decide (1 < (ids ++ more).length), d')) ∧
      Holds d'.conf (ids ++ more) := by
  unfold pointerIds at hmore
  unfold readPointer
  cases htable : hasTable mem mpfps with
  | false =>
      rw [htable] at hmore
      obtain rfl := Option.some.inj hmore
      rw [List.append_nil, ← h.count]
      exact ⟨_, fun _ _ => rfl, h.congr rfl rfl⟩
  | true =>
      rw [htable] at hmore
      obtain ⟨d', hread, hd'⟩ := readMPCT_holds (d := { d with
        compatibilityMode := mem (mpfps + 12) &&& 0x80
        conf := { d.conf with
          disablePICs := mem (mpfps + 12) &&& 0x80 == 0x80 || d.conf.disablePICs } })
        (h.congr rfl rfl) hmore
      refine ⟨d', fun fuel hfuel => ?_, hd'⟩
      rw [← hd'.count]
      dsimp only
      rw [if_pos rfl, hread fuel hfuel]
      rfl

theorem readPointer_stuck {mem : Memory} {mpfps : Addr} {fuel : Nat} (d : Detection)
    (hmore : pointerIds mem mpfps = none) : readPointer fuel mem mpfps d = none := by
  unfold pointerIds at hmore
  unfold readPointer
  cases htable : hasTable mem mpfps with
  | false =>
      rw [htable] at hmore
      cases hmore
  | true =>
      rw [htable] at hmore
      dsimp only
      rw [if_pos rfl, readMPCT_stuck _ hmore]
      rfl

/-- `searchConfig` appends what the range lists; 65536 rounds are enough for every table. -/
theorem searchConfig_holds {mem : Memory} {r : SearchRange} {d : Detection} {ids more : List Nat}
    (h : Holds d.conf ids) (hids : ids.length ≤ 1) (hmore : rangeIds mem r = some more) :
    ∃ d', (∀ fuel, 65536 ≤ fuel →
        searchConfig fuel mem r d = some (decide (1 < (ids ++ more).length), d')) ∧
      Holds d'.conf (ids ++ more) := by
  unfold rangeIds at hmore
  unfold searchConfig
  generalize r.length / 16 = n at hmore ⊢
  generalize r.base &&& ~~~0xf = bp at hmore ⊢
  induction n generalizing bp with
  | zero =>
      obtain rfl := Option.some.inj hmore
      rw [List.append_nil, decide_eq_false (by omega)]
      exact ⟨d, fun _ _ => rfl, h⟩
  | succ n ih =>
      rw [paragraphIds] at hmore
      simp only [searchFrom]
      cases hpointer : floatingPointer mem bp with
      | false =>
          rw [hpointer] at hmore
          exact ih (bp + 16) hmore
      | true =>
          rw [hpointer] at hmore
          exact readPointer_holds h hmore

theorem searchConfig_stuck {mem : Memory} {r : SearchRange} {fuel : Nat} (d : Detection)
    (hmore : rangeIds mem r = none) : searchConfig fuel mem r d = none := by
  unfold rangeIds at hmore
  unfold searchConfig
  generalize r.length / 16 = n at hmore ⊢
  generalize r.base &&& ~~~0xf = bp at hmore ⊢
  induction n generalizing bp with
  | zero => cases hmore
  | succ n ih =>
      rw [paragraphIds] at hmore
      rw [searchFrom]
      cases hpointer : floatingPointer mem bp with
      | false =>
          rw [hpointer] at hmore
          exact ih (bp + 16) hmore
      | true =>
          rw [hpointer] at hmore
          exact readPointer_stuck d hmore

end MPStuBS.Machine
