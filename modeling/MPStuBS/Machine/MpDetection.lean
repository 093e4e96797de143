import MPStuBS.Machine.MpListing

/-!
# One table, counted once

A search that has found a table with one CPU returns false, as if it had found
nothing, and the next range is searched with the configuration that already holds
this CPU. If that range leads to a table as well, be it the same one, its CPUs are
added to the first one. So the five searches give what one table says exactly if
none of them follows a table with one CPU and lists a CPU (`CountedOnce`).
-/

set_option autoImplicit false

namespace MPStuBS.Machine

open MPStuBS.Lib.Loop

/-- The configurations count the same CPUs and have the same array of ids. -/
def SameCpus (conf conf' : SystemConfig) : Prop :=
  conf.cpuCount = conf'.cpuCount ∧ ∀ i < cpuMax, conf.lapicId i = conf'.lapicId i

/-- The searches return, and what they have found is what the search of one of the ranges alone
reads into a fresh configuration. -/
def ParsedOnce (mem : Memory) : Prop :=
  ∃ d, Returns (fun fuel => searchMPS fuel mem) d ∧
    ∃ r ∈ searchRanges mem, ∃ found t,
      Returns (fun fuel => searchConfig fuel mem r .fresh) (found, t) ∧ SameCpus d.conf t.conf

/-! ## The lists of the ranges -/

/-- Lists of ids that the array does not distinguish. -/
def SameIds (ids ids' : List Nat) : Prop :=
  ids.length = ids'.length ∧ ids.take cpuMax = ids'.take cpuMax

/-- One of the ranges lists these ids. -/
def Listed (lists : List (Option (List Nat))) (ids : List Nat) : Prop :=
  ∃ ids', some ids' ∈ lists ∧ SameIds ids ids'

/-- Behind a table that lists the CPU `a` alone, no range lists a CPU; or the first one that does
makes up, with `a` in front, just the list of a range further behind. -/
def AddsNothing (a : Nat) : List (Option (List Nat)) → Prop
  | [] => True
  | none :: _ => False
  | some [] :: rest => AddsNothing a rest
  | some (b :: ids) :: rest => Listed rest (a :: b :: ids)

/-- The first range that lists a CPU lists several ones, or the ranges behind it add nothing; up to
there no range has a table with an entry of an unknown type. -/
def CountedOnce : List (Option (List Nat)) → Prop
  | [] => True
  | none :: _ => False
  | some [] :: rest => CountedOnce rest
  | some [a] :: rest => AddsNothing a rest
  | some (_ :: _ :: _) :: _ => True

/-- The ids that the searches collect, starting with `ids`. -/
def collect (ids : List Nat) : List (Option (List Nat)) → Option (List Nat)
  | [] => some ids
  | none :: _ => none
  | some more :: rest =>
      if 1 < (ids ++ more).length then some (ids ++ more) else collect (ids ++ more) rest

theorem SameIds.refl (ids : List Nat) : SameIds ids ids := ⟨rfl, rfl⟩

theorem SameIds.eq_singleton {ids : List Nat} {a : Nat} (h : SameIds ids [a]) : ids = [a] := by
  obtain ⟨hlen, htake⟩ := h
  have hone : [a].length ≤ cpuMax := by
    rw [List.length_singleton]
    decide
  rwa [List.take_of_length_le (hlen ▸ hone), List.take_of_length_le hone] at htake

theorem listed_cons {lists : List (Option (List Nat))} {ids' ids : List Nat} :
    Listed (some ids' :: lists) ids ↔ SameIds ids ids' ∨ Listed lists ids := by
  constructor
  · rintro ⟨ids'', hmem, hsame⟩
    cases hmem with
    | head => exact .inl hsame
    | tail _ hmem => exact .inr ⟨ids'', hmem, hsame⟩
  · rintro (hsame | ⟨ids'', hmem, hsame⟩)
    · exact ⟨ids', .head _, hsame⟩
    · exact ⟨ids'', .tail _ hmem, hsame⟩

theorem sameIds_nil {ids : List Nat} : SameIds ids [] ↔ ids = [] := by
  constructor
  · intro h
    exact List.length_eq_zero_iff.mp h.1
  · rintro rfl
    exact .refl []

/-- The first CPU stays in front. -/
theorem collect_cons {a : Nat} {lists : List (Option (List Nat))} {ids : List Nat}
    (h : collect [a] lists = some ids) : ∃ more, ids = a :: more := by
  induction lists with
  | nil => exact ⟨[], (Option.some.inj h).symm⟩
  | cons list rest ih =>
      cases list with
      | none => cases h
      | some more =>
          rw [collect] at h
          split at h
          · exact ⟨more, (Option.some.inj h).symm⟩
          -- the search only goes on if the list of the range is empty
          · cases more with
            | nil => exact ih h
            | cons b more => simp at *

/-- Behind a single CPU. -/
theorem addsNothing_iff (a : Nat) (lists : List (Option (List Nat))) :
    AddsNothing a lists ↔ ∃ ids, collect [a] lists = some ids ∧ (ids = [a] ∨ Listed lists ids) := by
  induction lists with
  | nil => exact ⟨fun _ => ⟨[a], rfl, .inl rfl⟩, fun _ => trivial⟩
  | cons list rest ih =>
      match list with
      | none =>
          refine ⟨False.elim, ?_⟩
          rintro ⟨ids, hcollect, -⟩
          cases hcollect
      | some [] =>
          have hskip : collect [a] (some [] :: rest) = collect [a] rest := rfl
          rw [AddsNothing, ih, hskip]
          refine exists_congr fun ids => and_congr_right fun hcollect => ?_
          obtain ⟨more, rfl⟩ := collect_cons hcollect
          rw [listed_cons, sameIds_nil, or_iff_right (List.cons_ne_nil a more)]
      | some (b :: more) =>
          have hstop : collect [a] (some (b :: more) :: rest) = some (a :: b :: more) := by
            rw [collect, if_pos (by simp)]
            rfl
          rw [AddsNothing, hstop]
          -- two CPUs at least: the search ends, and only a range further behind
          -- can list the same ones
          constructor
          · intro hlisted
            exact ⟨_, rfl, .inr (listed_cons.mpr (.inr hlisted))⟩
          · rintro ⟨ids, hcollect, hlisted⟩
            obtain rfl := Option.some.inj hcollect
            rcases hlisted with hone | hlisted
            · cases hone
            · rcases listed_cons.mp hlisted with ⟨hlen, -⟩ | hlisted
              · simp at hlen
              · exact hlisted

/-- The lists of the ranges decide: what is collected is the list of a range, or nothing. -/
theorem countedOnce_iff (lists : List (Option (List Nat))) :
    CountedOnce lists ↔ ∃ ids, collect [] lists = some ids ∧ (ids = [] ∨ Listed lists ids) := by
  induction lists with
  | nil => exact ⟨fun _ => ⟨[], rfl, .inl rfl⟩, fun _ => trivial⟩
  | cons list rest ih =>
      match list with
      | none =>
          refine ⟨False.elim, ?_⟩
          rintro ⟨ids, hcollect, -⟩
          cases hcollect
      | some [] =>
          have hskip : collect [] (some [] :: rest) = collect [] rest := rfl
          rw [CountedOnce, ih, hskip]
          refine exists_congr fun ids => and_congr_right fun _ => ?_
          rw [listed_cons, sameIds_nil, ← or_assoc, or_self]
      | some [a] =>
          have hskip : collect [] (some [a] :: rest) = collect [a] rest := rfl
          rw [CountedOnce, addsNothing_iff, hskip]
          refine exists_congr fun ids => and_congr_right fun hcollect => ?_
          obtain ⟨more, rfl⟩ := collect_cons hcollect
          rw [listed_cons, or_iff_right (List.cons_ne_nil a more)]
          refine or_congr ⟨fun hone => ?_, SameIds.eq_singleton⟩ Iff.rfl
          rw [hone]
          exact .refl [a]
      | some (a :: b :: more) =>
          have hstop : collect [] (some (a :: b :: more) :: rest) = some (a :: b :: more) := by
            rw [collect, if_pos (by simp)]
            rfl
          refine ⟨fun _ => ?_, fun _ => trivial⟩
          exact ⟨_, hstop, .inr (listed_cons.mpr (.inl (.refl _)))⟩

/-- Collecting nothing means that the ranges list nothing. -/
theorem mem_of_collect_nil {lists : List (Option (List Nat))} (hne : lists ≠ [])
    (h : collect [] lists = some []) : some [] ∈ lists := by
  match lists with
  | [] => exact absurd rfl hne
  | none :: rest => cases h
  | some [] :: rest => exact List.mem_cons_self
  | some [a] :: rest =>
      have hskip : collect [a] rest = some [] := h
      obtain ⟨more, hcons⟩ := collect_cons hskip
      cases hcons
  | some (a :: b :: more) :: rest =>
      rw [collect, if_pos (by simp)] at h
      cases h

/-! ## The searches -/

/-- The searches collect the lists of the ranges. -/
theorem searchConfigs_holds {mem : Memory} {rs : List SearchRange} {d : Detection}
    {ids all : List Nat} (h : Holds d.conf ids) (hids : ids.length ≤ 1)
    (hall : collect ids (rs.map (rangeIds mem)) = some all) :
    ∃ d', (∀ fuel, 65536 ≤ fuel → searchConfigs fuel mem rs d = some d') ∧ Holds d'.conf all := by
  induction rs generalizing d ids with
  | nil =>
      obtain rfl := Option.some.inj hall
      exact ⟨d, fun _ _ => rfl, h⟩
  | cons r rs ih =>
      rw [List.map_cons] at hall
      cases hmore : rangeIds mem r with
      | none =>
          rw [hmore] at hall
          cases hall
      | some more =>
          obtain ⟨d', hsearch, hd'⟩ := searchConfig_holds h hids hmore
          rw [hmore, collect] at hall
          -- `searchConfig` returns true for several CPUs, and `||` ends the search
          by_cases hseveral : 1 < (ids ++ more).length
          · rw [if_pos hseveral] at hall
            obtain rfl := Option.some.inj hall
            refine ⟨d', fun fuel hfuel => ?_, hd'⟩
            rw [searchConfigs, hsearch fuel hfuel, decide_eq_true hseveral]
            rfl
          · rw [if_neg hseveral] at hall
            obtain ⟨d'', hrest, hd''⟩ := ih hd' (by omega) hall
            refine ⟨d'', fun fuel hfuel => ?_, hd''⟩
            rw [searchConfigs, hsearch fuel hfuel, decide_eq_false hseveral]
            exact hrest fuel hfuel

/-- They do not return where they come to an entry of an unknown type. -/
theorem searchConfigs_stuck {mem : Memory} {fuel : Nat} {rs : List SearchRange} {d : Detection}
    {ids : List Nat} (h : Holds d.conf ids) (hids : ids.length ≤ 1) (hfuel : 65536 ≤ fuel)
    (hall : collect ids (rs.map (rangeIds mem)) = none) : searchConfigs fuel mem rs d = none := by
  induction rs generalizing d ids with
  | nil => cases hall
  | cons r rs ih =>
      rw [List.map_cons] at hall
      rw [searchConfigs]
      cases hmore : rangeIds mem r with
      | none =>
          rw [searchConfig_stuck d hmore]
          rfl
      | some more =>
          obtain ⟨d', hsearch, hd'⟩ := searchConfig_holds h hids hmore
          rw [hmore, collect] at hall
          rw [hsearch fuel hfuel]
          by_cases hseveral : 1 < (ids ++ more).length
          · rw [if_pos hseveral] at hall
            cases hall
          · rw [if_neg hseveral] at hall
            rw [decide_eq_false hseveral]
            exact ih hd' (by omega) hall

/-- A configuration that holds the ids is determined as far as `SameCpus` looks. -/
theorem sameCpus_iff {conf conf' : SystemConfig} {ids ids' : List Nat} (h : Holds conf ids)
    (h' : Holds conf' ids') : SameCpus conf conf' ↔ SameIds ids ids' := by
  unfold SameCpus SameIds
  rw [h.count, h'.count]
  refine and_congr_right fun hlen => ⟨fun hall => ?_, fun htake i hi => ?_⟩
  · apply List.ext_getElem
    · rw [List.length_take, List.length_take, hlen]
    · intro i hi hi'
      rw [List.length_take] at hi hi'
      have heq := hall i (by omega)
      rw [h.lapicId i (by omega), h'.lapicId i (by omega), List.getD_eq_getElem _ _ (by omega),
        List.getD_eq_getElem _ _ (by omega)] at heq
      rw [List.getElem_take, List.getElem_take]
      exact heq
  · rw [h.lapicId i hi, h'.lapicId i hi]
    have hget := congrArg (fun l => l.getD i 0) htake
    simpa only [List.getD_eq_getElem?_getD, List.getElem?_take, if_pos hi] using hget

/-- Where all searches return, they have collected the lists. -/
theorem searchMPS_returns {mem : Memory} {d : Detection}
    (h : Returns (fun fuel => searchMPS fuel mem) d) :
    ∃ all, collect [] ((searchRanges mem).map (rangeIds mem)) = some all ∧ Holds d.conf all := by
  obtain ⟨fuel, hfuel, hrun⟩ := h.exists_ge 65536
  cases hall : collect [] ((searchRanges mem).map (rangeIds mem)) with
  | none =>
      have hstuck := searchConfigs_stuck (d := .fresh) Holds.fresh (Nat.zero_le 1) hfuel hall
      cases hrun.symm.trans hstuck
  | some all =>
      obtain ⟨d', hsearch, hd'⟩ :=
        searchConfigs_holds (d := .fresh) Holds.fresh (Nat.zero_le 1) hall
      obtain rfl := Option.some.inj (hrun.symm.trans (hsearch fuel hfuel))
      exact ⟨all, rfl, hd'⟩

/-- Where one search alone returns, it has the list of its range. -/
theorem searchConfig_returns {mem : Memory} {r : SearchRange} {found : Bool} {t : Detection}
    (h : Returns (fun fuel => searchConfig fuel mem r .fresh) (found, t)) :
    ∃ ids, rangeIds mem r = some ids ∧ Holds t.conf ids := by
  obtain ⟨fuel, hfuel, hrun⟩ := h.exists_ge 65536
  cases hids : rangeIds mem r with
  | none => cases hrun.symm.trans (searchConfig_stuck _ hids)
  | some ids =>
      obtain ⟨d', hsearch, hd'⟩ :=
        searchConfig_holds (d := .fresh) Holds.fresh (Nat.zero_le 1) hids
      obtain ⟨-, rfl⟩ := Prod.mk.inj (Option.some.inj (hrun.symm.trans (hsearch fuel hfuel)))
      exact ⟨ids, rfl, hd'⟩

/-- A table is parsed once exactly if what is collected is what one of the ranges lists. -/
theorem parsedOnce_of_lists (mem : Memory) :
    ParsedOnce mem ↔
      ∃ ids, collect [] ((searchRanges mem).map (rangeIds mem)) = some ids ∧
        Listed ((searchRanges mem).map (rangeIds mem)) ids := by
  constructor
  · rintro ⟨d, hall, r, hr, found, t, hone, hsame⟩
    obtain ⟨ids, hcollect, hd⟩ := searchMPS_returns hall
    obtain ⟨ids', hlist, ht⟩ := searchConfig_returns hone
    refine ⟨ids, hcollect, ids', ?_, (sameCpus_iff hd ht).mp hsame⟩
    rw [← hlist]
    exact List.mem_map_of_mem hr
  · rintro ⟨ids, hcollect, ids', hmem, hsame⟩
    obtain ⟨r, hr, hlist⟩ := List.mem_map.mp hmem
    obtain ⟨d, hsearch, hd⟩ :=
      searchConfigs_holds (d := .fresh) Holds.fresh (Nat.zero_le 1) hcollect
    obtain ⟨t, hone, ht⟩ :=
      searchConfig_holds (d := .fresh) Holds.fresh (Nat.zero_le 1) hlist
    exact ⟨d, ⟨65536, hsearch⟩, r, hr, _, t, ⟨65536, hone⟩, (sameCpus_iff hd ht).mpr hsame⟩

/-- The searches give what one table says exactly if no CPU is added to a table with one CPU. -/
theorem table_parsed_once_iff (mem : Memory) :
    ParsedOnce mem ↔ CountedOnce ((searchRanges mem).map (rangeIds mem)) := by
  rw [parsedOnce_of_lists, countedOnce_iff]
  constructor
  · rintro ⟨ids, hcollect, hlisted⟩
    exact ⟨ids, hcollect, .inr hlisted⟩
  · rintro ⟨ids, hcollect, rfl | hlisted⟩
    -- nothing found at all is what a range without a table gives
    · have hne : (searchRanges mem).map (rangeIds mem) ≠ [] := by
        simp [searchRanges]
      exact ⟨[], hcollect, [], mem_of_collect_nil hne hcollect, .refl []⟩
    · exact ⟨ids, hcollect, hlisted⟩

/-! ## A table in two ranges -/

/-- Bytes laid over a memory. -/
def Memory.overlay (start : Addr) (bytes : List (BitVec 8)) (mem : Memory) : Memory := fun a =>
  if (a - start).toNat < bytes.length then bytes.getD (a - start).toNat 0 else mem a

theorem Memory.overlay_of_le {start a : Addr} {bytes : List (BitVec 8)} {mem : Memory}
    (h : start.toNat + bytes.length ≤ a.toNat) : Memory.overlay start bytes mem a = mem a := by
  unfold Memory.overlay
  rw [if_neg]
  rw [BitVec.toNat_sub]
  omega

/-- A machine with one CPU. The EBDA starts at 639K, and 639K is the size of the base memory; there
lies the floating pointer structure, and behind it the table with the one processor entry. -/
def oneCpuImage : Memory :=
  Memory.overlay 0x40e [0xc0, 0x9f] <|
  Memory.overlay 0x413 [0x7f, 0x02] <|
  Memory.overlay 0x9fc00
    [0x5f, 0x4d, 0x50, 0x5f, 0x10, 0xfc, 0x09, 0x00, 0x01, 0x04, 0x8b, 0x00, 0x00, 0x00, 0x00, 0x00,
      0x50, 0x43, 0x4d, 0x50, 0x40, 0x00, 0x04, 0x75] <|
  Memory.overlay 0x9fc3c [0x00, 0x00, 0x14, 0x03] fun _ => 0

/-- There is nothing in the BIOS ROM. -/
theorem oneCpuImage_rom {a : Addr} (h : 0xf0000 ≤ a.toNat) : oneCpuImage a = 0 := by
  unfold oneCpuImage
  rw [Memory.overlay_of_le (Nat.le_trans (by decide) h),
    Memory.overlay_of_le (Nat.le_trans (by decide) h),
    Memory.overlay_of_le (Nat.le_trans (by decide) h),
    Memory.overlay_of_le (Nat.le_trans (by decide) h)]

/-- Three ranges contain the structure. -/
theorem oneCpuImage_lists :
    (searchRanges oneCpuImage).map (rangeIds oneCpuImage) =
      [some [0], some [0], some [], some [0], some []] := by
  have hrom : rangeIds oneCpuImage ⟨0x000f0000, 0x000fffff - 0x000f0000 + 1⟩ = some [] := by
    show paragraphIds oneCpuImage 4096 0xf0000 = some []
    apply paragraphIds_zero
    intro k hk
    apply oneCpuImage_rom
    have hbase : (0xf0000 : Addr).toNat = 0xf0000 := rfl
    rw [BitVec.toNat_add, BitVec.toNat_ofNat, hbase]
    omega
  have hlow : ((searchRanges oneCpuImage).take 4).map (rangeIds oneCpuImage) =
      [some [0], some [0], some [], some [0]] := by
    decide +kernel
  calc (searchRanges oneCpuImage).map (rangeIds oneCpuImage)
      = ((searchRanges oneCpuImage).take 4).map (rangeIds oneCpuImage) ++
          [rangeIds oneCpuImage ⟨0x000f0000, 0x000fffff - 0x000f0000 + 1⟩] := rfl
    _ = [some [0], some [0], some [], some [0], some []] := by rw [hlow, hrom]; rfl

/-- The searches count the one CPU twice. -/
theorem one_cpu_counted_twice : ¬ ParsedOnce oneCpuImage := by
  rw [parsedOnce_of_lists, oneCpuImage_lists]
  rintro ⟨ids, hcollect, ids', hmem, hlen, -⟩
  obtain rfl : [0, 0] = ids := Option.some.inj hcollect
  have hshort : ∀ list ∈ [some [0], some [0], some [], some [0], some []],
      list.map List.length ≠ some 2 := by
    decide
  apply hshort _ hmem
  rw [Option.map_some, ← hlen]
  rfl

end MPStuBS.Machine
