import MPStuBS.Machine.InvalidTables

/-!
# The search for the RSDP

The root system description pointer lies at a multiple of 16 in the first KiB of the
EBDA or in the BIOS ROM. The word at 0x40e is the segment of the EBDA, so its address
is that word times 16; `detectSystemType` computes it in this way. `RSDP::find` reads a
pointer of 32 bits there instead, and searches the KiB at that address.

A search that stays below the end of the address space returns the first valid address
of its range (`findIn_eq`). So `find` is right exactly if the KiB at the pointer and
the EBDA lead to the same structure (`search_correct_iff`).
-/

set_option autoImplicit false

namespace MPStuBS.Machine.Rsdp

/-- The signature and the checksum, as `find(start, len)` tests them. -/
def valid (mem : Memory) (a : Addr) : Bool := signatureOK mem a && checkSum mem a

/-- `n` addresses, 16 bytes apart. -/
def paragraphs : Nat → Addr → List Addr
  | 0, _ => []
  | n + 1, a => a :: paragraphs n (a + 16)

/-- The base of the extended BIOS data area: its segment is at 0x40e. -/
def ebdaBase (mem : Memory) : Addr := (mem.read16 0x40e).setWidth 32 <<< 4

/-- `detectSystemType` starts its search for an MP configuration at the same address. -/
theorem ebdaBase_eq (mem : Memory) :
    (searchRanges mem).head? = some ⟨ebdaBase mem, 1024⟩ := rfl

/-- The paragraphs of the first KiB of the EBDA. -/
def ebda (mem : Memory) : List Addr := paragraphs 64 (ebdaBase mem)

/-- The paragraphs of the BIOS ROM. -/
def rom : List Addr := paragraphs 8192 0xe0000

/-- The lowest valid address of the list. -/
def Lowest (mem : Memory) (l : List Addr) (a : Addr) : Prop :=
  a ∈ l ∧ valid mem a = true ∧ ∀ b ∈ l, valid mem b = true → a ≤ b

/-- `find` returns a pointer exactly if there is a valid address in one of the two areas, and then
the lowest one, the EBDA first. -/
structure SearchCorrect (mem : Memory) : Prop where
  found : find mem ≠ 0 ↔ ∃ a, (a ∈ ebda mem ∨ a ∈ rom) ∧ valid mem a = true
  lowest : find mem ≠ 0 → Lowest mem (ebda mem) (find mem) ∨
    (∀ a ∈ ebda mem, valid mem a = false) ∧ Lowest mem rom (find mem)

/-! ## What a search returns -/

/-- The first valid address of a list. -/
def firstIn (mem : Memory) (l : List Addr) : Option Addr := l.find? (valid mem)

/-- The result of a search, where the null pointer stands for none. -/
def toOption (a : Addr) : Option Addr := if a = 0 then none else some a

/-- The first valid address in the KiB at the pointer that the code reads at 0x40e. There is none if
that KiB passes the end of the address space, and the address 0 counts as none. -/
def firstAtPointer (mem : Memory) : Option Addr :=
  if (mem.read32 0x40e).toNat + 0x400 < 2 ^ 32 then
    (firstIn mem (paragraphs 64 (mem.read32 0x40e))).bind toOption
  else none

section Paragraphs

variable {mem : Memory} {n : Nat} {start a : Addr}

theorem mem_paragraphs : a ∈ paragraphs n start ↔
    ∃ k < n, a = start + BitVec.ofNat 32 (16 * k) := by
  induction n generalizing start with
  | zero => simp [paragraphs]
  | succ n ih =>
      rw [paragraphs, List.mem_cons, ih]
      have hnext : ∀ k, start + 16 + BitVec.ofNat 32 (16 * k) =
          start + BitVec.ofNat 32 (16 * (k + 1)) := by
        intro k
        rw [BitVec.add_assoc, Nat.mul_succ, Nat.add_comm (16 * k), BitVec.ofNat_add]
        rfl
      constructor
      · rintro (rfl | ⟨k, hk, rfl⟩)
        · exact ⟨0, Nat.succ_pos n, (BitVec.add_zero a).symm⟩
        · exact ⟨k + 1, Nat.succ_lt_succ hk, hnext k⟩
      · rintro ⟨k, hk, rfl⟩
        cases k with
        | zero => exact .inl (BitVec.add_zero start)
        | succ k => exact .inr ⟨k, Nat.lt_of_succ_lt_succ hk, (hnext k).symm⟩

/-- Below the end of the address space the paragraphs ascend. -/
theorem le_of_mem_paragraphs (hend : start.toNat + 16 * n ≤ 2 ^ 32) (h : a ∈ paragraphs n start) :
    start ≤ a := by
  obtain ⟨k, hk, rfl⟩ := mem_paragraphs.1 h
  rw [BitVec.le_def, BitVec.toNat_add, BitVec.toNat_ofNat]
  omega

theorem firstIn_eq_none {l : List Addr} :
    firstIn mem l = none ↔ ∀ a ∈ l, valid mem a = false := by
  rw [firstIn, List.find?_eq_none]
  exact forall₂_congr fun a _ => Bool.not_eq_true (valid mem a) ▸ Iff.rfl

/-- An invalid address in front does not matter. -/
theorem lowest_cons {l : List Addr} (h : valid mem start = false) :
    Lowest mem (start :: l) a ↔ Lowest mem l a := by
  constructor
  · rintro ⟨hmem, ha, hleast⟩
    have hne : a ≠ start := by
      rintro rfl
      cases h.symm.trans ha
    exact ⟨(List.mem_cons.1 hmem).resolve_left hne, ha,
      fun b hb => hleast b (List.mem_cons_of_mem start hb)⟩
  · rintro ⟨hmem, ha, hleast⟩
    refine ⟨List.mem_cons_of_mem start hmem, ha, fun b hb hvalid => ?_⟩
    rcases List.mem_cons.1 hb with rfl | hb
    · cases h.symm.trans hvalid
    · exact hleast b hb hvalid

/-- Behind the first paragraph there are fewer. -/
theorem toNat_next (hend : start.toNat + 16 * (n + 1) < 2 ^ 32) :
    (start + 16).toNat = start.toNat + 16 := by
  rw [BitVec.toNat_add]
  exact Nat.mod_eq_of_lt (show start.toNat + 16 < 2 ^ 32 by omega)

/-- The first valid address is the lowest one. -/
theorem firstIn_eq_some (hend : start.toNat + 16 * n < 2 ^ 32) :
    firstIn mem (paragraphs n start) = some a ↔ Lowest mem (paragraphs n start) a := by
  induction n generalizing start with
  | zero => exact iff_of_false (by simp [firstIn, paragraphs]) fun h => List.not_mem_nil h.1
  | succ n ih =>
      cases hvalid : valid mem start with
      | true =>
          have hfirst : firstIn mem (paragraphs (n + 1) start) = some start :=
            List.find?_cons_of_pos hvalid
          have hle : ∀ b ∈ paragraphs (n + 1) start, start ≤ b := fun b =>
            le_of_mem_paragraphs (Nat.le_of_lt hend)
          rw [hfirst]
          constructor
          · intro h
            obtain rfl := Option.some.inj h
            exact ⟨List.mem_cons_self, hvalid, fun b hb _ => hle b hb⟩
          · rintro ⟨hmem, -, hleast⟩
            exact congrArg some (BitVec.le_antisymm (hle a hmem)
              (hleast start List.mem_cons_self hvalid))
      | false =>
          have hnext := toNat_next hend
          have hrest : firstIn mem (paragraphs (n + 1) start) =
              firstIn mem (paragraphs n (start + 16)) :=
            List.find?_cons_of_neg (by rw [hvalid]; decide)
          rw [hrest, ih (by omega), paragraphs, lowest_cons hvalid]

/-- The loop of a search finds the first valid address. -/
theorem findFrom_eq {stop : Addr} (hend : start.toNat + 16 * n < 2 ^ 32)
    (hstop : stop.toNat = start.toNat + 16 * n) :
    findFrom mem stop n start = (firstIn mem (paragraphs n start)).getD 0 := by
  induction n generalizing start with
  | zero => rfl
  | succ n ih =>
      have hlt : start < stop := by
        rw [BitVec.lt_def]
        omega
      have hnext := toNat_next hend
      rw [findFrom, if_pos hlt]
      show (if valid mem start = true then start else findFrom mem stop n (start + 16)) = _
      cases hvalid : valid mem start with
      | true =>
          have hfirst : firstIn mem (paragraphs (n + 1) start) = some start :=
            List.find?_cons_of_pos hvalid
          rw [if_pos rfl, hfirst]
          rfl
      | false =>
          have hrest : firstIn mem (paragraphs (n + 1) start) =
              firstIn mem (paragraphs n (start + 16)) :=
            List.find?_cons_of_neg (by rw [hvalid]; decide)
          rw [if_neg (by decide), hrest]
          exact ih (by omega) (by omega)

theorem findIn_eq (hend : start.toNat + 16 * n < 2 ^ 32) :
    findIn mem start (16 * n) = (firstIn mem (paragraphs n start)).getD 0 := by
  rw [findIn, Nat.mul_div_cancel_left n (by decide)]
  apply findFrom_eq hend
  rw [BitVec.toNat_add, BitVec.toNat_ofNat]
  omega

/-- If the range passes the end of the address space, its end is not behind its start. -/
theorem findIn_of_wrap (hn : 16 * n < 2 ^ 32) (hwrap : 2 ^ 32 ≤ start.toNat + 16 * n) :
    findIn mem start (16 * n) = 0 := by
  have hstop : ¬ start < start + BitVec.ofNat 32 (16 * n) := by
    rw [BitVec.lt_def, BitVec.toNat_add, BitVec.toNat_ofNat]
    omega
  rw [findIn]
  cases 16 * n / 16 with
  | zero => rfl
  | succ m => rw [findFrom, if_neg hstop]

end Paragraphs

section Find

variable {mem : Memory}

theorem toOption_getD (o : Option Addr) : toOption (o.getD 0) = o.bind toOption := by
  cases o <;> rfl

theorem toOption_findIn_pointer :
    toOption (findIn mem (mem.read32 0x40e) 0x400) = firstAtPointer mem := by
  unfold firstAtPointer
  split
  case isTrue hend =>
      rw [← toOption_getD]
      exact congrArg toOption (findIn_eq (n := 64) hend)
  case isFalse hwrap =>
      have hzero : findIn mem (mem.read32 0x40e) 0x400 = 0 :=
        findIn_of_wrap (n := 64) (by decide) (Nat.le_of_not_lt hwrap)
      rw [hzero]
      rfl

theorem rom_end : (0xe0000 : Addr).toNat + 16 * 8192 < 2 ^ 32 := by decide

theorem toOption_findIn_rom : toOption (findIn mem 0xe0000 0x20000) = firstIn mem rom := by
  have hfind : findIn mem 0xe0000 0x20000 = (firstIn mem rom).getD 0 :=
    findIn_eq (n := 8192) rom_end
  rw [hfind, toOption_getD]
  cases hfirst : firstIn mem rom with
  | none => rfl
  | some a =>
      have hle : (0xe0000 : Addr) ≤ a :=
        le_of_mem_paragraphs (Nat.le_of_lt rom_end) (List.mem_of_find?_eq_some hfirst)
      refine if_neg ?_
      rintro rfl
      exact absurd hle (by decide)

theorem toOption_eq_some {a b : Addr} : toOption a = some b ↔ a ≠ 0 ∧ a = b := by
  unfold toOption
  split
  case isTrue hzero => exact iff_of_false (by simp) fun h => h.1 hzero
  case isFalse hne => exact ⟨fun h => ⟨hne, Option.some.inj h⟩, fun h => congrArg some h.2⟩

theorem toOption_eq_none {a : Addr} : toOption a = none ↔ a = 0 := by
  unfold toOption
  split
  case isTrue hzero => exact iff_of_true rfl hzero
  case isFalse hne => exact iff_of_false (by simp) hne

/-- `find` returns the first address at the pointer, or else the first one of the ROM. -/
theorem toOption_find : toOption (find mem) = (firstAtPointer mem).or (firstIn mem rom) := by
  rw [← toOption_findIn_pointer, ← toOption_findIn_rom, find]
  generalize findIn mem (mem.read32 0x40e) 0x400 = low
  generalize findIn mem 0xe0000 0x20000 = high
  show toOption (if low ≠ 0 then low else high) = _
  by_cases hlow : low = 0
  · rw [if_neg (not_not.2 hlow), toOption_eq_none.2 hlow]
    rfl
  · rw [if_pos hlow, toOption_eq_some.2 ⟨hlow, rfl⟩]
    rfl

theorem ebda_end : (ebdaBase mem).toNat + 16 * 64 < 2 ^ 32 := by
  have hword : (mem.read16 0x40e).toNat < 2 ^ 16 := (mem.read16 0x40e).isLt
  rw [ebdaBase, BitVec.toNat_shiftLeft, BitVec.toNat_setWidth]
  omega

/-- The first address of the EBDA, or else the first one of the ROM. -/
theorem firstIn_or_eq_some {a : Addr} :
    (firstIn mem (ebda mem)).or (firstIn mem rom) = some a ↔ Lowest mem (ebda mem) a ∨
      (∀ b ∈ ebda mem, valid mem b = false) ∧ Lowest mem rom a := by
  have hebda : firstIn mem (ebda mem) = some a ↔ Lowest mem (ebda mem) a := firstIn_eq_some ebda_end
  have hrom : firstIn mem rom = some a ↔ Lowest mem rom a := firstIn_eq_some rom_end
  rw [Option.or_eq_some_iff, hebda, firstIn_eq_none, hrom]

theorem firstIn_or_ne_none : (firstIn mem (ebda mem)).or (firstIn mem rom) ≠ none ↔
    ∃ a, (a ∈ ebda mem ∨ a ∈ rom) ∧ valid mem a = true := by
  rw [Ne, Option.or_eq_none_iff, firstIn_eq_none, firstIn_eq_none]
  constructor
  · intro h
    by_contra hno
    simp only [not_exists, not_and, Bool.not_eq_true] at hno
    exact h ⟨fun a ha => hno a (.inl ha), fun a ha => hno a (.inr ha)⟩
  · rintro ⟨a, ha | ha, hvalid⟩ ⟨hebda, hrom⟩
    · cases (hebda a ha).symm.trans hvalid
    · cases (hrom a ha).symm.trans hvalid

/-- The search is correct exactly if it returns the first address of the EBDA, or else the first one
of the ROM. -/
theorem searchCorrect_iff_first :
    SearchCorrect mem ↔ toOption (find mem) = (firstIn mem (ebda mem)).or (firstIn mem rom) := by
  constructor
  · intro h
    cases hfirst : (firstIn mem (ebda mem)).or (firstIn mem rom) with
    | none =>
        apply toOption_eq_none.2
        by_contra hne
        exact firstIn_or_ne_none.2 (h.found.1 hne) hfirst
    | some a =>
        have hne : find mem ≠ 0 := by
          apply h.found.2
          apply firstIn_or_ne_none.1
          rw [hfirst]
          exact Option.some_ne_none a
        have hfind := firstIn_or_eq_some.2 (h.lowest hne)
        exact toOption_eq_some.2 ⟨hne, Option.some.inj (hfind.symm.trans hfirst)⟩
  · intro h
    constructor
    · rw [← firstIn_or_ne_none, ← h]
      exact (not_congr toOption_eq_none).symm
    · intro hne
      exact firstIn_or_eq_some.1 (h.symm.trans (toOption_eq_some.2 ⟨hne, rfl⟩))

end Find

/-- The search is correct exactly if the KiB at the pointer and the EBDA have the same first
address, or if the one of them has none and the other one has the first one of the ROM. -/
theorem search_correct_iff (mem : Memory) : SearchCorrect mem ↔
    firstAtPointer mem = firstIn mem (ebda mem) ∨
    (firstAtPointer mem = none ∧ firstIn mem (ebda mem) = firstIn mem rom) ∨
    (firstIn mem (ebda mem) = none ∧ firstAtPointer mem = firstIn mem rom) := by
  rw [searchCorrect_iff_first, toOption_find]
  generalize firstAtPointer mem = p
  generalize firstIn mem (ebda mem) = e
  generalize firstIn mem rom = r
  cases p with
  | none =>
      cases e with
      | none => simp
      | some e => simp [eq_comm]
  | some p =>
      cases e with
      | none => simp
      | some e => simp

/-- A machine whose EBDA starts at 639K, with the RSDP at its start. -/
def ebdaImage : Memory :=
  Memory.overlay 0x40e [0xc0, 0x9f] <|
  Memory.overlay 0x9fc00
    [0x52, 0x53, 0x44, 0x20, 0x50, 0x54, 0x52, 0x20, 0xb3, 0x00, 0x00, 0x00, 0x00, 0x00, 0x00, 0x00,
      0x20, 0x00, 0x0e, 0x00] fun _ => 0

theorem signatureOK_zero {mem : Memory} {a : Addr} (h : mem a = 0) : signatureOK mem a = false := by
  have hsig : mem.read32 a ≠ charsToUInt32 0x52 0x53 0x44 0x20 := by
    intro heq
    -- bit 1 of 0x52
    have hbit := congrArg (fun w : BitVec 32 => w.getLsbD 1) heq
    simp only [Memory.read32, BitVec.getLsbD_append, h] at hbit
    cases hbit
  rw [signatureOK, beq_eq_false_iff_ne.2 hsig, Bool.false_and]

/-- There is nothing in the BIOS ROM. -/
theorem ebdaImage_rom : firstIn ebdaImage rom = none := by
  refine firstIn_eq_none.2 fun a ha => ?_
  have hle : 0xe0000 ≤ a.toNat := le_of_mem_paragraphs (Nat.le_of_lt rom_end) ha
  have hzero : ebdaImage a = 0 := by
    unfold ebdaImage
    rw [Memory.overlay_of_le (Nat.le_trans (by decide) hle),
      Memory.overlay_of_le (Nat.le_trans (by decide) hle)]
  rw [valid, signatureOK_zero hzero, Bool.false_and]

/-- The RSDP is in the EBDA, and `find` does not find it: it searches from 0x9fc0 on. -/
theorem rsdp_in_ebda_not_found : ebdaBase ebdaImage = 0x9fc00 ∧
    (0x9fc00 ∈ ebda ebdaImage ∧ valid ebdaImage 0x9fc00 = true) ∧
    ebdaImage.read32 0x40e = 0x9fc0 ∧ find ebdaImage = 0 ∧ ¬ SearchCorrect ebdaImage := by
  have hbase : ebdaBase ebdaImage = 0x9fc00 := by decide +kernel
  have hmem : 0x9fc00 ∈ ebda ebdaImage := by
    rw [ebda, hbase]
    exact List.mem_cons_self
  have hvalid : valid ebdaImage 0x9fc00 = true := by decide +kernel
  have hpointer : firstAtPointer ebdaImage = none := by decide +kernel
  have hfind : find ebdaImage = 0 := by
    apply toOption_eq_none.1
    rw [toOption_find, hpointer, ebdaImage_rom]
    rfl
  refine ⟨hbase, ⟨hmem, hvalid⟩, by decide +kernel, hfind, fun h => ?_⟩
  exact h.found.2 ⟨0x9fc00, .inl hmem, hvalid⟩ hfind

end MPStuBS.Machine.Rsdp
