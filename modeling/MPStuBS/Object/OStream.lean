import MPStuBS.Lib.Numeral
import MPStuBS.Object.Strbuf

/-!
# Formatted output

`O_Stream` of `object/o_stream.cc` puts characters, strings, booleans, numbers and
pointers into its string buffer. A number is written from the end of a buffer of 33
bytes to the front, digit by digit; with base 2 it may fill 32 bytes, and the last one
ends the string. An access outside of these bytes is no step.

`O_Stream::base` is an `int` that anybody may set, so the operators take every base,
also those with which they leave the buffer.
-/

set_option autoImplicit false

namespace MPStuBS.Object

open MPStuBS.Lib.Numeral

/-- The code of a character. -/
def ascii (c : Char) : BitVec 8 := BitVec.ofNat 8 c.toNat

/-- The operations on the string buffer so far, and the base for the next number. -/
structure OStream where
  ops : List (StreamOp (BitVec 8))
  base : BitVec 32

namespace OStream

/-- The constructor. -/
def fresh : OStream := ⟨[], 10⟩

/-- `put` -/
def put (c : BitVec 8) (s : OStream) : OStream := { s with ops := s.ops ++ [.put c] }

/-- `flush` -/
def flush (s : OStream) : OStream := { s with ops := s.ops ++ [.flush] }

/-- `operator<<(char)` and `operator<<(unsigned char)` -/
def insertChar (c : BitVec 8) (s : OStream) : OStream := s.put c

/-- `operator<<(const char*)` with the characters in front of the zero. -/
def insertString (string : List (BitVec 8)) (s : OStream) : OStream :=
  string.foldl (fun s c => s.insertChar c) s

/-- `operator<<(bool)` -/
def insertBool (b : Bool) (s : OStream) : OStream :=
  if b = true then s.insertString (['t', 'r', 'u', 'e'].map ascii)
  else s.insertString (['f', 'a', 'l', 's', 'e'].map ascii)

/-- `bin` -/
def bin (s : OStream) : OStream := { s.insertString (['0', 'b'].map ascii) with base := 2 }

/-- `oct` -/
def oct (s : OStream) : OStream := { s.insertChar (ascii '0') with base := 8 }

/-- `dec` -/
def dec (s : OStream) : OStream := { s with base := 10 }

/-- `hex` -/
def hex (s : OStream) : OStream := { s.insertString (['0', 'x'].map ascii) with base := 16 }

/-- `endl` -/
def endl (s : OStream) : OStream := (s.insertChar (ascii '\n')).flush

/-- `(rest > 9) ? 'a' + (rest - 10) : '0' + rest`, where `rest` is a signed `char`. -/
def digit (rest : BitVec 8) : BitVec 8 :=
  if (9 : BitVec 8).slt rest then ascii 'a' + (rest - 10) else ascii '0' + rest

/-- `buff[i] = c` -/
def store (buff : List (BitVec 8)) (i : Nat) (c : BitVec 8) : Option (List (BitVec 8)) :=
  if i < buff.length then some (buff.set i c) else none

/-- The loop `while (ival != 0)`, where `i + 1` is given. It returns `i + 1` and the buffer. -/
def fill (base : BitVec 32) :
    Nat → BitVec 32 → List (BitVec 8) → Option (Nat × List (BitVec 8))
  | 0, ival, buff => if ival ≠ 0 then none else some (0, buff)
  | i + 1, ival, buff =>
      if ival ≠ 0 then
        -- a division by zero
        if base = 0 then none
        else
          match store buff i (digit ((ival % base).setWidth 8)) with
          | none => none
          | some buff => fill base i (ival / base) buff
      else some (i + 1, buff)

/-- The string that starts with these bytes. Without a zero it is read on behind them. -/
def cString : List (BitVec 8) → Option (List (BitVec 8))
  | [] => none
  | c :: cs => if c = 0 then some [] else (cString cs).map (c :: ·)

/-- `operator<<(unsigned long)` -/
def insertULong (ival : BitVec 32) (s : OStream) : Option OStream :=
  if ival = 0 then some (s.insertChar (ascii '0'))
  else
    match fill s.base (31 + 1) ival (List.replicate 33 0) with
    | none => none
    | some (i, buff) =>
        match cString (buff.drop i) with
        | none => none
        | some string => some (s.insertString string).dec

/-- `operator<<(long)` -/
def insertLong (ival : BitVec 32) (s : OStream) : Option OStream :=
  if s.base = 10 ∧ ival.slt 0 then
    (insertULong (ival * -1) (s.insertChar (ascii '-'))).map dec
  else (insertULong ival s).map dec

/-- `operator<<(short)` -/
def insertShort (ival : BitVec 16) (s : OStream) : Option OStream :=
  insertLong (ival.signExtend 32) s

/-- `operator<<(unsigned short)` -/
def insertUShort (ival : BitVec 16) (s : OStream) : Option OStream :=
  insertULong (ival.setWidth 32) s

/-- `operator<<(int)` -/
def insertInt (ival : BitVec 32) (s : OStream) : Option OStream := insertLong ival s

/-- `operator<<(unsigned int)` -/
def insertUInt (ival : BitVec 32) (s : OStream) : Option OStream := insertULong ival s

/-- `operator<<(const void*)` -/
def insertPointer (ptr : BitVec 32) (s : OStream) : Option OStream :=
  (insertULong ptr s.hex).map dec

/-! ## What is written -/

/-- The digits in their order. -/
def digitTable : List (BitVec 8) :=
  ['0', '1', '2', '3', '4', '5', '6', '7', '8', '9', 'a', 'b', 'c', 'd', 'e', 'f'].map ascii

/-- The numeral of `n` in base `b` as a text. -/
def numeralText (b n : Nat) : List (BitVec 8) := (numeral b n).map fun d => digitTable.getD d 0

/-- The number that a text of digits stands for in base `b`. -/
def parse (b : Nat) (text : List (BitVec 8)) : Option Nat :=
  (text.mapM fun c => (digitTable.take b).idxOf? c).map (value b)

/-- The text of a number that is inserted as a signed value. -/
def signedText (base : BitVec 32) (v : Int) : List (BitVec 8) :=
  if base = 10 ∧ v < 0 then ascii '-' :: numeralText 10 v.natAbs
  else numeralText base.toNat (v % 2 ^ 32).toNat

/-- The stream `s'` is `s` with a text put behind, and goes on in some base. -/
structure Extends (s : OStream) (text : List (BitVec 8)) (base : BitVec 32) (s' : OStream) :
    Prop where
  ops : s'.ops = s.ops ++ text.map .put
  base : s'.base = base

section Extends

variable {s s' : OStream} {text text' : List (BitVec 8)} {base base' : BitVec 32}

theorem Extends.dec (h : Extends s text base s') : Extends s text 10 s'.dec := ⟨h.ops, rfl⟩

theorem Extends.trans {t : OStream} (h : Extends s text base t)
    (h' : Extends t text' base' s') : Extends s (text ++ text') base' s' where
  ops := by rw [h'.ops, h.ops, List.map_append, List.append_assoc]
  base := h'.base

theorem extends_insertChar (c : BitVec 8) (s : OStream) :
    Extends s [c] s.base (s.insertChar c) := ⟨rfl, rfl⟩

theorem extends_insertString (string : List (BitVec 8)) :
    ∀ s : OStream, Extends s string s.base (s.insertString string) := by
  induction string with
  | nil => exact fun s => ⟨(List.append_nil _).symm, rfl⟩
  | cons c string ih => exact fun s => (extends_insertChar c s).trans (ih (s.put c))

end Extends

/-- The bases that the manipulators choose. -/
def bases : List (BitVec 32) := [2, 8, 10, 16]

theorem bases_bounds : ∀ base ∈ bases, base ≠ 0 ∧ 2 ≤ base.toNat ∧ base.toNat ≤ 16 := by
  simp [bases]

/-- A digit of a base up to 16 is the one of the table. -/
theorem digit_eq : ∀ d : Nat, d < 16 →
    digit (BitVec.ofNat 8 d) = digitTable.getD d 0 ∧ digitTable.getD d 0 ≠ 0 ∧
      (digitTable.getD d 0 = ascii '0' → d = 0) := by
  decide

/-- What one round of the loop writes. -/
theorem digit_umod {base : BitVec 32} (hbase : base ∈ bases) (ival : BitVec 32) :
    digit ((ival % base).setWidth 8) = digitTable.getD (ival.toNat % base.toNat) 0 := by
  obtain ⟨-, hone, hle⟩ := bases_bounds base hbase
  have hmod : ival.toNat % base.toNat < base.toNat := Nat.mod_lt _ (by omega)
  rw [← (digit_eq _ (Nat.lt_of_lt_of_le hmod hle)).1]
  apply congrArg digit
  apply BitVec.eq_of_toNat_eq
  rw [BitVec.toNat_setWidth, BitVec.toNat_umod, BitVec.toNat_ofNat]

/-- A value written in front of the rest of a buffer. -/
theorem drop_set_self {buff : List (BitVec 8)} {i : Nat} (hi : i < buff.length) (c : BitVec 8) :
    (buff.set i c).drop i = c :: buff.drop (i + 1) := by
  rw [List.drop_eq_getElem_cons (by rwa [List.length_set]), List.getElem_set_self,
    List.drop_set_of_lt (Nat.lt_succ_self i)]

/-- The loop writes the digits in front of what already stands in the buffer. -/
theorem fill_eq {base : BitVec 32} (hbase : base ∈ bases) :
    ∀ {i : Nat} (ival : BitVec 32) (buff : List (BitVec 8)), i ≤ buff.length →
      ival.toNat < base.toNat ^ i →
      ∃ j buff', fill base i ival buff = some (j, buff') ∧ buff'.drop j =
        ((base.toNat.digits ival.toNat).reverse.map fun d => digitTable.getD d 0) ++
          buff.drop i := by
  obtain ⟨hne, hone, -⟩ := bases_bounds base hbase
  intro i
  induction i with
  | zero =>
      intro ival buff _ hlt
      have hzero : ival = 0 := by
        apply BitVec.eq_of_toNat_eq
        rw [pow_zero] at hlt
        exact Nat.lt_one_iff.1 hlt
      refine ⟨0, buff, if_neg (not_not.2 hzero), ?_⟩
      rw [hzero]
      simp
  | succ i ih =>
      intro ival buff hlen hlt
      by_cases hzero : ival = 0
      · refine ⟨i + 1, buff, if_neg (not_not.2 hzero), ?_⟩
        rw [hzero]
        simp
      · have hpos : 0 < ival.toNat := Nat.pos_of_ne_zero fun h => hzero (BitVec.eq_of_toNat_eq h)
        let c := digitTable.getD (ival.toNat % base.toNat) 0
        have hdigit : digit ((ival % base).setWidth 8) = c := digit_umod hbase ival
        have hstore : store buff i c = some (buff.set i c) := if_pos hlen
        have hnext : (ival / base).toNat < base.toNat ^ i := by
          rw [BitVec.toNat_udiv]
          apply Nat.div_lt_of_lt_mul
          rwa [← pow_succ']
        obtain ⟨j, buff', hfill, hdrop⟩ := ih (ival / base) (buff.set i c)
          (by rw [List.length_set]; omega) hnext
        refine ⟨j, buff', ?_, ?_⟩
        · simp only [fill, if_pos hzero, if_neg hne, hdigit, hstore, hfill]
        · rw [hdrop, drop_set_self hlen, BitVec.toNat_udiv, Nat.digits_def' hone hpos,
            List.reverse_cons, List.map_append, List.append_assoc, List.map_singleton,
            List.singleton_append]

theorem cString_append_zero {cs : List (BitVec 8)} (h : ∀ c ∈ cs, c ≠ 0) :
    cString (cs ++ [0]) = some cs := by
  induction cs with
  | nil => rfl
  | cons c cs ih =>
      rw [List.cons_append, cString, if_neg (h c List.mem_cons_self),
        ih fun c hc => h c (List.mem_cons_of_mem _ hc)]
      rfl

theorem numeralText_zero (b : Nat) : numeralText b 0 = [ascii '0'] := rfl

theorem numeralText_of_ne_zero {b n : Nat} (hn : n ≠ 0) :
    numeralText b n = (b.digits n).reverse.map fun d => digitTable.getD d 0 := by
  rw [numeralText, numeral_of_ne_zero hn]

/-- `operator<<(unsigned long)` puts the numeral. It leaves the base as it is if that is 0. -/
theorem insertULong_eq (ival : BitVec 32) {s : OStream} (hbase : s.base ∈ bases) :
    ∃ s', insertULong ival s = some s' ∧
      Extends s (numeralText s.base.toNat ival.toNat) (if ival = 0 then s.base else 10) s' := by
  obtain ⟨-, hone, hle⟩ := bases_bounds s.base hbase
  by_cases hzero : ival = 0
  · rw [hzero, if_pos rfl]
    exact ⟨_, rfl, extends_insertChar _ s⟩
  · have hne : ival.toNat ≠ 0 := fun h => hzero (BitVec.eq_of_toNat_eq h)
    have hlt : ival.toNat < s.base.toNat ^ (31 + 1) :=
      Nat.lt_of_lt_of_le ival.isLt (Nat.pow_le_pow_left hone 32)
    obtain ⟨i, buff, hfill, hdrop⟩ := fill_eq hbase ival (List.replicate 33 0)
      (by decide) hlt
    rw [← numeralText_of_ne_zero hne] at hdrop
    have hdigits : ∀ c ∈ numeralText s.base.toNat ival.toNat, c ≠ 0 := by
      intro c hc
      obtain ⟨d, hd, rfl⟩ := List.mem_map.1 hc
      exact (digit_eq d (Nat.lt_of_lt_of_le (numeral_lt hone hd) hle)).2.1
    have hstring : cString (buff.drop i) = some (numeralText s.base.toNat ival.toNat) := by
      rw [hdrop]
      exact cString_append_zero hdigits
    refine ⟨(s.insertString (numeralText s.base.toNat ival.toNat)).dec, ?_, ?_⟩
    · simp only [insertULong, if_neg hzero, hfill, hstring]
    · rw [if_neg hzero]
      exact (extends_insertString _ s).dec

/-- `operator<<(long)` puts the text of the signed value and leaves the base 10. -/
theorem insertLong_eq (ival : BitVec 32) {s : OStream} (hbase : s.base ∈ bases) :
    ∃ s', insertLong ival s = some s' ∧ Extends s (signedText s.base ival.toInt) 10 s' := by
  have hslt : (ival.slt 0 = true) = (ival.toInt < 0) := by
    rw [BitVec.slt_iff_toInt_lt]
    rfl
  simp only [insertLong, signedText, hslt]
  by_cases hneg : s.base = 10 ∧ ival.toInt < 0
  · obtain ⟨s', hinsert, hs'⟩ := insertULong_eq (ival * -1) (s := s.insertChar (ascii '-')) hbase
    refine ⟨s'.dec, by rw [if_pos hneg, hinsert]; rfl, ?_⟩
    -- also for the least value, where the negation wraps around to the value itself
    have habs : (ival * -1).toNat = ival.toInt.natAbs := by
      have hlt := hneg.2
      rw [BitVec.mul_neg]
      show (-(ival * 1#32)).toNat = _
      rw [BitVec.mul_one, BitVec.toNat_neg]
      rw [BitVec.toInt_eq_toNat_cond] at *
      split at hlt <;> omega
    have hten : (s.insertChar (ascii '-')).base.toNat = 10 := congrArg BitVec.toNat hneg.1
    rw [habs, hten] at hs'
    rw [if_pos hneg]
    exact ((extends_insertChar _ s).trans hs').dec
  · obtain ⟨s', hinsert, hs'⟩ := insertULong_eq ival hbase
    refine ⟨s'.dec, by rw [if_neg hneg, hinsert]; rfl, ?_⟩
    have hmod : (ival.toInt % 2 ^ 32).toNat = ival.toNat := by
      rw [BitVec.toInt_eq_toNat_cond]
      split <;> omega
    rw [if_neg hneg, hmod]
    exact hs'.dec

theorem insertShort_eq (ival : BitVec 16) {s : OStream} (hbase : s.base ∈ bases) :
    ∃ s', insertShort ival s = some s' ∧ Extends s (signedText s.base ival.toInt) 10 s' := by
  have hlong := insertLong_eq (ival.signExtend 32) hbase
  rwa [BitVec.toInt_signExtend_of_le (by decide)] at hlong

/-! ## Numerals and their values -/

theorem idxOf_digitTable : ∀ b ∈ [2, 8, 10, 16], ∀ d < b,
    (digitTable.take b).idxOf? (digitTable.getD d 0) = some d := by
  decide

theorem mapM_digits {f : Nat → BitVec 8} {g : BitVec 8 → Option Nat} {ds : List Nat}
    (h : ∀ d ∈ ds, g (f d) = some d) : (ds.map f).mapM g = some ds := by
  induction ds with
  | nil => rfl
  | cons d ds ih =>
      simp [h d List.mem_cons_self, ih fun d hd => h d (List.mem_cons_of_mem _ hd)]

/-- The text of a number is parsed back to it. -/
theorem parse_numeralText {base : BitVec 32} (hbase : base ∈ bases) (n : Nat) :
    parse base.toNat (numeralText base.toNat n) = some n := by
  have hone := (bases_bounds base hbase).2.1
  have hdigits : (numeralText base.toNat n).mapM
      (fun c => (digitTable.take base.toNat).idxOf? c) = some (numeral base.toNat n) :=
    mapM_digits fun d hd =>
      idxOf_digitTable _ (List.mem_map_of_mem (f := BitVec.toNat) hbase) d (numeral_lt hone hd)
  rw [parse, hdigits, Option.map_some, value_numeral]

theorem numeralText_head {base : BitVec 32} (hbase : base ∈ bases) {n : Nat} (hn : n ≠ 0) :
    (numeralText base.toNat n).head? ≠ some (ascii '0') := by
  obtain ⟨-, hone, hle⟩ := bases_bounds base hbase
  rw [numeralText, List.head?_map]
  intro h
  obtain ⟨d, hhead, hd⟩ := Option.map_eq_some_iff.1 h
  have hlt := numeral_lt hone (List.mem_of_mem_head? hhead)
  rw [(digit_eq d (Nat.lt_of_lt_of_le hlt hle)).2.2 hd] at hhead
  exact numeral_head hn hhead

/-- The numbers are put as their numerals in the base of the stream. -/
theorem numbers_exact (s : OStream) (hbase : s.base ∈ bases) :
    (∀ v : BitVec 32, ∃ s', insertULong v s = some s' ∧
      s'.ops = s.ops ++ (numeralText s.base.toNat v.toNat).map .put) ∧
    (∀ v : BitVec 32, ∃ s', insertLong v s = some s' ∧
      s'.ops = s.ops ++ (signedText s.base v.toInt).map .put) ∧
    (∀ v : BitVec 32, ∃ s', insertInt v s = some s' ∧
      s'.ops = s.ops ++ (signedText s.base v.toInt).map .put) ∧
    (∀ v : BitVec 16, ∃ s', insertShort v s = some s' ∧
      s'.ops = s.ops ++ (signedText s.base v.toInt).map .put) ∧
    (∀ n, parse s.base.toNat (numeralText s.base.toNat n) = some n) ∧
    (∀ n, n ≠ 0 → (numeralText s.base.toNat n).head? ≠ some (ascii '0')) ∧
    numeralText s.base.toNat 0 = [ascii '0'] := by
  refine ⟨fun v => ?_, fun v => ?_, fun v => ?_, fun v => ?_, parse_numeralText hbase,
    fun n hn => numeralText_head hbase hn, numeralText_zero _⟩
  · obtain ⟨s', hinsert, hs'⟩ := insertULong_eq v hbase
    exact ⟨s', hinsert, hs'.ops⟩
  · obtain ⟨s', hinsert, hs'⟩ := insertLong_eq v hbase
    exact ⟨s', hinsert, hs'.ops⟩
  · obtain ⟨s', hinsert, hs'⟩ := insertLong_eq v hbase
    exact ⟨s', hinsert, hs'.ops⟩
  · obtain ⟨s', hinsert, hs'⟩ := insertShort_eq v hbase
    exact ⟨s', hinsert, hs'.ops⟩

/-- A number that fills the buffer. -/
theorem numbers_exact_binary : ∃ s', insertULong (BitVec.intMin 32) ⟨[], 2⟩ = some s' ∧
    s'.ops = [] ++ (numeralText (2 : BitVec 32).toNat (BitVec.intMin 32).toNat).map .put :=
  (numbers_exact ⟨[], 2⟩ (by simp [bases])).1 (BitVec.intMin 32)

end OStream

end MPStuBS.Object
