import MPStuBS.Object.OStream

/-!
# The base of the next number

A manipulator of `O_Stream` is to affect the next number only: `operator<<(long)` and
the one for pointers end with `dec`, and so does `operator<<(unsigned long)`, except for
0, where it returns before. So the base stays for the number after it
(`restoresBase_iff`). Up to this the characters put are those of the items, one after
the other (`insertAll_texts`).
-/

set_option autoImplicit false

namespace MPStuBS.Object

namespace OStream

/-- What may be inserted into a stream. -/
inductive Item where
  | char (c : BitVec 8)
  | uchar (c : BitVec 8)
  | string (cs : List (BitVec 8))
  | bool (b : Bool)
  | short (v : BitVec 16)
  | ushort (v : BitVec 16)
  | int (v : BitVec 32)
  | uint (v : BitVec 32)
  | long (v : BitVec 32)
  | ulong (v : BitVec 32)
  | pointer (v : BitVec 32)
  | flush
  | endl
  | bin
  | oct
  | dec
  | hex

/-- `operator<<` for an item. -/
def insert : Item → OStream → Option OStream
  | .char c, s => some (s.insertChar c)
  | .uchar c, s => some (s.insertChar c)
  | .string cs, s => some (s.insertString cs)
  | .bool b, s => some (s.insertBool b)
  | .short v, s => insertShort v s
  | .ushort v, s => insertUShort v s
  | .int v, s => insertInt v s
  | .uint v, s => insertUInt v s
  | .long v, s => insertLong v s
  | .ulong v, s => insertULong v s
  | .pointer v, s => insertPointer v s
  | .flush, s => some s.flush
  | .endl, s => some s.endl
  | .bin, s => some s.bin
  | .oct, s => some s.oct
  | .dec, s => some s.dec
  | .hex, s => some s.hex

/-- Items one after the other. -/
def insertAll : List Item → OStream → Option OStream
  | [], s => some s
  | x :: xs, s =>
      match insert x s with
      | none => none
      | some s => insertAll xs s

/-! ## What is promised -/

/-- The value and the text of a number, by the base that is chosen for it. -/
def Item.numberText : Item → BitVec 32 → Option (List (BitVec 8))
  | .short v, base => some (signedText base v.toInt)
  | .int v, base => some (signedText base v.toInt)
  | .long v, base => some (signedText base v.toInt)
  | .ushort v, base => some (numeralText base.toNat v.toNat)
  | .uint v, base => some (numeralText base.toNat v.toNat)
  | .ulong v, base => some (numeralText base.toNat v.toNat)
  | .pointer v, _ => some (['0', 'x'].map ascii ++ numeralText 16 v.toNat)
  | _, _ => none

/-- The base for the next number: a manipulator chooses it, and a number uses it up. -/
def Item.choose : Item → BitVec 32 → BitVec 32
  | .bin, _ => 2
  | .oct, _ => 8
  | .dec, _ => 10
  | .hex, _ => 16
  | x, base => if (x.numberText base).isSome then 10 else base

/-- The base that the manipulators since the last number choose. -/
def chosenBase (items : List Item) : BitVec 32 := items.foldl (fun base x => x.choose base) 10

/-- Whichever number is inserted, its text is the one for the base chosen since the last number,
and the base is 10 afterwards. -/
def RestoresBase (items : List Item) : Prop :=
  ∀ before x after, items = before ++ x :: after →
    ∀ text, x.numberText (chosenBase before) = some text →
      ∃ s s', insertAll before fresh = some s ∧ insert x s = some s' ∧
        s'.ops = s.ops ++ text.map .put ∧ s'.base = 10

/-- The unsigned numbers that are 0. -/
def Item.unsignedZero : Item → Bool
  | .ushort v => v = 0
  | .uint v => v = 0
  | .ulong v => v = 0
  | _ => false

/-! ## One insertion -/

section Step

variable {x : Item} {s : OStream}

theorem choose_mem_bases (hbase : s.base ∈ bases) : x.choose s.base ∈ bases := by
  cases x with
  | char _ | uchar _ | string _ | bool _ | flush | endl => exact hbase
  | short _ | ushort _ | int _ | uint _ | long _ | ulong _ | pointer _ | dec =>
      exact .tail _ (.tail _ (.head _))
  | bin => exact .head _
  | oct => exact .tail _ (.head _)
  | hex => exact .tail _ (.tail _ (.tail _ (.head _)))

/-- What is no number is always put, and changes the base only if it is a manipulator. -/
theorem insert_other (h : x.numberText s.base = none) :
    ∃ s', insert x s = some s' ∧ s'.base = x.choose s.base := by
  cases x with
  | char c | uchar c => exact ⟨_, rfl, rfl⟩
  | string cs => exact ⟨_, rfl, (extends_insertString cs s).base⟩
  | bool b =>
      cases b with
      | false => exact ⟨_, rfl, (extends_insertString _ s).base⟩
      | true => exact ⟨_, rfl, (extends_insertString _ s).base⟩
  | short v | ushort v | int v | uint v | long v | ulong v | pointer v => cases h
  | flush | endl | bin | oct | dec | hex => exact ⟨_, rfl, rfl⟩

theorem insertPointer_eq (v : BitVec 32) (s : OStream) :
    ∃ s', insertPointer v s = some s' ∧
      Extends s (['0', 'x'].map ascii ++ numeralText 16 v.toNat) 10 s' := by
  have hhex : Extends s (['0', 'x'].map ascii) 16 s.hex :=
    ⟨(extends_insertString _ s).ops, rfl⟩
  obtain ⟨s', hinsert, hs'⟩ := insertULong_eq v (s := s.hex) (.tail _ (.tail _ (.tail _ (.head _))))
  exact ⟨s'.dec, by rw [insertPointer, hinsert]; rfl, (hhex.trans hs').dec⟩

/-- A number is put with its text. The base is 10 afterwards, unless it is an unsigned 0. -/
theorem insert_number (hbase : s.base ∈ bases) {text : List (BitVec 8)}
    (h : x.numberText s.base = some text) :
    ∃ s', insert x s = some s' ∧
      Extends s text (if x.unsignedZero then s.base else 10) s' := by
  cases x with
  | char _ | uchar _ | string _ | bool _ | flush | endl | bin | oct | dec | hex => cases h
  | short v =>
      cases h
      exact insertShort_eq v hbase
  | int v | long v =>
      cases h
      exact insertLong_eq v hbase
  | uint v | ulong v =>
      cases h
      simp only [Item.unsignedZero, decide_eq_true_eq]
      exact insertULong_eq v hbase
  | ushort v =>
      cases h
      have hulong := insertULong_eq (v.setWidth 32) hbase
      have hzero : v.setWidth 32 = 0 ↔ v = 0 := by
        rw [← BitVec.toNat_inj, ← BitVec.toNat_inj, BitVec.toNat_setWidth_of_le (by decide)]
        rfl
      rw [BitVec.toNat_setWidth_of_le (by decide)] at hulong
      simp only [Item.unsignedZero, decide_eq_true_eq, ← hzero]
      exact hulong
  | pointer v =>
      cases h
      exact insertPointer_eq v s

theorem choose_number (base : BitVec 32) (h : (x.numberText base).isSome) :
    x.choose base = 10 := by
  cases x with
  | char _ | uchar _ | string _ | bool _ | flush | endl | bin | oct | dec | hex => cases h
  | short _ | ushort _ | int _ | uint _ | long _ | ulong _ | pointer _ => rfl

theorem unsignedZero_isSome (base : BitVec 32) (h : x.unsignedZero = true) :
    (x.numberText base).isSome := by
  cases x with
  | char _ | uchar _ | string _ | bool _ | flush | endl | bin | oct | dec | hex => cases h
  | short _ | int _ | long _ | pointer _ => cases h
  | ushort _ | uint _ | ulong _ => rfl

end Step

/-! ## The characters of the items -/

/-- The characters of an item in a stream with this base. -/
def Item.text (x : Item) (base : BitVec 32) : List (BitVec 8) :=
  match x with
  | .char c => [c]
  | .uchar c => [c]
  | .string cs => cs
  | .bool true => ['t', 'r', 'u', 'e'].map ascii
  | .bool false => ['f', 'a', 'l', 's', 'e'].map ascii
  | .endl => [ascii '\n']
  | .bin => ['0', 'b'].map ascii
  | .oct => [ascii '0']
  | .hex => ['0', 'x'].map ascii
  -- `flush` and `dec` put none
  | x => (x.numberText base).getD []

/-- The base after an item. An unsigned 0 leaves it as it is. -/
def Item.baseAfter (x : Item) (base : BitVec 32) : BitVec 32 :=
  if x.unsignedZero then base else x.choose base

/-- The characters of items one after the other, the first of them in a stream with this base. -/
def texts : List Item → BitVec 32 → List (BitVec 8)
  | [], _ => []
  | x :: xs, base => x.text base ++ texts xs (x.baseAfter base)

theorem Extends.chars {s s' : OStream} {text : List (BitVec 8)} {base : BitVec 32}
    (h : Extends s text base s') : chars s'.ops = chars s.ops ++ text := by
  rw [h.ops, chars_append, chars_map_put]

theorem chars_flush (s : OStream) : chars s.flush.ops = chars s.ops := by
  rw [flush, chars_append]
  exact List.append_nil _

theorem text_number {x : Item} {base : BitVec 32} {text : List (BitVec 8)}
    (h : x.numberText base = some text) : x.text base = text := by
  cases x with
  | char _ | uchar _ | string _ | bool _ | flush | endl | bin | oct | dec | hex => cases h
  | short _ | ushort _ | int _ | uint _ | long _ | ulong _ | pointer _ =>
      exact congrArg (Option.getD · []) h

/-- Every item is put with its characters. -/
theorem insert_text (x : Item) {s : OStream} (hbase : s.base ∈ bases) :
    ∃ s', insert x s = some s' ∧ chars s'.ops = chars s.ops ++ x.text s.base ∧
      s'.base = x.baseAfter s.base := by
  cases htext : x.numberText s.base with
  | some text =>
      obtain ⟨s', hinsert, hs'⟩ := insert_number hbase htext
      refine ⟨s', hinsert, by rw [hs'.chars, text_number htext], ?_⟩
      rw [hs'.base, Item.baseAfter, choose_number s.base (by rw [htext]; rfl)]
  | none =>
      cases x with
      | char c | uchar c => exact ⟨_, rfl, (extends_insertChar c s).chars, rfl⟩
      | string cs =>
          have hs' := extends_insertString cs s
          exact ⟨_, rfl, hs'.chars, hs'.base⟩
      | bool b =>
          cases b with
          | false =>
              have hs' := extends_insertString (['f', 'a', 'l', 's', 'e'].map ascii) s
              exact ⟨_, rfl, hs'.chars, hs'.base⟩
          | true =>
              have hs' := extends_insertString (['t', 'r', 'u', 'e'].map ascii) s
              exact ⟨_, rfl, hs'.chars, hs'.base⟩
      | flush => exact ⟨_, rfl, (chars_flush s).trans (List.append_nil _).symm, rfl⟩
      | endl =>
          have hs' := extends_insertChar (ascii '\n') s
          exact ⟨_, rfl, (chars_flush _).trans hs'.chars, rfl⟩
      | bin => exact ⟨_, rfl, (extends_insertString (['0', 'b'].map ascii) s).chars, rfl⟩
      | oct => exact ⟨_, rfl, (extends_insertChar (ascii '0') s).chars, rfl⟩
      | dec => exact ⟨_, rfl, (List.append_nil _).symm, rfl⟩
      | hex => exact ⟨_, rfl, (extends_insertString (['0', 'x'].map ascii) s).chars, rfl⟩
      | short _ | ushort _ | int _ | uint _ | long _ | ulong _ | pointer _ => cases htext

theorem baseAfter_mem_bases {x : Item} {s : OStream} (hbase : s.base ∈ bases) :
    x.baseAfter s.base ∈ bases := by
  unfold Item.baseAfter
  split
  · exact hbase
  · exact choose_mem_bases hbase

/-- Whatever is inserted, no number leaves its buffer: the base is one of the manipulators'. The
characters put are those of the items. -/
theorem insertAll_texts (items : List Item) : ∀ {s : OStream}, s.base ∈ bases →
    ∃ s', insertAll items s = some s' ∧ chars s'.ops = chars s.ops ++ texts items s.base := by
  induction items with
  | nil => exact fun _ => ⟨_, rfl, (List.append_nil _).symm⟩
  | cons x items ih =>
      intro s hbase
      obtain ⟨s₁, hinsert, hchars, hbase₁⟩ := insert_text x hbase
      obtain ⟨s', hall, hchars'⟩ := ih (hbase₁ ▸ baseAfter_mem_bases hbase)
      refine ⟨s', by simp only [insertAll, hinsert, hall], ?_⟩
      rw [hchars', hchars, hbase₁, texts, List.append_assoc]

/-! ## Sequences -/

theorem insertAll_append_singleton (x : Item) (items : List Item) :
    ∀ s : OStream, insertAll (items ++ [x]) s = (insertAll items s).bind (insert x) := by
  induction items with
  | nil =>
      intro s
      show (match insert x s with | none => none | some s => some s) = insert x s
      cases insert x s <;> rfl
  | cons y items ih =>
      intro s
      show (match insert y s with | none => none | some s => insertAll (items ++ [x]) s) =
        (match insert y s with | none => none | some s => insertAll items s).bind (insert x)
      cases insert y s with
      | none => rfl
      | some s => exact ih s

theorem chosenBase_append_singleton (items : List Item) (x : Item) :
    chosenBase (items ++ [x]) = x.choose (chosenBase items) := by
  rw [chosenBase, List.foldl_append]
  rfl

/-- If every insertion goes on in the base that is chosen, then so does the whole sequence. -/
theorem base_chosen (items : List Item)
    (hstep : ∀ before x after, items = before ++ x :: after → ∀ s s',
      insertAll before fresh = some s → s.base = chosenBase before → s.base ∈ bases →
      insert x s = some s' → (x.numberText s.base).isSome → s'.base = 10) :
    ∀ before after, items = before ++ after →
      ∃ s, insertAll before fresh = some s ∧ s.base = chosenBase before ∧ s.base ∈ bases := by
  intro before
  induction before using List.reverseRecOn with
  | nil => exact fun _ _ => ⟨fresh, rfl, rfl, .tail _ (.tail _ (.head _))⟩
  | append_singleton before x ih =>
      intro after hitems
      rw [List.append_assoc, List.singleton_append] at hitems
      obtain ⟨s, hbefore, hbase, hmem⟩ := ih (x :: after) hitems
      rw [insertAll_append_singleton, hbefore, chosenBase_append_singleton, ← hbase]
      have hinsert : ∃ s', insert x s = some s' ∧ s'.base = x.choose s.base := by
        cases htext : x.numberText s.base with
        | none => exact insert_other htext
        | some text =>
            have hsome : (x.numberText s.base).isSome := by rw [htext]; rfl
            obtain ⟨s', hinsert, -⟩ := insert_number hmem htext
            refine ⟨s', hinsert, ?_⟩
            rw [choose_number _ hsome]
            exact hstep before x after hitems s s' hbefore hbase hmem hinsert hsome
      obtain ⟨s', hinsert, hs'⟩ := hinsert
      exact ⟨s', hinsert, hs', hs' ▸ choose_mem_bases hmem⟩

/-- A base affects the next number only, exactly if every unsigned 0 is inserted in base 10. -/
theorem restoresBase_iff (items : List Item) :
    RestoresBase items ↔ ∀ before x after, items = before ++ x :: after →
      x.unsignedZero = true → chosenBase before = 10 := by
  constructor
  · intro h before x after hitems hzero
    have hchosen := base_chosen items fun before x after hitems s s' hs hbase _
        hinsert hsome => by
      obtain ⟨text, htext⟩ := Option.isSome_iff_exists.1 hsome
      obtain ⟨t, t', ht, hinsert', -, hten⟩ := h before x after hitems text (hbase ▸ htext)
      obtain rfl := Option.some.inj (hs.symm.trans ht)
      obtain rfl := Option.some.inj (hinsert.symm.trans hinsert')
      exact hten
    obtain ⟨s, hs, hbase, hmem⟩ := hchosen before (x :: after) hitems
    obtain ⟨text, htext⟩ := Option.isSome_iff_exists.1 (unsignedZero_isSome s.base hzero)
    obtain ⟨s', hinsert, hs'⟩ := insert_number hmem htext
    obtain ⟨t, t', ht, hinsert', -, hten⟩ := h before x after hitems text (hbase ▸ htext)
    obtain rfl := Option.some.inj (hs.symm.trans ht)
    obtain rfl := Option.some.inj (hinsert.symm.trans hinsert')
    rw [← hbase, ← hten, hs'.base, if_pos hzero]
  · intro h before x after hitems text htext
    have hchosen := base_chosen items fun before x after hitems s s' _ hbase hmem
        hinsert hsome => by
      obtain ⟨text, htext⟩ := Option.isSome_iff_exists.1 hsome
      obtain ⟨t, hinsert', ht⟩ := insert_number hmem htext
      obtain rfl := Option.some.inj (hinsert.symm.trans hinsert')
      rw [ht.base]
      split
      · rename_i hzero
        rw [hbase]
        exact h before x after hitems hzero
      · rfl
    obtain ⟨s, hs, hbase, hmem⟩ := hchosen before (x :: after) hitems
    rw [← hbase] at htext
    obtain ⟨s', hinsert, hs'⟩ := insert_number hmem htext
    refine ⟨s, s', hs, hinsert, hs'.ops, ?_⟩
    rw [hs'.base]
    split
    · rename_i hzero
      rw [hbase]
      exact h before x after hitems hzero
    · rfl

/-- A zero in hexadecimal leaves its base to the ten behind it. -/
theorem hex_zero_ten : ¬ RestoresBase [.hex, .uint 0, .uint 10] := by
  intro h
  obtain ⟨s, s', hs, hs', -, hbase⟩ := h [.hex] (.uint 0) [.uint 10] rfl _ rfl
  cases hs
  cases hs'
  exact absurd hbase (by decide)

end OStream

end MPStuBS.Object
