import MPStuBS.Machine.KeyDecoder

/-!
# The ends of the key tables

The tables for make codes have 89 entries, and a make code has 7 bits. `decode` keeps
the codes of the Windows keys and of the menu key away from the tables, and no others:
every other make code from 89 on is looked up behind the end of a table
(`reads_in_range_iff`). The tables for the keypad are long enough.
-/

set_option autoImplicit false

namespace MPStuBS.Machine.KeyboardController

/-- A look-up in the table. -/
def InRange (r : KeyTable × Nat) : Prop := r.2 < r.1.bytes.length

/-- The make codes behind the tables, without the Windows keys and the menu key. -/
def BehindTables (code : BitVec 8) : Prop :=
  89 ≤ code ∧ code < 128 ∧ code ≠ 91 ∧ code ≠ 92 ∧ code ≠ 93

/-- From `s` to `s'` there were look-ups, and all of them were in range exactly if `p` holds. -/
def ReadsInRangeIff (s s' : KeyboardController) (p : Prop) : Prop :=
  ∃ reads, s'.reads = s.reads ++ reads ∧ ((∀ r ∈ reads, InRange r) ↔ p)

variable (stray : KeyTable → Nat → BitVec 8) {s s₁ s₂ : KeyboardController} {code : BitVec 8}
  {p q : Prop}

theorem ReadsInRangeIff.none (hreads : s₁.reads = s.reads) (hp : p) : ReadsInRangeIff s s₁ p :=
  ⟨[], by rw [hreads, List.append_nil], by simp [hp]⟩

theorem ReadsInRangeIff.trans (h : ReadsInRangeIff s s₁ p) (h' : ReadsInRangeIff s₁ s₂ q) :
    ReadsInRangeIff s s₂ (p ∧ q) := by
  obtain ⟨reads, hreads, hp⟩ := h
  obtain ⟨reads', hreads', hq⟩ := h'
  refine ⟨reads ++ reads', by rw [hreads', hreads, List.append_assoc], ?_⟩
  rw [List.forall_mem_append, hp, hq]

theorem ReadsInRangeIff.congr (h : ReadsInRangeIff s s₁ p) (hpq : p ↔ q) :
    ReadsInRangeIff s s₁ q := by
  obtain ⟨reads, hreads, hp⟩ := h
  exact ⟨reads, hreads, hp.trans hpq⟩

/-! ## One code -/

theorem lookUp_reads {t : KeyTable} (ht : t.bytes.length = 89) :
    ReadsInRangeIff s (s.lookUp stray t code) (code < 89) := by
  refine ⟨[(t, code.toNat)], rfl, ?_⟩
  rw [List.forall_mem_singleton, InRange, ht]
  rfl

/-- The codes of the keypad. -/
theorem keypad_index : ∀ code : BitVec 8, code ≥ 71 → code ≤ 83 →
    (code - 71).toNat < 13 ∧ code < 89 := by
  decide

theorem getAsciiCode_reads : ReadsInRangeIff s (s.getAsciiCode stray code) (code < 89) := by
  rcases getAsciiCode_cases stray code s with ⟨hcode, heq⟩ | ⟨hpad, heq⟩ | ⟨-, t, ht, heq⟩
  · rw [heq, hcode]
    apply ReadsInRangeIff.none rfl
    decide
  · rw [heq]
    obtain ⟨hindex, hlt⟩ := keypad_index code hpad.2.2.1 hpad.2.2.2
    refine ⟨[(.ascNum, (code - 71).toNat), (.scanNum, (code - 71).toNat)], ?_, ?_⟩
    · show s.reads ++ [_] ++ [_] = _
      rw [List.append_assoc]
      rfl
    · rw [List.forall_mem_cons, List.forall_mem_singleton]
      exact ⟨fun _ => hlt, fun _ => ⟨hindex, hindex⟩⟩
  · rw [heq]
    exact lookUp_reads stray ht

theorem pressed_reads : ReadsInRangeIff s (s.pressed stray code)
    (code < 89 ∨ code ∈ [(91 : BitVec 8), 92, 93]) := by
  -- modifiers and locks are in front of the end of the tables
  have hlt : ∀ code ∈ [(42 : BitVec 8), 54, 56, 29] ++ [58, 70, 69], code < 89 := by decide
  rcases pressed_cases stray code s with
    ⟨hcode, b, -, heq⟩ | ⟨hcode, led, on, heq⟩ | ⟨hcode, heq⟩ | ⟨hcode, heq⟩
  · rw [heq]
    exact .none rfl (.inl (hlt code (List.mem_append_left _ hcode)))
  · rw [heq]
    exact .none rfl (.inl (hlt code (List.mem_append_right _ hcode)))
  · rw [heq]
    exact .none rfl (.inr hcode)
  · rw [heq]
    exact (getAsciiCode_reads stray).congr ⟨.inl, fun h => h.resolve_right hcode⟩

theorem released_reads : (s.released code).reads = s.reads := by
  rcases released_cases code s with ⟨b, -, heq⟩ | heq
  · rw [heq]
    rfl
  · rw [heq]

/-- Prefixes and break codes are none of these codes, and a make code is one of them unless it is in
front of the end of the tables or kept away from them. -/
theorem behindTables_iff : ∀ code : BitVec 8,
    (code = prefix1 ∨ code = prefix2 → ¬ BehindTables code) ∧
      (code &&& breakBit ≠ 0 → ¬ BehindTables code) ∧
      (code &&& breakBit = 0 →
        ((code < 89 ∨ code ∈ [(91 : BitVec 8), 92, 93]) ↔ ¬ BehindTables code)) := by
  unfold BehindTables
  decide

theorem decode_reads :
    ReadsInRangeIff s (s.decode stray code).1 (¬ BehindTables code) := by
  obtain ⟨hpend, hbreak, hmake⟩ := behindTables_iff code
  unfold decode
  split
  case isTrue h => exact .none rfl (hpend h)
  split
  case isTrue h => exact .none released_reads (hbreak h)
  case isFalse h =>
    obtain ⟨reads, hreads, hrange⟩ := (pressed_reads stray).congr (hmake (not_not.1 h))
    exact ⟨reads, hreads, hrange⟩

/-! ## All codes -/

theorem decodes_reads (codes : List (BitVec 8)) : ∀ s : KeyboardController,
    ReadsInRangeIff s (s.decodes stray codes) (∀ code ∈ codes, ¬ BehindTables code) := by
  induction codes with
  | nil =>
      intro s
      exact .none rfl (by simp)
  | cons code codes ih =>
      intro s
      have hall : (∀ c ∈ code :: codes, ¬ BehindTables c) ↔
          ¬ BehindTables code ∧ ∀ c ∈ codes, ¬ BehindTables c := List.forall_mem_cons
      apply ReadsInRangeIff.congr _ hall.symm
      exact (decode_reads stray).trans (ih _)

/-- All look-ups for the bytes of the keyboard are in range exactly if none of the bytes is a make
code behind the tables. -/
theorem reads_in_range_iff (codes : List (BitVec 8)) :
    (∀ r ∈ (construct.decodes stray codes).reads, r.2 < r.1.bytes.length) ↔
      ∀ code ∈ codes, ¬ BehindTables code := by
  obtain ⟨reads, hreads, hrange⟩ := decodes_reads stray codes construct
  have hconstruct : construct.reads = [] := rfl
  rw [hconstruct, List.nil_append] at hreads
  rw [hreads]
  exact hrange

/-- The make code of the Power key, with its prefix. -/
theorem power_key_behind_table : ¬ ∀ (stray : KeyTable → Nat → BitVec 8) (codes : List (BitVec 8)),
    ∀ r ∈ (construct.decodes stray codes).reads, r.2 < r.1.bytes.length := by
  intro h
  have hmem : (KeyTable.normal, 94) ∈ (construct.decodes (fun _ _ => 0) [0xe0, 0x5e]).reads := by
    decide
  exact absurd (h _ _ _ hmem) (by decide)

end MPStuBS.Machine.KeyboardController
