import MPStuBS.Machine.KeyDecoder

/-!
# Modifier keys

What the keyboard sends while modifier keys and other keys are pressed and released
(`KeyEvent.codes`), and what becomes of the modifier bits (`decodes_codes`). All bits but
two mirror their keys. Both Shift keys share one bit, so releasing one of them clears it
while the other one is still held. The Pause key sends the codes of the left Ctrl key,
pressed and released, so that its bit is cleared.

Hence the bits mirror the keys exactly if neither of the two has happened
(`modifiers_mirror_iff`).
-/

set_option autoImplicit false

namespace MPStuBS.Machine

open KeyboardController

/-! ## The keyboard -/

inductive Modifier where
  | leftShift
  | rightShift
  | leftCtrl
  | rightCtrl
  | leftAlt
  | rightAlt
  deriving DecidableEq

/-- The make code of a modifier key. -/
def Modifier.code : Modifier → BitVec 8
  | .leftShift => 0x2a
  | .rightShift => 0x36
  | .leftCtrl => 0x1d
  | .rightCtrl => 0x1d
  | .leftAlt => 0x38
  | .rightAlt => 0x38

/-- The right Ctrl and the right Alt key send a prefix. -/
def Modifier.extended : Modifier → Bool
  | .rightCtrl => true
  | .rightAlt => true
  | _ => false

/-- Any other key: its make code, and whether it sends a prefix. The break code must not be a
prefix itself. -/
structure OtherKey where
  code : BitVec 8
  extended : Bool
  isMake : code < 0x80
  noPrefix : code ≠ 0x60 ∧ code ≠ 0x61
  noModifier : code ≠ 0x2a ∧ code ≠ 0x36 ∧ code ≠ 0x1d ∧ code ≠ 0x38

/-- Keys are pressed and released; Pause sends all of its codes at once. -/
inductive KeyEvent where
  | modifier (m : Modifier) (press : Bool)
  | other (k : OtherKey) (press : Bool)
  | pause

/-- The codes of a key. -/
def keyCodes (extended : Bool) (code : BitVec 8) (press : Bool) : List (BitVec 8) :=
  (if extended then [prefix1] else []) ++ [if press then code else code ||| breakBit]

/-- What the keyboard sends. -/
def KeyEvent.codes : KeyEvent → List (BitVec 8)
  | .modifier m press => keyCodes m.extended m.code press
  | .other k press => keyCodes k.extended k.code press
  | .pause => [0xe1, 0x1d, 0x45, 0xe1, 0x9d, 0xc5]

/-- Whether a key is held after these events. -/
def held (m : Modifier) (es : List KeyEvent) : Bool :=
  es.foldl (fun h e =>
    match e with
    | .modifier m' press => if m' = m then press else h
    | _ => h) false

/-- Whether the last event of a Shift key was a release. -/
def shiftReleased (es : List KeyEvent) : Bool :=
  es.foldl (fun r e =>
    match e with
    | .modifier .leftShift press => !press
    | .modifier .rightShift press => !press
    | _ => r) false

/-- Whether Pause was used after the last time that the left Ctrl key was pressed. -/
def pausedSinceCtrl (es : List KeyEvent) : Bool :=
  es.foldl (fun r e =>
    match e with
    | .modifier .leftCtrl true => false
    | .pause => true
    | _ => r) false

/-- The modifiers of the key mirror the keyboard. -/
def Mirrors (k : Key) (es : List KeyEvent) : Prop :=
  k.shift = (held .leftShift es || held .rightShift es) ∧
    k.ctrlLeft = held .leftCtrl es ∧ k.ctrlRight = held .rightCtrl es ∧
    k.altLeft = held .leftAlt es ∧ k.altRight = held .rightAlt es

/-! ## The bit that a code changes -/

/-- The bit that the code of a modifier key changes. -/
def modifierBit (extended : Bool) (code : BitVec 8) : Option Mbit :=
  if code = 42 ∨ code = 54 then some .shift
  else if code = 56 then some (if extended then .altRight else .altLeft)
  else if code = 29 then some (if extended then .ctrlRight else .ctrlLeft)
  else none

section Bits

variable (stray : KeyTable → Nat → BitVec 8) {s : KeyboardController} {b : Mbit} {code : BitVec 8}

/-- Looking up a code changes no modifier. -/
theorem has_getAsciiCode : (s.getAsciiCode stray code).gather.has b = s.gather.has b := by
  rcases getAsciiCode_cases stray code s with ⟨-, heq⟩ | ⟨-, heq⟩ | ⟨-, t, -, heq⟩
  · rw [heq]
    rfl
  · rw [heq]
    rfl
  · rw [heq]
    rfl

theorem has_bit (b' : Mbit) (on : Bool) : (s.onGather (Key.set b' on)).gather.has b =
    if some b' = some b then on else s.gather.has b := by
  simp only [onGather, Key.has_set, Option.some.injEq, eq_comm]

/-- The branches for the modifier keys, which make and break codes have in common. -/
theorem has_modifier {extended : Bool} (hp : s.pending = prefix1 ↔ extended = true) (on : Bool)
    {rest : KeyboardController} (hrest : rest.gather.has b = s.gather.has b) :
    (if code = 42 ∨ code = 54 then s.onGather (Key.setShift on)
      else if code = 56 then
        if s.pending = prefix1 then s.onGather (Key.setAltRight on)
        else s.onGather (Key.setAltLeft on)
      else if code = 29 then
        if s.pending = prefix1 then s.onGather (Key.setCtrlRight on)
        else s.onGather (Key.setCtrlLeft on)
      else rest).gather.has b =
      if modifierBit extended code = some b then on else s.gather.has b := by
  unfold modifierBit
  by_cases hshift : code = 42 ∨ code = 54
  · rw [if_pos hshift, if_pos hshift]
    exact has_bit _ _
  rw [if_neg hshift, if_neg hshift]
  by_cases halt : code = 56
  · rw [if_pos halt, if_pos halt]
    by_cases hext : extended = true
    · rw [if_pos (hp.2 hext), if_pos hext]
      exact has_bit _ _
    · rw [if_neg (fun h => hext (hp.1 h)), if_neg hext]
      exact has_bit _ _
  rw [if_neg halt, if_neg halt]
  by_cases hctrl : code = 29
  · rw [if_pos hctrl, if_pos hctrl]
    by_cases hext : extended = true
    · rw [if_pos (hp.2 hext), if_pos hext]
      exact has_bit _ _
    · rw [if_neg (fun h => hext (hp.1 h)), if_neg hext]
      exact has_bit _ _
  · rw [if_neg hctrl, if_neg hctrl]
    exact hrest

theorem has_released {extended : Bool} (hp : s.pending = prefix1 ↔ extended = true) :
    (s.released code).gather.has b =
      if modifierBit extended code = some b then false else s.gather.has b :=
  has_modifier hp false rfl

/-- The locks are no keys that are held. -/
theorem has_lock {b' : Mbit} (hb : b.isHeld = true) (hb' : b'.isHeld = false) (on : Bool)
    (led : Led) (on' : Bool) :
    ((s.onGather (Key.set b' on)).setLed led on').gather.has b = s.gather.has b := by
  have hne : ¬ some b' = some b := by
    intro h
    rw [Option.some.inj h, hb] at hb'
    cases hb'
  exact (has_bit b' on).trans (if_neg hne)

theorem has_pressed {extended : Bool} (hp : s.pending = prefix1 ↔ extended = true)
    (hb : b.isHeld = true) :
    (s.pressed stray code).gather.has b =
      if modifierBit extended code = some b then true else s.gather.has b := by
  refine has_modifier hp true ?_
  split
  · exact has_lock hb rfl _ _ _
  split
  · exact has_lock hb rfl _ _ _
  split
  · split
    · exact has_getAsciiCode stray
    · exact has_lock hb rfl _ _ _
  split
  · rfl
  · exact has_getAsciiCode stray

/-! ## From codes to keys -/

theorem decode_pending (code : BitVec 8) (h : code = prefix1 ∨ code = prefix2) :
    (s.decode stray code).1 = { s.onGather Key.invalidate with pending := code } := by
  simp only [decode, if_pos h]

/-- A make code is no prefix and has no break bit; the break code is no prefix either, and
without its break bit it is the make code. -/
theorem codes_ok : ∀ code : BitVec 8, code < 0x80 → code ≠ 0x60 → code ≠ 0x61 →
    (¬ (code = prefix1 ∨ code = prefix2) ∧ code &&& breakBit = 0) ∧
      ¬ (code ||| breakBit = prefix1 ∨ code ||| breakBit = prefix2) ∧
      (code ||| breakBit) &&& breakBit ≠ 0 ∧ (code ||| breakBit) &&& ~~~breakBit = code := by
  decide

theorem decode_code (press : Bool) {extended : Bool} (hp : s.pending = prefix1 ↔ extended = true)
    (hmake : code < 0x80) (hpre : code ≠ 0x60 ∧ code ≠ 0x61) :
    (s.decode stray (if press then code else code ||| breakBit)).1.pending = 0 ∧
      (b.isHeld = true →
        (s.decode stray (if press then code else code ||| breakBit)).1.gather.has b =
          if modifierBit extended code = some b then press else s.gather.has b) := by
  obtain ⟨⟨hmakePre, hmakeBit⟩, hbreakPre, hbreakBit, hbreakCode⟩ :=
    codes_ok code hmake hpre.1 hpre.2
  have hp' : (s.onGather Key.invalidate).pending = prefix1 ↔ extended = true := hp
  cases press with
  | true =>
      have hdecode : (s.decode stray code).1 =
          { (s.onGather Key.invalidate).pressed stray code with pending := 0 } := by
        simp only [decode, if_neg hmakePre, if_neg (not_not.2 hmakeBit)]
      rw [if_pos rfl, hdecode]
      exact ⟨rfl, fun hb => has_pressed stray hp' hb⟩
  | false =>
      have hdecode : (s.decode stray (code ||| breakBit)).1 =
          { (s.onGather Key.invalidate).released code with pending := 0 } := by
        simp only [decode, if_neg hbreakPre, if_pos hbreakBit, hbreakCode]
      rw [if_neg Bool.false_ne_true, hdecode]
      exact ⟨rfl, fun _ => has_released hp'⟩

/-- All codes of a key. -/
theorem decodes_key (extended : Bool) (code : BitVec 8) (press : Bool) (hs : s.pending = 0)
    (hmake : code < 0x80) (hpre : code ≠ 0x60 ∧ code ≠ 0x61) :
    (s.decodes stray (keyCodes extended code press)).pending = 0 ∧
      (b.isHeld = true → (s.decodes stray (keyCodes extended code press)).gather.has b =
        if modifierBit extended code = some b then press else s.gather.has b) := by
  cases extended with
  | false =>
      have hp : s.pending = prefix1 ↔ false = true := by
        rw [hs]
        decide
      exact decode_code stray press hp hmake hpre
  | true =>
      have hpend := decode_pending stray (s := s) prefix1 (.inl rfl)
      have hp : (s.decode stray prefix1).1.pending = prefix1 ↔ true = true := by
        rw [hpend]
        exact ⟨fun _ => rfl, fun _ => rfl⟩
      have hcode := decode_code stray (b := b) press hp hmake hpre
      rw [hpend] at hcode
      rw [keyCodes, if_pos rfl, decodes, List.singleton_append, List.foldl_cons, List.foldl_cons,
        hpend]
      exact hcode

/-- After the second prefix a code is that of the left key. -/
theorem decodes_prefix2 (code : BitVec 8) (press : Bool) (hmake : code < 0x80)
    (hpre : code ≠ 0x60 ∧ code ≠ 0x61) :
    (s.decodes stray [prefix2, if press then code else code ||| breakBit]).pending = 0 ∧
      (b.isHeld = true →
        (s.decodes stray [prefix2, if press then code else code ||| breakBit]).gather.has b =
          if modifierBit false code = some b then press else s.gather.has b) := by
  have hpend := decode_pending stray (s := s) prefix2 (.inr rfl)
  have hp : (s.decode stray prefix2).1.pending = prefix1 ↔ false = true := by
    rw [hpend]
    exact ⟨fun h => absurd h (show prefix2 ≠ prefix1 by decide), fun h => by cases h⟩
  have hcode := decode_code stray (b := b) press hp hmake hpre
  rw [hpend] at hcode
  rw [decodes, List.foldl_cons, List.foldl_cons, hpend]
  exact hcode

theorem decodes_append (codes codes' : List (BitVec 8)) :
    s.decodes stray (codes ++ codes') = (s.decodes stray codes).decodes stray codes' :=
  List.foldl_append

/-- The codes of Pause clear the bit of the left Ctrl key. -/
theorem decodes_pause :
    (s.decodes stray KeyEvent.pause.codes).pending = 0 ∧
      (b.isHeld = true → (s.decodes stray KeyEvent.pause.codes).gather.has b =
        if b = .ctrlLeft then false else s.gather.has b) := by
  have hsplit : KeyEvent.pause.codes = [prefix2, 0x1d] ++ ([0x45] ++ ([prefix2, 0x9d] ++ [0xc5])) :=
    rfl
  rw [hsplit, decodes_append, decodes_append, decodes_append]
  -- Ctrl and NumLock go down, then both come up; only Ctrl has a bit here
  have hctrl := decodes_prefix2 stray (s := s) (b := b) 0x1d true (by decide) (by decide)
  have hnum := decodes_key stray (b := b) false 0x45 true hctrl.1 (by decide) (by decide)
  have hctrl' := decodes_prefix2 stray (s := ((s.decodes stray [prefix2, 0x1d]).decodes stray
    [0x45])) (b := b) 0x1d false (by decide) (by decide)
  have hnum' := decodes_key stray (b := b) false 0x45 false hctrl'.1 (by decide)
    (by decide)
  have hbit : modifierBit false 0x1d = some .ctrlLeft := by decide
  have hnone : modifierBit false 0x45 = none := by decide
  refine ⟨hnum'.1, fun hb => ?_⟩
  have h₁ := hctrl.2 hb
  have h₂ := hnum.2 hb
  have h₃ := hctrl'.2 hb
  have h₄ := hnum'.2 hb
  simp only [hbit, hnone, reduceCtorEq, if_false, Option.some.injEq, eq_comm (b := b)]
    at h₁ h₂ h₃ h₄
  refine h₄.trans (h₃.trans ?_)
  by_cases hctrlLeft : b = .ctrlLeft
  · rw [if_pos hctrlLeft, if_pos hctrlLeft]
  · rw [if_neg hctrlLeft] at h₁ ⊢
    rw [if_neg hctrlLeft]
    exact h₂.trans h₁

end Bits

/-! ## From keys to bits -/

/-- What an event does to the bit `b`. -/
def KeyEvent.bit (b : Mbit) (on : Bool) : KeyEvent → Bool
  | .modifier m press => if modifierBit m.extended m.code = some b then press else on
  | .other _ _ => on
  | .pause => if b = .ctrlLeft then false else on

section Events

variable (stray : KeyTable → Nat → BitVec 8) {s : KeyboardController} {b : Mbit}

theorem OtherKey.modifierBit_eq (k : OtherKey) : modifierBit k.extended k.code = none := by
  obtain ⟨h42, h54, h29, h56⟩ := k.noModifier
  unfold modifierBit
  rw [if_neg (fun h => h.elim h42 h54), if_neg h56, if_neg h29]

theorem decodes_event (e : KeyEvent) (hs : s.pending = 0) :
    (s.decodes stray e.codes).pending = 0 ∧
      (b.isHeld = true → (s.decodes stray e.codes).gather.has b = e.bit b (s.gather.has b)) := by
  cases e with
  | modifier m press =>
      exact decodes_key stray m.extended m.code press hs (by cases m <;> decide)
        (by cases m <;> decide)
  | other k press =>
      have hkey := decodes_key stray (b := b) k.extended k.code press hs k.isMake k.noPrefix
      rw [k.modifierBit_eq] at hkey
      exact hkey
  | pause => exact decodes_pause stray

theorem decodes_codes (es : List KeyEvent) : ∀ {s : KeyboardController}, s.pending = 0 →
    b.isHeld = true →
      (s.decodes stray (es.flatMap KeyEvent.codes)).gather.has b =
        es.foldl (KeyEvent.bit b) (s.gather.has b) := by
  induction es with
  | nil =>
      intro s _ _
      rfl
  | cons e es ih =>
      intro s hs hb
      have hevent := decodes_event stray (b := b) e hs
      rw [List.flatMap_cons, decodes_append, ih hevent.1 hb, hevent.2 hb, List.foldl_cons]

end Events

/-- Neither was one Shift key released while the other one was held, with no Shift key pressed
since, nor was Pause used while the left Ctrl key is held. -/
def Undisturbed (es : List KeyEvent) : Prop :=
  (shiftReleased es = true → held .leftShift es = false ∧ held .rightShift es = false) ∧
    (held .leftCtrl es = true → pausedSinceCtrl es = false)

section Folds

variable {es : List KeyEvent} {e : KeyEvent}

theorem held_concat (m : Modifier) : held m (es ++ [e]) =
    match e with
    | .modifier m' press => if m' = m then press else held m es
    | _ => held m es := by
  rw [held, List.foldl_append]
  rfl

theorem bit_concat (b : Mbit) : (es ++ [e]).foldl (KeyEvent.bit b) false =
    e.bit b (es.foldl (KeyEvent.bit b) false) := by
  rw [List.foldl_append]
  rfl

/-- The bit of a key that has one of its own. -/
theorem bit_mirrors {m : Modifier} {b : Mbit}
    (hm : ∀ m', modifierBit m'.extended m'.code = some b ↔ m' = m) (hb : b ≠ .ctrlLeft) :
    es.foldl (KeyEvent.bit b) false = held m es := by
  induction es using List.reverseRecOn with
  | nil => rfl
  | append_singleton es e ih =>
      rw [bit_concat, held_concat, ih]
      cases e with
      | modifier m' press =>
          simp only [KeyEvent.bit, hm]
      | other _ _ => rfl
      | pause => exact if_neg hb

/-- The bit of the Shift keys is cleared by the last release. -/
theorem shift_fold : (es.foldl (KeyEvent.bit .shift) false = true →
      shiftReleased es = false ∧ (held .leftShift es || held .rightShift es) = true) ∧
    (es.foldl (KeyEvent.bit .shift) false = false →
      shiftReleased es = true ∨ (held .leftShift es || held .rightShift es) = false) := by
  induction es using List.reverseRecOn with
  | nil => exact ⟨(fun h => by cases h), fun _ => .inr rfl⟩
  | append_singleton es e ih =>
      have hrel : shiftReleased (es ++ [e]) =
          match e with
          | .modifier .leftShift press => !press
          | .modifier .rightShift press => !press
          | _ => shiftReleased es := by
        rw [shiftReleased, List.foldl_append]
        rfl
      rw [bit_concat, held_concat, held_concat, hrel]
      cases e with
      | modifier m press =>
          -- only an event of a Shift key changes one of the sides
          cases m with
          | leftShift => cases press <;> simp [KeyEvent.bit, modifierBit, Modifier.code]
          | rightShift => cases press <;> simp [KeyEvent.bit, modifierBit, Modifier.code]
          | leftCtrl => exact ih
          | rightCtrl => exact ih
          | leftAlt => exact ih
          | rightAlt => exact ih
      | other k press => exact ih
      | pause => exact ih

/-- The bit of the left Ctrl key is cleared by its release or by Pause. -/
theorem ctrl_fold : (es.foldl (KeyEvent.bit .ctrlLeft) false = true →
      held .leftCtrl es = true ∧ pausedSinceCtrl es = false) ∧
    (es.foldl (KeyEvent.bit .ctrlLeft) false = false →
      held .leftCtrl es = false ∨ pausedSinceCtrl es = true) := by
  induction es using List.reverseRecOn with
  | nil => exact ⟨(fun h => by cases h), fun _ => .inl rfl⟩
  | append_singleton es e ih =>
      have hpaused : pausedSinceCtrl (es ++ [e]) =
          match e with
          | .modifier .leftCtrl true => false
          | .pause => true
          | _ => pausedSinceCtrl es := by
        rw [pausedSinceCtrl, List.foldl_append]
        rfl
      rw [bit_concat, held_concat, hpaused]
      cases e with
      | modifier m press =>
          cases m with
          | leftCtrl => cases press <;> simp [KeyEvent.bit, modifierBit, Modifier.code,
              Modifier.extended]
          | leftShift => exact ih
          | rightShift => exact ih
          | rightCtrl => exact ih
          | leftAlt => exact ih
          | rightAlt => exact ih
      | other k press => exact ih
      | pause => exact ⟨(fun h => by cases h), fun _ => .inr rfl⟩

theorem shift_mirrors :
    es.foldl (KeyEvent.bit .shift) false = (held .leftShift es || held .rightShift es) ↔
      (shiftReleased es = true → held .leftShift es = false ∧ held .rightShift es = false) := by
  have hfold := @shift_fold es
  rw [← Bool.or_eq_false_iff]
  cases hbit : es.foldl (KeyEvent.bit .shift) false with
  | true =>
      obtain ⟨hrel, hheld⟩ := hfold.1 hbit
      rw [hrel, hheld]
      exact ⟨(fun _ h => by cases h), fun _ => rfl⟩
  | false =>
      rcases hfold.2 hbit with hrel | hheld
      · rw [hrel]
        exact ⟨fun h _ => h.symm, fun h => (h rfl).symm⟩
      · rw [hheld]
        exact ⟨fun _ _ => rfl, fun _ => rfl⟩

theorem ctrl_mirrors :
    es.foldl (KeyEvent.bit .ctrlLeft) false = held .leftCtrl es ↔
      (held .leftCtrl es = true → pausedSinceCtrl es = false) := by
  have hfold := @ctrl_fold es
  cases hbit : es.foldl (KeyEvent.bit .ctrlLeft) false with
  | true =>
      obtain ⟨hheld, hpaused⟩ := hfold.1 hbit
      rw [hheld, hpaused]
      exact ⟨fun _ _ => rfl, fun _ => rfl⟩
  | false =>
      rcases hfold.2 hbit with hheld | hpaused
      · rw [hheld]
        exact ⟨(fun _ h => by cases h), fun _ => rfl⟩
      · rw [hpaused]
        cases held .leftCtrl es with
        | true => exact ⟨(fun h => by cases h), fun h => by cases h rfl⟩
        | false => exact ⟨(fun _ h => by cases h), fun _ => rfl⟩

end Folds

/-- The modifier bits mirror the keyboard exactly if the last release of a Shift key did not leave
the other one held, and Pause was not used since the left Ctrl key, if it is held, was pressed. -/
theorem modifiers_mirror_iff (stray : KeyTable → Nat → BitVec 8) (es : List KeyEvent) :
    Mirrors (boot.decodes stray (es.flatMap KeyEvent.codes)).gather es ↔ Undisturbed es := by
  have hbit : ∀ b : Mbit, b.isHeld = true →
      (boot.decodes stray (es.flatMap KeyEvent.codes)).gather.has b =
        es.foldl (KeyEvent.bit b) false := by
    intro b hb
    have hboot : boot.gather.has b = false := by cases b <;> rfl
    rw [decodes_codes stray es rfl hb, hboot]
  -- these three keys have a bit of their own, which nothing else changes
  have hctrlRight := (hbit .ctrlRight rfl).trans (bit_mirrors (m := .rightCtrl)
    (fun m' => by cases m' <;> decide) (by decide))
  have haltLeft := (hbit .altLeft rfl).trans (bit_mirrors (m := .leftAlt)
    (fun m' => by cases m' <;> decide) (by decide))
  have haltRight := (hbit .altRight rfl).trans (bit_mirrors (m := .rightAlt)
    (fun m' => by cases m' <;> decide) (by decide))
  constructor
  · rintro ⟨hshift, hctrlLeft, -⟩
    exact ⟨shift_mirrors.1 ((hbit .shift rfl).symm.trans hshift),
      ctrl_mirrors.1 ((hbit .ctrlLeft rfl).symm.trans hctrlLeft)⟩
  · rintro ⟨hshift, hctrlLeft⟩
    exact ⟨(hbit .shift rfl).trans (shift_mirrors.2 hshift),
      (hbit .ctrlLeft rfl).trans (ctrl_mirrors.2 hctrlLeft), hctrlRight, haltLeft, haltRight⟩

/-- Both Shift keys are pressed, and one is released. -/
theorem shift_lost : ¬ Mirrors (boot.decodes (fun _ _ => 0)
    ([KeyEvent.modifier .leftShift true, .modifier .rightShift true,
      .modifier .leftShift false].flatMap KeyEvent.codes)).gather
    [.modifier .leftShift true, .modifier .rightShift true, .modifier .leftShift false] := by
  intro h
  exact absurd h.1 (by decide)

end MPStuBS.Machine
