import MPStuBS.Machine.KeyModifiers
import MPStuBS.Machine.KeyTables
import Mathlib.Data.List.GetD

/-!
# The keyboard

`Keyboard::trigger` of `device/keyboard.cc` takes the next key from the controller, reboots
if it is Delete and Ctrl is held, and prints the key. It does not ask for Alt, so that Ctrl
and Delete already do what only Ctrl, Alt and Delete should (`reboot_iff_ctrlAltDel_iff`).

The keyboard has two Delete keys. One sends the first prefix; the other one is on the
keypad, and is a Delete key while NumLock is off.
-/

set_option autoImplicit false

namespace MPStuBS.Device

open MPStuBS.Machine KeyboardController

/-- What the ports of the controller return. -/
structure PortRead where
  status : BitVec 8
  byte : BitVec 8

/-- What the keyboard does with a key. A key is printed where the last one ended. -/
inductive KeyboardAction where
  | reboot
  | print (asc : BitVec 8)
  deriving DecidableEq

namespace Keyboard

/-- The byte is from the keyboard. -/
def FromKeyboard (p : PortRead) : Prop :=
  p.status &&& outb = outb ∧ p.status &&& auxb ≠ auxb

/-- The byte is the last one of the make code of a Delete key. -/
def CompletesDelete (s : KeyboardController) (byte : BitVec 8) : Prop :=
  byte = 0x53 ∧ (s.pending = prefix1 ∨ s.pending = 0 ∧ s.gather.numLock = false)

section Trigger

variable (stray : KeyTable → Nat → BitVec 8) {s : KeyboardController} {code : BitVec 8}

/-- `trigger` -/
def trigger (p : PortRead) (s : KeyboardController) : KeyboardController × List KeyboardAction :=
  let (s, key) := s.keyHit stray p.status p.byte
  (s,
    if key.valid then
      (if key.ctrl ∧ key.scan = Key.scanDel then [.reboot] else []) ++ [.print key.asc]
    else [])

/-- Several interrupts, one after the other. -/
def triggers (ps : List PortRead) (s : KeyboardController) : KeyboardController :=
  ps.foldl (fun s p => (trigger stray p s).1) s

/-! ## The scan code of Delete -/

/-- On the keypad, `code` is a digit or the comma. -/
def OnKeypad (s : KeyboardController) : Prop :=
  s.gather.numLock = true ∧ s.pending = 0

theorem scanNum_ne (i : Nat) (hi : i < 13) : KeyTable.scanNum.get stray i ≠ Key.scanDel := by
  have hmem : KeyTable.scanNum.get stray i ∈ KeyTable.scanNum.bytes := by
    rw [KeyTable.get, List.getD_eq_getElem _ _ hi]
    exact List.getElem_mem _
  have hall : ∀ b ∈ KeyTable.scanNum.bytes, b ≠ Key.scanDel := by decide
  exact hall _ hmem

theorem getAsciiCode_scan : (s.getAsciiCode stray code).gather.scan = Key.scanDel ↔
    code = Key.scanDel ∧ ¬ OnKeypad s := by
  rcases getAsciiCode_cases stray code s with ⟨hdiv, heq⟩ | ⟨hpad, heq⟩ | ⟨hpad, t, -, heq⟩
  · rw [heq, hdiv]
    apply iff_of_false
    · show ¬ Key.scanDiv = Key.scanDel
      decide
    · rintro ⟨hcode, -⟩
      exact absurd hcode (by decide)
  · obtain ⟨hnum, hpend, hge, hle⟩ := hpad
    rw [heq]
    apply iff_of_false
    · exact scanNum_ne stray _ (keypad_index code hge hle).1
    · intro h
      exact h.2 ⟨hnum, hpend⟩
  · -- all other tables keep the code
    rw [heq]
    show code = Key.scanDel ↔ _
    constructor
    · rintro rfl
      exact ⟨rfl, fun h => hpad ⟨h.1, h.2, by decide, by decide⟩⟩
    · exact And.left

theorem pressed_scan (hs : s.gather.scan = 0) :
    (s.pressed stray code).gather.scan = Key.scanDel ↔ code = Key.scanDel ∧ ¬ OnKeypad s := by
  have hzero : s.gather.scan ≠ Key.scanDel := by
    rw [hs]
    decide
  have hother : ∀ {codes : List (BitVec 8)}, Key.scanDel ∉ codes → code ∈ codes →
      ¬ (code = Key.scanDel ∧ ¬ OnKeypad s) :=
    fun hnot hcode h => hnot (h.1 ▸ hcode)
  rcases pressed_cases stray code s with
    ⟨hcode, b, -, heq⟩ | ⟨hcode, led, on, heq⟩ | ⟨hcode, heq⟩ | ⟨-, heq⟩
  · rw [heq]
    exact iff_of_false hzero (hother (by decide) hcode)
  · rw [heq]
    exact iff_of_false hzero (hother (by decide) hcode)
  · rw [heq]
    exact iff_of_false hzero (hother (by decide) hcode)
  · rw [heq]
    exact getAsciiCode_scan stray

theorem released_scan : (s.released code).gather.scan = s.gather.scan := by
  rcases released_cases code s with ⟨b, -, heq⟩ | heq
  · rw [heq]
    rfl
  · rw [heq]

/-- The decoder returns a Delete key exactly for its code, unless the code is on the keypad. -/
theorem decode_scan : (s.decode stray code).2.scan = Key.scanDel ↔
    code = Key.scanDel ∧ ¬ OnKeypad s := by
  have hzero : ¬ (0 : BitVec 8) = Key.scanDel := by decide
  unfold decode
  split
  case isTrue hpend =>
    apply iff_of_false hzero
    rintro ⟨rfl, -⟩
    exact absurd hpend (by decide)
  split
  case isTrue hbreak =>
    apply iff_of_false
    · show ¬ ((s.onGather Key.invalidate).released (code &&& ~~~breakBit)).gather.scan = _
      rw [released_scan]
      exact hzero
    · rintro ⟨rfl, -⟩
      exact absurd hbreak (by decide)
  · exact pressed_scan stray (s := s.onGather Key.invalidate) rfl

/-- Delete changes no modifier. -/
theorem decode_scanDel_has (b : Mbit) :
    (s.decode stray Key.scanDel).2.has b = s.gather.has b := by
  show ((s.onGather Key.invalidate).getAsciiCode stray Key.scanDel).gather.has b = _
  rw [has_getAsciiCode]
  rfl

/-! ## Reboot -/

/-- The byte is taken for Delete while Ctrl is held. -/
def CtrlDelete (p : PortRead) (s : KeyboardController) : Prop :=
  FromKeyboard p ∧ p.byte = Key.scanDel ∧ ¬ OnKeypad s ∧ s.gather.ctrl = true

theorem reboot_mem_key (key : Key) : KeyboardAction.reboot ∈
    (if key.valid then
      (if key.ctrl ∧ key.scan = Key.scanDel then [.reboot] else []) ++ [.print key.asc]
    else []) ↔ key.scan = Key.scanDel ∧ key.ctrl = true := by
  by_cases hdel : key.scan = Key.scanDel
  · have hvalid : key.valid = true := by
      rw [Key.valid, hdel]
      decide
    cases hctrl : key.ctrl <;> simp [hvalid, hdel]
  · simp [hdel]

theorem reboot_mem_iff (p : PortRead) : .reboot ∈ (trigger stray p s).2 ↔ CtrlDelete p s := by
  apply (reboot_mem_key (s.keyHit stray p.status p.byte).2).trans
  have hinit : ¬ Key.init.scan = Key.scanDel := by decide
  unfold keyHit
  split
  case isTrue hout => exact iff_of_false (fun h => hinit h.1) (fun h => hout h.1.1)
  split
  case isTrue haux => exact iff_of_false (fun h => hinit h.1) (fun h => h.1.2 haux)
  case isFalse hout haux =>
    have hctrl : p.byte = Key.scanDel → (s.decode stray p.byte).2.ctrl = s.gather.ctrl := by
      intro hbyte
      rw [hbyte]
      exact congrArg₂ _ (decode_scanDel_has stray .ctrlLeft) (decode_scanDel_has stray .ctrlRight)
    rw [decode_scan]
    constructor
    · rintro ⟨⟨hbyte, hpad⟩, hheld⟩
      exact ⟨⟨not_not.1 hout, haux⟩, hbyte, hpad, (hctrl hbyte).symm.trans hheld⟩
    · rintro ⟨-, hbyte, hpad, hheld⟩
      exact ⟨⟨hbyte, hpad⟩, (hctrl hbyte).trans hheld⟩

/-- No prefix is pending, or one of the two. -/
def KnownPrefix (s : KeyboardController) : Prop :=
  s.pending = 0 ∨ s.pending = prefix1 ∨ s.pending = prefix2

theorem knownPrefix_trigger (hs : KnownPrefix s) (p : PortRead) :
    KnownPrefix (trigger stray p s).1 := by
  show KnownPrefix (s.keyHit stray p.status p.byte).1
  unfold keyHit
  split
  · exact hs
  split
  · exact hs
  unfold decode
  split
  case isTrue hpend => exact .inr hpend
  split
  · exact .inl rfl
  · exact .inl rfl

theorem knownPrefix_triggers (ps : List PortRead) : ∀ {s : KeyboardController}, KnownPrefix s →
    KnownPrefix (triggers stray ps s) := by
  induction ps with
  | nil =>
      intro s hs
      exact hs
  | cons p ps ih =>
      intro s hs
      apply ih
      exact knownPrefix_trigger stray hs p

/-- Where `CtrlDelete` is not Ctrl, Alt and Delete. -/
theorem ctrlDelete_iff (hs : KnownPrefix s) (p : PortRead) :
    (CtrlDelete p s ↔ FromKeyboard p ∧ CompletesDelete s p.byte ∧
        s.gather.ctrl = true ∧ s.gather.alt = true) ↔
      ¬ (CtrlDelete p s ∧ (s.gather.alt = false ∨ s.pending = prefix2)) := by
  constructor
  · rintro h ⟨hdel, hor⟩
    obtain ⟨-, ⟨-, hpend⟩, -, halt⟩ := h.1 hdel
    rcases hor with hno | hsecond
    · rw [hno] at halt
      cases halt
    · rw [hsecond] at hpend
      rcases hpend with hpend | hpend
      · exact absurd hpend (by decide)
      · exact absurd hpend.1 (by decide)
  · intro h
    constructor
    · rintro ⟨hport, hbyte, hpad, hctrl⟩
      have hdel : CtrlDelete p s := ⟨hport, hbyte, hpad, hctrl⟩
      have halt : s.gather.alt = true := by
        apply Bool.eq_true_of_not_eq_false
        intro hno
        exact h ⟨hdel, .inl hno⟩
      refine ⟨hport, ⟨hbyte, ?_⟩, hctrl, halt⟩
      rcases hs with hzero | hfirst | hsecond
      · refine .inr ⟨hzero, ?_⟩
        apply Bool.eq_false_of_not_eq_true
        intro hnum
        exact hpad ⟨hnum, hzero⟩
      · exact .inl hfirst
      · exact absurd ⟨hdel, .inr hsecond⟩ h
    · rintro ⟨hport, ⟨hbyte, hpend⟩, hctrl, -⟩
      refine ⟨hport, hbyte, ?_, hctrl⟩
      rintro ⟨hnum, hzero⟩
      rcases hpend with hfirst | ⟨-, hno⟩
      · rw [hzero] at hfirst
        exact absurd hfirst (by decide)
      · rw [hnum] at hno
        cases hno

/-- After any interrupts, the next one reboots exactly for Ctrl, Alt and Delete unless its byte is
taken for Delete while Ctrl is held, and Alt is not held or the byte follows the second prefix. -/
theorem reboot_iff_ctrlAltDel_iff (ps : List PortRead) (p : PortRead) :
    (.reboot ∈ (trigger stray p (triggers stray ps construct)).2 ↔
        FromKeyboard p ∧ CompletesDelete (triggers stray ps construct) p.byte ∧
          (triggers stray ps construct).gather.ctrl = true ∧
          (triggers stray ps construct).gather.alt = true) ↔
      ¬ (CtrlDelete p (triggers stray ps construct) ∧
        ((triggers stray ps construct).gather.alt = false ∨
          (triggers stray ps construct).pending = prefix2)) := by
  rw [reboot_mem_iff]
  apply ctrlDelete_iff
  exact knownPrefix_triggers stray ps (.inl rfl)

end Trigger

/-- The left Ctrl key is held, and Delete is pressed. -/
theorem ctrl_delete_reboots : ¬ ∀ (stray : KeyTable → Nat → BitVec 8) (ps : List PortRead)
    (p : PortRead), .reboot ∈ (trigger stray p (triggers stray ps construct)).2 ↔
      FromKeyboard p ∧ CompletesDelete (triggers stray ps construct) p.byte ∧
        (triggers stray ps construct).gather.ctrl = true ∧
        (triggers stray ps construct).gather.alt = true := by
  intro h
  have hreboot : .reboot ∈ (trigger (fun _ _ => 0) ⟨0x01, 0x53⟩
      (triggers (fun _ _ => 0) [⟨0x01, 0x1d⟩, ⟨0x01, 0xe0⟩] construct)).2 := by
    decide
  exact absurd ((h _ _ _).1 hreboot).2.2.2 (by decide)

end Keyboard

end MPStuBS.Device
