import MPStuBS.Machine.KeyModifiers

/-!
# LEDs and locks

The state of the locks is kept twice: as bits of `gather`, and as bits of the byte that is
sent to the keyboard for its LEDs. Only the three branches of `pressed` for the lock keys
change one of the two, and they change both (`LedsAgree.toggle`). All other codes leave them
alone (`SameLeds`), so the LEDs show the locks after every byte (`leds_agree`).
-/

set_option autoImplicit false

namespace MPStuBS.Machine

theorem Led.lock_inj {led led' : Led} (h : led.lock = led'.lock) : led = led' := by
  cases led <;> cases led' <;> first | rfl | cases h

theorem Led.mask_disjoint {led led' : Led} (h : led ≠ led') : led.mask &&& led'.mask = 0 := by
  cases led <;> cases led' <;> first | rfl | exact absurd rfl h

namespace KeyboardController

/-- The data of the last command that was sent for the LEDs. -/
def lastSetLed (s : KeyboardController) : Option (BitVec 8) :=
  (s.sent.filter (fun command => command.1 = cmdSetLed)).getLast?.map Prod.snd

/-- The LEDs show the locks, and the keyboard was told so. -/
structure LedsAgree (s : KeyboardController) : Prop where
  lit : ∀ led : Led, s.ledCtrlByte &&& led.mask ≠ 0 ↔ s.gather.has led.lock = true
  others : s.ledCtrlByte &&& ~~~7 = 0
  told : s.lastSetLed = some s.ledCtrlByte

/-- Neither the LEDs nor the locks differ, and no command was sent. -/
structure SameLeds (s s' : KeyboardController) : Prop where
  ledCtrlByte : s'.ledCtrlByte = s.ledCtrlByte
  sent : s'.sent = s.sent
  locks : ∀ led : Led, s'.gather.has led.lock = s.gather.has led.lock

variable {s s' : KeyboardController}

theorem LedsAgree.same (hs : LedsAgree s) (h : SameLeds s s') : LedsAgree s' := by
  constructor
  · intro led
    rw [h.ledCtrlByte, h.locks]
    exact hs.lit led
  · rw [h.ledCtrlByte]
    exact hs.others
  · rw [lastSetLed, h.sent, h.ledCtrlByte]
    exact hs.told

/-! ## Lock keys -/

section SetLed

variable (led : Led) (on : Bool)

theorem setLed_self : (s.setLed led on).ledCtrlByte &&& led.mask ≠ 0 ↔ on = true := by
  cases on with
  | true =>
      have hmask : (s.ledCtrlByte ||| led.mask) &&& led.mask = led.mask := by
        rw [BitVec.and_or_distrib_right, BitVec.and_self]
        apply BitVec.eq_of_getLsbD_eq
        intro i _
        simp
      show (s.ledCtrlByte ||| led.mask) &&& led.mask ≠ 0 ↔ _
      rw [hmask]
      cases led <;> decide
  | false =>
      show (s.ledCtrlByte &&& ~~~led.mask) &&& led.mask ≠ 0 ↔ _
      simp [BitVec.and_assoc]

/-- The bits of another mask do not change. -/
theorem setLed_other {mask : BitVec 8} (h : led.mask &&& mask = 0) :
    (s.setLed led on).ledCtrlByte &&& mask = s.ledCtrlByte &&& mask := by
  cases on with
  | true =>
      show (s.ledCtrlByte ||| led.mask) &&& mask = _
      rw [BitVec.and_or_distrib_right, h]
      simp
  | false =>
      have hmask : ~~~led.mask &&& mask = mask := by
        calc ~~~led.mask &&& mask = (~~~led.mask &&& mask) ||| (led.mask &&& mask) := by
              rw [h]
              simp
          _ = (~~~led.mask ||| led.mask) &&& mask := BitVec.and_or_distrib_right.symm
          _ = BitVec.allOnes 8 &&& mask := by rw [BitVec.not_or_self]
          _ = mask := BitVec.allOnes_and
      show (s.ledCtrlByte &&& ~~~led.mask) &&& mask = _
      rw [BitVec.and_assoc, hmask]

theorem setLed_told : (s.setLed led on).lastSetLed = some (s.setLed led on).ledCtrlByte := by
  simp [lastSetLed, setLed]

end SetLed

/-- What a lock key does, which sets the LED to the bit that it has changed. -/
theorem LedsAgree.toggle (hs : LedsAgree s) (led : Led) (on : Bool) :
    LedsAgree ((s.onGather (Key.set led.lock on)).setLed led
      ((s.onGather (Key.set led.lock on)).gather.has led.lock)) := by
  have hon : (s.onGather (Key.set led.lock on)).gather.has led.lock = on := by
    rw [has_bit, if_pos rfl]
  rw [hon]
  constructor
  · intro led'
    show _ ↔ (s.onGather (Key.set led.lock on)).gather.has led'.lock = true
    rw [has_bit]
    by_cases hled : led = led'
    · subst hled
      rw [if_pos rfl]
      exact setLed_self led on
    · have hlock : ¬ some led.lock = some led'.lock :=
        fun h => hled (Led.lock_inj (Option.some.inj h))
      rw [if_neg hlock, setLed_other led on (Led.mask_disjoint hled)]
      exact hs.lit led'
  · rw [setLed_other led on (by cases led <;> rfl)]
    exact hs.others
  · exact setLed_told led on

/-! ## Other keys -/

namespace SameLeds

theorem refl (s : KeyboardController) : SameLeds s s := ⟨rfl, rfl, fun _ => rfl⟩

/-- The keys that are held are no locks. -/
theorem setHeld {b : Mbit} (hb : b.isHeld = true) (on : Bool) :
    SameLeds s (s.onGather (Key.set b on)) := by
  constructor
  · rfl
  · rfl
  · intro led
    have hne : ¬ some b = some led.lock := by
      intro h
      rw [Option.some.inj h] at hb
      cases led <;> cases hb
    rw [has_bit, if_neg hne]

/-- Looking up a code sends nothing to the keyboard. -/
theorem getAsciiCode (stray : KeyTable → Nat → BitVec 8) (code : BitVec 8) :
    SameLeds s (s.getAsciiCode stray code) := by
  rcases getAsciiCode_cases stray code s with ⟨-, heq⟩ | ⟨-, heq⟩ | ⟨-, t, -, heq⟩
  · rw [heq]
    exact ⟨rfl, rfl, fun _ => rfl⟩
  · rw [heq]
    exact ⟨rfl, rfl, fun _ => rfl⟩
  · rw [heq]
    exact ⟨rfl, rfl, fun _ => rfl⟩

theorem released (code : BitVec 8) : SameLeds s (s.released code) := by
  rcases released_cases code s with ⟨b, hb, heq⟩ | heq
  · rw [heq]
    exact setHeld hb false
  · rw [heq]
    exact refl s

end SameLeds

/-! ## All codes -/

section Codes

variable (stray : KeyTable → Nat → BitVec 8)

theorem LedsAgree.pressed (hs : LedsAgree s) (code : BitVec 8) :
    LedsAgree (s.pressed stray code) := by
  rcases pressed_cases stray code s with
    ⟨-, b, hb, heq⟩ | ⟨-, led, on, heq⟩ | ⟨-, heq⟩ | ⟨-, heq⟩
  · rw [heq]
    exact hs.same (.setHeld hb true)
  · rw [heq]
    exact hs.toggle led on
  · rw [heq]
    exact hs
  · rw [heq]
    exact hs.same (.getAsciiCode stray code)

theorem LedsAgree.decode (hs : LedsAgree s) (code : BitVec 8) :
    LedsAgree (s.decode stray code).1 := by
  have hinvalid : LedsAgree (s.onGather Key.invalidate) := hs.same ⟨rfl, rfl, fun _ => rfl⟩
  unfold KeyboardController.decode
  split
  · exact hinvalid.same ⟨rfl, rfl, fun _ => rfl⟩
  split
  · exact (hinvalid.same (.released _)).same ⟨rfl, rfl, fun _ => rfl⟩
  · exact (hinvalid.pressed stray code).same ⟨rfl, rfl, fun _ => rfl⟩

theorem LedsAgree.decodes (codes : List (BitVec 8)) : ∀ {s : KeyboardController}, LedsAgree s →
    LedsAgree (s.decodes stray codes) := by
  induction codes with
  | nil =>
      intro s hs
      exact hs
  | cons code codes ih =>
      intro s hs
      apply ih
      exact hs.decode stray code

/-- The constructor turns off the LEDs, and no lock is set. -/
theorem LedsAgree.construct : LedsAgree construct := by
  constructor
  · intro led
    cases led <;> decide
  · rfl
  · rfl

/-- After the construction and any bytes from the keyboard, the LEDs show the locks, and the last
command for the LEDs had told the keyboard so. -/
theorem leds_agree (codes : List (BitVec 8)) : LedsAgree (construct.decodes stray codes) := by
  apply LedsAgree.decodes
  exact LedsAgree.construct

end Codes

end KeyboardController

end MPStuBS.Machine
