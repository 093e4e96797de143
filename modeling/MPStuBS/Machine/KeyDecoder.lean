import MPStuBS.Machine.Key

/-!
# The key decoder

`Key_Decoder` of `machine/keydecoder.cc` with the controller it belongs to. `decode`
takes one byte from the keyboard: a prefix, which is kept for the next byte, or the make
or break code of a key. Modifiers change `gather`, the locks also their LED, and any other
make code is looked up in the tables.

The tables have an end. What stands behind it is a parameter, `stray`, and every look-up
is recorded. Both prefix and `gather` are 0 at first, since the only controller is a
static object.
-/

set_option autoImplicit false

namespace MPStuBS.Machine

/-- The tables of the decoder. -/
inductive KeyTable where
  | normal
  | shift
  | alt
  | ascNum
  | scanNum
  deriving DecidableEq

/-- The bytes of a table. -/
def KeyTable.bytes : KeyTable → List (BitVec 8)
  | .normal =>
      [0, 0, 49, 50, 51, 52, 53, 54, 55, 56, 57, 48, 225, 39, 8, 9, 113, 119, 101, 114, 116, 122,
       117, 105, 111, 112, 129, 43, 10, 0, 97, 115, 100, 102, 103, 104, 106, 107, 108, 148, 132,
       94, 0, 35, 121, 120, 99, 118, 98, 110, 109, 44, 46, 45, 0, 42, 0, 32, 0, 0, 0, 0, 0, 0, 0,
       0, 0, 0, 0, 0, 0, 0, 0, 0, 45, 0, 0, 0, 43, 0, 0, 0, 0, 0, 0, 0, 60, 0, 0]
  | .shift =>
      [0, 0, 33, 34, 21, 36, 37, 38, 47, 40, 41, 61, 63, 96, 0, 0, 81, 87, 69, 82, 84, 90, 85, 73,
       79, 80, 154, 42, 0, 0, 65, 83, 68, 70, 71, 72, 74, 75, 76, 153, 142, 248, 0, 39, 89, 88, 67,
       86, 66, 78, 77, 59, 58, 95, 0, 0, 0, 32, 0, 0, 0, 0, 0, 0, 0, 0, 0, 0, 0, 0, 0, 0, 0, 0, 0,
       0, 0, 0, 0, 0, 0, 0, 0, 0, 0, 0, 62, 0, 0]
  | .alt =>
      [0, 0, 0, 253, 0, 0, 0, 0, 123, 91, 93, 125, 92, 0, 0, 0, 64, 0, 0, 0, 0, 0, 0, 0, 0, 0, 0,
       126, 0, 0, 0, 0, 0, 0, 0, 0, 0, 0, 0, 0, 0, 0, 0, 0, 0, 0, 0, 0, 0, 0, 230, 0, 0, 0, 0, 0,
       0, 0, 0, 0, 0, 0, 0, 0, 0, 0, 0, 0, 0, 0, 0, 0, 0, 0, 0, 0, 0, 0, 0, 0, 0, 0, 0, 0, 0, 0,
       124, 0, 0]
  | .ascNum =>
      [55, 56, 57, 45, 52, 53, 54, 43, 49, 50, 51, 48, 44]
  | .scanNum =>
      [8, 9, 10, 53, 5, 6, 7, 27, 2, 3, 4, 11, 51]

/-- `table[i]`. -/
def KeyTable.get (stray : KeyTable → Nat → BitVec 8) (t : KeyTable) (i : Nat) : BitVec 8 :=
  t.bytes.getD i (stray t i)

/-- The LEDs and their masks. -/
inductive Led where
  | capsLock
  | numLock
  | scrollLock
  deriving DecidableEq

def Led.mask : Led → BitVec 8
  | .capsLock => 4
  | .numLock => 2
  | .scrollLock => 1

/-- The lock that an LED shows. -/
def Led.lock : Led → Mbit
  | .capsLock => .capsLock
  | .numLock => .numLock
  | .scrollLock => .scrollLock

/-- The decoder and the controller: the pending prefix, the key, the LEDs, the commands that were
sent to the keyboard, and the look-ups that were made. -/
structure KeyboardController where
  pending : BitVec 8
  gather : Key
  ledCtrlByte : BitVec 8
  sent : List (BitVec 8 × BitVec 8)
  reads : List (KeyTable × Nat)

namespace KeyboardController

def breakBit : BitVec 8 := 0x80
def prefix1 : BitVec 8 := 0xe0
def prefix2 : BitVec 8 := 0xe1

/-- `kbd_cmd::set_led`. -/
def cmdSetLed : BitVec 8 := 0xed

/-- All members are 0. -/
def boot : KeyboardController := ⟨0, .init, 0, [], []⟩

/-- A member function of `gather`. -/
def onGather (f : Key → Key) (s : KeyboardController) : KeyboardController :=
  { s with gather := f s.gather }

/-- `set_led`. -/
def setLed (led : Led) (on : Bool) (s : KeyboardController) : KeyboardController :=
  let led' := if on then s.ledCtrlByte ||| led.mask else s.ledCtrlByte &&& ~~~led.mask
  { s with ledCtrlByte := led', sent := s.sent ++ [(cmdSetLed, led')] }

/-- `kbd_cmd::set_speed`. -/
def cmdSetSpeed : BitVec 8 := 0xf3

/-- `send_command`. -/
def sendCommand (cmd data : BitVec 8) (s : KeyboardController) : KeyboardController :=
  { s with sent := s.sent ++ [(cmd, data)] }

/-- `set_repeat_rate`. -/
def setRepeatRate (speed delay : BitVec 32) (s : KeyboardController) : KeyboardController :=
  s.sendCommand cmdSetSpeed ((delay <<< 4 ||| speed).setWidth 8)

/-- The constructor. Bytes that it drains from the buffer are not decoded. -/
def construct : KeyboardController :=
  let s := ((boot.setLed .capsLock false).setLed .scrollLock false).setLed .numLock false
  s.setRepeatRate 0 0

section Decode

variable (stray : KeyTable → Nat → BitVec 8)

/-- `gather.ascii(table[i])`. -/
def lookUpAscii (t : KeyTable) (i : Nat) (s : KeyboardController) : KeyboardController :=
  { s.onGather (Key.setAscii (t.get stray i)) with reads := s.reads ++ [(t, i)] }

/-- `gather.scancode(scan_num_tab[i])`. -/
def lookUpScancode (t : KeyTable) (i : Nat) (s : KeyboardController) : KeyboardController :=
  { s.onGather (Key.setScancode (t.get stray i)) with reads := s.reads ++ [(t, i)] }

/-- `gather.ascii(table[code]); gather.scancode(code);`. -/
def lookUp (t : KeyTable) (code : BitVec 8) (s : KeyboardController) : KeyboardController :=
  (s.lookUpAscii stray t code.toNat).onGather (Key.setScancode code)

/-- `get_ascii_code`. -/
def getAsciiCode (code : BitVec 8) (s : KeyboardController) : KeyboardController :=
  -- the division key of the keypad, which sends a prefix
  if code = 53 ∧ s.pending = prefix1 then
    (s.onGather (Key.setAscii 47)).onGather (Key.setScancode Key.scanDiv)
  -- a key of the keypad, while NumLock is on
  else if s.gather.numLock ∧ s.pending = 0 ∧ code ≥ 71 ∧ code ≤ 83 then
    (s.lookUpAscii stray .ascNum (code - 71).toNat).lookUpScancode stray .scanNum (code - 71).toNat
  else if s.gather.altRight then s.lookUp stray .alt code
  else if s.gather.shift then s.lookUp stray .shift code
  else if s.gather.capsLock then
    if (code ≥ 16 ∧ code ≤ 26) ∨ (code ≥ 30 ∧ code ≤ 40) ∨ (code ≥ 44 ∧ code ≤ 50) then
      s.lookUp stray .shift code
    else s.lookUp stray .normal code
  else s.lookUp stray .normal code

/-- The break code of a key. -/
def released (code : BitVec 8) (s : KeyboardController) : KeyboardController :=
  if code = 42 ∨ code = 54 then s.onGather (Key.setShift false)
  else if code = 56 then
    if s.pending = prefix1 then s.onGather (Key.setAltRight false)
    else s.onGather (Key.setAltLeft false)
  else if code = 29 then
    -- after `prefix2` this is the left key
    if s.pending = prefix1 then s.onGather (Key.setCtrlRight false)
    else s.onGather (Key.setCtrlLeft false)
  else s

/-- The make code of a key. -/
def pressed (code : BitVec 8) (s : KeyboardController) : KeyboardController :=
  if code = 42 ∨ code = 54 then s.onGather (Key.setShift true)
  else if code = 56 then
    if s.pending = prefix1 then s.onGather (Key.setAltRight true)
    else s.onGather (Key.setAltLeft true)
  else if code = 29 then
    if s.pending = prefix1 then s.onGather (Key.setCtrlRight true)
    else s.onGather (Key.setCtrlLeft true)
  else if code = 58 then
    let s := s.onGather (Key.setCapsLock !s.gather.capsLock)
    s.setLed .capsLock s.gather.capsLock
  else if code = 70 then
    let s := s.onGather (Key.setScrollLock !s.gather.scrollLock)
    s.setLed .scrollLock s.gather.scrollLock
  else if code = 69 then
    -- Ctrl and NumLock are sent for Pause
    if s.gather.ctrlLeft then s.getAsciiCode stray code
    else
      let s := s.onGather (Key.setNumLock !s.gather.numLock)
      s.setLed .numLock s.gather.numLock
  -- the Windows keys and the menu key
  else if code = 91 ∨ code = 92 ∨ code = 93 then s
  else s.getAsciiCode stray code

/-- `decode`. A prefix is for the next code only. -/
def decode (code : BitVec 8) (s : KeyboardController) : KeyboardController × Key :=
  let s := s.onGather Key.invalidate
  let s :=
    if code = prefix1 ∨ code = prefix2 then { s with pending := code }
    else if code &&& breakBit ≠ 0 then
      { s.released (code &&& ~~~breakBit) with pending := 0 }
    else { s.pressed stray code with pending := 0 }
  (s, s.gather)

/-- The bit of the status register that is set while the buffer holds a byte. -/
def outb : BitVec 8 := 0x01

/-- The bit of the status register that is set while the byte is from the mouse. -/
def auxb : BitVec 8 := 0x20

/-- `key_hit`, which reads the status and the byte from the ports. A byte of the mouse is dropped.
-/
def keyHit (status byte : BitVec 8) (s : KeyboardController) : KeyboardController × Key :=
  if status &&& outb ≠ outb then (s, Key.init)
  else if status &&& auxb = auxb then (s, Key.init)
  else s.decode stray byte

/-- Bytes from the keyboard, one after the other. -/
def decodes (codes : List (BitVec 8)) (s : KeyboardController) : KeyboardController :=
  codes.foldl (fun s code => (s.decode stray code).1) s

/-! ## What a code does -/

/-- The division key, a key of the keypad, or a look-up with the code itself. -/
theorem getAsciiCode_cases (code : BitVec 8) (s : KeyboardController) :
    (code = 53 ∧ s.getAsciiCode stray code =
        (s.onGather (Key.setAscii 47)).onGather (Key.setScancode Key.scanDiv)) ∨
      ((s.gather.numLock = true ∧ s.pending = 0 ∧ code ≥ 71 ∧ code ≤ 83) ∧
        s.getAsciiCode stray code =
          (s.lookUpAscii stray .ascNum (code - 71).toNat).lookUpScancode stray .scanNum
            (code - 71).toNat) ∨
      (¬ (s.gather.numLock = true ∧ s.pending = 0 ∧ code ≥ 71 ∧ code ≤ 83) ∧
        ∃ t : KeyTable, t.bytes.length = 89 ∧
          s.getAsciiCode stray code = s.lookUp stray t code) := by
  unfold getAsciiCode
  split
  case isTrue hdiv => exact .inl ⟨hdiv.1, rfl⟩
  split
  case isTrue hpad => exact .inr (.inl ⟨hpad, rfl⟩)
  case isFalse hpad =>
    refine .inr (.inr ⟨hpad, ?_⟩)
    split
    · exact ⟨.alt, rfl, rfl⟩
    split
    · exact ⟨.shift, rfl, rfl⟩
    split
    · split
      · exact ⟨.shift, rfl, rfl⟩
      · exact ⟨.normal, rfl, rfl⟩
    · exact ⟨.normal, rfl, rfl⟩

/-- A key that is held, a lock, one of the keys that are ignored, or any other key. -/
theorem pressed_cases (code : BitVec 8) (s : KeyboardController) :
    (code ∈ [(42 : BitVec 8), 54, 56, 29] ∧
        ∃ b : Mbit, b.isHeld = true ∧ s.pressed stray code = s.onGather (Key.set b true)) ∨
      (code ∈ [(58 : BitVec 8), 70, 69] ∧
        ∃ (led : Led) (on : Bool), s.pressed stray code =
          (s.onGather (Key.set led.lock on)).setLed led
            ((s.onGather (Key.set led.lock on)).gather.has led.lock)) ∨
      (code ∈ [(91 : BitVec 8), 92, 93] ∧ s.pressed stray code = s) ∨
      (code ∉ [(91 : BitVec 8), 92, 93] ∧ s.pressed stray code = s.getAsciiCode stray code) := by
  unfold pressed
  split
  case isTrue h => exact .inl ⟨by grind, .shift, rfl, rfl⟩
  split
  case isTrue h =>
    refine .inl ⟨by grind, ?_⟩
    split
    · exact ⟨.altRight, rfl, rfl⟩
    · exact ⟨.altLeft, rfl, rfl⟩
  split
  case isTrue h =>
    refine .inl ⟨by grind, ?_⟩
    split
    · exact ⟨.ctrlRight, rfl, rfl⟩
    · exact ⟨.ctrlLeft, rfl, rfl⟩
  split
  case isTrue h => exact .inr (.inl ⟨by grind, .capsLock, _, rfl⟩)
  split
  case isTrue h => exact .inr (.inl ⟨by grind, .scrollLock, _, rfl⟩)
  split
  case isTrue h =>
    split
    · exact .inr (.inr (.inr ⟨by grind, rfl⟩))
    · exact .inr (.inl ⟨by grind, .numLock, _, rfl⟩)
  split
  case isTrue h => exact .inr (.inr (.inl ⟨by grind, rfl⟩))
  case isFalse h => exact .inr (.inr (.inr ⟨by grind, rfl⟩))

/-- A key that was held, or any other key. -/
theorem released_cases (code : BitVec 8) (s : KeyboardController) :
    (∃ b : Mbit, b.isHeld = true ∧ s.released code = s.onGather (Key.set b false)) ∨
      s.released code = s := by
  unfold released
  split
  · exact .inl ⟨.shift, rfl, rfl⟩
  split
  · split
    · exact .inl ⟨.altRight, rfl, rfl⟩
    · exact .inl ⟨.altLeft, rfl, rfl⟩
  split
  · split
    · exact .inl ⟨.ctrlRight, rfl, rfl⟩
    · exact .inl ⟨.ctrlLeft, rfl, rfl⟩
  · exact .inr rfl

end Decode

end KeyboardController

end MPStuBS.Machine
