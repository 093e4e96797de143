import Mathlib.Data.BitVec

/-!
# Keys

`Key` of `machine/key.h`: a key has an ASCII code, a scan code and one byte with a bit
for each modifier. A setter changes its own bit and no other (`has_set`).
-/

set_option autoImplicit false

namespace MPStuBS.Machine

/-- The modifiers. -/
inductive Mbit where
  | shift
  | altLeft
  | altRight
  | ctrlLeft
  | ctrlRight
  | capsLock
  | numLock
  | scrollLock
  deriving DecidableEq

/-- The mask of a modifier. -/
def Mbit.mask : Mbit → BitVec 8
  | .shift => 1
  | .altLeft => 2
  | .altRight => 4
  | .ctrlLeft => 8
  | .ctrlRight => 16
  | .capsLock => 32
  | .numLock => 64
  | .scrollLock => 128

/-- The modifiers that a key holds down, as opposed to the locks. -/
def Mbit.isHeld : Mbit → Bool
  | .capsLock => false
  | .numLock => false
  | .scrollLock => false
  | _ => true

structure Key where
  asc : BitVec 8
  scan : BitVec 8
  modi : BitVec 8
  deriving DecidableEq

namespace Key

/-- The scan code of the division key. -/
def scanDiv : BitVec 8 := 8

/-- The scan code of the Delete key. -/
def scanDel : BitVec 8 := 83

/-- The default constructor. -/
def init : Key := ⟨0, 0, 0⟩

def valid (k : Key) : Bool := k.scan != 0

def invalidate (k : Key) : Key := { k with scan := 0 }

def setAscii (a : BitVec 8) (k : Key) : Key := { k with asc := a }

def setScancode (s : BitVec 8) (k : Key) : Key := { k with scan := s }

/-- The setter of a modifier. -/
def set (b : Mbit) (pressed : Bool) (k : Key) : Key :=
  { k with modi := if pressed then k.modi ||| b.mask else k.modi &&& ~~~b.mask }

/-- The getter of a modifier. -/
def has (b : Mbit) (k : Key) : Bool := k.modi &&& b.mask != 0

abbrev setShift : Bool → Key → Key := set .shift
abbrev setAltLeft : Bool → Key → Key := set .altLeft
abbrev setAltRight : Bool → Key → Key := set .altRight
abbrev setCtrlLeft : Bool → Key → Key := set .ctrlLeft
abbrev setCtrlRight : Bool → Key → Key := set .ctrlRight
abbrev setCapsLock : Bool → Key → Key := set .capsLock
abbrev setNumLock : Bool → Key → Key := set .numLock
abbrev setScrollLock : Bool → Key → Key := set .scrollLock

abbrev shift : Key → Bool := has .shift
abbrev altLeft : Key → Bool := has .altLeft
abbrev altRight : Key → Bool := has .altRight
abbrev ctrlLeft : Key → Bool := has .ctrlLeft
abbrev ctrlRight : Key → Bool := has .ctrlRight
abbrev capsLock : Key → Bool := has .capsLock
abbrev numLock : Key → Bool := has .numLock
abbrev scrollLock : Key → Bool := has .scrollLock

def alt (k : Key) : Bool := k.altLeft || k.altRight

def ctrl (k : Key) : Bool := k.ctrlLeft || k.ctrlRight

end Key

/-- The number of the bit of a modifier. -/
def Mbit.index : Mbit → Nat
  | .shift => 0
  | .altLeft => 1
  | .altRight => 2
  | .ctrlLeft => 3
  | .ctrlRight => 4
  | .capsLock => 5
  | .numLock => 6
  | .scrollLock => 7

theorem Mbit.mask_eq (b : Mbit) : b.mask = BitVec.twoPow 8 b.index := by cases b <;> rfl

theorem Mbit.index_lt (b : Mbit) : b.index < 8 := by cases b <;> decide

theorem Mbit.index_inj {b b' : Mbit} (h : b.index = b'.index) : b = b' := by
  cases b <;> cases b' <;> first | rfl | cases h

namespace Key

theorem has_eq (b : Mbit) (k : Key) : k.has b = k.modi.getLsbD b.index := by
  have hne : BitVec.twoPow 8 b.index ≠ 0 := by cases b <;> decide
  rw [has, Mbit.mask_eq, BitVec.and_twoPow]
  cases k.modi.getLsbD b.index with
  | true => simpa using hne
  | false => rfl

@[simp]
theorem has_set (b b' : Mbit) (pressed : Bool) (k : Key) :
    (k.set b pressed).has b' = if b' = b then pressed else k.has b' := by
  have hlt := b'.index_lt
  by_cases hb : b' = b
  · subst hb
    cases pressed <;> simp [has_eq, set, Mbit.mask_eq, hlt]
  · have hne : ¬ b'.index = b.index := fun h => hb (Mbit.index_inj h)
    cases pressed <;> simp [has_eq, set, Mbit.mask_eq, hlt, hb, hne]

@[simp]
theorem has_invalidate (b : Mbit) (k : Key) : k.invalidate.has b = k.has b := rfl

@[simp]
theorem has_setAscii (b : Mbit) (a : BitVec 8) (k : Key) : (k.setAscii a).has b = k.has b := rfl

@[simp]
theorem has_setScancode (b : Mbit) (s : BitVec 8) (k : Key) :
    (k.setScancode s).has b = k.has b := rfl

end Key

end MPStuBS.Machine
