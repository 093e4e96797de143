import Mathlib.Logic.Function.Basic

/-!
# The timer of the local APIC

The registers of the timer that `LAPIC::setTimer` writes, and the divider masks of
`LAPIC::timer_div`. The frequency that `timer_ticks` measures is a matter of the
hardware; the registers are as it leaves them afterwards.
-/

set_option autoImplicit false

namespace MPStuBS.Machine

/-- The timer control register, the initial count and the divide configuration. -/
structure LapicTimer where
  vector : BitVec 8
  masked : Bool
  periodic : Bool
  initialCount : BitVec 32
  divideConfig : BitVec 8

namespace LapicTimer

/-- `masks`: the values of the divide configuration for 1, 2, 4, ..., 128. -/
def masks : List (BitVec 8) := [0xb, 0x0, 0x1, 0x2, 0x3, 0x8, 0x9, 0xa]

/-- `LAPIC::timer_div` -/
def timerDiv (div : BitVec 8) : BitVec 8 :=
  if div = 0 ∨ div &&& (div - 1) ≠ 0 then 0xff
  else
    let trail := div.ctz.toNat
    if 7 < trail then 0xff else masks.getD trail 0xff

/-- `LAPIC::setTimer` -/
def setTimer (counter : BitVec 32) (divide vector : BitVec 8) (periodic masked : Bool) :
    LapicTimer where
  vector := vector
  masked := masked
  periodic := periodic
  initialCount := counter
  divideConfig := timerDiv divide

/-- The registers after `LAPIC::timer_ticks`: a single shot, switched off. -/
def measured : LapicTimer := setTimer 0 1 42 false true

/-- The dividers of the hardware. -/
def dividers : List (BitVec 8) := [1, 2, 4, 8, 16, 32, 64, 128]

/-- `timer_div` accepts exactly the dividers of the hardware. -/
theorem timerDiv_accepts : ∀ div : BitVec 8, timerDiv div ≠ 0xff ↔ div ∈ dividers := by
  decide

end LapicTimer

end MPStuBS.Machine
