import MPStuBS.Machine.KeyDecoder
import MPStuBS.Lib.Run

/-!
# The ports of the keyboard controller

`Keyboard_Controller` of `machine/keyctrl.cc`, access by access. The controller has one
buffer for a byte on its way to the CPU and one for a byte on its way to the keyboard. The
status register says which of them are full, and the program has to look: a byte that
is written into a full buffer replaces the one in there, and a byte that is read from an
empty buffer has been read before.

Between two accesses of the program, the controller takes the byte for the keyboard, or a byte
from the keyboard or the mouse arrives, which needs an empty buffer. The keyboard takes commands
of two bytes.
-/

set_option autoImplicit false

namespace MPStuBS.Machine

open MPStuBS.Lib.Run KeyboardController

/-! ## The devices -/

/-- The keyboard: the command whose data it waits for, its LEDs and its repeat rate. -/
structure KeyboardUnit where
  command : Option (BitVec 8)
  leds : BitVec 8
  rate : BitVec 8

namespace KeyboardUnit

/-- The smallest byte that is a command. -/
def firstCommand : BitVec 8 := 0xed

/-- The keyboard takes a command, which may come instead of the data of the last one, or data. -/
def receive (k : KeyboardUnit) (byte : BitVec 8) : KeyboardUnit :=
  if byte ≥ firstCommand then { k with command := some byte }
  else if k.command = some cmdSetLed then { k with command := none, leds := byte }
  else if k.command = some cmdSetSpeed then { k with command := none, rate := byte }
  else { k with command := none }

end KeyboardUnit

/-- A byte for the CPU, and whether it is from the mouse. -/
structure OutputByte where
  aux : Bool
  byte : BitVec 8
  deriving DecidableEq

/-- The controller: the buffer for the CPU and whether it is full, the buffer for the keyboard, and
the keyboard. -/
structure KeyChip where
  full : Bool
  output : OutputByte
  input : Option (BitVec 8)
  keyboard : KeyboardUnit

namespace KeyboardController

/-- The bit of the status register that is set while the byte for the keyboard is not taken. -/
def inpb : BitVec 8 := 0x02

end KeyboardController

namespace KeyChip

/-- A bit of the status register. -/
def statusBit (on : Bool) (mask : BitVec 8) : BitVec 8 := if on then mask else 0

/-- `ctrl_port.inb()`. The bits that the program does not ask for are arbitrary. -/
def status (c : KeyChip) (others : BitVec 8) : BitVec 8 :=
  (others &&& ~~~(outb ||| inpb ||| auxb)) ||| statusBit c.full outb |||
    statusBit c.input.isSome inpb ||| statusBit c.output.aux auxb

/-- `data_port.inb()`, which returns the byte in the buffer. -/
def readData (c : KeyChip) : KeyChip := { c with full := false }

/-- `data_port.outb()` -/
def writeData (c : KeyChip) (byte : BitVec 8) : KeyChip := { c with input := some byte }

/-- The bytes that the CPU has not read. -/
def waiting (c : KeyChip) : List OutputByte := if c.full then [c.output] else []

end KeyChip

/-! ## The program -/

/-- The statements of the constructor: `drainKeyboardBuffer`, or a method that sends commands. -/
inductive KeyStatement where
  | drain
  | run (method : KeyboardController → KeyboardController)

/-- Where the program is: before the first access of the next statement, before a read of the data
port in `drainKeyboardBuffer`, before the accesses of `key_hit`, or in `send_byte` with a byte and
those that follow it. -/
inductive KeyPhase where
  | statement
  | drainByte
  | keyHit
  | dropByte (status : BitVec 8)
  | decode (status : BitVec 8)
  | await (byte : BitVec 8) (bytes : List (BitVec 8))
  | output (byte : BitVec 8) (bytes : List (BitVec 8))

/-- What has become of the bytes from the controller: `drainKeyboardBuffer` has read one, or a call
of `key_hit` has read the status and a byte and decoded a key. -/
inductive PortEvent where
  | drained (b : OutputByte)
  | hit (status byte : BitVec 8) (key : Key)

/-- The devices and the program, and a history: what the program has read, the bytes that have
arrived from keyboard and mouse, and the bytes that the keyboard has received. -/
structure KeyRun where
  chip : KeyChip
  controller : KeyboardController
  phase : KeyPhase
  todo : List KeyStatement
  log : List PortEvent
  arrived : List OutputByte
  received : List (BitVec 8)

/-- `key_hit` is called, the program makes its next access, the controller takes the byte for the
keyboard, or a byte arrives. -/
inductive KeyLabel where
  | call
  | access (others : BitVec 8)
  | take
  | arrive (b : OutputByte)

namespace KeyboardController

/-- The statements of the constructor. -/
def constructor : List KeyStatement :=
  [.drain, .run (setLed .capsLock false), .run (setLed .scrollLock false),
    .run (setLed .numLock false), .run (setRepeatRate 0 0), .drain]

/-- The bytes of the commands that a method sends. -/
def commandBytes (commands : List (BitVec 8 × BitVec 8)) : List (BitVec 8) :=
  commands.flatMap fun command => [command.1, command.2]

end KeyboardController

namespace KeyRun

/-- Before the constructor. -/
def powerOn (chip : KeyChip) : KeyRun :=
  ⟨chip, boot, .statement, constructor, [], chip.waiting, []⟩

/-- `send_byte`, for one byte after the other. -/
def sendBytes : List (BitVec 8) → KeyPhase
  | [] => .statement
  | byte :: bytes => .await byte bytes

/-- A method is called, and its commands are to be sent. -/
def perform (s : KeyRun) (method : KeyboardController → KeyboardController) : KeyRun :=
  let controller := method s.controller
  { s with
    controller := controller
    phase := sendBytes (commandBytes (controller.sent.drop s.controller.sent.length)) }

/-- The next access of the statements. -/
def nextStatement (s : KeyRun) (status : BitVec 8) : Option KeyRun :=
  match s.todo with
  | [] => none
  | .drain :: rest =>
      if status &&& outb = outb then some { s with phase := .drainByte }
      else some { s with todo := rest }
  | .run method :: rest => some { s.perform method with todo := rest }

section Step

variable (stray : KeyTable → Nat → BitVec 8)

/-- One access of the program. -/
def access (s : KeyRun) (others : BitVec 8) : Option KeyRun :=
  let status := s.chip.status others
  let byte := s.chip.output.byte
  match s.phase with
  | .statement => s.nextStatement status
  | .drainByte =>
      some { s with
        chip := s.chip.readData
        log := s.log ++ [.drained s.chip.output]
        phase := .statement }
  | .keyHit =>
      if status &&& outb ≠ outb then
        some { s with log := s.log ++ [.hit status 0 Key.init], phase := .statement }
      else if status &&& auxb = auxb then some { s with phase := .dropByte status }
      else some { s with phase := .decode status }
  | .dropByte status =>
      some { s with
        chip := s.chip.readData
        log := s.log ++ [.hit status byte Key.init]
        phase := .statement }
  | .decode status =>
      let key := (s.controller.decode stray byte).2
      some { s.perform fun c => (c.decode stray byte).1 with
        chip := s.chip.readData
        log := s.log ++ [.hit status byte key] }
  | .await byte bytes =>
      if status &&& inpb = inpb then some s else some { s with phase := .output byte bytes }
  | .output byte bytes =>
      some { s with chip := s.chip.writeData byte, phase := sendBytes bytes }

/-- The controller takes the byte, and the keyboard receives it. -/
def take (s : KeyRun) : Option KeyRun :=
  match s.chip.input with
  | none => none
  | some byte =>
      some { s with
        chip := { s.chip with input := none, keyboard := s.chip.keyboard.receive byte }
        received := s.received ++ [byte] }

/-- A byte arrives, if the last one was read. -/
def arrive (s : KeyRun) (b : OutputByte) : Option KeyRun :=
  if s.chip.full then none
  else some { s with
    chip := { s.chip with full := true, output := b }
    arrived := s.arrived ++ [b] }

def step (s : KeyRun) : KeyLabel → Option KeyRun
  | .call =>
      match s.phase, s.todo with
      | .statement, [] => some { s with phase := .keyHit }
      | _, _ => none
  | .access others => s.access stray others
  | .take => s.take
  | .arrive b => s.arrive b

end Step

end KeyRun

/-! ## What a step can do -/

namespace KeyRun

variable (stray : KeyTable → Nat → BitVec 8)

/-- An access of the program while the status register holds `status`. -/
inductive Accessed (s : KeyRun) (status : BitVec 8) : KeyRun → Prop
  | drainFull {rest : List KeyStatement} : s.phase = .statement → s.todo = .drain :: rest →
      status &&& outb = outb → Accessed s status { s with phase := .drainByte }
  | drainEmpty {rest : List KeyStatement} : s.phase = .statement → s.todo = .drain :: rest →
      ¬ status &&& outb = outb → Accessed s status { s with todo := rest }
  | run {method : KeyboardController → KeyboardController} {rest : List KeyStatement} :
      s.phase = .statement → s.todo = .run method :: rest →
      Accessed s status { s.perform method with todo := rest }
  | drainByte : s.phase = .drainByte → Accessed s status { s with
      chip := s.chip.readData, log := s.log ++ [.drained s.chip.output], phase := .statement }
  | hitEmpty : s.phase = .keyHit → ¬ status &&& outb = outb → Accessed s status { s with
      log := s.log ++ [.hit status 0 Key.init], phase := .statement }
  | hitMouse : s.phase = .keyHit → status &&& outb = outb → status &&& auxb = auxb →
      Accessed s status { s with phase := .dropByte status }
  | hitKey : s.phase = .keyHit → status &&& outb = outb → ¬ status &&& auxb = auxb →
      Accessed s status { s with phase := .decode status }
  | dropByte {seen : BitVec 8} : s.phase = .dropByte seen → Accessed s status { s with
      chip := s.chip.readData
      log := s.log ++ [.hit seen s.chip.output.byte Key.init]
      phase := .statement }
  | decode {seen : BitVec 8} : s.phase = .decode seen → Accessed s status
      { s.perform fun c => (c.decode stray s.chip.output.byte).1 with
        chip := s.chip.readData
        log := s.log ++
          [.hit seen s.chip.output.byte (s.controller.decode stray s.chip.output.byte).2] }
  | wait {byte : BitVec 8} {bytes : List (BitVec 8)} : s.phase = .await byte bytes →
      status &&& inpb = inpb → Accessed s status s
  | ready {byte : BitVec 8} {bytes : List (BitVec 8)} : s.phase = .await byte bytes →
      ¬ status &&& inpb = inpb → Accessed s status { s with phase := .output byte bytes }
  | output {byte : BitVec 8} {bytes : List (BitVec 8)} : s.phase = .output byte bytes →
      Accessed s status { s with chip := s.chip.writeData byte, phase := sendBytes bytes }

variable {stray} {s s' : KeyRun}

theorem accessed_of_nextStatement {status : BitVec 8} (hphase : s.phase = .statement)
    (h : s.nextStatement status = some s') : Accessed stray s status s' := by
  rw [nextStatement] at h
  cases htodo : s.todo with
  | nil =>
      rw [htodo] at h
      cases h
  | cons statement rest =>
      rw [htodo] at h
      cases statement with
      | drain =>
          by_cases hout : status &&& outb = outb
          · simp only [if_pos hout, Option.some.injEq, ← htodo] at h
            exact h ▸ .drainFull hphase htodo hout
          · simp only [if_neg hout, Option.some.injEq] at h
            exact h ▸ .drainEmpty hphase htodo hout
      | run method => exact Option.some.inj h ▸ .run hphase htodo

theorem accessed_of_access {others : BitVec 8} (h : s.access stray others = some s') :
    Accessed stray s (s.chip.status others) s' := by
  rw [access] at h
  cases hphase : s.phase with
  | statement =>
      rw [hphase] at h
      exact accessed_of_nextStatement hphase h
  | drainByte =>
      rw [hphase] at h
      exact Option.some.inj h ▸ .drainByte hphase
  | keyHit =>
      rw [hphase] at h
      by_cases hout : s.chip.status others &&& outb = outb
      · by_cases haux : s.chip.status others &&& auxb = auxb
        · simp only [if_neg (not_not.2 hout), if_pos haux, Option.some.injEq] at h
          exact h ▸ .hitMouse hphase hout haux
        · simp only [if_neg (not_not.2 hout), if_neg haux, Option.some.injEq] at h
          exact h ▸ .hitKey hphase hout haux
      · simp only [if_pos hout, Option.some.injEq] at h
        exact h ▸ .hitEmpty hphase hout
  | dropByte seen =>
      rw [hphase] at h
      exact Option.some.inj h ▸ .dropByte hphase
  | decode seen =>
      rw [hphase] at h
      exact Option.some.inj h ▸ .decode hphase
  | await byte bytes =>
      rw [hphase] at h
      by_cases hin : s.chip.status others &&& inpb = inpb
      · simp only [if_pos hin, Option.some.injEq] at h
        exact h ▸ .wait hphase hin
      · simp only [if_neg hin, Option.some.injEq] at h
        exact h ▸ .ready hphase hin
  | output byte bytes =>
      rw [hphase] at h
      exact Option.some.inj h ▸ .output hphase

/-- `key_hit` is called while no method is in progress. -/
theorem call_eq_some (h : s.step stray .call = some s') :
    s.phase = .statement ∧ s.todo = [] ∧ s' = { s with phase := .keyHit } := by
  rw [step] at h
  cases hphase : s.phase with
  | statement =>
      cases htodo : s.todo with
      | nil =>
          rw [hphase, htodo] at h
          exact ⟨rfl, rfl, htodo ▸ (Option.some.inj h).symm⟩
      | cons _ _ =>
          rw [hphase, htodo] at h
          cases h
  | _ =>
      rw [hphase] at h
      cases h

theorem take_eq_some (h : s.take = some s') : ∃ byte, s.chip.input = some byte ∧ s' = { s with
    chip := { s.chip with input := none, keyboard := s.chip.keyboard.receive byte }
    received := s.received ++ [byte] } := by
  rw [take] at h
  cases hinput : s.chip.input with
  | none =>
      rw [hinput] at h
      cases h
  | some byte =>
      rw [hinput] at h
      exact ⟨byte, rfl, (Option.some.inj h).symm⟩

theorem arrive_eq_some {b : OutputByte} (h : s.arrive b = some s') :
    s.chip.full = false ∧ s' = { s with
      chip := { s.chip with full := true, output := b }
      arrived := s.arrived ++ [b] } := by
  rw [arrive] at h
  cases hfull : s.chip.full with
  | true =>
      rw [if_pos hfull] at h
      cases h
  | false =>
      have hempty : ¬ s.chip.full = true := Bool.eq_false_iff.1 hfull
      rw [if_neg hempty] at h
      exact ⟨rfl, (Option.some.inj h).symm⟩

end KeyRun

/-! ## The status register -/

/-- A test of the program for a bit. -/
theorem and_eq_mask_iff (mask : BitVec 8) (i : Nat) (hmask : mask = BitVec.twoPow 8 i) (hi : i < 8)
    (x : BitVec 8) : x &&& mask = mask ↔ x.getLsbD i = true := by
  rw [hmask, BitVec.and_twoPow]
  have hne : (0 : BitVec 8) ≠ BitVec.twoPow 8 i := by
    intro h
    have hone := congrArg (fun y : BitVec 8 => y.getLsbD i) h
    simp [hi] at hone
  cases hbit : x.getLsbD i with
  | true => simp
  | false => simpa using hne

namespace KeyChip

variable (c : KeyChip) (others : BitVec 8)

theorem statusBit_getLsbD (on : Bool) (mask : BitVec 8) (i : Nat) :
    (statusBit on mask).getLsbD i = (on && mask.getLsbD i) := by
  cases on with
  | true => rfl
  | false => exact BitVec.getLsbD_zero

theorem status_getLsbD (i : Nat) : (c.status others).getLsbD i =
    (((others &&& ~~~(outb ||| inpb ||| auxb)).getLsbD i || c.full && outb.getLsbD i ||
      c.input.isSome && inpb.getLsbD i) || c.output.aux && auxb.getLsbD i) := by
  rw [status, BitVec.getLsbD_or, BitVec.getLsbD_or, BitVec.getLsbD_or, statusBit_getLsbD,
    statusBit_getLsbD, statusBit_getLsbD]

theorem status_outb : c.status others &&& outb = outb ↔ c.full = true := by
  rw [and_eq_mask_iff outb 0 rfl (by decide), c.status_getLsbD others]
  simp [outb, inpb, auxb]

theorem status_inpb : c.status others &&& inpb = inpb ↔ c.input ≠ none := by
  rw [and_eq_mask_iff inpb 1 rfl (by decide), c.status_getLsbD others]
  simp [outb, inpb, auxb, Option.isSome_iff_ne_none]

theorem status_auxb : c.status others &&& auxb = auxb ↔ c.output.aux = true := by
  rw [and_eq_mask_iff auxb 5 rfl (by decide), c.status_getLsbD others]
  simp [outb, inpb, auxb]

end KeyChip

end MPStuBS.Machine
