import MPStuBS.Lib.Simulation
import MPStuBS.Machine.KeyPorts

/-!
# Bytes from the keyboard

Every byte that arrives is read once, in the order of arrival, because each read of the
data port comes after a look at the status register, and the byte it has seen is still
there. So the accesses of `key_hit` have the effect of one call that gets the status and
the byte at once (`key_hits`). The bytes that the controller sends in the course of a call do
not get in the way, since they wait in the other buffer.
-/

set_option autoImplicit false

namespace MPStuBS.Machine

open MPStuBS.Lib.Run KeyboardController

/-! ## Calls executed as a whole -/

namespace KeyboardController

variable (stray : KeyTable → Nat → BitVec 8) (s : KeyboardController) {status : BitVec 8}
  (byte : BitVec 8)

theorem keyHit_empty (h : ¬ status &&& outb = outb) :
    s.keyHit stray status byte = (s, Key.init) := if_pos h

theorem keyHit_mouse (h : status &&& outb = outb) (haux : status &&& auxb = auxb) :
    s.keyHit stray status byte = (s, Key.init) := by
  rw [keyHit, if_neg (not_not.2 h), if_pos haux]

theorem keyHit_key (h : status &&& outb = outb) (haux : ¬ status &&& auxb = auxb) :
    s.keyHit stray status byte = s.decode stray byte := by
  rw [keyHit, if_neg (not_not.2 h), if_neg haux]

end KeyboardController

namespace PortEvent

/-- The bytes that were read from the data port. -/
def bytes : PortEvent → List OutputByte
  | .drained b => [b]
  | .hit status byte _ =>
      if status &&& outb = outb then [⟨decide (status &&& auxb = auxb), byte⟩] else []

/-- `key_hit` executed as a whole, which has to return the key. A byte that was drained has no
effect. -/
def step (stray : KeyTable → Nat → BitVec 8) (s : KeyboardController) :
    PortEvent → Option KeyboardController
  | .drained _ => some s
  | .hit status byte key =>
      if (s.keyHit stray status byte).2 = key then some (s.keyHit stray status byte).1 else none

theorem step_hit {stray : KeyTable → Nat → BitVec 8} {s : KeyboardController}
    {status byte : BitVec 8} {t : KeyboardController} {key : Key}
    (h : s.keyHit stray status byte = (t, key)) : step stray s (.hit status byte key) = some t := by
  rw [step, h]
  exact if_pos rfl

end PortEvent

/-! ## Between two accesses -/

/-- The status that was read is the one of the byte in the buffer. -/
structure KeyChip.Seen (c : KeyChip) (status : BitVec 8) : Prop where
  full : c.full = true
  filled : status &&& outb = outb
  mouse : status &&& auxb = auxb ↔ c.output.aux = true

theorem KeyChip.seen_status (c : KeyChip) {others : BitVec 8}
    (h : c.status others &&& outb = outb) : c.Seen (c.status others) :=
  ⟨(c.status_outb others).1 h, h, c.status_auxb others⟩

/-- What the program knows of the buffers. -/
inductive PhaseOk (c : KeyChip) (todo : List KeyStatement) : KeyPhase → Prop
  | statement : PhaseOk c todo .statement
  | drainByte : c.full = true → PhaseOk c todo .drainByte
  | keyHit : todo = [] → PhaseOk c todo .keyHit
  | dropByte {status : BitVec 8} : todo = [] → c.Seen status → status &&& auxb = auxb →
      PhaseOk c todo (.dropByte status)
  | decode {status : BitVec 8} : todo = [] → c.Seen status → ¬ status &&& auxb = auxb →
      PhaseOk c todo (.decode status)
  | await {byte : BitVec 8} {bytes : List (BitVec 8)} : PhaseOk c todo (.await byte bytes)
  | output {byte : BitVec 8} {bytes : List (BitVec 8)} : c.input = none →
      PhaseOk c todo (.output byte bytes)

namespace PhaseOk

variable {c : KeyChip} {todo : List KeyStatement} {phase : KeyPhase}

theorem sendBytes (bytes : List (BitVec 8)) : PhaseOk c todo (KeyRun.sendBytes bytes) := by
  cases bytes with
  | nil => exact .statement
  | cons byte bytes => exact .await

/-- The controller takes a byte for the keyboard. -/
theorem take (h : PhaseOk c todo phase) (keyboard : KeyboardUnit) :
    PhaseOk { c with input := none, keyboard := keyboard } todo phase := by
  cases h with
  | statement => exact .statement
  | drainByte hfull => exact .drainByte hfull
  | keyHit htodo => exact .keyHit htodo
  | dropByte htodo hseen haux => exact .dropByte htodo ⟨hseen.full, hseen.filled, hseen.mouse⟩ haux
  | decode htodo hseen haux => exact .decode htodo ⟨hseen.full, hseen.filled, hseen.mouse⟩ haux
  | await => exact .await
  | output _ => exact .output rfl

/-- A byte arrives only while the program has not seen one. -/
theorem arrive (h : PhaseOk c todo phase) (hfull : c.full = false) (b : OutputByte) :
    PhaseOk { c with full := true, output := b } todo phase := by
  cases h with
  | statement => exact .statement
  | drainByte _ => exact .drainByte rfl
  | keyHit htodo => exact .keyHit htodo
  | dropByte _ hseen _ => exact absurd (hfull.symm.trans hseen.full) Bool.false_ne_true
  | decode _ hseen _ => exact absurd (hfull.symm.trans hseen.full) Bool.false_ne_true
  | await => exact .await
  | output hinput => exact .output hinput

end PhaseOk

theorem KeyChip.waiting_full {c : KeyChip} (h : c.full = true) : c.waiting = [c.output] := if_pos h

theorem KeyChip.Seen.bytes {c : KeyChip} {status : BitVec 8} (h : c.Seen status) (key : Key) :
    (PortEvent.hit status c.output.byte key).bytes = c.waiting := by
  have haux : decide (status &&& auxb = auxb) = c.output.aux :=
    Bool.eq_iff_iff.2 (decide_eq_true_iff.trans h.mouse)
  rw [PortEvent.bytes, if_pos h.filled, KeyChip.waiting_full h.full, haux]

namespace KeyRun

/-- What is left of the constructor, executed as a whole. -/
def settle (c : KeyboardController) : KeyStatement → KeyboardController
  | .drain => c
  | .run method => method c

/-- The controller at the end of the constructor. -/
def settled (s : KeyRun) : KeyboardController := s.todo.foldl settle s.controller

variable (stray : KeyTable → Nat → BitVec 8) {s s' : KeyRun}

/-- Every byte that has arrived was read once or waits, and the calls have the effect of `key_hit`
executed as a whole. -/
structure BytesInv (s : KeyRun) : Prop where
  phase : PhaseOk s.chip s.todo s.phase
  bytes : s.arrived = s.log.flatMap PortEvent.bytes ++ s.chip.waiting
  hits : exec (PortEvent.step stray) construct s.log = some s.settled

variable {stray}

theorem bytesInv_powerOn (chip : KeyChip) : BytesInv stray (powerOn chip) :=
  ⟨.statement, rfl, rfl⟩

/-- Steps that neither read a byte nor change what the calls amount to. -/
theorem BytesInv.quiet (h : BytesInv stray s) (hphase : PhaseOk s'.chip s'.todo s'.phase)
    (hlog : s'.log = s.log) (harrived : s'.arrived = s.arrived)
    (hwaiting : s'.chip.waiting = s.chip.waiting) (hsettled : s'.settled = s.settled) :
    BytesInv stray s' := by
  refine ⟨hphase, ?_, ?_⟩
  · rw [harrived, hlog, hwaiting]
    exact h.bytes
  · rw [hlog, hsettled]
    exact h.hits

/-- An access that ends with an event. -/
theorem BytesInv.logged (h : BytesInv stray s) (e : PortEvent)
    (hphase : PhaseOk s'.chip s'.todo s'.phase) (hlog : s'.log = s.log ++ [e])
    (harrived : s'.arrived = s.arrived)
    (hwaiting : e.bytes ++ s'.chip.waiting = s.chip.waiting)
    (hsettled : PortEvent.step stray s.settled e = some s'.settled) : BytesInv stray s' := by
  refine ⟨hphase, ?_, ?_⟩
  · rw [harrived, hlog, List.flatMap_append, List.append_assoc]
    simp only [List.flatMap_cons, List.flatMap_nil, List.append_nil]
    rw [hwaiting]
    exact h.bytes
  · rw [hlog]
    exact exec_append h.hits (exec_single hsettled)

/-! ## Steps -/

/-- The next access of the program. -/
theorem BytesInv.access (h : BytesInv stray s) {others : BitVec 8}
    (hstep : s.access stray others = some s') : BytesInv stray s' := by
  have hok := h.phase
  cases accessed_of_access hstep with
  | drainFull _ _ hout =>
      exact h.quiet (.drainByte ((s.chip.status_outb others).1 hout)) rfl rfl rfl rfl
  | drainEmpty hphase htodo _ =>
      refine h.quiet ?_ rfl rfl rfl ?_
      · rw [hphase]
        exact .statement
      · rw [settled, settled, htodo]
        rfl
  | run _ htodo =>
      refine h.quiet (.sendBytes _) rfl rfl rfl ?_
      rw [settled, settled, htodo]
      rfl
  | drainByte hphase =>
      rw [hphase] at hok
      cases hok with
      | drainByte hfull =>
          exact h.logged _ .statement rfl rfl (KeyChip.waiting_full hfull).symm rfl
  | hitEmpty _ hout =>
      refine h.logged _ .statement rfl rfl ?_ (PortEvent.step_hit (keyHit_empty _ _ 0 hout))
      rw [PortEvent.bytes, if_neg hout]
      rfl
  | hitMouse hphase hout haux =>
      rw [hphase] at hok
      cases hok with
      | keyHit htodo =>
          exact h.quiet (.dropByte htodo (s.chip.seen_status hout) haux) rfl rfl rfl rfl
  | hitKey hphase hout haux =>
      rw [hphase] at hok
      cases hok with
      | keyHit htodo =>
          exact h.quiet (.decode htodo (s.chip.seen_status hout) haux) rfl rfl rfl rfl
  | dropByte hphase =>
      rw [hphase] at hok
      cases hok with
      | dropByte htodo hseen haux =>
          refine h.logged _ .statement rfl rfl ?_
            (PortEvent.step_hit (keyHit_mouse _ _ _ hseen.filled haux))
          rw [hseen.bytes]
          exact List.append_nil _
  | decode hphase =>
      rw [hphase] at hok
      cases hok with
      | decode htodo hseen haux =>
          refine h.logged _ (.sendBytes _) rfl rfl ?_ ?_
          · rw [hseen.bytes]
            exact List.append_nil _
          · have hsettled : s.settled = s.controller := by
              rw [settled, htodo]
              rfl
            rw [hsettled]
            refine PortEvent.step_hit ((keyHit_key _ _ _ hseen.filled haux).trans ?_)
            rw [settled]
            simp only [perform, htodo, List.foldl_nil]
  | wait _ _ => exact h
  | ready _ hin =>
      have hnone := not_not.1 (mt (s.chip.status_inpb others).2 hin)
      exact h.quiet (.output hnone) rfl rfl rfl rfl
  | output _ => exact h.quiet (.sendBytes _) rfl rfl rfl rfl

theorem BytesInv.arrive (h : BytesInv stray s) {b : OutputByte} (hstep : s.arrive b = some s') :
    BytesInv stray s' := by
  obtain ⟨hfull, rfl⟩ := arrive_eq_some hstep
  have hempty : s.chip.waiting = [] := if_neg (Bool.eq_false_iff.1 hfull)
  have hbytes := h.bytes
  rw [hempty, List.append_nil] at hbytes
  refine ⟨h.phase.arrive hfull b, ?_, h.hits⟩
  show s.arrived ++ [b] = s.log.flatMap PortEvent.bytes ++ [b]
  rw [hbytes]

theorem BytesInv.step (h : BytesInv stray s) {label : KeyLabel}
    (hstep : s.step stray label = some s') : BytesInv stray s' := by
  cases label with
  | call =>
      obtain ⟨-, htodo, rfl⟩ := call_eq_some hstep
      exact h.quiet (.keyHit htodo) rfl rfl rfl rfl
  | access others => exact h.access hstep
  | take =>
      obtain ⟨byte, -, rfl⟩ := take_eq_some hstep
      exact h.quiet (h.phase.take _) rfl rfl rfl rfl
  | arrive b => exact h.arrive hstep

theorem bytesInv_of_reaches {chip : KeyChip} (h : Reaches (KeyRun.step stray) (powerOn chip) s) :
    BytesInv stray s := by
  apply Runs.invariant h
  · exact bytesInv_powerOn chip
  · intro a b label ha _ hstep
    exact ha.step hstep

/-- No method is in progress. -/
def Idle (s : KeyRun) : Prop := s.phase = .statement ∧ s.todo = []

/-- Whatever the buffers hold at first, every byte that arrives is read once and in order, and the
calls of `key_hit` return what they return when they are executed as a whole. -/
theorem key_hits {chip : KeyChip} (h : Reaches (KeyRun.step stray) (powerOn chip) s) :
    s.arrived = s.log.flatMap PortEvent.bytes ++ s.chip.waiting ∧
      (s.Idle → exec (PortEvent.step stray) construct s.log = some s.controller) := by
  have hinv := bytesInv_of_reaches h
  refine ⟨hinv.bytes, fun hidle => ?_⟩
  rw [hinv.hits, settled, hidle.2]
  rfl

/-- A byte of the mouse waits at first; after the constructor, CapsLock is pressed. -/
def capsLockLabels : List KeyLabel :=
  let command := [.access 0, .access 0, .access 0, .take, .access 0, .access 0, .take]
  [.access 0, .access 0, .access 0] ++ command ++ command ++ command ++ command ++
    [.access 0, .arrive ⟨false, 0x3a⟩, .call, .access 0] ++ command

def mouseChip : KeyChip := ⟨true, ⟨true, 0x08⟩, none, ⟨none, 7, 0x2b⟩⟩

theorem key_hits_capsLock : ∃ s : KeyRun, s.Idle ∧
    s.log = [.drained ⟨true, 0x08⟩, .hit 0x01 0x3a ⟨0, 0, 32⟩] ∧
      s.arrived = s.log.flatMap PortEvent.bytes ++ s.chip.waiting ∧
      exec (PortEvent.step fun _ _ => 0) construct s.log = some s.controller := by
  obtain ⟨s, hs, hphase, htodo, hlog⟩ : ∃ s,
      exec (KeyRun.step fun _ _ => 0) (powerOn mouseChip) capsLockLabels = some s ∧
        s.phase = .statement ∧ s.todo = [] ∧
          s.log = [.drained ⟨true, 0x08⟩, .hit 0x01 0x3a ⟨0, 0, 32⟩] := ⟨_, rfl, rfl, rfl, rfl⟩
  obtain ⟨hbytes, hhits⟩ := key_hits (reaches_of_exec hs)
  exact ⟨s, ⟨hphase, htodo⟩, hlog, hbytes, hhits ⟨hphase, htodo⟩⟩

end KeyRun

end MPStuBS.Machine
