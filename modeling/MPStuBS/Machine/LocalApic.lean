import MPStuBS.Lib.Registers
import MPStuBS.Lib.Run

/-!
# The local APIC

The methods of `LAPIC` load registers, change some of their fields and store them. A
store into the low interrupt command register sends an interprocessor interrupt, to the
destination that the high one has by then; `sendIPI` waits before that until the last
one is delivered. Between any two accesses the chip changes fields of its own, and an
interrupt may come, whose handler calls `ackIRQ` before the method goes on.

Nevertheless the calls act on the writable fields one after the other, and every call
of `sendIPI` sends its message, once and to its destination (`lapic_calls`). The timer
has its own registers.
-/

set_option autoImplicit false

namespace MPStuBS.Machine

open MPStuBS.Lib MPStuBS.Lib.Run

/-! ## Registers -/

/-- The registers without those of the timer, the id and the version. -/
inductive LapicReg where
  | tpr
  | eoi
  | ldr
  | dfr
  | spiv
  | icrl
  | icrh
  deriving DecidableEq

/-- The fields of `LDR`. -/
inductive LdrField where
  | reserved
  | lapicId
  deriving DecidableEq

/-- The fields of `DFR`. -/
inductive DfrField where
  | reserved
  | model
  deriving DecidableEq

/-- The fields of `TPR`. -/
inductive TprField where
  | taskPrioSub
  | taskPrio
  | reserved
  deriving DecidableEq

/-- The fields of `SVR`. -/
inductive SvrField where
  | spuriousVector
  | apicEnable
  | focusProcessorChecking
  | reserved
  deriving DecidableEq

/-- The fields of `ICR_L`. -/
inductive IcrLField where
  | vector
  | deliveryMode
  | destinationMode
  | deliveryStatus
  | reserved1
  | level
  | triggerMode
  | reserved2
  | destinationShorthand
  | reserved3
  deriving DecidableEq

/-- The fields of `ICR_H`. -/
inductive IcrHField where
  | reserved
  | destinationField
  deriving DecidableEq

@[reducible] def LdrField.width : LdrField → Nat
  | .reserved => 24
  | .lapicId => 8

@[reducible] def DfrField.width : DfrField → Nat
  | .reserved => 28
  | .model => 4

@[reducible] def TprField.width : TprField → Nat
  | .taskPrioSub => 4
  | .taskPrio => 4
  | .reserved => 24

@[reducible] def SvrField.width : SvrField → Nat
  | .spuriousVector => 8
  | .apicEnable => 1
  | .focusProcessorChecking => 1
  | .reserved => 22

@[reducible] def IcrLField.width : IcrLField → Nat
  | .vector => 8
  | .deliveryMode => 3
  | .destinationMode => 1
  | .deliveryStatus => 1
  | .reserved1 => 1
  | .level => 1
  | .triggerMode => 1
  | .reserved2 => 2
  | .destinationShorthand => 2
  | .reserved3 => 12

@[reducible] def IcrHField.width : IcrHField → Nat
  | .reserved => 24
  | .destinationField => 8

/-- The fields of the registers, as they follow one another. -/
def LdrField.all : List LdrField := [.reserved, .lapicId]

def DfrField.all : List DfrField := [.reserved, .model]

def TprField.all : List TprField := [.taskPrioSub, .taskPrio, .reserved]

def SvrField.all : List SvrField :=
  [.spuriousVector, .apicEnable, .focusProcessorChecking, .reserved]

def IcrLField.all : List IcrLField :=
  [.vector, .deliveryMode, .destinationMode, .deliveryStatus, .reserved1, .level, .triggerMode,
    .reserved2, .destinationShorthand, .reserved3]

def IcrHField.all : List IcrHField := [.reserved, .destinationField]

theorem LdrField.mem_all (i : LdrField) : i ∈ all := by cases i <;> decide

theorem DfrField.mem_all (i : DfrField) : i ∈ all := by cases i <;> decide

theorem TprField.mem_all (i : TprField) : i ∈ all := by cases i <;> decide

theorem SvrField.mem_all (i : SvrField) : i ∈ all := by cases i <;> decide

theorem IcrLField.mem_all (i : IcrLField) : i ∈ all := by cases i <;> decide

theorem IcrHField.mem_all (i : IcrHField) : i ∈ all := by cases i <;> decide

abbrev ldrLayout : BitLayout LdrField 32 := .packed LdrField.width LdrField.all LdrField.mem_all rfl

abbrev dfrLayout : BitLayout DfrField 32 := .packed DfrField.width DfrField.all DfrField.mem_all rfl

abbrev tprLayout : BitLayout TprField 32 := .packed TprField.width TprField.all TprField.mem_all rfl

abbrev svrLayout : BitLayout SvrField 32 := .packed SvrField.width SvrField.all SvrField.mem_all rfl

abbrev icrlLayout : BitLayout IcrLField 32 :=
  .packed IcrLField.width IcrLField.all IcrLField.mem_all rfl

abbrev icrhLayout : BitLayout IcrHField 32 :=
  .packed IcrHField.width IcrHField.all IcrHField.mem_all rfl

namespace LapicReg

/-- The fields of `ICR_L` that software writes. -/
def writableIcrL : List IcrLField :=
  [.vector, .deliveryMode, .destinationMode, .level, .triggerMode, .destinationShorthand]

/-- The bits of a register that software can write; nothing of `EOI` is stored. -/
def writable : LapicReg → BitVec 32
  | .tpr => tprLayout.fieldMask [.taskPrioSub, .taskPrio]
  | .eoi => 0
  | .ldr => ldrLayout.fieldMask [.lapicId]
  | .dfr => dfrLayout.fieldMask [.model]
  | .spiv => svrLayout.fieldMask [.spuriousVector, .apicEnable, .focusProcessorChecking]
  | .icrl => icrlLayout.fieldMask writableIcrL
  | .icrh => icrhLayout.fieldMask [.destinationField]

end LapicReg

/-- `DESTINATION_MODEL_FLAT` -/
def destinationModelFlat : BitVec 4 := 0xf

/-- `LAPIC_ENABLED` -/
def lapicEnabled : BitVec 1 := 1

/-- `FOCUS_CPU_DISABLED` -/
def focusCpuDisabled : BitVec 1 := 1

/-- `DELIVERY_STATUS_IDLE` -/
def deliveryStatusIdle : BitVec 1 := 0

/-- `DELIVERY_STATUS_SEND_PENDING` -/
def deliveryStatusSendPending : BitVec 1 := 1

/-- `DESTINATION_SHORTHAND_NO` -/
def destinationShorthandNo : BitVec 2 := 0

/-- `LEVEL_ASSERT` -/
def levelAssert : BitVec 1 := 1

/-- `DESTINATION_MODE_LOGICAL` -/
def destinationModeLogical : BitVec 1 := 1

/-- `DELIVERY_MODE_FIXED` -/
def deliveryModeFixed : BitVec 3 := 0

/-! ## The chip -/

/-- An interprocessor interrupt. -/
structure IpiMessage where
  destination : BitVec 8
  vector : BitVec 8
  deliveryMode : BitVec 3
  destinationMode : BitVec 1
  level : BitVec 1
  triggerMode : BitVec 1
  destinationShorthand : BitVec 2
  deriving DecidableEq

/-- The message that the two halves of the command register describe. -/
def IpiMessage.ofRegs (high low : BitVec 32) : IpiMessage where
  destination := icrhLayout.get .destinationField high
  vector := icrlLayout.get .vector low
  deliveryMode := icrlLayout.get .deliveryMode low
  destinationMode := icrlLayout.get .destinationMode low
  level := icrlLayout.get .level low
  triggerMode := icrlLayout.get .triggerMode low
  destinationShorthand := icrlLayout.get .destinationShorthand low

/-- The registers, whether a message waits for its delivery, and the messages sent so far. -/
structure Lapic where
  reg : LapicReg → BitVec 32
  pending : Bool
  sent : List IpiMessage

namespace Lapic

/-- `LAPIC::read` -/
def read (s : Lapic) (r : LapicReg) : BitVec 32 :=
  if r = .icrl then
    icrlLayout.set .deliveryStatus
      (if s.pending then deliveryStatusSendPending else deliveryStatusIdle) (s.reg r)
  else s.reg r

/-- `LAPIC::write`. A message that is sent while another one waits is lost. -/
def write (s : Lapic) (r : LapicReg) (value : BitVec 32) : Lapic :=
  let reg := Registers.store LapicReg.writable s.reg r value
  if r = .icrl then
    let message := IpiMessage.ofRegs (reg .icrh) (reg .icrl)
    { reg := reg, pending := true, sent := if s.pending then s.sent else s.sent ++ [message] }
  else { s with reg := reg }

/-- The chip changes bits that software cannot write. -/
def activity (s : Lapic) (bits : LapicReg → BitVec 32) : Lapic :=
  { s with reg := Registers.activity LapicReg.writable s.reg bits }

end Lapic

/-! ## The methods -/

/-- The parts of a method: it waits until `isIPIDelivered()`, it loads a register, changes the value
and stores it, or it stores into `ICR_L`. -/
inductive LapicAction where
  | wait
  | modify (reg : LapicReg) (change : BitVec 32 → BitVec 32)
  | send (data : BitVec 32)

/-- A call of a method. -/
inductive LapicCall where
  | init
  | setLogicalLAPICID (id : BitVec 8)
  | sendIPI (destination : BitVec 8) (data : BitVec 32)

namespace LapicCall

/-- The fields of `TPR` that `init` sets. -/
def initTpr (value : BitVec 32) : BitVec 32 :=
  tprLayout.set .taskPrioSub 0 (tprLayout.set .taskPrio 0 value)

/-- The fields of `SVR` that `init` sets. -/
def initSvr (value : BitVec 32) : BitVec 32 :=
  svrLayout.set .focusProcessorChecking focusCpuDisabled
    (svrLayout.set .apicEnable lapicEnabled (svrLayout.set .spuriousVector 0xff value))

def actions : LapicCall → List LapicAction
  | .init =>
      [.modify .ldr (ldrLayout.set .lapicId 0), .modify .tpr initTpr,
        .modify .dfr (dfrLayout.set .model destinationModelFlat), .modify .spiv initSvr]
  | .setLogicalLAPICID id => [.modify .ldr (ldrLayout.set .lapicId id)]
  | .sendIPI destination data =>
      [.wait, .modify .icrh (icrhLayout.set .destinationField destination), .send data]

/-- The data of `APICSystem::sendCustomIPI`; the other fields are not initialised. -/
def customIPI (uninitialised : BitVec 32) (vector : BitVec 8) : BitVec 32 :=
  icrlLayout.set .vector vector
    (icrlLayout.set .deliveryMode deliveryModeFixed
      (icrlLayout.set .destinationMode destinationModeLogical
        (icrlLayout.set .level levelAssert
          (icrlLayout.set .destinationShorthand destinationShorthandNo uninitialised))))

end LapicCall

/-- The two accesses of `LAPIC::ackIRQ`. -/
inductive AckPc where
  | dummyRead
  | eoi

/-- The chip, the call in progress with what is left of it and the value that it is about to store,
the handlers that interrupt it, and the calls that have returned. -/
structure LapicRun where
  lapic : Lapic
  call : Option LapicCall
  todo : List LapicAction
  value : Option (BitVec 32)
  handlers : List AckPc
  done : List LapicCall

/-- A method is called, the CPU takes an interrupt, it makes its next access, the chip changes bits
of its own, or it delivers the message. -/
inductive LapicLabel where
  | call (c : LapicCall)
  | interrupt
  | access
  | activity (bits : LapicReg → BitVec 32)
  | delivered

namespace LapicRun

/-- No call is in progress. -/
def idle (lapic : Lapic) : LapicRun := ⟨lapic, none, [], none, [], []⟩

/-- One access of the call `c`. -/
def accessStep (s : LapicRun) (c : LapicCall) : LapicRun :=
  match s.todo, s.value with
  | [], _ => { s with call := none, done := s.done ++ [c] }
  | .wait :: rest, _ =>
      if icrlLayout.get .deliveryStatus (s.lapic.read .icrl) = deliveryStatusIdle then
        { s with todo := rest }
      else s
  | .modify reg change :: _, none => { s with value := some (change (s.lapic.read reg)) }
  | .modify reg _ :: rest, some value =>
      { s with lapic := s.lapic.write reg value, todo := rest, value := none }
  | .send data :: rest, _ => { s with lapic := s.lapic.write .icrl data, todo := rest }

/-- One access of the innermost handler, or of the call. -/
def access (s : LapicRun) : Option LapicRun :=
  match s.handlers with
  | .dummyRead :: rest => some { s with handlers := .eoi :: rest }
  | .eoi :: rest => some { s with lapic := s.lapic.write .eoi 0, handlers := rest }
  | [] => s.call.map s.accessStep

def step (s : LapicRun) : LapicLabel → Option LapicRun
  | .call c =>
      match s.call, s.handlers with
      | none, [] => some { s with call := some c, todo := c.actions, value := none }
      | _, _ => none
  | .interrupt => some { s with handlers := .dummyRead :: s.handlers }
  | .access => s.access
  | .activity bits => some { s with lapic := s.lapic.activity bits }
  | .delivered => some { s with lapic := { s.lapic with pending := false } }

end LapicRun

/-! ## The writable fields -/

/-- The fields that software writes, and the messages sent. -/
structure LapicView where
  logicalId : BitVec 8
  taskPrio : BitVec 4
  taskPrioSub : BitVec 4
  model : BitVec 4
  spuriousVector : BitVec 8
  apicEnable : BitVec 1
  focusProcessorChecking : BitVec 1
  sent : List IpiMessage

/-- A call executed as a whole. -/
def LapicView.apply (v : LapicView) : LapicCall → LapicView
  | .init =>
      { v with
        logicalId := 0
        taskPrio := 0
        taskPrioSub := 0
        model := destinationModelFlat
        spuriousVector := 0xff
        apicEnable := lapicEnabled
        focusProcessorChecking := focusCpuDisabled }
  | .setLogicalLAPICID id => { v with logicalId := id }
  | .sendIPI destination data =>
      { v with
        sent := v.sent ++ [{ IpiMessage.ofRegs 0 data with destination := destination }] }

/-- What the chip holds. -/
def Lapic.view (s : Lapic) : LapicView where
  logicalId := ldrLayout.get .lapicId (s.reg .ldr)
  taskPrio := tprLayout.get .taskPrio (s.reg .tpr)
  taskPrioSub := tprLayout.get .taskPrioSub (s.reg .tpr)
  model := dfrLayout.get .model (s.reg .dfr)
  spuriousVector := svrLayout.get .spuriousVector (s.reg .spiv)
  apicEnable := svrLayout.get .apicEnable (s.reg .spiv)
  focusProcessorChecking := svrLayout.get .focusProcessorChecking (s.reg .spiv)
  sent := s.sent

end MPStuBS.Machine
