import MPStuBS.Lib.Run
import Mathlib.Logic.Function.Basic

/-!
# The boot hand-shake

`APICSystem::bootCPU` and `APICSystem::setupThisProcessor`. The main function
boots the processors 1, 2, .. one after the other. For each the boot CPU resets
`callout_cpu_number`, sends the IPIs that start the processor, stores its number
and polls until the processor has called in, 500 times at most. A started
processor spins while `callout_cpu_number` is negative, takes its number from
the variable, sets itself up and calls in by storing -1.

A step is one access to the shared variables, and the parties take their steps
in any order. `char` is a signed byte. The arrays are total functions, and what
the processors keep on their stacks is not modelled. A processor that does not
take its steps in time also acts in the round of a later one: the ids are unique
in the runs whose steps are `inTime`.
-/

set_option autoImplicit false

namespace MPStuBS.Machine

open MPStuBS.Lib.Run

/-- The value -1 of `callout_cpu_number`. -/
def noCallout : BitVec 8 := -1#8

/-- The machine: the processors that the configuration lists, with the LAPIC ids that the hardware
keeps apart. Processor 0 is the boot CPU. -/
structure Platform where
  cpuCount : Nat
  lapicId : Nat → Nat
  lapicId_inj : ∀ i < cpuCount, ∀ j < cpuCount, lapicId i = lapicId j → i = j
  startEip : BitVec 32
  externalAPIC : Bool

/-- `start_eip` is no page of the low memory that a STARTUP IPI can name. -/
def Platform.weirdStartEip (P : Platform) : Bool :=
  let vector := (P.startEip >>> 12) &&& 0xff#32
  P.startEip &&& ~~~0x000ff000#32 != 0#32 || (0xa0#32 ≤ vector && vector ≤ 0xbf#32)

/-- The places of the boot CPU: the loop of the main function, and `bootCPU`. -/
inductive BootPc where
  | call (i : Nat)
  | reset (cpuId : Nat)
  | sendInit (cpuId : Nat)
  | sendStartup (cpuId j : Nat)
  | delivery (cpuId j timeout : Nat)
  | callout (cpuId : Nat)
  | callin (cpuId timeout : Nat)
  | returned (cpuId : Nat) (result : Bool)
  deriving DecidableEq

/-- The places of an application processor in `setupThisProcessor`, with its local variable
`cpu_id`. -/
inductive ApPc where
  | halted
  | spin
  | take
  | setLogical (cpuId : BitVec 8)
  | storeLogical (cpuId : BitVec 8)
  | storeID (cpuId : BitVec 8)
  | signal (cpuId : BitVec 8)
  | up (cpuId : BitVec 8)
  deriving DecidableEq

/-- The id that a processor has taken. -/
def ApPc.taken? : ApPc → Option (BitVec 8)
  | .halted => none
  | .spin => none
  | .take => none
  | .setLogical cpuId => some cpuId
  | .storeLogical cpuId => some cpuId
  | .storeID cpuId => some cpuId
  | .signal cpuId => some cpuId
  | .up cpuId => some cpuId

/-- The shared variables, the places of the parties, and what the processors have of their own: the
start-up signal, the stack pointer and the logical destination register. -/
structure BootState where
  calloutCpuNumber : BitVec 8
  apStack : Nat
  onlineCPUs : Nat
  cpuID : Nat → BitVec 8
  logicalLAPICID : Nat → BitVec 8
  boot : BootPc
  ap : Nat → ApPc
  started : Nat → Bool
  esp : Nat → Nat
  logicalDestination : Nat → BitVec 8

/-- The offset of `&cpu_stack[i * CPU_STACK_SIZE]`. -/
def topOfStack (i : Nat) : Nat := i * 4096

namespace BootState

/-- The boot CPU has set itself up and enters the loop; the arrays hold anything. -/
def init (cpuID logicalLAPICID : Nat → BitVec 8) : BootState where
  calloutCpuNumber := noCallout
  apStack := 0
  onlineCPUs := 1
  cpuID := cpuID
  logicalLAPICID := logicalLAPICID
  boot := .call 1
  ap _ := .halted
  started _ := false
  esp _ := 0
  logicalDestination _ := 0

/-- The place of a processor replaced. -/
def setAp (m : BootState) (j : Nat) (pc : ApPc) : BootState :=
  { m with ap := Function.update m.ap j pc }

/-- The boot CPU goes on. -/
def goto (m : BootState) (pc : BootPc) : BootState := { m with boot := pc }

/-- An IPI that lets processor `k` run the start-up code. -/
def startUp (m : BootState) (k : Nat) : BootState :=
  { m with started := Function.update m.started k true }

/-- One step of the boot CPU; `delivered` is what it reads from the delivery status. -/
def bootStep (P : Platform) (m : BootState) (delivered : Bool) : Option BootState :=
  match m.boot with
  | .call i =>
      if i < P.cpuCount then
        if P.weirdStartEip then
          some ({ m with apStack := topOfStack i }.goto (.returned i false))
        else
          some ({ m with apStack := topOfStack i }.goto (.reset i))
      else
        none
  | .reset k => some ({ m with calloutCpuNumber := noCallout }.goto (.sendInit k))
  | .sendInit k =>
      -- an external APIC gets no STARTUP IPI, and `IPIDelivered` stays false
      if P.externalAPIC then some ((m.startUp k).goto (.returned k false))
      else some (m.goto (.sendStartup k 0))
  | .sendStartup k j => some ((m.startUp k).goto (.delivery k j 0))
  | .delivery k j timeout =>
      if delivered then some (m.goto (.callout k))
      else if timeout + 1 < 10 then some (m.goto (.delivery k j (timeout + 1)))
      else if j + 1 < 2 then some (m.goto (.sendStartup k (j + 1)))
      else some (m.goto (.returned k false))
  | .callout k =>
      some ({ m with calloutCpuNumber := BitVec.ofNat 8 k }.goto (.callin k 0))
  | .callin k timeout =>
      if timeout < 500 then
        if m.calloutCpuNumber = noCallout then
          some ({ m with onlineCPUs := m.onlineCPUs + 1 }.goto (.returned k true))
        else
          some (m.goto (.callin k (timeout + 1)))
      else
        some (m.goto (.returned k false))
  | .returned k _ => some (m.goto (.call (k + 1)))

/-- One step of processor `j`: it loads its stack pointer and runs `setupThisProcessor`. -/
def apStep (P : Platform) (m : BootState) (j : Nat) : Option BootState :=
  match m.ap j with
  | .halted =>
      if m.started j then
        some ({ m with esp := Function.update m.esp j m.apStack }.setAp j .spin)
      else
        none
  | .spin => if m.calloutCpuNumber.toInt < 0 then some m else some (m.setAp j .take)
  | .take => some (m.setAp j (.setLogical m.calloutCpuNumber))
  | .setLogical cpuId =>
      some ({ m with
        logicalDestination :=
          Function.update m.logicalDestination j (BitVec.ofNat 8 (1 <<< cpuId.toNat))
        }.setAp j (.storeLogical cpuId))
  | .storeLogical cpuId =>
      some ({ m with
        logicalLAPICID :=
          Function.update m.logicalLAPICID cpuId.toNat (BitVec.ofNat 8 (1 <<< cpuId.toNat))
        }.setAp j (.storeID cpuId))
  | .storeID cpuId =>
      some ({ m with cpuID := Function.update m.cpuID (P.lapicId j) cpuId }.setAp j (.signal cpuId))
  | .signal cpuId => some ({ m with calloutCpuNumber := noCallout }.setAp j (.up cpuId))
  | .up _ => none

end BootState

/-- Who takes the next step. -/
inductive BootLabel where
  | boot (delivered : Bool)
  | ap (j : Nat)

namespace BootState

/-- One step of one of the parties. -/
def step (P : Platform) (m : BootState) : BootLabel → Option BootState
  | .boot delivered => m.bootStep P delivered
  | .ap j => m.apStep P j

/-- The steps of the boot CPU, one by one. -/
inductive BootMove (P : Platform) (m : BootState) (delivered : Bool) : BootState → Prop
  | weird {i : Nat} (hpc : m.boot = .call i) (hcount : i < P.cpuCount)
      (hweird : P.weirdStartEip = true) :
      BootMove P m delivered ({ m with apStack := topOfStack i }.goto (.returned i false))
  | enter {i : Nat} (hpc : m.boot = .call i) (hcount : i < P.cpuCount)
      (hweird : P.weirdStartEip = false) :
      BootMove P m delivered ({ m with apStack := topOfStack i }.goto (.reset i))
  | reset {k : Nat} (hpc : m.boot = .reset k) :
      BootMove P m delivered ({ m with calloutCpuNumber := noCallout }.goto (.sendInit k))
  | external {k : Nat} (hpc : m.boot = .sendInit k) :
      BootMove P m delivered ((m.startUp k).goto (.returned k false))
  | sendInit {k : Nat} (hpc : m.boot = .sendInit k) :
      BootMove P m delivered (m.goto (.sendStartup k 0))
  | sendStartup {k j : Nat} (hpc : m.boot = .sendStartup k j) :
      BootMove P m delivered ((m.startUp k).goto (.delivery k j 0))
  | delivered {k j timeout : Nat} (hpc : m.boot = .delivery k j timeout) :
      BootMove P m delivered (m.goto (.callout k))
  | pollDelivery {k j timeout : Nat} (hpc : m.boot = .delivery k j timeout) :
      BootMove P m delivered (m.goto (.delivery k j (timeout + 1)))
  | again {k j timeout : Nat} (hpc : m.boot = .delivery k j timeout) :
      BootMove P m delivered (m.goto (.sendStartup k (j + 1)))
  | undelivered {k j timeout : Nat} (hpc : m.boot = .delivery k j timeout) :
      BootMove P m delivered (m.goto (.returned k false))
  | callout {k : Nat} (hpc : m.boot = .callout k) :
      BootMove P m delivered ({ m with calloutCpuNumber := BitVec.ofNat 8 k }.goto (.callin k 0))
  | answered {k timeout : Nat} (hpc : m.boot = .callin k timeout)
      (hno : m.calloutCpuNumber = noCallout) :
      BootMove P m delivered
        ({ m with onlineCPUs := m.onlineCPUs + 1 }.goto (.returned k true))
  | pollCallin {k timeout : Nat} (hpc : m.boot = .callin k timeout)
      (hno : m.calloutCpuNumber ≠ noCallout) :
      BootMove P m delivered (m.goto (.callin k (timeout + 1)))
  | unanswered {k timeout : Nat} (hpc : m.boot = .callin k timeout) :
      BootMove P m delivered (m.goto (.returned k false))
  | returned {k : Nat} {result : Bool} (hpc : m.boot = .returned k result) :
      BootMove P m delivered (m.goto (.call (k + 1)))

theorem bootStep_move {P : Platform} {m m' : BootState} {delivered : Bool}
    (h : m.bootStep P delivered = some m') : BootMove P m delivered m' := by
  unfold bootStep at h
  split at h
  case h_1 i hpc =>
      split at h
      case isTrue hcount =>
          split at h
          case isTrue hweird =>
              obtain rfl := Option.some.inj h
              exact .weird hpc hcount hweird
          case isFalse hweird =>
              obtain rfl := Option.some.inj h
              exact .enter hpc hcount (by simpa using hweird)
      case isFalse => cases h
  case h_2 k hpc =>
      obtain rfl := Option.some.inj h
      exact .reset hpc
  case h_3 k hpc =>
      split at h
      case isTrue =>
          obtain rfl := Option.some.inj h
          exact .external hpc
      case isFalse =>
          obtain rfl := Option.some.inj h
          exact .sendInit hpc
  case h_4 k j hpc =>
      obtain rfl := Option.some.inj h
      exact .sendStartup hpc
  case h_5 k j timeout hpc =>
      split at h
      case isTrue =>
          obtain rfl := Option.some.inj h
          exact .delivered hpc
      case isFalse =>
          split at h
          case isTrue =>
              obtain rfl := Option.some.inj h
              exact .pollDelivery hpc
          case isFalse =>
              split at h
              case isTrue =>
                  obtain rfl := Option.some.inj h
                  exact .again hpc
              case isFalse =>
                  obtain rfl := Option.some.inj h
                  exact .undelivered hpc
  case h_6 k hpc =>
      obtain rfl := Option.some.inj h
      exact .callout hpc
  case h_7 k timeout hpc =>
      split at h
      case isTrue =>
          split at h
          case isTrue hno =>
              obtain rfl := Option.some.inj h
              exact .answered hpc hno
          case isFalse hno =>
              obtain rfl := Option.some.inj h
              exact .pollCallin hpc hno
      case isFalse =>
          obtain rfl := Option.some.inj h
          exact .unanswered hpc
  case h_8 k result hpc =>
      obtain rfl := Option.some.inj h
      exact .returned hpc

end BootState

end MPStuBS.Machine
