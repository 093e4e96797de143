import Mathlib.Data.BitVec
import Mathlib.Data.Set.Lattice
import Mathlib.Logic.Function.Basic
import Mathlib.Order.CompletePartialOrder
import Mathlib.Tactic.Ring

/-!
# Instructions of the x86

A few instructions with 32-bit operands, over the general registers and a memory of
bytes. `exec` performs instructions one after the other; a call pushes the return
address and performs what the callee does until it has returned. Addresses wrap around
at `2 ^ 32`, and nothing faults.

`interrupt` is what the CPU does before the first instruction of an interrupt handler,
without a change of the privilege level. `Cdecl` is the part of the C calling convention
that a caller relies on.
-/

set_option autoImplicit false

namespace MPStuBS.Lib.X86

abbrev Word := BitVec 32

/-- The bytes of the memory. -/
abbrev Bytes := Word → BitVec 8

/-! ## Words in memory -/

/-- `n` addresses from `a` on. -/
def range (a : Word) (n : Nat) : Set Word := {x | (x - a).toNat < n}

/-- The word at `a`, the low byte first. -/
def read (mem : Bytes) (a : Word) : Word := mem (a + 3) ++ mem (a + 2) ++ mem (a + 1) ++ mem a

/-- The memory with a word written at `a`. -/
def write (mem : Bytes) (a v : Word) : Bytes := fun x =>
  if (x - a).toNat < 4 then v.extractLsb' (8 * (x - a).toNat) 8 else mem x

section Words

variable {mem mem' : Bytes} {a b v : Word} {x : Word}

theorem mem_range_add {k : Word} {n : Nat} (h : k.toNat < n) : a + k ∈ range a n := by
  show (a + k - a).toNat < n
  rwa [BitVec.add_comm, BitVec.add_sub_cancel]

theorem write_of_not_mem (h : x ∉ range a 4) : write mem a v x = mem x := if_neg h

theorem self_mem_range {n : Nat} (hn : 0 < n) : a ∈ range a n := by
  show (a - a).toNat < n
  rwa [BitVec.sub_self]

theorem read_congr (h : ∀ x ∈ range a 4, mem x = mem' x) : read mem a = read mem' a := by
  rw [read, read, h _ (mem_range_add (by decide)), h _ (mem_range_add (by decide)),
    h _ (mem_range_add (by decide)), h _ (self_mem_range (by decide))]

theorem write_add {k : Word} (h : k.toNat < 4) :
    write mem a v (a + k) = v.extractLsb' (8 * k.toNat) 8 := by
  have hsub : a + k - a = k := by rw [BitVec.add_comm, BitVec.add_sub_cancel]
  rw [write, hsub, if_pos h]

/-- The bytes of a word make it up. -/
theorem append_bytes (v : Word) :
    v.extractLsb' 24 8 ++ v.extractLsb' 16 8 ++ v.extractLsb' 8 8 ++ v.extractLsb' 0 8 = v := by
  apply BitVec.eq_of_getLsbD_eq
  intro i hi
  simp only [BitVec.getLsbD_append, BitVec.getLsbD_extractLsb']
  grind

@[simp] theorem read_write_self : read (write mem a v) a = v := by
  have hzero : write mem a v a = v.extractLsb' 0 8 := by
    rw [write, BitVec.sub_self]
    rfl
  rw [read, write_add (by decide), write_add (by decide), write_add (by decide), hzero]
  exact append_bytes v

/-- Words at these addresses do not overlap. -/
def Apart (a b : Word) : Prop := 4 ≤ (b - a).toNat ∧ 4 ≤ (a - b).toNat

instance (a b : Word) : Decidable (Apart a b) :=
  inferInstanceAs (Decidable (4 ≤ (b - a).toNat ∧ 4 ≤ (a - b).toNat))

theorem Apart.symm (h : Apart a b) : Apart b a := ⟨h.2, h.1⟩

/-- What lies apart stays apart when both are moved. -/
theorem apart_add_iff {k l : Word} : Apart (a + k) (a + l) ↔ Apart k l := by
  have hsub : ∀ k l : Word, a + k - (a + l) = k - l := by
    intro k l
    rw [add_sub_add_left_eq_sub]
  rw [Apart, hsub, hsub, Apart]

theorem disjoint_range {n n' : Nat} (h : n ≤ (b - a).toNat) (h' : n' ≤ (a - b).toNat) :
    Disjoint (range a n) (range b n') := by
  rw [Set.disjoint_left]
  intro x hx hxb
  have hx' : (x - a).toNat < n := hx
  have hxb' : (x - b).toNat < n' := hxb
  bv_omega

theorem Apart.not_mem (h : Apart a b) (hx : x ∈ range b 4) : x ∉ range a 4 :=
  Set.disjoint_right.1 (disjoint_range h.1 h.2) hx

theorem apart_of_disjoint (h : Disjoint (range a 4) (range b 4)) : Apart a b := by
  constructor
  · by_contra hlt
    exact Set.disjoint_left.1 h (not_le.1 hlt) (self_mem_range (by decide))
  · by_contra hlt
    exact Set.disjoint_left.1 h (self_mem_range (by decide)) (not_le.1 hlt)

theorem range_subset {n n' : Nat} (h : (b - a).toNat + n ≤ n') : range b n ⊆ range a n' := by
  intro x hx
  have hx' : (x - b).toNat < n := hx
  show (x - a).toNat < n'
  bv_omega

theorem range_add {k : Word} {n n' : Nat} (h : k.toNat + n ≤ n') :
    range (a + k) n ⊆ range a n' := by
  apply range_subset
  rwa [add_sub_cancel_left]

theorem read_write_apart (h : Apart a b) : read (write mem a v) b = read mem b :=
  read_congr fun _ hx => write_of_not_mem (h.not_mem hx)

/-- Words written one after the other, with their addresses. -/
def writes (mem : Bytes) (ws : List (Word × Word)) : Bytes :=
  ws.foldl (fun mem w => write mem w.1 w.2) mem

theorem writes_of_not_mem {ws : List (Word × Word)} (h : ∀ w ∈ ws, x ∉ range w.1 4) :
    writes mem ws x = mem x := by
  induction ws generalizing mem with
  | nil => rfl
  | cons w ws ih =>
      obtain ⟨hw, hws⟩ := List.forall_mem_cons.1 h
      exact (ih hws).trans (write_of_not_mem hw)

/-- None of the words overwrites another one. -/
theorem read_writes {ws : List (Word × Word)} (h : ws.Pairwise fun w w' => Apart w.1 w'.1)
    {w : Word × Word} (hw : w ∈ ws) : read (writes mem ws) w.1 = w.2 := by
  induction ws generalizing mem with
  | nil => cases hw
  | cons w' ws ih =>
      obtain ⟨hapart, hws⟩ := List.pairwise_cons.1 h
      rcases List.mem_cons.1 hw with rfl | hw
      · have hkept : read (writes (write mem w.1 w.2) ws) w.1 = read (write mem w.1 w.2) w.1 :=
          read_congr fun x hx => writes_of_not_mem fun w' hw' => (hapart w' hw').symm.not_mem hx
        exact hkept.trans read_write_self
      · exact ih hws hw

end Words

/-! ## The machine -/

inductive Reg where
  | eax
  | ecx
  | edx
  | ebx
  | esp
  | ebp
  | esi
  | edi
  deriving DecidableEq

/-- The registers of a CPU, with the memory. -/
@[ext]
structure Machine where
  reg : Reg → Word
  eip : Word
  cs : BitVec 16
  eflags : Word
  mem : Bytes

namespace Machine

/-- A register replaced. -/
def set (m : Machine) (r : Reg) (v : Word) : Machine := { m with reg := Function.update m.reg r v }

/-- The memory replaced. -/
def withMem (m : Machine) (mem : Bytes) : Machine := { m with mem := mem }

/-- The flags replaced. -/
def withFlags (m : Machine) (eflags : Word) : Machine := { m with eflags := eflags }

/-- The word on the stack, `off` bytes above its top. -/
def stack (m : Machine) (off : Word) : Word := read m.mem (m.reg .esp + off)

/-- `v` pushed on the stack. -/
def push (m : Machine) (v : Word) : Machine :=
  (m.withMem (write m.mem (m.reg .esp - 4) v)).set .esp (m.reg .esp - 4)

/-- The stack without the lowest `n` bytes. -/
def drop (m : Machine) (n : Word) : Machine := m.set .esp (m.reg .esp + n)

end Machine

/-- The status flags that an addition leaves: carry, parity, auxiliary carry, zero, sign and
overflow. -/
def addFlags (eflags a b : Word) : Word :=
  let r := a + b
  let parity := (List.range 8).foldl (fun p i => p ^^ r.getLsbD i) true
  eflags &&& ~~~(0x8d5 : Word) |||
    (BitVec.ofBool (BitVec.uaddOverflow a b)).setWidth 32 |||
    (BitVec.ofBool parity).setWidth 32 <<< 2 |||
    (BitVec.ofBool (decide (16 ≤ a.toNat % 16 + b.toNat % 16))).setWidth 32 <<< 4 |||
    (BitVec.ofBool (r == 0)).setWidth 32 <<< 6 |||
    (BitVec.ofBool r.msb).setWidth 32 <<< 7 |||
    (BitVec.ofBool (BitVec.saddOverflow a b)).setWidth 32 <<< 11

/-- The instructions. `load` and `store` are the two directions of `mov` with a base register and a
displacement; a call names the return address. -/
inductive Instr where
  | load (dst base : Reg) (off : Word)
  | store (base : Reg) (off : Word) (src : Reg)
  | push (src : Reg)
  | pushImm (v : Word)
  | pop (dst : Reg)
  | addImm (dst : Reg) (v : Word)
  | call (target back : Word)
  | ret
  | iret

/-- What an instruction does, where `callee` is all that a called function does. -/
def Instr.exec (callee : Machine → Machine) (m : Machine) : Instr → Machine
  | .load dst base off => m.set dst (read m.mem (m.reg base + off))
  | .store base off src => m.withMem (write m.mem (m.reg base + off) (m.reg src))
  | .push src => m.push (m.reg src)
  | .pushImm v => m.push v
  | .pop dst => (m.drop 4).set dst (m.stack 0)
  | .addImm dst v => (m.set dst (m.reg dst + v)).withFlags (addFlags m.eflags (m.reg dst) v)
  | .call target back => callee { m.push back with eip := target }
  | .ret => { m.drop 4 with eip := m.stack 0 }
  | .iret =>
      { m.drop 12 with
        eip := m.stack 0
        cs := (m.stack 4).setWidth 16
        eflags := m.stack 8 }

/-- Instructions one after the other. -/
def exec (callee : Machine → Machine) (code : List Instr) (m : Machine) : Machine :=
  code.foldl (Instr.exec callee) m

/-- The CPU enters the handler of an interrupt through a gate with this code segment: the flags, the
code segment and the return address are pushed, then the error code if there is one, and
interrupts are switched off. -/
def interrupt (errorCode : Option Word) (segment : BitVec 16) (entry : Word) (m : Machine) :
    Machine :=
  let m' := ((m.push m.eflags).push (m.cs.setWidth 32)).push m.eip
  let m' := match errorCode with
    | none => m'
    | some c => m'.push c
  -- an interrupt gate clears IF, and as always TF, NT, RF and VM
  { m' with eip := entry, cs := segment, eflags := m.eflags &&& ~~~(0x34300 : Word) }

/-- The registers that a function has to keep, apart from the stack pointer. -/
def calleeSaved : List Reg := [.ebx, .esi, .edi, .ebp]

/-- A function that was entered in `m` has returned in `m'`: to its caller, with the stack pointer
above the return address and the saved registers as they were. Of the caller's memory it has left
alone the `frame` bytes behind its `args` bytes of arguments, which belong to itself. -/
structure Cdecl (args frame : Nat) (m m' : Machine) : Prop where
  eip : m'.eip = m.stack 0
  cs : m'.cs = m.cs
  esp : m'.reg .esp = m.reg .esp + 4
  saved : ∀ r ∈ calleeSaved, m'.reg r = m.reg r
  frame : ∀ x ∈ range (m.reg .esp + 4 + BitVec.ofNat 32 args) frame, m'.mem x = m.mem x

/-! ## Rules -/

section Rules

variable {m m' : Machine} {callee : Machine → Machine} {r r' : Reg} {v k n : Word}

@[simp] theorem exec_nil (m : Machine) : exec callee [] m = m := rfl

@[simp] theorem exec_cons (i : Instr) (code : List Instr) (m : Machine) :
    exec callee (i :: code) m = exec callee code (i.exec callee m) := rfl

namespace Machine

theorem set_reg_self : (m.set r v).reg r = v := Function.update_self _ _ _

theorem set_reg_of_ne (h : r' ≠ r) : (m.set r v).reg r' = m.reg r' := Function.update_of_ne h _ _

@[simp] theorem withFlags_reg : (m.withFlags v).reg = m.reg := rfl

@[simp] theorem withFlags_stack : (m.withFlags v).stack k = m.stack k := rfl

theorem set_stack (h : Reg.esp ≠ r) : (m.set r v).stack k = m.stack k := by
  rw [stack, set_reg_of_ne h]
  rfl

theorem drop_esp : (m.drop n).reg .esp = m.reg .esp + n := set_reg_self

theorem drop_reg (h : r ≠ .esp) : (m.drop n).reg r = m.reg r := set_reg_of_ne h

theorem drop_stack : (m.drop n).stack k = m.stack (n + k) := by
  rw [stack, drop_esp, add_assoc]
  rfl

theorem push_esp : (m.push v).reg .esp = m.reg .esp - 4 := set_reg_self

theorem push_reg (h : r ≠ .esp) : (m.push v).reg r = m.reg r := set_reg_of_ne h

@[simp] theorem push_mem : (m.push v).mem = write m.mem (m.reg .esp - 4) v := rfl

theorem push_stack_top (h : k = 0) : (m.push v).stack k = v := by
  rw [stack, push_esp, h, add_zero]
  exact read_write_self

/-- What was on the stack is four bytes further up. -/
theorem push_stack (h : Apart 0 k) : (m.push v).stack k = m.stack (k - 4) := by
  have happart : Apart (m.reg .esp - 4) (m.reg .esp - 4 + k) := by
    rw [← apart_add_iff, add_zero] at h
    exact h
  rw [stack, push_esp, push_mem, read_write_apart happart, stack]
  congr 1
  ring

end Machine

section Interrupt

variable {errorCode : Option Word} {segment : BitVec 16} {entry : Word}

theorem interrupt_esp : (interrupt errorCode segment entry m).reg .esp =
    m.reg .esp - 12 - if errorCode.isSome then 4 else 0 := by
  cases errorCode with
  | none =>
      show m.reg .esp - 4 - 4 - 4 = m.reg .esp - 12 - 0
      ring
  | some c =>
      show m.reg .esp - 4 - 4 - 4 - 4 = m.reg .esp - 12 - 4
      ring

theorem interrupt_reg (h : r ≠ .esp) :
    (interrupt errorCode segment entry m).reg r = m.reg r := by
  cases errorCode with
  | none =>
      show (((m.push m.eflags).push (m.cs.setWidth 32)).push m.eip).reg r = m.reg r
      simp only [Machine.push_reg h]
  | some c =>
      show ((((m.push m.eflags).push (m.cs.setWidth 32)).push m.eip).push c).reg r = m.reg r
      simp only [Machine.push_reg h]

/-- Without an error code the return address is on top. -/
theorem interrupt_stack : let m' := interrupt none segment entry m
    m'.stack 0 = m.eip ∧ m'.stack 4 = m.cs.setWidth 32 ∧ m'.stack 8 = m.eflags := by
  have hstack : ∀ k, (interrupt none segment entry m).stack k =
      (((m.push m.eflags).push (m.cs.setWidth 32)).push m.eip).stack k := fun _ => rfl
  simp (disch := decide) [hstack, Machine.push_stack, Machine.push_stack_top]

end Interrupt

/-- The caller finds its frame on the stack as it was before the call. -/
theorem Cdecl.stack {args frame : Nat} (h : Cdecl args frame m m') (hargs : args ≤ k.toNat)
    (hframe : k.toNat + 4 ≤ args + frame) : m'.stack k = m.stack (4 + k) := by
  have hmem : read m'.mem (m'.reg .esp + k) = read m.mem (m'.reg .esp + k) := by
    apply read_congr
    intro x hx
    apply h.frame
    rw [h.esp] at hx
    have hx' : (x - (m.reg .esp + 4 + k)).toNat < 4 := hx
    show (x - (m.reg .esp + 4 + BitVec.ofNat 32 args)).toNat < frame
    bv_omega
  rw [Machine.stack, hmem, h.esp, add_assoc]
  rfl

/-- A function that only returns obeys the convention. -/
theorem cdecl_ret (args frame : Nat) (m : Machine) : Cdecl args frame m (exec id [.ret] m) where
  eip := rfl
  cs := rfl
  esp := rfl
  saved := by
    intro r hr
    apply Machine.drop_reg
    rintro rfl
    exact absurd hr (by decide)
  frame := fun _ _ => rfl

end Rules

end MPStuBS.Lib.X86
