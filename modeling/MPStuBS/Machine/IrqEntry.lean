import MPStuBS.Lib.X86

/-!
# The entry points of the interrupts

The macro `IRQ` saves the volatile registers, calls `guardian` and returns from the interrupt. For
some exceptions the CPU pushes an error code behind the return address. The macro is told of it
by its second parameter, but its code is the same for all, and `iret` then takes the error code
for the return address.
-/

set_option autoImplicit false

namespace MPStuBS.Machine

open MPStuBS.Lib.X86

/-- The macro `IRQ`, with the addresses of `guardian` and of the instruction behind the call. -/
def IRQ (guardian back : Word) (irqNum : Nat) (_errorCode : Bool) : List Instr :=
  [.push .edx,
   .push .ecx,
   .push .eax,
   -- a pointer to the CPU context is the second argument
   .push .esp,
   -- the number of the interrupt is the first one
   .pushImm (BitVec.ofNat 32 irqNum),
   .call guardian back,
   .addImm .esp 8,
   .pop .eax,
   .pop .ecx,
   .pop .edx,
   .iret]

/-- The parameters with which the macro is used. -/
def irqs : List (Nat × Bool) :=
  [(0, false), (1, false), (2, false), (3, false), (4, false), (5, false), (6, false), (7, false),
   (8, true), (9, false), (10, true), (11, true), (12, true), (13, true), (14, true), (15, false),
   (16, false), (17, true)] ++ (List.range 238).map fun i => (18 + i, false)

/-- Every vector has its entry point. -/
theorem irqs_nums : irqs.map Prod.fst = List.range 256 := by decide +kernel

/-- `irq_entry_<vector>`. -/
def irqEntry (guardian back : Word) (vector : BitVec 8) : List Instr :=
  let irq := irqs.getD vector.toNat (0, false)
  IRQ guardian back irq.1 irq.2

/-- The CPU enters the entry point at `entry` through its `idt_entry`, an interrupt gate. -/
def interrupted (errorCode : Option Word) (entry : Word) (m : Machine) : Machine :=
  interrupt errorCode 0x0008 entry m

/-- The state in which `guardian` is entered, when the entry point is entered in `i`. -/
def guardianEntered (guardian back : Word) (vector : BitVec 8) (i : Machine) : Machine :=
  exec id ((irqEntry guardian back vector).take 6) i

/-- The size of `irq_context_without_error_code` or `irq_context_with_error_code` without the last
two elements, which there are only after a change of the privilege level. -/
def contextSize : Option Word → Nat
  | none => 24
  | some _ => 28

theorem le_contextSize {errorCode : Option Word} : 24 ≤ contextSize errorCode := by
  cases errorCode with
  | none => exact Nat.le_refl 24
  | some c =>
      show 24 ≤ 28
      decide

/-- The interrupted program goes on in `m'` as it was interrupted in `m`. -/
structure Transparent (m m' : Machine) : Prop where
  eip : m'.eip = m.eip
  cs : m'.cs = m.cs
  eflags : m'.eflags = m.eflags
  reg : ∀ r, m'.reg r = m.reg r

/-! ## The stack -/

section Stack

variable {g back : Word} {vector : BitVec 8} {i : Machine} {k : Word}

/-- The number that an entry point pushes is its vector. -/
theorem irqEntry_num (vector : BitVec 8) :
    (irqs.getD vector.toNat (0, false)).1 = vector.toNat := by
  have hget : (irqs.map Prod.fst)[vector.toNat]? = some vector.toNat := by
    rw [irqs_nums]
    exact List.getElem?_range vector.isLt
  rw [List.getElem?_map] at hget
  obtain ⟨irq, hirq, hnum⟩ := Option.map_eq_some_iff.1 hget
  rw [List.getD_eq_getElem?_getD, hirq]
  exact hnum

/-- Six words have been pushed. -/
theorem guardianEntered_eq : guardianEntered g back vector i =
    { ((((((i.push (i.reg .edx)).push (i.reg .ecx)).push (i.reg .eax)).push
      (i.reg .esp - 12)).push (BitVec.ofNat 32 vector.toNat)).push back) with eip := g } := by
  have hesp : i.reg .esp - 4 - 4 - 4 = i.reg .esp - 12 := by ring
  rw [← irqEntry_num vector, ← hesp]
  rfl

theorem guardianEntered_esp :
    (guardianEntered g back vector i).reg .esp = i.reg .esp - 24 := by
  show i.reg .esp - 4 - 4 - 4 - 4 - 4 - 4 = i.reg .esp - 24
  ring

theorem guardianEntered_reg {r : Reg} (h : r ≠ .esp) :
    (guardianEntered g back vector i).reg r = i.reg r := by
  rw [guardianEntered_eq]
  simp only [Machine.push_reg h]

/-- The words on the stack. -/
theorem guardianEntered_stack (g back : Word) (vector : BitVec 8) (i : Machine) :
    let e := guardianEntered g back vector i
    e.stack 0 = back ∧ e.stack 4 = BitVec.ofNat 32 vector.toNat ∧ e.stack 8 = e.reg .esp + 12 ∧
      e.stack 12 = i.reg .eax ∧ e.stack 16 = i.reg .ecx ∧ e.stack 20 = i.reg .edx ∧
      e.stack 24 = i.stack 0 ∧ e.stack 28 = i.stack 4 ∧ e.stack 32 = i.stack 8 := by
  have hstack : ∀ k, (guardianEntered g back vector i).stack k =
      ((((((i.push (i.reg .edx)).push (i.reg .ecx)).push (i.reg .eax)).push
        (i.reg .esp - 12)).push (BitVec.ofNat 32 vector.toNat)).push back).stack k := by
    intro k
    rw [guardianEntered_eq]
    rfl
  intro e
  have hctx : e.reg .esp + 12 = i.reg .esp - 12 := by
    rw [guardianEntered_esp]
    ring
  rw [hctx]
  simp (disch := decide) [e, hstack, Machine.push_stack, Machine.push_stack_top]

/-- After `guardian` the entry point takes the context from the stack. -/
theorem irqEntry_restores (g back : Word) (vector : BitVec 8) (guardian : Machine → Machine)
    (i : Machine) :
    let m := guardian (guardianEntered g back vector i)
    let m' := exec guardian (irqEntry g back vector) i
    m'.eip = m.stack 20 ∧ m'.cs = (m.stack 24).setWidth 16 ∧ m'.eflags = m.stack 28 ∧
      m'.reg .esp = m.reg .esp + 32 ∧ m'.reg .eax = m.stack 8 ∧ m'.reg .ecx = m.stack 12 ∧
      m'.reg .edx = m.stack 16 ∧ ∀ r ∈ calleeSaved, m'.reg r = m.reg r := by
  intro m m'
  -- `add esp, 8` drops the two arguments
  have hm' : m' = exec guardian [.pop .eax, .pop .ecx, .pop .edx, .iret]
      ((m.drop 8).withFlags (addFlags m.eflags (m.reg .esp) 8)) := rfl
  rw [hm']
  simp (disch := decide) [Instr.exec, calleeSaved, add_assoc, Machine.set_stack,
    Machine.drop_stack, Machine.set_reg_self, Machine.set_reg_of_ne, Machine.drop_esp,
    Machine.drop_reg]

/-- Where `guardian` obeys the calling convention, the entry point takes three words from the
stack, which it found on top, and keeps the registers. -/
theorem irqEntry_spec {guardian : Machine → Machine} {frame : Nat} (hframe : 24 ≤ frame)
    (h : Cdecl 8 frame (guardianEntered g back vector i)
      (guardian (guardianEntered g back vector i))) :
    let m' := exec guardian (irqEntry g back vector) i
    m'.eip = i.stack 0 ∧ m'.cs = (i.stack 4).setWidth 16 ∧ m'.eflags = i.stack 8 ∧
      m'.reg .esp = i.reg .esp + 12 ∧ ∀ r, r ≠ .esp → m'.reg r = i.reg r := by
  intro m'
  obtain ⟨-, -, -, heax, hecx, hedx, heip, hcs, heflags⟩ :=
    guardianEntered_stack g back vector i
  obtain ⟨heip', hcs', heflags', hesp', heax', hecx', hedx', hsaved⟩ :=
    irqEntry_restores g back vector guardian i
  have hstack : ∀ k : Word, 8 ≤ k.toNat → k.toNat ≤ 28 →
      (guardian (guardianEntered g back vector i)).stack k =
        (guardianEntered g back vector i).stack (4 + k) := by
    intro k hk hk'
    exact h.stack hk (by omega)
  rw [hstack 20 (by decide) (by decide)] at heip'
  rw [hstack 24 (by decide) (by decide)] at hcs'
  rw [hstack 28 (by decide) (by decide)] at heflags'
  rw [hstack 8 (by decide) (by decide)] at heax'
  rw [hstack 12 (by decide) (by decide)] at hecx'
  rw [hstack 16 (by decide) (by decide)] at hedx'
  refine ⟨heip'.trans heip, ?_, heflags'.trans heflags, ?_, ?_⟩
  · rw [hcs']
    exact congrArg _ hcs
  · rw [hesp', h.esp, guardianEntered_esp]
    ring
  · have hkept : ∀ r ∈ calleeSaved, m'.reg r = i.reg r := by
      intro r hr
      have hne : r ≠ .esp := by
        rintro rfl
        exact absurd hr (by decide)
      rw [hsaved r hr, h.saved r hr, guardianEntered_reg hne]
    intro r hr
    cases r with
    | eax => exact heax'.trans heax
    | ecx => exact hecx'.trans hecx
    | edx => exact hedx'.trans hedx
    | esp => exact absurd rfl hr
    | ebx => exact hkept _ (by decide)
    | ebp => exact hkept _ (by decide)
    | esi => exact hkept _ (by decide)
    | edi => exact hkept _ (by decide)

end Stack

/-! ## The interrupt -/

section Interrupt

variable {g back entry : Word} {vector : BitVec 8} {errorCode : Option Word} {m : Machine}
  {guardian : Machine → Machine}

/-- With an error code it is still on the stack at the end. -/
theorem esp_of_errorCode {c : Word}
    (h : Cdecl 8 (contextSize (some c))
      (guardianEntered g back vector (interrupted (some c) entry m))
      (guardian (guardianEntered g back vector (interrupted (some c) entry m)))) :
    (exec guardian (irqEntry g back vector) (interrupted (some c) entry m)).reg .esp =
      m.reg .esp - 4 := by
  obtain ⟨-, -, -, hesp, -⟩ := irqEntry_spec le_contextSize h
  rw [hesp, interrupted, interrupt_esp]
  show m.reg .esp - 12 - 4 + 12 = m.reg .esp - 4
  ring

/-- The entry into the interrupt handling is transparent if and only if the CPU has pushed no
error code. -/
theorem irqEntry_transparent_iff (g back entry : Word) (vector : BitVec 8)
    (errorCode : Option Word) (m : Machine) (guardian : Machine → Machine)
    (h : Cdecl 8 (contextSize errorCode)
      (guardianEntered g back vector (interrupted errorCode entry m))
      (guardian (guardianEntered g back vector (interrupted errorCode entry m)))) :
    Transparent m (exec guardian (irqEntry g back vector) (interrupted errorCode entry m)) ↔
      errorCode = none := by
  cases errorCode with
  | none =>
      obtain ⟨heip, hcs, heflags, hesp, hreg⟩ := irqEntry_spec le_contextSize h
      refine iff_of_true
        ⟨heip.trans interrupt_stack.1, ?_, heflags.trans interrupt_stack.2.2, ?_⟩ rfl
      · rw [hcs, interrupted, interrupt_stack.2.1]
        exact BitVec.setWidth_setWidth_of_le _ (by decide)
      · intro r
        by_cases hr : r = .esp
        · rw [hr, hesp, interrupted, interrupt_esp]
          show m.reg .esp - 12 - 0 + 12 = m.reg .esp
          ring
        · rw [hreg r hr, interrupted, interrupt_reg hr]
  | some c =>
      refine iff_of_false ?_ (Option.some_ne_none c)
      intro ht
      have hesp := (ht.reg .esp).symm.trans (esp_of_errorCode h)
      bv_omega

end Interrupt

/-- A program with all registers and the memory cleared. -/
def cleared : Machine := ⟨fun _ => 0, 0, 0, 0, fun _ => 0⟩

/-- A timer interrupt, with a `guardian` that only returns. -/
theorem irqEntry_transparent_timer :
    Transparent cleared
      (exec (exec id [.ret]) (irqEntry 0x2000 0x1020 32) (interrupted none 0x1000 cleared)) :=
  (irqEntry_transparent_iff 0x2000 0x1020 0x1000 32 none cleared (exec id [.ret])
    (cdecl_ret _ _ _)).2 rfl

/-- After a general protection fault the program does not go on, although `guardian` returns. -/
theorem not_transparent_protection :
    ¬ ∀ (vector : BitVec 8) (errorCode : Option Word) (m : Machine) (guardian : Machine → Machine),
      Cdecl 8 (contextSize errorCode)
          (guardianEntered 0x2000 0x1020 vector (interrupted errorCode 0x1000 m))
          (guardian (guardianEntered 0x2000 0x1020 vector (interrupted errorCode 0x1000 m))) →
        Transparent m
          (exec guardian (irqEntry 0x2000 0x1020 vector) (interrupted errorCode 0x1000 m)) := by
  intro hall
  have ht := hall 13 (some 0) cleared (exec id [.ret]) (cdecl_ret _ _ _)
  have hesp : (0 : Word) - 4 = 0 :=
    (esp_of_errorCode (cdecl_ret _ _ _)).symm.trans (ht.reg .esp)
  exact absurd hesp (by decide)

end MPStuBS.Machine
