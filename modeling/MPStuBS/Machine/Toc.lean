import MPStuBS.Lib.X86

/-!
# Threads of control

`toc_go`, `toc_switch` and `toc_settle`. The context of a thread is its `struct toc`, with the
registers that a function has to keep, and its stack, where the saved stack pointer points to the
address at which the thread goes on. `toc_switch` saves one context and loads another, and
`toc_go` only loads one (`tocGo_eq`, `tocSwitch_eq`).
-/

set_option autoImplicit false

namespace MPStuBS.Machine

open MPStuBS.Lib.X86

/-- The elements of `struct toc`, which is packed. -/
def toc : List Reg := [.ebx, .esi, .edi, .ebp, .esp]

/-- The labels of toc.inc, one double word each. -/
def tocInc : List Reg := [.ebx, .esi, .edi, .ebp, .esp]

/-- Where the compiler finds an element. -/
def element (r : Reg) : Word := 4 * BitVec.ofNat 32 (toc.idxOf r)

/-- The value of the label `<r>_offset`. -/
def offset (r : Reg) : Word := 4 * BitVec.ofNat 32 (tocInc.idxOf r)

/-- The structure and the labels have the same order. -/
theorem element_eq_offset : element = offset := rfl

/-- `toc_go(regs)`. -/
def tocGo : List Instr :=
  [.load .eax .esp 4,
   .load .ebx .eax (offset .ebx),
   .load .esi .eax (offset .esi),
   .load .edi .eax (offset .edi),
   .load .ebp .eax (offset .ebp),
   .load .esp .eax (offset .esp),
   .ret]

/-- `toc_switch(regs_now, reg_then)`. -/
def tocSwitch : List Instr :=
  [.load .eax .esp 4,
   .store .eax (offset .ebx) .ebx,
   .store .eax (offset .esi) .esi,
   .store .eax (offset .edi) .edi,
   .store .eax (offset .ebp) .ebp,
   .store .eax (offset .esp) .esp,
   .load .eax .esp 8,
   .load .ebx .eax (offset .ebx),
   .load .esi .eax (offset .esi),
   .load .edi .eax (offset .edi),
   .load .ebp .eax (offset .ebp),
   .load .esp .eax (offset .esp),
   .ret]

/-- `toc_settle(regs, tos, kickoff, object)` on the memory. -/
def tocSettle (enterpanic regs tos kickoff object : Word) (mem : Bytes) : Bytes :=
  let stackptr := tos
  let mem := write mem (regs + element .ebp) stackptr
  let mem := write mem stackptr object
  let mem := write mem (stackptr - 4) enterpanic
  let mem := write mem (stackptr - 8) kickoff
  write mem (regs + element .esp) (stackptr - 8)

/-! ## Saving and loading -/

/-- The memory with the registers of `m` written to the structure at `regs`. -/
def save (m : Machine) (regs : Word) : Bytes :=
  writes m.mem (toc.map fun r => (regs + offset r, m.reg r))

/-- `m` goes on with the context at `regs`. -/
def load (m : Machine) (regs : Word) : Machine :=
  let sp := read m.mem (regs + offset .esp)
  { m with
    reg := fun r =>
      if r = .eax then regs
      else if r = .esp then sp + 4
      else if r ∈ toc then read m.mem (regs + offset r)
      else m.reg r
    eip := read m.mem sp }

/-- What `toc_go` does from the first load on, with the address of the structure in `eax`. -/
theorem exec_loads (m : Machine) : exec id (tocGo.drop 1) m = load m (m.reg .eax) := by
  refine Machine.ext ?_ ?_ rfl rfl rfl
  · funext r
    cases r <;> rfl
  · show read m.mem (read m.mem (m.reg .eax + offset .esp) + 0) = _
    rw [add_zero]
    rfl

theorem load_set_eax (m : Machine) (v regs : Word) : load (m.set .eax v) regs = load m regs := by
  refine Machine.ext ?_ rfl rfl rfl rfl
  funext r
  cases r <;> rfl

theorem tocGo_eq (m : Machine) : exec id tocGo m = load m (m.stack 4) := by
  have hloads : exec id tocGo m = exec id (tocGo.drop 1) (m.set .eax (m.stack 4)) := rfl
  rw [hloads, exec_loads, Machine.set_reg_self, load_set_eax]

theorem tocSwitch_eq (m : Machine) : exec id tocSwitch m =
    let m' := m.withMem (save m (m.stack 4))
    load m' (m'.stack 8) := by
  let m' := m.withMem (save m (m.stack 4))
  have hloads : exec id tocSwitch m =
      exec id (tocGo.drop 1) ((m'.set .eax (m.stack 4)).set .eax (m'.stack 8)) := rfl
  rw [hloads, exec_loads, Machine.set_reg_self, load_set_eax, load_set_eax]

section Context

variable {m : Machine} {regs : Word} {r : Reg}

/-- The elements do not overlap. -/
theorem offset_apart : toc.Pairwise fun r r' => Apart (offset r) (offset r') := by decide

/-- They lie within the 20 bytes of the structure. -/
theorem range_offset (hr : r ∈ toc) : range (regs + offset r) 4 ⊆ range regs 20 := by
  have hoff : (offset r).toNat + 4 ≤ 20 := by
    revert r
    decide
  exact range_add hoff

theorem read_save (hr : r ∈ toc) : read (save m regs) (regs + offset r) = m.reg r := by
  have hapart : (toc.map fun r => (regs + offset r, m.reg r)).Pairwise
      fun w w' => Apart w.1 w'.1 := by
    rw [List.pairwise_map]
    exact offset_apart.imp fun h => apart_add_iff.2 h
  exact read_writes (w := (regs + offset r, m.reg r)) hapart (List.mem_map_of_mem hr)

/-- Nothing else changes. -/
theorem save_of_not_mem {x : Word} (hx : x ∉ range regs 20) : save m regs x = m.mem x := by
  apply writes_of_not_mem
  intro w hw
  obtain ⟨r, hr, rfl⟩ := List.mem_map.1 hw
  exact fun hx' => hx (range_offset hr hx')

theorem load_reg (hr : r ∈ toc) (hesp : r ≠ .esp) :
    (load m regs).reg r = read m.mem (regs + offset r) := by
  have heax : r ≠ .eax := by
    rintro rfl
    exact absurd hr (by decide)
  show (if r = .eax then regs else if r = .esp then _ else if r ∈ toc then _ else _) = _
  rw [if_neg heax, if_neg hesp, if_pos hr]

end Context

/-! ## The first activation -/

section Settle

variable {enterpanic regs tos kickoff object : Word} {mem : Bytes}

/-- The words that `toc_settle` writes, where the stack pointer becomes `sp`. -/
def settled (enterpanic regs sp kickoff object : Word) : List (Word × Word) :=
  [(regs + offset .ebp, sp + 8), (sp + 8, object), (sp + 4, enterpanic), (sp + 0, kickoff),
   (regs + offset .esp, sp)]

theorem tocSettle_eq : tocSettle enterpanic regs tos kickoff object mem =
    writes mem (settled enterpanic regs (tos - 8) kickoff object) := by
  have hobject : tos - 8 + 8 = tos := sub_add_cancel _ _
  have hreturn : tos - 8 + 4 = tos - 4 := by ring
  -- toc_settle goes by toc.h, and the assembler code by toc.inc
  rw [tocSettle, element_eq_offset, settled, hobject, hreturn, add_zero]
  rfl

variable {sp : Word}

/-- No word overwrites another one where the structure is not on the stack. -/
theorem settled_apart (h : Disjoint (range regs 20) (range sp 12)) :
    (settled enterpanic regs sp kickoff object).Pairwise fun w w' => Apart w.1 w'.1 := by
  have hfield : ∀ r ∈ toc, ∀ k : Word, k.toNat + 4 ≤ 12 → Apart (regs + offset r) (sp + k) :=
    fun r hr k hk => apart_of_disjoint (h.mono (range_offset hr) (range_add hk))
  have hwithin : ∀ k ∈ [(8 : Word), 4, 0], k.toNat + 4 ≤ 12 := by simp
  have hebp : ∀ k ∈ [(8 : Word), 4, 0], Apart (regs + offset .ebp) (sp + k) :=
    fun k hk => hfield .ebp (by decide) k (hwithin k hk)
  have hesp : ∀ k ∈ [(8 : Word), 4, 0], Apart (sp + k) (regs + offset .esp) :=
    fun k hk => (hfield .esp (by decide) k (hwithin k hk)).symm
  have hstack : [(8 : Word), 4, 0].Pairwise fun k l => Apart (sp + k) (sp + l) :=
    List.Pairwise.imp apart_add_iff.2 (by decide)
  have hstruct : Apart (regs + offset .ebp) (regs + offset .esp) := apart_add_iff.2 (by decide)
  simp only [List.pairwise_cons, List.forall_mem_cons] at hebp hesp hstack
  simp only [settled, List.pairwise_cons, List.forall_mem_cons]
  grind

/-- The words are in the structure and on the stack. -/
theorem range_of_settled {w : Word × Word}
    (hw : w ∈ settled enterpanic regs sp kickoff object) :
    range w.1 4 ⊆ range regs 20 ∪ range sp 12 := by
  have hfield : ∀ r ∈ toc, range (regs + offset r) 4 ⊆ range regs 20 ∪ range sp 12 :=
    fun r hr => (range_offset hr).trans Set.subset_union_left
  have hword : ∀ k : Word, k.toNat + 4 ≤ 12 →
      range (sp + k) 4 ⊆ range regs 20 ∪ range sp 12 :=
    fun k hk => (range_add hk).trans Set.subset_union_right
  revert w
  simp only [settled, List.forall_mem_cons]
  exact ⟨hfield _ (by decide), hword _ (by decide), hword _ (by decide), hword _ (by decide),
    hfield _ (by decide), List.forall_mem_nil _⟩

end Settle

end MPStuBS.Machine
