import MPStuBS.Machine.BootHandshake

/-!
# Logical ids of the local APICs

The destination of an interprocessor interrupt, and of an interrupt from the I/O APIC,
is a set of bits. In the flat model a local APIC takes the interrupt if its logical id
has a bit in common with this set. A processor that is set up by `setupThisProcessor`
has the bit of the number that it has taken (`LogicalInv`). So after a boot in time bit
`j` of a destination stands for CPU `j`, whatever else is in the set, and stands for
nobody as long as this CPU is not set up (`destination_bits`).
-/

set_option autoImplicit false

namespace MPStuBS.Machine

open MPStuBS.Lib.Run

/-- In the flat model a local APIC accepts an interrupt if its logical id has a bit in common with
the destination. -/
def acceptsFlat (logicalId dest : BitVec 8) : Bool := decide (logicalId &&& dest ≠ 0)

/-- `1 << j`, as an `unsigned char`. -/
def ownBit (j : Nat) : BitVec 8 := BitVec.ofNat 8 (1 <<< j)

theorem getLsbD_ownBit (j n : Nat) : (ownBit j).getLsbD n = (decide (n < 8) && decide (j = n)) := by
  rw [ownBit, BitVec.getLsbD_ofNat, Nat.one_shiftLeft, Nat.testBit_two_pow]

theorem acceptsFlat_zero (dest : BitVec 8) : acceptsFlat 0 dest = false := by
  simp [acceptsFlat]

/-- A single bit is in common if it is set. -/
theorem acceptsFlat_ownBit (j : Nat) (dest : BitVec 8) :
    acceptsFlat (ownBit j) dest = dest.getLsbD j := by
  have hand : ∀ n, n < 8 → (ownBit j &&& dest).getLsbD n = (decide (j = n) && dest.getLsbD j) := by
    intro n hn
    rw [BitVec.getLsbD_and, getLsbD_ownBit, decide_eq_true hn, Bool.true_and]
    by_cases hj : j = n
    · rw [hj]
    · rw [decide_eq_false hj, Bool.false_and, Bool.false_and]
  rw [acceptsFlat]
  cases hbit : dest.getLsbD j with
  | false =>
      have hzero : ownBit j &&& dest = 0 := by
        apply BitVec.eq_of_getLsbD_eq
        intro n hn
        rw [hand n hn, hbit, Bool.and_false]
        exact BitVec.getLsbD_zero.symm
      simp [hzero]
  | true =>
      have hj : j < 8 := BitVec.lt_of_getLsbD hbit
      apply decide_eq_true
      intro hzero
      have hset := hand j hj
      rw [hzero, hbit, decide_eq_true rfl, Bool.true_and] at hset
      simp at hset

/-- `setLogicalLAPICID` has been executed. -/
def ApPc.hasLogical : ApPc → Bool
  | .storeLogical _ | .storeID _ | .signal _ | .up _ => true
  | _ => false

/-- The element of `logicalLAPICID` has been stored. -/
def ApPc.hasElement : ApPc → Bool
  | .storeID _ | .signal _ | .up _ => true
  | _ => false

namespace BootState

/-- The logical id of CPU `j`. The boot CPU has run `setupThisProcessor` with the number 0. -/
def logicalId (m : BootState) (j : Nat) : BitVec 8 :=
  if j = 0 then ownBit 0 else m.logicalDestination j

/-- CPU `j` has been set up. -/
def IsUp (m : BootState) (j : Nat) : Prop := j = 0 ∨ ∃ cpuId, m.ap j = .up cpuId

/-- What the logical id of processor `j` and its element of the array are at its place. -/
def LogicalPlace (m : BootState) (j : Nat) (pc : ApPc) : Prop :=
  m.logicalDestination j = (if pc.hasLogical then ownBit j else 0) ∧
    (pc.hasElement = true → m.logicalLAPICID j = ownBit j)

/-- Every processor has no logical id yet, or the bit of its number. -/
structure LogicalInv (P : Platform) (m : BootState) : Prop where
  boot : BootInv P m
  ids : ∀ j, m.LogicalPlace j (m.ap j)

variable {P : Platform} {m m' : BootState}

theorem logicalInv_init (P : Platform) (cpuID logicalLAPICID : Nat → BitVec 8) :
    LogicalInv P (init cpuID logicalLAPICID) where
  boot := bootInv_init P cpuID logicalLAPICID
  ids _ := ⟨rfl, fun hpc => by cases hpc⟩

/-- What is known at a place depends on the register and on the element of the processor. -/
theorem LogicalPlace.congr {j : Nat} {pc : ApPc} (h : m.LogicalPlace j pc)
    (hregister : m'.logicalDestination j = m.logicalDestination j)
    (helement : m'.logicalLAPICID j = m.logicalLAPICID j) : m'.LogicalPlace j pc :=
  ⟨hregister.trans h.1, fun hpc => helement.trans (h.2 hpc)⟩

/-- The boot CPU touches no logical id. -/
theorem LogicalInv.bootStep (h : LogicalInv P m) {delivered : Bool} (hinv : BootInv P m')
    (hstep : m.bootStep P delivered = some m') : LogicalInv P m' := by
  have hframe : m'.ap = m.ap ∧ m'.logicalDestination = m.logicalDestination ∧
      m'.logicalLAPICID = m.logicalLAPICID := by
    cases bootStep_move hstep <;> exact ⟨rfl, rfl, rfl⟩
  obtain ⟨hap, hregister, helement⟩ := hframe
  refine ⟨hinv, fun j => ?_⟩
  rw [hap]
  exact (h.ids j).congr (congrFun hregister j) (congrFun helement j)

/-- A step of processor `j` to the place `pc` that touches the logical id of nobody else. -/
theorem LogicalInv.of_setAp (h : LogicalInv P m) (hinv : BootInv P m') {j : Nat} {pc : ApPc}
    (hap : m'.ap = Function.update m.ap j pc)
    (hother : ∀ i, i ≠ j → m'.logicalDestination i = m.logicalDestination i ∧
      m'.logicalLAPICID i = m.logicalLAPICID i)
    (hown : m'.LogicalPlace j pc) : LogicalInv P m' := by
  refine ⟨hinv, fun i => ?_⟩
  rw [hap]
  by_cases hij : i = j
  · subst hij
    rw [Function.update_self]
    exact hown
  · rw [Function.update_of_ne hij]
    exact (h.ids i).congr (hother i hij).1 (hother i hij).2

/-- A step of a processor. -/
theorem LogicalInv.apStep (h : LogicalInv P m) {j : Nat} (hinv : BootInv P m')
    (hstep : m.apStep P j = some m') : LogicalInv P m' := by
  have hids := h.ids j
  have hplace := h.boot.place j
  cases hpc : m.ap j with
  | halted =>
      rw [hpc] at hids
      simp only [BootState.apStep, hpc] at hstep
      split at hstep
      case isTrue =>
          obtain rfl := Option.some.inj hstep
          exact h.of_setAp hinv rfl (fun _ _ => ⟨rfl, rfl⟩) hids
      case isFalse => cases hstep
  | spin =>
      rw [hpc] at hids
      simp only [BootState.apStep, hpc] at hstep
      split at hstep
      case isTrue =>
          obtain rfl := Option.some.inj hstep
          exact h
      case isFalse =>
          obtain rfl := Option.some.inj hstep
          exact h.of_setAp hinv rfl (fun _ _ => ⟨rfl, rfl⟩) hids
  | take =>
      rw [hpc] at hids
      simp only [BootState.apStep, hpc] at hstep
      obtain rfl := Option.some.inj hstep
      exact h.of_setAp hinv rfl (fun _ _ => ⟨rfl, rfl⟩) hids
  | setLogical cpuId =>
      rw [hpc] at hplace
      obtain ⟨rfl, hj⟩ := hplace
      simp only [BootState.apStep, hpc, toNat_ofNat_of_lt hj] at hstep
      obtain rfl := Option.some.inj hstep
      refine h.of_setAp hinv rfl (fun i hij => ⟨Function.update_of_ne hij _ _, rfl⟩)
        ⟨?_, fun hpc => by cases hpc⟩
      exact Function.update_self j _ m.logicalDestination
  | storeLogical cpuId =>
      rw [hpc] at hplace hids
      obtain ⟨rfl, hj⟩ := hplace
      -- the processor has taken its own number, so it stores into its own element
      simp only [BootState.apStep, hpc, toNat_ofNat_of_lt hj] at hstep
      obtain rfl := Option.some.inj hstep
      refine h.of_setAp hinv rfl (fun i hij => ⟨rfl, Function.update_of_ne hij _ _⟩)
        ⟨hids.1, fun _ => ?_⟩
      exact Function.update_self j _ m.logicalLAPICID
  | storeID cpuId =>
      rw [hpc] at hids
      simp only [BootState.apStep, hpc] at hstep
      obtain rfl := Option.some.inj hstep
      exact h.of_setAp hinv rfl (fun _ _ => ⟨rfl, rfl⟩) hids
  | signal cpuId =>
      rw [hpc] at hids
      simp only [BootState.apStep, hpc] at hstep
      obtain rfl := Option.some.inj hstep
      exact h.of_setAp hinv rfl (fun _ _ => ⟨rfl, rfl⟩) hids
  | up cpuId =>
      simp only [BootState.apStep, hpc] at hstep
      cases hstep

theorem LogicalInv.step (h : LogicalInv P m) {i : BootLabel} (hin : m.inTime i = true)
    (hstep : m.step P i = some m') : LogicalInv P m' := by
  have hinv : BootInv P m' := h.boot.step hin hstep
  cases i with
  | boot delivered => exact h.bootStep hinv hstep
  | ap j => exact h.apStep hinv hstep

/-- The element of the boot CPU stays its bit: every processor stores into its own element. -/
theorem LogicalInv.element_zero (h : LogicalInv P m) {i : BootLabel}
    (hstep : m.step P i = some m') (hzero : m.logicalLAPICID 0 = ownBit 0) :
    m'.logicalLAPICID 0 = ownBit 0 := by
  cases i with
  | boot delivered => cases bootStep_move hstep <;> exact hzero
  | ap j =>
      have hplace := h.boot.place j
      have hap : m.apStep P j = some m' := hstep
      cases hpc : m.ap j with
      | halted | spin =>
          simp only [BootState.apStep, hpc] at hap
          split at hap <;> cases hap <;> exact hzero
      | storeLogical cpuId =>
          rw [hpc] at hplace
          obtain ⟨rfl, hj⟩ := hplace
          simp only [BootState.apStep, hpc, toNat_ofNat_of_lt hj] at hap
          obtain rfl := Option.some.inj hap
          show Function.update m.logicalLAPICID j (ownBit j) 0 = ownBit 0
          by_cases hj0 : j = 0
          · rw [hj0, Function.update_self]
          · rwa [Function.update_of_ne (Ne.symm hj0)]
      | _ =>
          simp only [BootState.apStep, hpc] at hap
          cases hap <;> exact hzero

/-- A CPU has its own bit, or no logical id yet. -/
theorem LogicalInv.logicalId_eq (h : LogicalInv P m) (j : Nat) :
    m.logicalId j = ownBit j ∨ m.logicalId j = 0 ∧ ¬ m.IsUp j := by
  by_cases hj : j = 0
  · exact .inl (hj ▸ if_pos rfl)
  · have hids := (h.ids j).1
    rw [logicalId, if_neg hj]
    cases hpc : (m.ap j).hasLogical with
    | true => exact .inl (hids.trans (if_pos hpc))
    | false =>
        refine .inr ⟨hids.trans (if_neg (by simp [hpc])), ?_⟩
        rintro (hzero | ⟨cpuId, hup⟩)
        · exact hj hzero
        · rw [hup] at hpc
          cases hpc

/-- After a boot in time a CPU accepts an interrupt only if its bit is in the destination, and if it
is set up it does so. Its element of `logicalLAPICID` is its bit then; that of the boot CPU, whose
`setupThisProcessor` stores it before, is not touched. -/
theorem destination_bits (P : Platform) (cpuID logicalLAPICID : Nat → BitVec 8) (m : BootState)
    (h : Runs (step P) (fun m i => m.inTime i = true) (init cpuID logicalLAPICID) m)
    (dest : BitVec 8) (j : Nat) :
    (acceptsFlat (m.logicalId j) dest = true → dest.getLsbD j = true) ∧
    (m.IsUp j → dest.getLsbD j = true → acceptsFlat (m.logicalId j) dest = true) ∧
    ((j = 0 → logicalLAPICID 0 = ownBit 0) → m.IsUp j → m.logicalLAPICID j = ownBit j) := by
  have hboth : LogicalInv P m ∧ (logicalLAPICID 0 = ownBit 0 → m.logicalLAPICID 0 = ownBit 0) := by
    apply Runs.invariant h
    · exact ⟨logicalInv_init P cpuID logicalLAPICID, fun hzero => hzero⟩
    · rintro a b i ⟨ha, helement⟩ hin hstep
      exact ⟨ha.step hin hstep, fun hzero => ha.element_zero hstep (helement hzero)⟩
  obtain ⟨hinv, helement⟩ := hboth
  refine ⟨fun haccepts => ?_, fun hup hbit => ?_, fun hboot hup => ?_⟩
  · rcases hinv.logicalId_eq j with hown | ⟨hzero, -⟩
    · rwa [hown, acceptsFlat_ownBit] at haccepts
    · rw [hzero, acceptsFlat_zero] at haccepts
      cases haccepts
  · rcases hinv.logicalId_eq j with hown | ⟨-, hnot⟩
    · rwa [hown, acceptsFlat_ownBit]
    · exact absurd hup hnot
  · rcases hup with rfl | ⟨cpuId, hpc⟩
    · exact helement (hboot rfl)
    · exact (hinv.ids j).2 (by rw [hpc]; rfl)

/-- Both application processors are set up. -/
theorem destination_bits_threeProcessors : ∃ m : BootState, m.IsUp 2 ∧ ∀ dest : BitVec 8,
    (acceptsFlat (m.logicalId 2) dest = true → dest.getLsbD 2 = true) ∧
    (m.IsUp 2 → dest.getLsbD 2 = true → acceptsFlat (m.logicalId 2) dest = true) ∧
    ((2 = 0 → (0 : BitVec 8) = ownBit 0) → m.IsUp 2 → m.logicalLAPICID 2 = ownBit 2) := by
  have hrun : ∃ m, exec (fun m i => if m.inTime i then step threeProcessors m i else none)
      (init (fun _ => 0) fun _ => 0)
      (List.replicate 6 (.boot true) ++ List.replicate 7 (.ap 1) ++
        List.replicate 8 (.boot true) ++ List.replicate 7 (.ap 2) ++ [.boot true]) = some m ∧
      m.ap 2 = .up 2 := ⟨_, rfl, rfl⟩
  obtain ⟨m, hm, hup⟩ := hrun
  exact ⟨m, .inr ⟨2, hup⟩, fun dest => destination_bits threeProcessors _ _ m
    (runs_of_exec_if (fun _ _ hin => hin) hm) dest 2⟩

end BootState

end MPStuBS.Machine
