import MPStuBS.Machine.ApBoot

/-!
# Unique ids through the boot hand-shake

In a run whose steps are in time (`inTime`) a processor takes its number and
calls in only while the latest call of `bootCPU` is the one for it. Then the
variable holds -1 or the number of the processor whose round it is, and every
processor takes its own number (`BootInv`). A late processor may take the number
of another one.
-/

set_option autoImplicit false

namespace MPStuBS.Machine

open MPStuBS.Lib.Run

/-! ## Places of the boot CPU -/

namespace BootPc

/-- The processor of the latest call of `bootCPU`. -/
def round : BootPc → Nat
  | .call i => i - 1
  | .reset k => k
  | .sendInit k => k
  | .sendStartup k _ => k
  | .delivery k _ _ => k
  | .callout k => k
  | .callin k _ => k
  | .returned k _ => k

/-- The last processor that was sent an IPI that starts it. -/
def lastStarted : BootPc → Nat
  | .call i => i - 1
  | .reset k => k - 1
  | .sendInit k => k - 1
  | .sendStartup k _ => k
  | .delivery k _ _ => k
  | .callout k => k
  | .callin k _ => k
  | .returned k _ => k

/-- The number that `callout_cpu_number` may hold besides -1. -/
def offered : BootPc → Option Nat
  | .call i => some (i - 1)
  | .reset k => some (k - 1)
  | .sendInit _ => none
  | .sendStartup _ _ => none
  | .delivery _ _ _ => none
  | .callout _ => none
  | .callin k _ => some k
  | .returned k _ => some k

/-- The loop starts at 1, `bootCPU` is called for listed processors, and it goes on behind its check
of `start_eip` only if that passes. -/
def InRange (P : Platform) : BootPc → Prop
  | .call i => 1 ≤ i
  | .reset k => (1 ≤ k ∧ k < P.cpuCount) ∧ P.weirdStartEip = false
  | .sendInit k => (1 ≤ k ∧ k < P.cpuCount) ∧ P.weirdStartEip = false
  | .sendStartup k _ => (1 ≤ k ∧ k < P.cpuCount) ∧ P.weirdStartEip = false
  | .delivery k _ _ => (1 ≤ k ∧ k < P.cpuCount) ∧ P.weirdStartEip = false
  | .callout k => (1 ≤ k ∧ k < P.cpuCount) ∧ P.weirdStartEip = false
  | .callin k _ => (1 ≤ k ∧ k < P.cpuCount) ∧ P.weirdStartEip = false
  | .returned k _ => 1 ≤ k ∧ k < P.cpuCount

/-- The processor whose call-in the boot CPU has seen, or would see in its next step. -/
def acknowledged (callout : BitVec 8) : BootPc → Option Nat
  | .call _ => none
  | .reset _ => none
  | .sendInit _ => none
  | .sendStartup _ _ => none
  | .delivery _ _ _ => none
  | .callout _ => none
  | .callin k _ => if callout = noCallout then some k else none
  | .returned k result => if result then some k else none

end BootPc

/-! ## Numbers in a byte -/

theorem ofNat_ne_noCallout {k : Nat} (hk : k < 255) : BitVec.ofNat 8 k ≠ noCallout := by
  intro h
  have hnat := congrArg BitVec.toNat h
  have hno : noCallout.toNat = 255 := rfl
  rw [hno, BitVec.toNat_ofNat] at hnat
  omega

/-- A number that is not negative as a `char` is the number itself. -/
theorem lt_of_not_negative {k : Nat} (hk : k < 255) (h : ¬ (BitVec.ofNat 8 k).toInt < 0) :
    k < 128 := by
  rw [BitVec.toInt_neg_iff, BitVec.toNat_ofNat] at h
  omega

theorem toNat_ofNat_of_lt {k : Nat} (hk : k < 128) : (BitVec.ofNat 8 k).toNat = k := by
  rw [BitVec.toNat_ofNat]
  omega

/-! ## The invariant -/

namespace BootState

/-- The condition on a step: the boot CPU stores a number below 255, and a processor leaves the spin
loop, takes its number and calls in while the latest call of `bootCPU` is the one for it, unless the
call-in changes nothing. -/
def inTime (m : BootState) : BootLabel → Bool
  | .boot _ =>
      match m.boot with
      | .callout k => decide (k < 255)
      | _ => true
  | .ap j =>
      match m.ap j with
      | .spin => decide (m.calloutCpuNumber.toInt < 0) || m.boot.round == j
      | .take => m.boot.round == j
      | .signal _ => m.calloutCpuNumber == noCallout || m.boot.round == j
      | _ => true

/-- What is known of processor `j` at its place. -/
def PlaceInv (P : Platform) (m : BootState) (j : Nat) : ApPc → Prop
  | .halted => True
  | .spin => True
  | .take => m.boot.round = j → m.calloutCpuNumber = BitVec.ofNat 8 j ∧ j < 128
  | .setLogical cpuId => cpuId = BitVec.ofNat 8 j ∧ j < 128
  | .storeLogical cpuId => cpuId = BitVec.ofNat 8 j ∧ j < 128
  | .storeID cpuId => cpuId = BitVec.ofNat 8 j ∧ j < 128
  | .signal cpuId => (cpuId = BitVec.ofNat 8 j ∧ j < 128) ∧ m.cpuID (P.lapicId j) = cpuId
  | .up cpuId => (cpuId = BitVec.ofNat 8 j ∧ j < 128) ∧ m.cpuID (P.lapicId j) = cpuId

/-- The variable holds -1 or the offered number, only processors up to the last one started run,
each with its own number, and the boot CPU sees only the call-in it waits for. -/
structure BootInv (P : Platform) (m : BootState) : Prop where
  range : m.boot.InRange P
  callout : m.calloutCpuNumber = noCallout ∨ P.weirdStartEip = false ∧
    ∃ k, m.boot.offered = some k ∧ m.calloutCpuNumber = BitVec.ofNat 8 k ∧ k < 255
  started : ∀ j, m.started j = true → 1 ≤ j ∧ j < P.cpuCount ∧ j ≤ m.boot.lastStarted
  running : ∀ j, m.ap j ≠ .halted → m.started j = true
  place : ∀ j, m.PlaceInv P j (m.ap j)
  acknowledged : ∀ k, m.boot.acknowledged m.calloutCpuNumber = some k →
    m.ap k = .up (BitVec.ofNat 8 k)

variable {P : Platform} {m m' : BootState}

theorem bootInv_init (P : Platform) (cpuID logicalLAPICID : Nat → BitVec 8) :
    BootInv P (init cpuID logicalLAPICID) where
  range := Nat.le_refl 1
  callout := Or.inl rfl
  started j hj := by cases hj
  running j hj := absurd rfl hj
  place j := trivial
  acknowledged k hk := by cases hk

/-- What is known of a place depends on the rest of the state before the number is taken, and on
the id of the processor after it was stored. -/
theorem PlaceInv.frame {j : Nat} {pc : ApPc} (h : m.PlaceInv P j pc)
    (htake : pc = .take → m'.PlaceInv P j .take)
    (hid : m'.cpuID (P.lapicId j) = m.cpuID (P.lapicId j)) : m'.PlaceInv P j pc := by
  cases pc with
  | halted => trivial
  | spin => trivial
  | take => exact htake rfl
  | setLogical cpuId => exact h
  | storeLogical cpuId => exact h
  | storeID cpuId => exact h
  | signal cpuId => exact ⟨h.1, hid.trans h.2⟩
  | up cpuId => exact ⟨h.1, hid.trans h.2⟩

/-! ## Steps of the boot CPU -/

/-- A processor that is about to take its number was sent an IPI. -/
theorem BootInv.take_le (h : BootInv P m) {j : Nat} (hj : m.ap j = .take) :
    j ≤ m.boot.lastStarted :=
  (h.started j (h.running j (by simp [hj]))).2.2

/-- A step that leaves the processors alone. -/
theorem BootInv.of_ap_eq (h : BootInv P m) (hap : m'.ap = m.ap) (hid : m'.cpuID = m.cpuID)
    (hrange : m'.boot.InRange P)
    (hcallout : m'.calloutCpuNumber = noCallout ∨ P.weirdStartEip = false ∧
      ∃ k, m'.boot.offered = some k ∧ m'.calloutCpuNumber = BitVec.ofNat 8 k ∧ k < 255)
    (hstarted : ∀ j, m'.started j = true → 1 ≤ j ∧ j < P.cpuCount ∧ j ≤ m'.boot.lastStarted)
    (hkeep : ∀ j, m.started j = true → m'.started j = true)
    (htake : ∀ j, m.ap j = .take → m'.PlaceInv P j .take)
    (hack : ∀ k, m'.boot.acknowledged m'.calloutCpuNumber = some k →
      m.ap k = .up (BitVec.ofNat 8 k)) :
    BootInv P m' where
  range := hrange
  callout := hcallout
  started := hstarted
  running j hj := hkeep j (h.running j (hap ▸ hj))
  place j := by
    rw [hap]
    exact (h.place j).frame (htake j) (congrFun hid _)
  acknowledged k hk := hap ▸ hack k hk

/-- The boot CPU goes on in its round, and the variable keeps its value. -/
theorem BootInv.goto (h : BootInv P m) {pc : BootPc} {online : Nat} (hrange : pc.InRange P)
    (hround : pc.round = m.boot.round) (hlast : m.boot.lastStarted ≤ pc.lastStarted)
    (hoffer : m.calloutCpuNumber = noCallout ∨ pc.offered = m.boot.offered)
    (hack : ∀ k, pc.acknowledged m.calloutCpuNumber = some k →
      m.boot.acknowledged m.calloutCpuNumber = some k) :
    BootInv P ({ m with onlineCPUs := online }.goto pc) := by
  refine h.of_ap_eq rfl rfl hrange ?_ ?_ (fun _ hj => hj) ?_ ?_
  · rcases h.callout with hno | ⟨hweird, k, hk, hval, hlt⟩
    · exact Or.inl hno
    · rcases hoffer with hno | hoffer
      · exact Or.inl hno
      · exact Or.inr ⟨hweird, k, hoffer.trans hk, hval, hlt⟩
  · intro j hj
    obtain ⟨h1, h2, h3⟩ := h.started j hj
    exact ⟨h1, h2, Nat.le_trans h3 hlast⟩
  · intro j hj hr
    have hplace := h.place j
    rw [hj] at hplace
    exact hplace (hround.symm.trans hr)
  · intro k hk
    exact h.acknowledged k (hack k hk)

/-- Where no number is offered the variable holds -1. -/
theorem BootInv.callout_of_not_offered (h : BootInv P m) (hoff : m.boot.offered = none) :
    m.calloutCpuNumber = noCallout := by
  rcases h.callout with hno | ⟨-, k, hk, -, -⟩
  · exact hno
  · rw [hoff] at hk
    cases hk

/-- The boot CPU lets processor `k` run, whose round it is. -/
theorem BootInv.startUp (h : BootInv P m) {pc : BootPc} {k : Nat} (hrange : pc.InRange P)
    (hk : 1 ≤ k ∧ k < P.cpuCount) (hround : pc.round = k) (hlast : pc.lastStarted = k)
    (hround' : m.boot.round = k) (hle : m.boot.lastStarted ≤ k) (hoff : m.boot.offered = none)
    (hack : pc.acknowledged m.calloutCpuNumber = none) :
    BootInv P ((m.startUp k).goto pc) := by
  refine h.of_ap_eq rfl rfl hrange (Or.inl (h.callout_of_not_offered hoff)) ?_ ?_ ?_ ?_
  · intro j hj
    by_cases hjk : j = k
    · subst hjk
      exact ⟨hk.1, hk.2, Nat.le_of_eq hlast.symm⟩
    · have hj' : m.started j = true := (Function.update_of_ne hjk true m.started) ▸ hj
      obtain ⟨h1, h2, h3⟩ := h.started j hj'
      exact ⟨h1, h2, Nat.le_trans h3 (Nat.le_trans hle (Nat.le_of_eq hlast.symm))⟩
  · intro j hj
    show Function.update m.started k true j = true
    by_cases hjk : j = k
    · subst hjk
      simp
    · rwa [Function.update_of_ne hjk]
  · intro j hj hr
    have hplace := h.place j
    rw [hj] at hplace
    exact hplace (hround'.trans (hround.symm.trans hr))
  · intro i hi
    exact absurd (hack.symm.trans hi) (by simp)

/-- The boot CPU enters `bootCPU`: no processor of the new round runs yet. -/
theorem BootInv.enter (h : BootInv P m) {pc : BootPc} {i stack : Nat} (hpc : m.boot = .call i)
    (hrange : pc.InRange P) (hround : pc.round = i) (hlast : i - 1 ≤ pc.lastStarted)
    (hoffer : m.calloutCpuNumber = noCallout ∨ pc.offered = some (i - 1))
    (hack : pc.acknowledged m.calloutCpuNumber = none) :
    BootInv P ({ m with apStack := stack }.goto pc) := by
  have hi : 1 ≤ i := by
    have hinRange := h.range
    rw [hpc] at hinRange
    exact hinRange
  refine h.of_ap_eq rfl rfl hrange ?_ ?_ (fun _ hj => hj) ?_ ?_
  · rcases h.callout with hno | ⟨hweird, k, hk, hval, hlt⟩
    · exact Or.inl hno
    · rcases hoffer with hno | hoffer
      · exact Or.inl hno
      · rw [hpc] at hk
        exact Or.inr ⟨hweird, k, hoffer.trans hk, hval, hlt⟩
  · intro j hj
    obtain ⟨h1, h2, h3⟩ := h.started j hj
    rw [hpc] at h3
    exact ⟨h1, h2, Nat.le_trans h3 hlast⟩
  · intro j hj hr
    have hle := h.take_le hj
    rw [hpc] at hle
    have hj' : j ≤ i - 1 := hle
    have hij : i = j := hround.symm.trans hr
    omega
  · intro k hk
    exact absurd (hack.symm.trans hk) (by simp)

/-- The boot CPU takes back the number of the round before. -/
theorem BootInv.reset (h : BootInv P m) {k : Nat} (hpc : m.boot = .reset k) :
    BootInv P ({ m with calloutCpuNumber := noCallout }.goto (.sendInit k)) := by
  have hrange := h.range
  rw [hpc] at hrange
  refine h.of_ap_eq rfl rfl hrange (Or.inl rfl) ?_ (fun _ hj => hj) ?_ (fun i hi => by cases hi)
  · intro j hj
    have hstarted := h.started j hj
    rw [hpc] at hstarted
    exact hstarted
  · -- the processor of this round was not started yet
    intro j hj hr
    have hle := h.take_le hj
    rw [hpc] at hle
    have hj' : j ≤ k - 1 := hle
    have hk : 1 ≤ k := hrange.1.1
    have hkj : k = j := hr
    omega

/-- The boot CPU offers the number of its round. -/
theorem BootInv.offer (h : BootInv P m) {k : Nat} (hpc : m.boot = .callout k) (hlt : k < 255) :
    BootInv P ({ m with calloutCpuNumber := BitVec.ofNat 8 k }.goto (.callin k 0)) := by
  have hrange := h.range
  rw [hpc] at hrange
  have hno : m.calloutCpuNumber = noCallout := h.callout_of_not_offered (by rw [hpc]; rfl)
  refine h.of_ap_eq rfl rfl hrange (Or.inr ⟨hrange.2, k, rfl, rfl, hlt⟩) ?_ (fun _ hj => hj) ?_ ?_
  · intro j hj
    have hstarted := h.started j hj
    rw [hpc] at hstarted
    exact hstarted
  · -- the processor of this round has not left the spin loop
    intro j hj hr
    have hplace := h.place j
    rw [hj] at hplace
    have hkj : k = j := hr
    obtain ⟨hval, -⟩ := hplace (by rw [hpc]; exact hkj)
    exact absurd (hval.symm.trans hno) (ofNat_ne_noCallout (hkj ▸ hlt))
  · intro i hi
    have hne := ofNat_ne_noCallout hlt
    simp [BootPc.acknowledged, BootState.goto, hne] at hi

/-- The boot CPU waits for the delivery of an IPI: it stays in the round, and no number is offered
or acknowledged. -/
theorem BootInv.goto_delivery (h : BootInv P m) {k j timeout : Nat}
    (hpc : m.boot = .delivery k j timeout) {pc : BootPc} (hrange : pc.InRange P)
    (hround : pc.round = k) (hlast : pc.lastStarted = k)
    (hack : pc.acknowledged m.calloutCpuNumber = none) : BootInv P (m.goto pc) := by
  refine h.goto hrange (by rw [hpc]; exact hround) ?_ (Or.inl ?_) ?_
  · rw [hpc, hlast]
    exact Nat.le_refl k
  · exact h.callout_of_not_offered (by rw [hpc]; rfl)
  · intro i hi
    exact absurd (hack.symm.trans hi) (by simp)

/-- The boot CPU waits for a call-in: it stays in the round, and the number stays offered. -/
theorem BootInv.goto_callin (h : BootInv P m) {k timeout online : Nat}
    (hpc : m.boot = .callin k timeout) {pc : BootPc} (hrange : pc.InRange P)
    (hround : pc.round = k) (hlast : pc.lastStarted = k) (hoffer : pc.offered = some k)
    (hack : ∀ i, pc.acknowledged m.calloutCpuNumber = some i →
      i = k ∧ m.calloutCpuNumber = noCallout) :
    BootInv P ({ m with onlineCPUs := online }.goto pc) := by
  refine h.goto hrange (by rw [hpc]; exact hround) ?_ (Or.inr ?_) ?_
  · rw [hpc, hlast]
    exact Nat.le_refl k
  · rw [hpc]
    exact hoffer
  · intro i hi
    obtain ⟨rfl, hno⟩ := hack i hi
    rw [hpc]
    exact if_pos hno

/-- A step of the boot CPU. -/
theorem BootInv.bootStep (h : BootInv P m) {delivered : Bool}
    (hin : m.inTime (.boot delivered) = true) (hstep : m.bootStep P delivered = some m') :
    BootInv P m' := by
  have hrange := h.range
  cases bootStep_move hstep with
  | weird hpc hcount hweird =>
      rw [hpc] at hrange
      have hno : m.calloutCpuNumber = noCallout := by
        rcases h.callout with hno | ⟨hnot, -⟩
        · exact hno
        · rw [hnot] at hweird
          cases hweird
      exact h.enter hpc ⟨hrange, hcount⟩ rfl (Nat.sub_le _ 1) (Or.inl hno) rfl
  | enter hpc hcount hweird =>
      rw [hpc] at hrange
      exact h.enter hpc ⟨⟨hrange, hcount⟩, hweird⟩ rfl (Nat.le_refl _) (Or.inr rfl) rfl
  | reset hpc => exact h.reset hpc
  | external hpc =>
      rw [hpc] at hrange
      refine h.startUp hrange.1 hrange.1 rfl rfl (by rw [hpc]; rfl) ?_ (by rw [hpc]; rfl) rfl
      rw [hpc]
      exact Nat.sub_le _ 1
  | sendInit hpc =>
      rw [hpc] at hrange
      refine h.goto hrange (by rw [hpc]; rfl) ?_ (Or.inl ?_) (fun i hi => by cases hi)
      · rw [hpc]
        exact Nat.sub_le _ 1
      · exact h.callout_of_not_offered (by rw [hpc]; rfl)
  | sendStartup hpc =>
      rw [hpc] at hrange
      refine h.startUp hrange hrange.1 rfl rfl (by rw [hpc]; rfl) ?_ (by rw [hpc]; rfl) rfl
      rw [hpc]
      exact Nat.le_refl _
  | delivered hpc =>
      rw [hpc] at hrange
      exact h.goto_delivery hpc hrange rfl rfl rfl
  | pollDelivery hpc =>
      rw [hpc] at hrange
      exact h.goto_delivery hpc hrange rfl rfl rfl
  | again hpc =>
      rw [hpc] at hrange
      exact h.goto_delivery hpc hrange rfl rfl rfl
  | undelivered hpc =>
      rw [hpc] at hrange
      exact h.goto_delivery hpc hrange.1 rfl rfl rfl
  | callout hpc => exact h.offer hpc (by simpa [inTime, hpc] using hin)
  | answered hpc hno =>
      rw [hpc] at hrange
      refine h.goto_callin hpc hrange.1 rfl rfl rfl fun i hi => ?_
      exact ⟨(Option.some.inj hi).symm, hno⟩
  | pollCallin hpc hno =>
      rw [hpc] at hrange
      refine h.goto_callin hpc hrange rfl rfl rfl fun i hi => ?_
      exact absurd hi (by simp [BootPc.acknowledged, hno])
  | unanswered hpc =>
      rw [hpc] at hrange
      exact h.goto_callin hpc hrange.1 rfl rfl rfl fun i hi => by cases hi
  | returned hpc =>
      rw [hpc] at hrange
      refine h.goto (Nat.le_add_left 1 _) (by rw [hpc]; rfl) ?_ (Or.inr (by rw [hpc]; rfl))
        (fun i hi => by cases hi)
      rw [hpc]
      exact Nat.le_refl _

/-! ## Steps of a processor -/

/-- A step of processor `j` to the place `pc`. -/
theorem BootInv.of_setAp (h : BootInv P m) {j : Nat} {pc : ApPc} (hstart : m.started j = true)
    (hap : m'.ap = Function.update m.ap j pc) (hboot : m'.boot = m.boot)
    (hstarted : m'.started = m.started)
    (hid : ∀ i, i ≠ j → m.started i = true → m'.cpuID (P.lapicId i) = m.cpuID (P.lapicId i))
    (hplace : m'.PlaceInv P j pc)
    (hcallout : m'.calloutCpuNumber = noCallout ∨ m'.calloutCpuNumber = m.calloutCpuNumber)
    (htake : ∀ i, i ≠ j → m.ap i = .take → m'.PlaceInv P i .take)
    (hack : ∀ k, m.boot.acknowledged m'.calloutCpuNumber = some k →
      m'.ap k = .up (BitVec.ofNat 8 k)) : BootInv P m' where
  range := hboot ▸ h.range
  callout := by
    rcases hcallout with hno | hsame
    · exact Or.inl hno
    · rw [hsame, hboot]
      exact h.callout
  started := by
    rw [hstarted, hboot]
    exact h.started
  running i hi := by
    rw [hstarted]
    by_cases hij : i = j
    · exact hij ▸ hstart
    · rw [hap, Function.update_of_ne hij] at hi
      exact h.running i hi
  place i := by
    rw [hap]
    by_cases hij : i = j
    · subst hij
      simpa using hplace
    · rw [Function.update_of_ne hij]
      by_cases hhalted : m.ap i = .halted
      · rw [hhalted]
        trivial
      · exact (h.place i).frame (htake i hij) (hid i hij (h.running i hhalted))
  acknowledged := by
    rw [hboot]
    exact hack

/-- A step of processor `j` that does not touch `callout_cpu_number`. -/
theorem BootInv.own (h : BootInv P m) {j : Nat} {pc : ApPc} (hstart : m.started j = true)
    (hap : m'.ap = Function.update m.ap j pc) (hboot : m'.boot = m.boot)
    (hstarted : m'.started = m.started)
    (hid : ∀ i, i ≠ j → m.started i = true → m'.cpuID (P.lapicId i) = m.cpuID (P.lapicId i))
    (hplace : m'.PlaceInv P j pc) (hcallout : m'.calloutCpuNumber = m.calloutCpuNumber)
    (hup : ∀ cpuId, m.ap j ≠ .up cpuId) : BootInv P m' := by
  refine h.of_setAp hstart hap hboot hstarted hid hplace (Or.inr hcallout) ?_ ?_
  · intro i _ hi hround
    have hti := h.place i
    rw [hi] at hti
    rw [hcallout]
    exact hti (hboot ▸ hround)
  · intro k hk
    rw [hcallout] at hk
    have hkup := h.acknowledged k hk
    have hkj : k ≠ j := by
      rintro rfl
      exact hup _ hkup
    rw [hap, Function.update_of_ne hkj]
    exact hkup

/-- The call-in of processor `j`: nobody else can be waiting for the variable, and the boot CPU
waits for nobody else. -/
theorem BootInv.signal (h : BootInv P m) {j : Nat} {cpuId : BitVec 8}
    (hpc : m.ap j = .signal cpuId)
    (hin : m.calloutCpuNumber = noCallout ∨ m.boot.round = j) :
    BootInv P ({ m with calloutCpuNumber := noCallout }.setAp j (.up cpuId)) := by
  have hplace := h.place j
  rw [hpc] at hplace
  obtain ⟨⟨hval, hj⟩, hid⟩ := hplace
  have hstart : m.started j = true := h.running j (by simp [hpc])
  -- a processor that has called in already is not this one
  have hother : ∀ k, m.ap k = .up (BitVec.ofNat 8 k) →
      Function.update m.ap j (.up cpuId) k = .up (BitVec.ofNat 8 k) := by
    intro k hk
    have hkj : k ≠ j := fun e => by simp [e, hpc] at hk
    rw [Function.update_of_ne hkj]
    exact hk
  refine h.of_setAp hstart rfl rfl rfl (fun _ _ _ => rfl) ⟨⟨hval, hj⟩, hid⟩ (Or.inl rfl) ?_ ?_
  · intro i hij hi hround
    have hti := h.place i
    rw [hi] at hti
    have hround' : m.boot.round = i := hround
    -- a processor of this round that is about to read would find its number, not -1
    rcases hin with hno | hin
    · exact absurd ((hti hround').1.symm.trans hno) (ofNat_ne_noCallout (by
        have := (hti hround').2
        omega))
    · exact absurd (hround'.symm.trans hin) hij
  · intro k hk
    rcases hin with hno | hin
    · exact hother k (h.acknowledged k (hno ▸ hk))
    · -- an acknowledged processor is the one of the round, or was acknowledged before
      cases hb : m.boot with
      | call i => rw [hb] at hk; cases hk
      | reset i => rw [hb] at hk; cases hk
      | sendInit i => rw [hb] at hk; cases hk
      | sendStartup i n => rw [hb] at hk; cases hk
      | delivery i n timeout => rw [hb] at hk; cases hk
      | callout i => rw [hb] at hk; cases hk
      | callin i timeout =>
          rw [hb] at hk hin
          obtain rfl : i = k := Option.some.inj hk
          obtain rfl : i = j := hin
          simp [BootState.setAp, hval]
      | returned i result =>
          refine hother k (h.acknowledged k ?_)
          rw [hb] at hk ⊢
          exact hk

/-- A number that is offered in the round of a started processor is its own. -/
theorem BootInv.offered_of_round (h : BootInv P m) {j k : Nat} (hstart : m.started j = true)
    (hround : m.boot.round = j) (hoff : m.boot.offered = some k) : k = j := by
  have hlast := (h.started j hstart).2.2
  have hrange := h.range
  cases hb : m.boot with
  | call i =>
      rw [hb] at hoff hround
      exact (Option.some.inj hoff).symm.trans hround
  | reset i =>
      -- the number of the round before is still offered, and the processor not started yet
      rw [hb] at hlast hround hrange
      have hlast' : j ≤ i - 1 := hlast
      have hi : 1 ≤ i := hrange.1.1
      have hij : i = j := hround
      omega
  | callin i timeout =>
      rw [hb] at hoff hround
      exact (Option.some.inj hoff).symm.trans hround
  | returned i result =>
      rw [hb] at hoff hround
      exact (Option.some.inj hoff).symm.trans hround
  | sendInit i => rw [hb] at hoff; cases hoff
  | sendStartup i n => rw [hb] at hoff; cases hoff
  | delivery i n timeout => rw [hb] at hoff; cases hoff
  | callout i => rw [hb] at hoff; cases hoff

/-- A step of a processor. -/
theorem BootInv.apStep (h : BootInv P m) {j : Nat} (hin : m.inTime (.ap j) = true)
    (hstep : m.apStep P j = some m') : BootInv P m' := by
  have hplace := h.place j
  cases hpc : m.ap j with
  | halted =>
      simp only [BootState.apStep, hpc] at hstep
      split at hstep
      · rename_i hstart
        obtain rfl := Option.some.inj hstep
        exact h.own hstart rfl rfl rfl (fun _ _ _ => rfl) trivial rfl (by simp [hpc])
      · cases hstep
  | spin =>
      have hstart : m.started j = true := h.running j (by simp [hpc])
      simp only [BootState.apStep, hpc] at hstep
      split at hstep
      · obtain rfl := Option.some.inj hstep
        exact h
      · rename_i hneg
        obtain rfl := Option.some.inj hstep
        refine h.own hstart rfl rfl rfl (fun _ _ _ => rfl) ?_ rfl (by simp [hpc])
        intro hround
        have hround' : m.boot.round = j := hround
        -- a number that is not negative is the offered one
        rcases h.callout with hno | ⟨-, k, hoff, hval, hlt⟩
        · rw [hno] at hneg
          exact absurd (by decide) hneg
        · obtain rfl := h.offered_of_round hstart hround' hoff
          exact ⟨hval, lt_of_not_negative hlt (hval ▸ hneg)⟩
  | take =>
      have hstart : m.started j = true := h.running j (by simp [hpc])
      rw [hpc] at hplace
      have hround : m.boot.round = j := by simpa [inTime, hpc] using hin
      simp only [BootState.apStep, hpc] at hstep
      obtain rfl := Option.some.inj hstep
      exact h.own hstart rfl rfl rfl (fun _ _ _ => rfl) (hplace hround) rfl (by simp [hpc])
  | setLogical cpuId =>
      have hstart : m.started j = true := h.running j (by simp [hpc])
      rw [hpc] at hplace
      simp only [BootState.apStep, hpc] at hstep
      obtain rfl := Option.some.inj hstep
      exact h.own hstart rfl rfl rfl (fun _ _ _ => rfl) hplace rfl (by simp [hpc])
  | storeLogical cpuId =>
      have hstart : m.started j = true := h.running j (by simp [hpc])
      rw [hpc] at hplace
      simp only [BootState.apStep, hpc] at hstep
      obtain rfl := Option.some.inj hstep
      exact h.own hstart rfl rfl rfl (fun _ _ _ => rfl) hplace rfl (by simp [hpc])
  | storeID cpuId =>
      have hstart : m.started j = true := h.running j (by simp [hpc])
      rw [hpc] at hplace
      simp only [BootState.apStep, hpc] at hstep
      obtain rfl := Option.some.inj hstep
      refine h.own hstart rfl rfl rfl ?_ ⟨hplace, ?_⟩ rfl (by simp [hpc])
      · intro i hij hi
        have hne : P.lapicId i ≠ P.lapicId j := fun e =>
          hij (P.lapicId_inj i (h.started i hi).2.1 j (h.started j hstart).2.1 e)
        exact Function.update_of_ne hne _ _
      · simp [BootState.setAp]
  | signal cpuId =>
      simp only [BootState.apStep, hpc] at hstep
      obtain rfl := Option.some.inj hstep
      refine h.signal hpc ?_
      simpa [inTime, hpc] using hin
  | up cpuId =>
      simp only [BootState.apStep, hpc] at hstep
      cases hstep

theorem BootInv.step (h : BootInv P m) {i : BootLabel} (hin : m.inTime i = true)
    (hstep : m.step P i = some m') : BootInv P m' := by
  cases i with
  | boot delivered => exact h.bootStep hin hstep
  | ap j => exact h.apStep hin hstep

/-! ## The result -/

/-- The ids taken are distinct and not zero, and `bootCPU` has returned true only after the
processor has stored its number. -/
structure Handshake (P : Platform) (m : BootState) : Prop where
  distinct : ∀ i j cpuId, (m.ap i).taken? = some cpuId → (m.ap j).taken? = some cpuId → i = j
  nonzero : ∀ j, (m.ap j).taken? ≠ some 0#8
  stored : ∀ k, m.boot = .returned k true →
    m.ap k = .up (BitVec.ofNat 8 k) ∧ (m.cpuID (P.lapicId k)).toNat = k

/-- A processor has taken its own number. -/
theorem BootInv.taken (h : BootInv P m) {j : Nat} {cpuId : BitVec 8}
    (hj : (m.ap j).taken? = some cpuId) : cpuId.toNat = j ∧ 1 ≤ j := by
  have hplace := h.place j
  have hrunning := h.running j
  have hown : cpuId = BitVec.ofNat 8 j ∧ j < 128 := by
    revert hplace hj
    cases m.ap j with
    | halted => intro hj; cases hj
    | spin => intro hj; cases hj
    | take => intro hj; cases hj
    | setLogical own => rintro hj hplace; exact Option.some.inj hj ▸ hplace
    | storeLogical own => rintro hj hplace; exact Option.some.inj hj ▸ hplace
    | storeID own => rintro hj hplace; exact Option.some.inj hj ▸ hplace
    | signal own => rintro hj hplace; exact Option.some.inj hj ▸ hplace.1
    | up own => rintro hj hplace; exact Option.some.inj hj ▸ hplace.1
  have hstart : m.started j = true := by
    refine hrunning fun hhalted => ?_
    rw [hhalted] at hj
    cases hj
  exact ⟨hown.1 ▸ toNat_ofNat_of_lt hown.2, (h.started j hstart).1⟩

theorem BootInv.handshake (h : BootInv P m) : Handshake P m where
  distinct i j cpuId hi hj := (h.taken hi).1.symm.trans (h.taken hj).1
  nonzero j hj := by
    obtain ⟨hval, hpos⟩ := h.taken hj
    have hzero : j = 0 := hval.symm
    omega
  stored k hk := by
    have hup : m.ap k = .up (BitVec.ofNat 8 k) := by
      refine h.acknowledged k ?_
      rw [hk]
      rfl
    have hplace := h.place k
    rw [hup] at hplace
    obtain ⟨⟨-, hlt⟩, hid⟩ := hplace
    exact ⟨hup, by rw [hid]; exact toNat_ofNat_of_lt hlt⟩

/-- In every run whose steps are in time the hand-shake gives unique ids. -/
theorem unique_ids_in_time (P : Platform) (cpuID logicalLAPICID : Nat → BitVec 8) (m : BootState)
    (h : Runs (step P) (fun m i => m.inTime i = true) (init cpuID logicalLAPICID) m) :
    Handshake P m := by
  have hinv : BootInv P m := by
    apply Runs.invariant h
    · exact bootInv_init P cpuID logicalLAPICID
    · intro a b i ha hin hstep
      exact ha.step hin hstep
  exact hinv.handshake

/-- Three processors whose LAPIC ids are their numbers. -/
def threeProcessors : Platform where
  cpuCount := 3
  lapicId k := k
  lapicId_inj _ _ _ _ h := h
  startEip := 0x40000#32
  externalAPIC := false

/-- Both application processors call in. -/
theorem unique_ids_in_time_threeProcessors : ∃ m, m.boot = .returned 2 true ∧
    Handshake threeProcessors m := by
  have hrun : ∃ m, exec (fun m i => if m.inTime i then step threeProcessors m i else none)
      (init (fun _ => 0) fun _ => 0)
      (List.replicate 6 (.boot true) ++ List.replicate 7 (.ap 1) ++
        List.replicate 8 (.boot true) ++ List.replicate 7 (.ap 2) ++ [.boot true]) = some m ∧
      m.boot = .returned 2 true := ⟨_, rfl, rfl⟩
  obtain ⟨m, hm, hboot⟩ := hrun
  exact ⟨m, hboot, unique_ids_in_time threeProcessors _ _ m
    (runs_of_exec_if (fun _ _ hin => hin) hm)⟩

/-- The boot CPU gives up when nobody calls in. -/
theorem callin_expires {k : Nat} (hno : m.calloutCpuNumber ≠ noCallout) (n : Nat) :
    ∀ {timeout : Nat}, timeout + n = 500 →
      Reaches (step P) (m.goto (.callin k timeout)) (m.goto (.returned k false)) := by
  induction n with
  | zero =>
      rintro timeout rfl
      exact Runs.refl.tail (i := .boot true) trivial rfl
  | succ n ih =>
      intro timeout hsum
      have hstep : step P (m.goto (.callin k timeout)) (.boot true) =
          some (m.goto (.callin k (timeout + 1))) := by
        have hlt : timeout < 500 := by omega
        simp [step, bootStep, goto, hlt, hno]
      exact (Runs.refl.tail trivial hstep).trans (ih (by omega))

/-- Processor 1 is slow: the boot CPU gives up and goes on to processor 2, and both take the
number 2. -/
theorem ids_taken_twice : ¬ ∀ (P : Platform) (cpuID logicalLAPICID : Nat → BitVec 8)
    (m : BootState), Reaches (step P) (init cpuID logicalLAPICID) m → Handshake P m := by
  intro hclaim
  have hfirst : ∃ m : BootState, exec (step threeProcessors) (init (fun _ => 0) fun _ => 0)
      (List.replicate 6 (.boot true)) = some (m.goto (.callin 1 0)) ∧
      m.calloutCpuNumber ≠ noCallout ∧
      ∃ m', exec (step threeProcessors) (m.goto (.returned 1 false))
        (List.replicate 7 (.boot true) ++ List.replicate 3 (.ap 1) ++ List.replicate 3 (.ap 2)) =
          some m' ∧ (m'.ap 1).taken? = some 2#8 ∧ (m'.ap 2).taken? = some 2#8 :=
    ⟨_, rfl, by decide, _, rfl, rfl, rfl⟩
  obtain ⟨m, hm, hno, m', hm', h1, h2⟩ := hfirst
  have hrun := (reaches_of_exec hm).trans
    ((callin_expires hno 500 (Nat.zero_add 500)).trans (reaches_of_exec hm'))
  have hdistinct := (hclaim threeProcessors _ _ m' hrun).distinct 1 2 _ h1 h2
  cases hdistinct

end BootState

end MPStuBS.Machine
