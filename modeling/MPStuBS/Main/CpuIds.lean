import MPStuBS.Machine.BootAnswers
import MPStuBS.Main.StartUp

/-!
# CPU ids in the kernel

When all CPUs answer, `getCPUID` gives every CPU that executes the kernel its own
number, and the loop of `kill` stops below the number of CPUs that are online. So
every index is less than `cpu_count` (`StartInv.access_lt`).
-/

set_option autoImplicit false

namespace MPStuBS.Main

open MPStuBS.Lib.Run MPStuBS.Machine MPStuBS.Machine.BootState MPStuBS.Guard

namespace StartUp

variable {P : Platform} {s s' : StartUp}

/-- The condition on a step: `bootCPU` does not return false. -/
def answers (P : Platform) (s : StartUp) : Label → Bool
  | .boot delivered => s.boot.answers P (.boot delivered)
  | _ => true

/-! ## The ids of the CPUs in the kernel -/

/-- The CPUs that have answered are up, the boot CPU has number 0, and only CPUs that are up have
come to the barrier. -/
structure StartInv (P : Platform) (s : StartUp) : Prop where
  boot : AnswerInv P s.boot
  zero : s.boot.cpuID (P.lapicId 0) = 0
  up : ∀ j, j ≠ 0 → s.place j ≠ .setup → ∃ cpuId, s.boot.ap j = .up cpuId

theorem startInv_init (hcount : 1 ≤ P.cpuCount) : StartInv P (init P) where
  boot := answerInv_init P hcount _ _
  zero := by
    show Function.update (fun _ => (0 : BitVec 8)) (P.lapicId 0) 0 (P.lapicId 0) = 0
    rw [Function.update_self]
  up _ _ hplace := absurd rfl hplace

theorem StartInv.bootStep (h : StartInv P s) (hcount : P.cpuCount ≤ 255) {i : BootLabel}
    {m : BootState} (hanswers : s.boot.answers P i = true) (hstep : s.boot.step P i = some m) :
    StartInv P { s with boot := m } where
  boot := h.boot.step hcount hanswers hstep
  zero := (h.boot.boot.zero_step hstep).trans h.zero
  up j hj hplace := by
    -- nobody leaves the state `up`, whoever takes the step
    obtain ⟨cpuId, hup⟩ := h.up j hj hplace
    cases i with
    | boot delivered => exact ⟨cpuId, (congrFun (bootStep_frame hstep).1 j).trans hup⟩
    | ap k => exact ⟨cpuId, apStep_up hstep hup⟩

/-- A step that leaves the hand-shake alone and moves CPU `j`. -/
theorem StartInv.move (h : StartInv P s) {j : Nat} (hboot : s'.boot = s.boot)
    (hplace : ∀ k, k ≠ j → s'.place k = s.place k)
    (hup : j ≠ 0 → ∃ cpuId, s.boot.ap j = .up cpuId) : StartInv P s' where
  boot := hboot ▸ h.boot
  zero := hboot ▸ h.zero
  up k hk hne := by
    rw [hboot]
    by_cases hkj : k = j
    · exact hkj ▸ hup (hkj ▸ hk)
    · exact h.up k hk (hplace k hkj ▸ hne)

/-- A CPU that takes a step in its main function is at the barrier, or has come to it before. -/
theorem mainStep_cases {j : Nat} (hstep : s.mainStep P j = some s') :
    s'.boot = s.boot ∧ (∀ k, k ≠ j → s'.place k = s.place k) ∧
      (s.place j = .setup → s.atBarrier P j = true) := by
  cases hpc : s.place j with
  | setup =>
      simp only [mainStep, hpc] at hstep
      split at hstep
      -- the only way out of `setup`
      · rename_i hbarrier
        obtain rfl := Option.some.inj hstep
        exact ⟨rfl, fun k hk => Function.update_of_ne hk _ _, fun _ => hbarrier⟩
      · cases hstep
  | lock =>
      simp only [mainStep, hpc] at hstep
      obtain rfl := Option.some.inj hstep
      exact ⟨rfl, fun k hk => Function.update_of_ne hk _ _, nofun⟩
  | spin current =>
      simp only [mainStep, hpc] at hstep
      split at hstep
      · obtain rfl := Option.some.inj hstep
        exact ⟨rfl, fun k hk => Function.update_of_ne hk _ _, nofun⟩
      · obtain rfl := Option.some.inj hstep
        exact ⟨rfl, fun _ _ => rfl, nofun⟩
  | load =>
      simp only [mainStep, hpc] at hstep
      obtain rfl := Option.some.inj hstep
      exact ⟨rfl, fun k hk => Function.update_of_ne hk _ _, nofun⟩
  | store loaded =>
      simp only [mainStep, hpc] at hstep
      obtain rfl := Option.some.inj hstep
      exact ⟨rfl, fun k hk => Function.update_of_ne hk _ _, nofun⟩
  | unlock =>
      simp only [mainStep, hpc] at hstep
      obtain rfl := Option.some.inj hstep
      exact ⟨rfl, fun k hk => Function.update_of_ne hk _ _, nofun⟩
  | unlockStore loaded =>
      simp only [mainStep, hpc] at hstep
      obtain rfl := Option.some.inj hstep
      exact ⟨rfl, fun k hk => Function.update_of_ne hk _ _, nofun⟩
  | wait =>
      simp only [mainStep, hpc] at hstep
      split at hstep
      · obtain rfl := Option.some.inj hstep
        exact ⟨rfl, fun _ _ => rfl, nofun⟩
      · obtain rfl := Option.some.inj hstep
        exact ⟨rfl, fun k hk => Function.update_of_ne hk _ _, nofun⟩
  | kernel =>
      simp only [mainStep, hpc] at hstep
      cases hstep

/-- A processor at the barrier is up. -/
theorem up_of_atBarrier {j : Nat} (hj : j ≠ 0) (h : s.atBarrier P j = true) :
    ∃ cpuId, s.boot.ap j = .up cpuId := by
  rw [atBarrier, if_neg hj] at h
  split at h
  · rename_i cpuId hup
    exact ⟨cpuId, hup⟩
  · cases h

theorem StartInv.mainStep (h : StartInv P s) {j : Nat} (hstep : s.mainStep P j = some s') :
    StartInv P s' := by
  obtain ⟨hboot, hplace, hbarrier⟩ := mainStep_cases hstep
  refine h.move hboot hplace fun hj => ?_
  by_cases hsetup : s.place j = .setup
  · exact up_of_atBarrier hj (hbarrier hsetup)
  · exact h.up j hj hsetup

theorem StartInv.kernelStep (h : StartInv P s) {j : Nat} {env : Env}
    (hstep : s.kernelStep j env = some s') : StartInv P s' := by
  simp only [StartUp.kernelStep] at hstep
  split at hstep
  · obtain rfl := Option.some.inj hstep
    exact ⟨h.boot, h.zero, h.up⟩
  · cases hstep

theorem StartInv.step (h : StartInv P s) (hcount : P.cpuCount ≤ 255) {l : Label}
    (hanswers : s.answers P l = true) (hstep : s.step P l = some s') : StartInv P s' := by
  cases l with
  | boot delivered =>
      simp only [StartUp.step] at hstep
      split at hstep
      · obtain ⟨m, hm, rfl⟩ := Option.map_eq_some_iff.mp hstep
        exact h.bootStep (i := .boot delivered) hcount hanswers hm
      · cases hstep
  | ap j =>
      simp only [StartUp.step] at hstep
      split at hstep
      · cases hstep
      · obtain ⟨m, hm, rfl⟩ := Option.map_eq_some_iff.mp hstep
        refine h.bootStep (i := .ap j) hcount ?_ hm
        -- a processor cannot make `bootCPU` return
        have hgoing : m.boot.gaveUp = false := by
          rw [(apStep_frame hm).1]
          exact h.boot.going
        have hm' : s.boot.step P (.ap j) = some m := hm
        simp only [BootState.answers, hm', hgoing, Bool.not_false]
  | main j =>
      simp only [StartUp.step] at hstep
      split at hstep
      · exact h.mainStep hstep
      · cases hstep
  | kernel j env =>
      simp only [StartUp.step] at hstep
      split at hstep
      · exact h.kernelStep hstep
      · cases hstep

/-- A CPU in the kernel is listed, and `getCPUID` gives its number. -/
theorem StartInv.getCPUID_eq (h : StartInv P s) (hpos : 1 ≤ P.cpuCount) {j : Nat}
    (hj : s.inKernel j = true) : s.getCPUID P j = j ∧ j < P.cpuCount := by
  by_cases hzero : j = 0
  · subst hzero
    refine ⟨?_, hpos⟩
    rw [getCPUID, h.zero]
    rfl
  · have hplace : s.place j = .kernel := by
      simpa [inKernel, hzero] using hj
    obtain ⟨cpuId, hup⟩ := h.up j hzero (by rw [hplace]; nofun)
    exact h.boot.id hup

/-- The loop of `kill` reads below its limit. -/
theorem runningAccesses_lt {limit found : Nat} {a : Activation} {acc : Access}
    (h : acc ∈ runningAccesses limit found a) : acc.index < limit := by
  unfold runningAccesses at h
  split at h
  · obtain ⟨target, htarget, rfl⟩ := List.mem_map.mp h
    have hlt := List.mem_range.mp htarget
    show target < limit
    omega
  · cases h

/-- Every index is less than the number of the CPUs. -/
theorem StartInv.access_lt (h : StartInv P s) (hpos : 1 ≤ P.cpuCount) {l : Label} {acc : Access}
    (hacc : acc ∈ s.accesses P l) : acc.index < P.cpuCount := by
  cases l with
  | boot delivered => cases hacc
  | ap j => cases hacc
  | main j => cases hacc
  | kernel j env =>
      simp only [accesses] at hacc
      split at hacc
      case isFalse => cases hacc
      case isTrue hj =>
        have hid := h.getCPUID_eq hpos hj
        split at hacc
        · cases hacc
        · rcases List.mem_append.mp hacc with hown | hrunning
          · obtain ⟨array, -, rfl⟩ := List.mem_map.mp hown
            -- the arrays that are indexed with the own id
            show s.getCPUID P j < P.cpuCount
            rw [hid.1]
            exact hid.2
          -- the loop of `kill` ends at `getNumberOfOnlineCPUs`
          · have hlt := runningAccesses_lt hrunning
            have honline := h.boot.online
            have hle := h.boot.count
            omega

end StartUp

end MPStuBS.Main
