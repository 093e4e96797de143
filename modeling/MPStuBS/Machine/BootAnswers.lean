import MPStuBS.Machine.BootHandshake

/-!
# Every processor answers

Runs of the boot hand-shake in which no call of `bootCPU` returns false. Then the
processors of the earlier rounds are up when a round begins, only the processor of
the round is at work (`AnswerInv.active`), and so every step is in time. The
processors that are up are the ones that `onlineCPUs` counts.
-/

set_option autoImplicit false

namespace MPStuBS.Machine

open MPStuBS.Lib.Run

namespace BootPc

/-- `bootCPU` has returned false. -/
def gaveUp : BootPc → Bool
  | .returned _ result => !result
  | _ => false

/-- The number of the processors that are up, the boot CPU included. -/
def answered : BootPc → Nat
  | .call i => i
  | .reset k => k
  | .sendInit k => k
  | .sendStartup k _ => k
  | .delivery k _ _ => k
  | .callout k => k
  | .callin k _ => k
  | .returned k result => if result then k + 1 else k

end BootPc

namespace BootState

/-- The condition on a step: `bootCPU` does not return false. -/
def answers (P : Platform) (m : BootState) (i : BootLabel) : Bool :=
  match m.step P i with
  | some m' => !m'.boot.gaveUp
  | none => true

/-- The processors up to the current round are up, and the boot CPU has counted them. -/
structure AnswerInv (P : Platform) (m : BootState) : Prop where
  boot : BootInv P m
  up : ∀ j, 1 ≤ j → j < m.boot.answered → m.ap j = .up (BitVec.ofNat 8 j)
  online : m.onlineCPUs = m.boot.answered
  count : m.boot.answered ≤ P.cpuCount
  going : m.boot.gaveUp = false

variable {P : Platform} {m m' : BootState}

theorem answerInv_init (P : Platform) (hcount : 1 ≤ P.cpuCount)
    (cpuID logicalLAPICID : Nat → BitVec 8) : AnswerInv P (init cpuID logicalLAPICID) where
  boot := bootInv_init P cpuID logicalLAPICID
  up _ hj hlt := absurd hlt (Nat.not_lt.mpr hj)
  online := rfl
  count := hcount
  going := rfl

/-- A processor that was started and is not up is the one of the round. -/
theorem AnswerInv.active (h : AnswerInv P m) {j : Nat} (hrun : m.ap j ≠ .halted)
    (hup : ∀ cpuId, m.ap j ≠ .up cpuId) : m.boot.round = j := by
  obtain ⟨hpos, -, hlast⟩ := h.boot.started j (h.boot.running j hrun)
  have hge : m.boot.answered ≤ j := by
    by_contra hlt
    exact hup _ (h.up j hpos (by omega))
  have hgoing := h.going
  -- between two rounds the last started processor has answered, so only an open round is left
  revert hlast hge hgoing
  cases m.boot with
  | call i => intro (hlast : j ≤ i - 1) (hge : i ≤ j) _; omega
  | reset k => intro (hlast : j ≤ k - 1) (hge : k ≤ j) _; omega
  | sendInit k => intro (hlast : j ≤ k - 1) (hge : k ≤ j) _; omega
  | sendStartup k n => intro hlast hge _; exact Nat.le_antisymm hge hlast
  | delivery k n timeout => intro hlast hge _; exact Nat.le_antisymm hge hlast
  | callout k => intro hlast hge _; exact Nat.le_antisymm hge hlast
  | callin k timeout => intro hlast hge _; exact Nat.le_antisymm hge hlast
  | returned k result =>
      cases result with
      | false => intro _ _ hgoing; cases hgoing
      | true => intro (hlast : j ≤ k) (hge : k + 1 ≤ j) _; omega

/-- Every step is in time. -/
theorem AnswerInv.inTime (h : AnswerInv P m) (hcount : P.cpuCount ≤ 255) {i : BootLabel}
    (hstep : m.step P i = some m') : m.inTime i = true := by
  cases i with
  | boot delivered =>
      have hrange := h.boot.range
      cases hpc : m.boot with
      -- the one case with a condition: the number of the round must be a valid callout
      | callout k =>
          rw [hpc] at hrange
          have hk : k < P.cpuCount := hrange.1.2
          simp only [BootState.inTime, hpc, decide_eq_true_eq]
          omega
      | call i => simp only [BootState.inTime, hpc]
      | reset k => simp only [BootState.inTime, hpc]
      | sendInit k => simp only [BootState.inTime, hpc]
      | sendStartup k n => simp only [BootState.inTime, hpc]
      | delivery k n timeout => simp only [BootState.inTime, hpc]
      | callin k timeout => simp only [BootState.inTime, hpc]
      | returned k result => simp only [BootState.inTime, hpc]
  | ap j =>
      -- a processor on its way up is the one of the round
      have hround : m.ap j ≠ .halted → (m.boot.round == j) = true := by
        intro hrun
        rw [beq_iff_eq]
        refine h.active hrun fun cpuId hup => ?_
        have hnone : m.apStep P j = none := by
          simp only [BootState.apStep, hup]
        exact absurd (hnone.symm.trans hstep) (by simp)
      cases hpc : m.ap j with
      | spin => simp only [BootState.inTime, hpc, hround (by simp [hpc]), Bool.or_true]
      | take => simp only [BootState.inTime, hpc, hround (by simp [hpc])]
      | signal cpuId => simp only [BootState.inTime, hpc, hround (by simp [hpc]), Bool.or_true]
      | halted => simp only [BootState.inTime, hpc]
      | setLogical cpuId => simp only [BootState.inTime, hpc]
      | storeLogical cpuId => simp only [BootState.inTime, hpc]
      | storeID cpuId => simp only [BootState.inTime, hpc]
      | up cpuId => simp only [BootState.inTime, hpc]

/-- The boot CPU goes on without another answer. -/
theorem AnswerInv.keep (h : AnswerInv P m) (hinv : BootInv P m') (hap : m'.ap = m.ap)
    (hanswered : m'.boot.answered = m.boot.answered) (honline : m'.onlineCPUs = m.onlineCPUs)
    (hgoing : m'.boot.gaveUp = false) : AnswerInv P m' where
  boot := hinv
  up j hj hlt := by
    rw [hap]
    exact h.up j hj (hanswered ▸ hlt)
  online := by rw [honline, hanswered, h.online]
  count := hanswered ▸ h.count
  going := hgoing

/-- A step of the boot CPU after which `bootCPU` has not returned false. -/
theorem AnswerInv.bootStep (h : AnswerInv P m) {delivered : Bool} (hinv : BootInv P m')
    (hstep : m.bootStep P delivered = some m') (hgoing : m'.boot.gaveUp = false) :
    AnswerInv P m' := by
  cases bootStep_move hstep with
  -- a `start_eip` that no vector can express makes `bootCPU` return false
  | weird hpc => cases hgoing
  | enter hpc => exact h.keep hinv rfl (by rw [hpc]; rfl) rfl rfl
  | reset hpc => exact h.keep hinv rfl (by rw [hpc]; rfl) rfl rfl
  | external hpc => cases hgoing
  | sendInit hpc => exact h.keep hinv rfl (by rw [hpc]; rfl) rfl rfl
  | sendStartup hpc => exact h.keep hinv rfl (by rw [hpc]; rfl) rfl rfl
  | delivered hpc => exact h.keep hinv rfl (by rw [hpc]; rfl) rfl rfl
  | pollDelivery hpc => exact h.keep hinv rfl (by rw [hpc]; rfl) rfl rfl
  | again hpc => exact h.keep hinv rfl (by rw [hpc]; rfl) rfl rfl
  | undelivered hpc => cases hgoing
  | callout hpc => exact h.keep hinv rfl (by rw [hpc]; rfl) rfl rfl
  | @answered k timeout hpc hno =>
      -- the processor of this round has answered
      have hanswered : m.boot.answered = k := by rw [hpc]; rfl
      refine ⟨hinv, fun j hj hlt => ?_, ?_, ?_, rfl⟩
      · by_cases hjk : j = k
        · subst hjk
          refine h.boot.acknowledged j ?_
          rw [hpc]
          exact if_pos hno
        · have hlt' : j < k + 1 := hlt
          exact h.up j hj (by omega)
      · show m.onlineCPUs + 1 = k + 1
        rw [h.online, hanswered]
      · exact hinv.range.2
  | pollCallin hpc => exact h.keep hinv rfl (by rw [hpc]; rfl) rfl rfl
  | unanswered hpc => cases hgoing
  | @returned k result hpc =>
      have hresult : result = true := by
        have hgoing' := h.going
        rw [hpc] at hgoing'
        simpa [BootPc.gaveUp] using hgoing'
      exact h.keep hinv rfl (by rw [hpc, hresult]; rfl) rfl rfl

/-- What a step of processor `j` leaves alone. -/
theorem apStep_frame {j : Nat} (hstep : m.apStep P j = some m') :
    m'.boot = m.boot ∧ m'.onlineCPUs = m.onlineCPUs ∧ (∀ k, k ≠ j → m'.ap k = m.ap k) ∧
      ∀ id, id ≠ P.lapicId j → m'.cpuID id = m.cpuID id := by
  cases hpc : m.ap j with
  | halted =>
      simp only [BootState.apStep, hpc] at hstep
      split at hstep
      · obtain rfl := Option.some.inj hstep
        exact ⟨rfl, rfl, fun k hk => Function.update_of_ne hk _ _, fun _ _ => rfl⟩
      · cases hstep
  | spin =>
      simp only [BootState.apStep, hpc] at hstep
      split at hstep
      · obtain rfl := Option.some.inj hstep
        exact ⟨rfl, rfl, fun _ _ => rfl, fun _ _ => rfl⟩
      · obtain rfl := Option.some.inj hstep
        exact ⟨rfl, rfl, fun k hk => Function.update_of_ne hk _ _, fun _ _ => rfl⟩
  | take =>
      simp only [BootState.apStep, hpc] at hstep
      obtain rfl := Option.some.inj hstep
      exact ⟨rfl, rfl, fun k hk => Function.update_of_ne hk _ _, fun _ _ => rfl⟩
  | setLogical cpuId =>
      simp only [BootState.apStep, hpc] at hstep
      obtain rfl := Option.some.inj hstep
      exact ⟨rfl, rfl, fun k hk => Function.update_of_ne hk _ _, fun _ _ => rfl⟩
  | storeLogical cpuId =>
      simp only [BootState.apStep, hpc] at hstep
      obtain rfl := Option.some.inj hstep
      exact ⟨rfl, rfl, fun k hk => Function.update_of_ne hk _ _, fun _ _ => rfl⟩
  | storeID cpuId =>
      simp only [BootState.apStep, hpc] at hstep
      obtain rfl := Option.some.inj hstep
      exact ⟨rfl, rfl, fun k hk => Function.update_of_ne hk _ _,
        fun id hid => Function.update_of_ne hid _ _⟩
  | signal cpuId =>
      simp only [BootState.apStep, hpc] at hstep
      obtain rfl := Option.some.inj hstep
      exact ⟨rfl, rfl, fun k hk => Function.update_of_ne hk _ _, fun _ _ => rfl⟩
  | up cpuId =>
      simp only [BootState.apStep, hpc] at hstep
      cases hstep

/-- A processor that is up stays up. -/
theorem apStep_up {j k : Nat} {cpuId : BitVec 8} (hstep : m.apStep P j = some m')
    (hk : m.ap k = .up cpuId) : m'.ap k = .up cpuId := by
  have hkj : k ≠ j := by
    rintro rfl
    simp only [BootState.apStep, hk] at hstep
    cases hstep
  rw [(apStep_frame hstep).2.2.1 k hkj, hk]

/-- The boot CPU touches neither the places of the processors nor the ids. -/
theorem bootStep_frame {delivered : Bool} (hstep : m.bootStep P delivered = some m') :
    m'.ap = m.ap ∧ m'.cpuID = m.cpuID := by
  cases bootStep_move hstep <;> exact ⟨rfl, rfl⟩

theorem AnswerInv.apStep (h : AnswerInv P m) {j : Nat} (hinv : BootInv P m')
    (hstep : m.apStep P j = some m') : AnswerInv P m' := by
  obtain ⟨hboot, honline, -, -⟩ := apStep_frame hstep
  refine ⟨hinv, fun k hk hlt => ?_, ?_, ?_, ?_⟩
  · rw [hboot] at hlt
    exact apStep_up hstep (h.up k hk hlt)
  · rw [honline, hboot, h.online]
  · rw [hboot]
    exact h.count
  · rw [hboot]
    exact h.going

theorem AnswerInv.step (h : AnswerInv P m) (hcount : P.cpuCount ≤ 255) {i : BootLabel}
    (hanswers : m.answers P i = true) (hstep : m.step P i = some m') : AnswerInv P m' := by
  have hinv : BootInv P m' := h.boot.step (h.inTime hcount hstep) hstep
  cases i with
  | boot delivered =>
      have hgoing : m'.boot.gaveUp = false := by
        simpa only [answers, hstep, Bool.not_eq_true'] using hanswers
      exact h.bootStep hinv hstep hgoing
  | ap j => exact h.apStep hinv hstep

/-- A processor that is up is listed and finds its own number under its LAPIC id. -/
theorem AnswerInv.id (h : AnswerInv P m) {j : Nat} {cpuId : BitVec 8} (hj : m.ap j = .up cpuId) :
    (m.cpuID (P.lapicId j)).toNat = j ∧ j < P.cpuCount := by
  have hplace := h.boot.place j
  rw [hj] at hplace
  obtain ⟨⟨hval, hlt⟩, hid⟩ := hplace
  have hstarted := h.boot.started j (h.boot.running j (by simp [hj]))
  rw [hid, hval]
  exact ⟨toNat_ofNat_of_lt hlt, hstarted.2.1⟩

/-- The entry of the boot CPU keeps its value. -/
theorem BootInv.zero_step (h : BootInv P m) {i : BootLabel} (hstep : m.step P i = some m') :
    m'.cpuID (P.lapicId 0) = m.cpuID (P.lapicId 0) := by
  cases i with
  | boot delivered => exact congrFun (bootStep_frame hstep).2 _
  | ap j =>
      by_cases hhalted : m.ap j = .halted
      · simp only [BootState.step, BootState.apStep, hhalted] at hstep
        split at hstep
        · obtain rfl := Option.some.inj hstep
          rfl
        · cases hstep
      · obtain ⟨hpos, hlt, -⟩ := h.started j (h.running j hhalted)
        refine (apStep_frame hstep).2.2.2 _ fun heq => ?_
        -- a started processor has a LAPIC id of its own, so it stores elsewhere
        have hzero := P.lapicId_inj 0 (Nat.lt_of_le_of_lt (Nat.zero_le j) hlt) j hlt heq
        omega

/-! ## Runs in which every processor answers -/

/-- One round, without a wait. -/
def roundLabels (k : Nat) : List BootLabel :=
  [.boot false, .boot false, .boot false, .boot false, .boot true, .boot false,
    .ap k, .ap k, .ap k, .ap k, .ap k, .ap k, .ap k, .boot false, .boot false]

/-- The state behind the round of processor `k`. -/
def afterRound (P : Platform) (m : BootState) (k : Nat) : BootState where
  calloutCpuNumber := noCallout
  apStack := topOfStack k
  onlineCPUs := m.onlineCPUs + 1
  cpuID := Function.update m.cpuID (P.lapicId k) (BitVec.ofNat 8 k)
  logicalLAPICID := Function.update m.logicalLAPICID (BitVec.ofNat 8 k).toNat
    (BitVec.ofNat 8 (1 <<< (BitVec.ofNat 8 k).toNat))
  boot := .call (k + 1)
  ap := Function.update m.ap k (.up (BitVec.ofNat 8 k))
  started := Function.update m.started k true
  esp := Function.update m.esp k (topOfStack k)
  logicalDestination := Function.update m.logicalDestination k
    (BitVec.ofNat 8 (1 <<< (BitVec.ofNat 8 k).toNat))

/-- The boot CPU, or a processor with a number of its own, takes the step, and `bootCPU` does not
return false. -/
def proceeds (P : Platform) (m : BootState) (i : BootLabel) : Bool :=
  m.answers P i && match i with
    | .boot _ => true
    | .ap j => j != 0

theorem exec_round {k : Nat} (hweird : P.weirdStartEip = false) (hapic : P.externalAPIC = false)
    (hpc : m.boot = .call k) (hpos : 1 ≤ k) (hk : k < P.cpuCount) (hlt : k < 128)
    (hap : m.ap k = .halted) :
    exec (fun m i => if m.proceeds P i then m.step P i else none) m (roundLabels k) =
      some (afterRound P m k) := by
  have hneg : ¬ (BitVec.ofNat 8 k).toInt < 0 := by
    rw [BitVec.toInt_neg_iff, BitVec.toNat_ofNat]
    omega
  have hne : (k != 0) = true := by
    rw [bne_iff_ne]
    omega
  simp only [exec, roundLabels, proceeds, answers, step, bootStep, apStep, hpc, hk, hweird, hapic,
    goto, setAp, startUp, hap, hneg, hne, if_true, if_false, Function.update_self,
    Function.update_idem, Bool.false_eq_true, BootPc.gaveUp, Bool.not_false, Bool.and_true]
  simp [afterRound]

/-- All processors can be booted, one after the other. -/
theorem runs_rounds (hweird : P.weirdStartEip = false) (hapic : P.externalAPIC = false)
    (cpuID logicalLAPICID : Nat → BitVec 8) {k : Nat} (hpos : 1 ≤ k) (hk : k ≤ P.cpuCount)
    (hlt : k ≤ 128) :
    ∃ m, Runs (step P) (fun m i => m.proceeds P i = true) (init cpuID logicalLAPICID) m ∧
      m.boot = .call k ∧
      (∀ j, 1 ≤ j → j < k → m.ap j = .up (BitVec.ofNat 8 j)) ∧
      ∀ j, k ≤ j → m.ap j = .halted := by
  induction hpos with
  | refl => exact ⟨_, .refl, rfl, fun j hj hlt => absurd hlt (by omega), fun _ _ => rfl⟩
  | @step k hpos ih =>
      have hpos : 1 ≤ k := hpos
      obtain ⟨m, hruns, hpc, hup, hhalted⟩ := ih (by omega) (by omega)
      refine ⟨afterRound P m k, hruns.trans ?_, rfl, fun j hj hlt => ?_, fun j hj => ?_⟩
      · exact runs_of_exec_if (fun _ _ h => h)
          (exec_round hweird hapic hpc hpos (by omega) (by omega) (hhalted k (Nat.le_refl k)))
      · show Function.update m.ap k _ j = _
        by_cases hjk : j = k
        · rw [hjk, Function.update_self]
        · rw [Function.update_of_ne hjk]
          exact hup j hj (by omega)
      · show Function.update m.ap k _ j = _
        rw [Function.update_of_ne (by omega)]
        exact hhalted j (by omega)

end BootState

end MPStuBS.Machine
