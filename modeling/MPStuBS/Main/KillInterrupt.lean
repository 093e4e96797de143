import MPStuBS.Machine.BootAnswers
import MPStuBS.Machine.LogicalIds
import MPStuBS.Thread.KillTarget

/-!
# The way of a kill

`Scheduler::kill` sends the assassin interrupt to a set of CPUs with one bit. After a
boot in which every processor has answered, the local APIC that has this bit is the one
of the CPU that runs the thread. If no CPU runs it, the search of `kill` ends at the
number of CPUs, and the bit belongs to a CPU that does not exist. So the interrupt
reaches the CPU that runs the thread, and nobody else in any case (`kill_reaches_iff`).
-/

set_option autoImplicit false

namespace MPStuBS.Main

open MPStuBS.Lib.Run MPStuBS.Machine MPStuBS.Machine.BootState MPStuBS.Thread
  MPStuBS.Thread.Sched

/-! ## The CPUs after the boot -/

/-- All processors have answered, and the boot loop is over. -/
structure Booted (P : Platform) (m : BootState) : Prop where
  answered : AnswerInv P m
  logical : LogicalInv P m
  finished : m.boot = .call P.cpuCount

section Booted

variable {P : Platform} {m : BootState}

/-- In a run in which every processor answers, all steps are in time. -/
theorem booted_of_runs {cpuID logicalLAPICID : Nat → BitVec 8} (hpos : 1 ≤ P.cpuCount)
    (hcount : P.cpuCount ≤ 255)
    (h : Runs (BootState.step P) (fun m i => m.answers P i = true)
      (.init cpuID logicalLAPICID) m) (hover : m.boot = .call P.cpuCount) : Booted P m := by
  have hinv : AnswerInv P m ∧ LogicalInv P m := by
    apply Runs.invariant h
    · exact ⟨answerInv_init P hpos _ _, logicalInv_init P _ _⟩
    · rintro a b i ⟨hanswer, hlogical⟩ hok hstep
      exact ⟨hanswer.step hcount hok hstep, hlogical.step (hanswer.inTime hcount hstep) hstep⟩
  exact ⟨hinv.1, hinv.2, hover⟩

theorem Booted.online (h : Booted P m) : m.onlineCPUs = P.cpuCount := by
  rw [h.answered.online, h.finished]
  rfl

/-- The CPUs that exist are set up. -/
theorem Booted.isUp (h : Booted P m) {j : Nat} (hj : j < P.cpuCount) : m.IsUp j := by
  by_cases hzero : j = 0
  · exact .inl hzero
  · have hanswered : j < m.boot.answered := by
      rw [h.finished]
      exact hj
    exact .inr ⟨_, h.answered.up j (Nat.pos_of_ne_zero hzero) hanswered⟩

/-- A CPU that exists has its own bit, and no other number has a logical id. -/
theorem Booted.logicalId_eq (h : Booted P m) (hpos : 1 ≤ P.cpuCount) (j : Nat) :
    m.logicalId j = if j < P.cpuCount then ownBit j else 0 := by
  by_cases hj : j < P.cpuCount
  · rw [if_pos hj]
    exact (h.logical.logicalId_eq j).resolve_right fun hnot => hnot.2 (h.isUp hj)
  · have hhalted : m.ap j = .halted := by
      by_contra hrun
      exact hj (h.answered.boot.started j (h.answered.boot.running j hrun)).2.1
    have hids := (h.logical.ids j).1
    rw [hhalted] at hids
    rw [if_neg hj, logicalId, if_neg (by omega)]
    exact hids

/-- An interrupt to one number reaches the CPU with this number, if it exists. -/
theorem Booted.accepts_ownBit (h : Booted P m) (hmax : P.cpuCount ≤ 8) (hpos : 1 ≤ P.cpuCount)
    (n j : Nat) :
    acceptsFlat (m.logicalId j) (ownBit n) = true ↔ j = n ∧ n < P.cpuCount := by
  rw [h.logicalId_eq hpos]
  by_cases hj : j < P.cpuCount
  · rw [if_pos hj, acceptsFlat_ownBit, getLsbD_ownBit, Bool.and_eq_true, decide_eq_true_eq,
      decide_eq_true_eq]
    omega
  · rw [if_neg hj, acceptsFlat_zero]
    constructor
    · intro h
      cases h
    · rintro ⟨rfl, hn⟩
      exact absurd hn hj

end Booted

/-! ## The search of `kill` -/

/-- The operations are executed by CPUs that are online, within the bounds of their loops, and
`ready` is called for threads that are neither listed nor active. -/
def KernelOk (online : Nat) (s : Sched) (i : Nat × Cpu × SchedOp) : Prop :=
  (s.BoundOk i ∧ s.ReadyOk i) ∧ i.2.1.val < online

/-- The CPUs that are online. -/
def onlineCpus (n : Nat) : Finset Cpu := Finset.univ.filter fun c => c.val < n

theorem card_onlineCpus : ∀ n ≤ 4, (onlineCpus n).card = n := by
  decide

section Search

variable {s : Sched} {n : Nat} {that : ThreadPtr}

/-- Only a CPU that is online runs a thread. -/
theorem lt_of_active (hmax : n ≤ 4) (h : Runs (opStep n) (KernelOk n) .init s) {c : Cpu}
    (hc : s.life c = some that) : c.val < n := by
  have hruns : Runs (opStep (onlineCpus n).card) (OnlineOk (onlineCpus n)) .init s := by
    rw [card_onlineCpus n hmax]
    exact h.mono fun _ i hok => Finset.mem_filter.2 ⟨Finset.mem_univ _, hok.2⟩
  exact (Finset.mem_filter.1 (online_of_active hruns hc)).2

/-- If the search ends before its limit, then at a CPU that runs the thread. -/
theorem active_of_findRunning {life : Cpu → Option ThreadPtr}
    (h : findRunning life that n < n) :
    ∃ c : Cpu, c.val = findRunning life that n ∧ life c = some that := by
  rw [← running_eq_some_iff]
  rw [findRunning] at h ⊢
  cases hfind : (List.range n).find? fun target => running life target == some that with
  | none =>
      rw [hfind] at h
      exact absurd h (Nat.lt_irrefl n)
  | some target =>
      have hruns := List.find?_some hfind
      exact beq_iff_eq.1 hruns

/-- The search ends before its limit exactly if a CPU runs the thread, and there. -/
theorem findRunning_iff (hmax : n ≤ 4) (h : Runs (opStep n) (KernelOk n) .init s) (j : Nat) :
    j = findRunning s.life that n ∧ findRunning s.life that n < n ↔
      ∃ c : Cpu, c.val = j ∧ s.life c = some that := by
  obtain ⟨a, hrefines, hapart⟩ := Listing.of_runs (h.mono fun _ _ hok => hok.1)
  constructor
  · rintro ⟨rfl, hlt⟩
    exact active_of_findRunning hlt
  · rintro ⟨c, rfl, hc⟩
    have hlt := lt_of_active hmax h hc
    have hunique : ∀ d, s.life d = some that → d = c := by
      intro d hd
      rw [hrefines.life] at hc hd
      exact hapart.single d c that hd hc
    rw [findRunning_eq hc hunique (Nat.le_of_lt hlt)]
    exact ⟨rfl, hlt⟩

end Search

/-- The interrupt that `kill` sends is accepted by the CPU that runs the thread, and by no other. -/
theorem kill_reaches_iff {P : Platform} {m : BootState} {cpuID logicalLAPICID : Nat → BitVec 8}
    (hpos : 1 ≤ P.cpuCount) (hmax : P.cpuCount ≤ 4)
    (hboot : Runs (BootState.step P) (fun m i => m.answers P i = true)
      (.init cpuID logicalLAPICID) m) (hover : m.boot = .call P.cpuCount) {s : Sched}
    (hrun : Runs (opStep m.onlineCPUs) (KernelOk m.onlineCPUs) .init s) {that : ThreadPtr}
    {dest : BitVec 8} (hsends : s.KillSends that m.onlineCPUs dest) (j : Nat) :
    acceptsFlat (m.logicalId j) dest = true ↔ ∃ c : Cpu, c.val = j ∧ s.life c = some that := by
  have hbooted := booted_of_runs hpos (by omega) hboot hover
  rw [hbooted.online] at hrun hsends
  obtain ⟨-, -, rfl⟩ := killSends_iff.1 hsends
  have hdest : killDest s.life that P.cpuCount = ownBit (findRunning s.life that P.cpuCount) := rfl
  rw [hdest, hbooted.accepts_ownBit (by omega) hpos]
  exact findRunning_iff hmax hrun j

/-- Three CPUs, and a thread that CPU 1 runs. -/
theorem kill_reaches_iff_threeProcessors : ∃ (m : BootState) (s : Sched) (dest : BitVec 8),
    s.KillSends 1 m.onlineCPUs dest ∧ s.life 1 = some 1 ∧ ∀ j : Nat,
      acceptsFlat (m.logicalId j) dest = true ↔ ∃ c : Cpu, c.val = j ∧ s.life c = some 1 := by
  obtain ⟨m, hm, hover, honline⟩ : ∃ m,
      exec (fun m i => if m.answers threeProcessors i then BootState.step threeProcessors m i
        else none) (.init (fun _ => 0) fun _ => 0)
        (List.replicate 6 (.boot true) ++ List.replicate 7 (.ap 1) ++
          List.replicate 8 (.boot true) ++ List.replicate 7 (.ap 2) ++ [.boot true, .boot true]) =
        some m ∧ m.boot = .call 3 ∧ m.onlineCPUs = 3 := ⟨_, rfl, rfl, rfl⟩
  obtain ⟨s, hs, hlife, hhead⟩ : ∃ s,
      exec (fun s i => if s.useTest i && decide (i.2.1.val < 3) then opStep 3 s i else none) .init
        [(9, 1, .ready 1), (9, 1, .schedule)] = some s ∧ s.life 1 = some 1 ∧ s.jobs.head = none :=
    ⟨_, rfl, rfl, rfl⟩
  have hrun : Runs (opStep m.onlineCPUs) (KernelOk m.onlineCPUs) .init s := by
    rw [honline]
    refine runs_of_exec_if (fun s i h => ?_) hs
    rw [Bool.and_eq_true, decide_eq_true_eq] at h
    exact ⟨use_of_test h.1, h.2⟩
  have hsends : s.KillSends 1 m.onlineCPUs (killDest s.life 1 m.onlineCPUs) := by
    obtain ⟨hends, hlisted⟩ := ends_not_listed_iff.2 ⟨[], hhead, List.not_mem_nil⟩
    exact killSends_iff.2 ⟨hends, hlisted, rfl⟩
  have hboot := runs_of_exec_if (fun _ _ h => h) hm
  exact ⟨m, s, _, hsends, hlife,
    kill_reaches_iff (P := threeProcessors) (by decide) (by decide) hboot hover hrun hsends⟩

end MPStuBS.Main
