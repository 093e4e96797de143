import MPStuBS.Lib.Loop
import MPStuBS.Thread.ActiveThreads
import MPStuBS.Thread.RoundRobin
import Mathlib.Data.Finset.Card

/-!
# Whom a kill interrupts

`Scheduler::kill` sends the assassin interrupt whenever the thread was not on the
ready list. It looks for the CPU that runs the thread among the ids below the number
of online CPUs, and takes the limit of its search loop for a CPU if it finds none. So
a thread that no CPU runs costs an interrupt as well, and a thread on a CPU whose id
exceeds the number of online CPUs is not interrupted (`kill_notifies_iff`).

Nothing is assumed about the use of the operations. A second `ready` for a thread may
have bent the ready list into a ring; `kill` then follows its links for ever unless the
thread is on it.
-/

set_option autoImplicit false

namespace MPStuBS.Thread.Sched

open MPStuBS.Object MPStuBS.Lib.LinkChain MPStuBS.Lib.Loop MPStuBS.Lib.Run

/-- The links of the ready list lead to an end. -/
def Ends (s : Sched) : Prop := ∃ l, Chain s.link s.jobs.head l

/-- `kill(that)` sends the assassin interrupt to the CPUs in `dest`. -/
def KillSends (s : Sched) (that : ThreadPtr) (online : Nat) (dest : BitVec 8) : Prop :=
  ∃ s', Returns (fun fuel => s.kill fuel that online) (.done s' (.ipi dest))

/-- `kill(that)` notifies the CPU that runs the thread, and no other. -/
def Notifies (s : Sched) (that : ThreadPtr) (online : Finset Cpu) : Prop :=
  ∀ dest, s.KillSends that online.card dest ↔
    ¬ s.Listed that ∧ ∃ c ∈ online, s.life c = some that ∧ dest = BitVec.ofNat 8 (1 <<< c.val)

variable {s s' : Sched} {that : ThreadPtr} {c d : Cpu} {online : Finset Cpu}

/-! ## When an interrupt is sent -/

/-- A list that ends without the thread is one on which the thread is not. -/
theorem ends_not_listed_iff :
    s.Ends ∧ ¬ s.Listed that ↔ ∃ l, Chain s.link s.jobs.head l ∧ that ∉ l := by
  constructor
  · rintro ⟨⟨l, hl⟩, hnot⟩
    refine ⟨l, hl, fun hmem => ?_⟩
    obtain ⟨r, hr, -, -⟩ := Segment.prefix_of_mem hl hl.nodup hmem
    exact hnot ⟨r, hr⟩
  · rintro ⟨l, hl, hmem⟩
    refine ⟨⟨l, hl⟩, ?_⟩
    rintro ⟨r, hr⟩
    exact hmem (Chain.mem_of_segment hl hr)

/-- `kill` sends an interrupt exactly if the list ends without the thread. -/
theorem killSends_iff {n : Nat} {dest : BitVec 8} :
    s.KillSends that n dest ↔ s.Ends ∧ ¬ s.Listed that ∧ dest = killDest s.life that n := by
  rw [← and_assoc, ends_not_listed_iff]
  constructor
  · rintro ⟨s', enough, hkill⟩
    have h : s.kill enough that n = some (.done s' (.ipi dest)) := hkill enough (Nat.le_refl enough)
    unfold kill at h
    split at h
    case h_1 => cases h
    case h_2 => simp at h
    case h_3 m hremove =>
      obtain ⟨l, hl, hcmp⟩ := QueueMem.chain_of_removeFrom QueueMem.sameItem that hremove
      refine ⟨⟨l, hl, fun hmem => ?_⟩, ?_⟩
      · have hself := hcmp that hmem
        simp [QueueMem.sameItem] at hself
      · simp only [Option.some.injEq, Outcome.done.injEq, Action.ipi.injEq] at h
        exact h.2.symm
  · rintro ⟨⟨l, hl, hmem⟩, rfl⟩
    refine ⟨(s.setKillFlag that).setJobs (s.setKillFlag that).jobsMem, l.length + 1, ?_⟩
    intro fuel hfuel
    have hremove : (s.setKillFlag that).jobsMem.remove fuel that QueueMem.sameItem =
        some (none, (s.setKillFlag that).jobsMem) :=
      QueueMem.removeFrom_of_chain QueueMem.sameItem that hl
        (fun y hy => decide_eq_false fun e => hmem (e ▸ hy)) hfuel
    simp only [kill, hremove]

/-! ## The search for the CPU -/

theorem running_eq_some_iff {life : Cpu → Option ThreadPtr} {n : Nat} :
    running life n = some that ↔ ∃ c : Cpu, c.val = n ∧ life c = some that := by
  unfold running
  split
  case isTrue hn =>
    constructor
    · intro h
      exact ⟨⟨n, hn⟩, rfl, h⟩
    · rintro ⟨c, rfl, hc⟩
      exact hc
  case isFalse hn =>
    constructor
    · intro h
      cases h
    · rintro ⟨c, rfl, -⟩
      exact absurd c.isLt hn

theorem findRunning_le (life : Cpu → Option ThreadPtr) (that : ThreadPtr) (limit : Nat) :
    findRunning life that limit ≤ limit := by
  unfold findRunning
  cases hfind : (List.range limit).find? fun target => running life target == some that with
  | none => exact Nat.le_refl limit
  | some n => exact Nat.le_of_lt (List.mem_range.1 (List.mem_of_find?_eq_some hfind))

/-- If only one CPU runs the thread and its id does not exceed the limit, the search ends there. An
id equal to the limit is found by not finding any. -/
theorem findRunning_eq {life : Cpu → Option ThreadPtr} {limit : Nat} (hc : life c = some that)
    (hunique : ∀ d, life d = some that → d = c) (hle : c.val ≤ limit) :
    findRunning life that limit = c.val := by
  unfold findRunning
  cases hfind : (List.range limit).find? fun target => running life target == some that with
  | some n =>
      have hn := List.find?_some hfind
      obtain ⟨d, rfl, hd⟩ := running_eq_some_iff.1 (beq_iff_eq.1 hn)
      rw [hunique d hd]
      rfl
  | none =>
      by_contra hne
      have hlt : c.val < limit := Nat.lt_of_le_of_ne hle (Ne.symm hne)
      have hmiss := List.find?_eq_none.1 hfind c.val (List.mem_range.2 hlt)
      exact hmiss (beq_iff_eq.2 (running_eq_some_iff.2 ⟨c, rfl, hc⟩))

/-- Small numbers have different masks. -/
theorem mask_injective : ∀ n < 5, ∀ m < 5,
    BitVec.ofNat 8 (1 <<< n) = BitVec.ofNat 8 (1 <<< m) → n = m := by
  decide

/-- The mask that `kill` uses is that of CPU `c` only if the search ends at `c`. -/
theorem findRunning_of_killDest {life : Cpu → Option ThreadPtr} {limit : Nat} (hlimit : limit ≤ 4)
    (h : killDest life that limit = BitVec.ofNat 8 (1 <<< c.val)) :
    findRunning life that limit = c.val := by
  have hle := findRunning_le life that limit
  exact mask_injective _ (by omega) _ (by omega) h

/-! ## The result -/

/-- The operations of a run are executed by online CPUs. -/
def OnlineOk (online : Finset Cpu) (_ : Sched) (i : Nat × Cpu × SchedOp) : Prop := i.2.1 ∈ online

/-- Only an online CPU has an active thread. -/
theorem online_of_active (h : Runs (opStep online.card) (OnlineOk online) init s)
    (hc : s.life c = some that) : c ∈ online := by
  have hidle : ∀ d, d ∉ online → s.life d = none := by
    refine h.invariant (I := fun s => ∀ d, d ∉ online → s.life d = none) (fun _ _ => rfl) ?_
    intro a b i ha hok hstep d hd
    obtain ⟨o, hexec, rfl⟩ := Option.map_eq_some_iff.1 hstep
    have hne : d ≠ i.2.1 := fun e => hd (e ▸ hok)
    rw [exec_life_of_ne hexec hne]
    exact ha d hd
  by_contra hnot
  rw [hidle c hnot] at hc
  cases hc

/-- The list is a ring without the thread: `kill` does not return, and sends nothing. -/
theorem notifies_of_ring (hring : ¬ s.Ends) (hlisted : ¬ s.Listed that)
    (honline : ∀ c, s.life c = some that → c ∈ online) :
    s.Notifies that online ↔ ∀ c, s.life c ≠ some that := by
  unfold Notifies
  simp only [killSends_iff, hring, hlisted, false_and, false_iff, not_false_eq_true, true_and]
  constructor
  · intro h c hc
    exact h _ ⟨c, honline c hc, hc, rfl⟩
  · rintro h dest ⟨c, -, hc, -⟩
    exact h c hc

/-- The list ends without the thread: `kill` sends the interrupt to one CPU. -/
theorem notifies_of_ends (hends : s.Ends) (hlisted : ¬ s.Listed that)
    (honline : ∀ c, s.life c = some that → c ∈ online) :
    s.Notifies that online ↔ ∃ c, s.life c = some that ∧ (∀ d, s.life d = some that → d = c) ∧
      c.val ≤ online.card := by
  have hcard : online.card ≤ 4 := (Finset.card_le_univ online).trans_eq (Fintype.card_fin 4)
  unfold Notifies
  simp only [killSends_iff, hends, hlisted, not_false_eq_true, true_and]
  constructor
  · intro h
    obtain ⟨c, -, hc, hdest⟩ := (h _).1 rfl
    have hfound := findRunning_of_killDest hcard hdest
    refine ⟨c, hc, fun d hd => ?_, hfound ▸ findRunning_le s.life that online.card⟩
    -- the mask of any CPU that runs the thread is the one that is sent
    have hmask := (h (BitVec.ofNat 8 (1 <<< d.val))).2 ⟨d, honline d hd, hd, rfl⟩
    have hfound' := findRunning_of_killDest hcard hmask.symm
    exact Fin.ext (hfound'.symm.trans hfound)
  · rintro ⟨c, hc, hunique, hle⟩ dest
    have hdest : killDest s.life that online.card = BitVec.ofNat 8 (1 <<< c.val) := by
      rw [killDest, findRunning_eq hc hunique hle]
    rw [hdest]
    constructor
    · intro h
      exact ⟨c, honline c hc, hc, h⟩
    · rintro ⟨d, -, hd, h⟩
      rw [h, hunique d hd]

/-- `kill` notifies exactly the CPU that runs the thread if the thread is listed, or if the list is
a ring and no CPU runs the thread, or if exactly one CPU runs it and the id of this CPU does not
exceed the number of online CPUs. In all other cases it does not. -/
theorem kill_notifies_iff (h : Runs (opStep online.card) (OnlineOk online) init s)
    (that : ThreadPtr) :
    s.Notifies that online ↔
      s.Listed that ∨
        (¬ s.Ends ∧ ∀ c, s.life c ≠ some that) ∨
        (s.Ends ∧ ∃ c, s.life c = some that ∧ (∀ d, s.life d = some that → d = c) ∧
          c.val ≤ online.card) := by
  have honline : ∀ c, s.life c = some that → c ∈ online := fun c hc => online_of_active h hc
  by_cases hlisted : s.Listed that
  · simp [Notifies, killSends_iff, hlisted]
  · by_cases hends : s.Ends
    · simp only [notifies_of_ends hends hlisted honline, hlisted, hends, not_true_eq_false,
        false_and, true_and, false_or]
    · simp only [notifies_of_ring hends hlisted honline, hlisted, hends, not_false_eq_true,
        false_and, true_and, false_or, or_false]

/-- A thread that CPU 0 runs, with one CPU online. -/
theorem kill_notifies_running : ∃ s, Runs (opStep (Finset.card {(0 : Cpu)})) (OnlineOk {0}) init s ∧
    s.Notifies 1 {0} := by
  have hready : Runs (opStep (Finset.card {(0 : Cpu)})) (OnlineOk {0}) init _ :=
    Runs.refl.tail (i := (0, 0, .ready 1)) (Finset.mem_singleton_self 0) rfl
  have hruns := hready.tail (i := (0, 0, .schedule)) (Finset.mem_singleton_self 0) rfl
  refine ⟨_, hruns, (kill_notifies_iff hruns 1).2 (.inr (.inr ⟨⟨[], rfl⟩, ?_⟩))⟩
  exact ⟨0, rfl, by decide, by decide⟩

/-- With the CPUs 0 and 3 online, the kill of the thread on CPU 3 interrupts CPU 2. -/
theorem kill_notifies_another : ¬ ∀ online s that,
    Runs (opStep online.card) (OnlineOk online) init s → s.Notifies that online := by
  intro h
  let online : Finset Cpu := {0, 3}
  have hready : Runs (opStep online.card) (OnlineOk online) init _ :=
    Runs.refl.tail (i := (0, 0, .ready 1)) (Finset.mem_insert_self 0 {3}) rfl
  obtain ⟨s, hs, hhead, hlife⟩ : ∃ s, Runs (opStep online.card) (OnlineOk online) init s ∧
      s.jobs.head = none ∧ s.life = Function.update (fun _ => none) 3 (some 1) :=
    ⟨_, hready.tail (i := (0, 3, .schedule))
      (Finset.mem_insert_of_mem (Finset.mem_singleton_self 3)) rfl, rfl, rfl⟩
  have hends : s.Ends ∧ ¬ s.Listed 1 := ends_not_listed_iff.2 ⟨[], hhead, List.not_mem_nil⟩
  obtain ⟨c, hc, -, hle⟩ := (notifies_of_ends hends.1 hends.2 fun c hc =>
    online_of_active hs hc).1 (h online s 1 hs)
  rw [hlife] at hc
  revert c
  decide

end MPStuBS.Thread.Sched
