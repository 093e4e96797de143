import MPStuBS.Thread.KillFinal
import MPStuBS.Thread.RoundRobin
import MPStuBS.Lib.Simulation

/-!
# Bounds on the loops of the scheduler

An operation takes a bound on the links that its loops follow. One that returns
under a bound returns the same under every larger one (`exec_mono`), so the
bounds of a sequence of operations can be replaced by a single one
(`exec_of_opSteps`).
-/

set_option autoImplicit false

namespace MPStuBS.Object.QueueMem

variable {α : Type} [DecidableEq α]

theorem removeFrom_mono {m : QueueMem α} {cmp : α → α → Bool} {item : α} {n : Nat} :
    ∀ {prev : Slot α} {current : Option α} {r : Option α × QueueMem α} {n' : Nat},
      m.removeFrom cmp item n prev current = some r → n ≤ n' →
        m.removeFrom cmp item n' prev current = some r := by
  induction n with
  | zero =>
      intro prev current r n' h
      cases h
  | succ n ih =>
      intro prev current r n' h hle
      obtain ⟨n', rfl⟩ := Nat.exists_eq_add_of_le' (Nat.le_trans (Nat.le_add_left 1 n) hle)
      simp only [removeFrom] at h ⊢
      split at h
      · exact h
      · exact ih h (Nat.le_of_succ_le_succ hle)

end MPStuBS.Object.QueueMem

namespace MPStuBS.Thread.Sched

open MPStuBS.Object MPStuBS.Lib

theorem skipDying_mono {n : Nat} : ∀ {s : Sched} {next : Option ThreadPtr}
    {r : Option ThreadPtr × Sched} {n' : Nat}, skipDying n s next = some r → n ≤ n' →
      skipDying n' s next = some r := by
  induction n with
  | zero =>
      intro s next r n' h
      cases h
  | succ n ih =>
      intro s next r n' h hle
      obtain ⟨n', rfl⟩ := Nat.exists_eq_add_of_le' (Nat.le_trans (Nat.le_add_left 1 n) hle)
      cases next with
      | none => exact h
      | some t =>
          simp only [skipDying] at h ⊢
          split at h
          case isTrue hk =>
              rw [if_pos hk]
              exact ih h (Nat.le_of_succ_le_succ hle)
          case isFalse hk =>
              rw [if_neg hk]
              exact h

variable {n n' online : Nat} {s t : Sched} {c : Cpu} {o : Outcome Sched}

theorem resume_mono (h : s.resume n c = some o) (hle : n ≤ n') : s.resume n' c = some o := by
  unfold Sched.resume at h ⊢
  split at h
  case h_1 => exact h
  case h_2 curr hlife =>
      cases hskip : skipDying n (s.relist curr).dequeueJob.2 (s.relist curr).dequeueJob.1 with
      | none => simp [hskip] at h
      | some r =>
          rw [hskip] at h
          rw [skipDying_mono hskip hle]
          exact h

theorem kill_mono {that : ThreadPtr} (h : s.kill n that online = some o) (hle : n ≤ n') :
    s.kill n' that online = some o := by
  unfold Sched.kill at h ⊢
  cases hrem : (s.setKillFlag that).jobsMem.remove n that QueueMem.sameItem with
  | none => simp [hrem] at h
  | some r =>
      rw [hrem] at h
      have hrem' : (s.setKillFlag that).jobsMem.remove n' that QueueMem.sameItem = some r :=
        QueueMem.removeFrom_mono hrem hle
      rw [hrem']
      exact h

/-- Where `resume` returns, its loop does. -/
theorem skipDying_of_resume {curr : ThreadPtr} (hlife : s.life c = some curr)
    (h : s.resume n c = some o) :
    ∃ r, skipDying n (s.relist curr).dequeueJob.2 (s.relist curr).dequeueJob.1 = some r := by
  cases hskip : skipDying n (s.relist curr).dequeueJob.2 (s.relist curr).dequeueJob.1 with
  | none => simp [Sched.resume, hlife, hskip] at h
  | some r => exact ⟨r, rfl⟩

/-- Where `kill` returns, its search does. -/
theorem remove_of_kill {that : ThreadPtr} (h : s.kill n that online = some o) :
    ∃ r, (s.setKillFlag that).jobsMem.remove n that QueueMem.sameItem = some r := by
  cases hrem : (s.setKillFlag that).jobsMem.remove n that QueueMem.sameItem with
  | none => simp [Sched.kill, hrem] at h
  | some r => exact ⟨r, rfl⟩

/-- A larger bound on the links does not change what an operation does. -/
theorem exec_mono {op : SchedOp} (h : s.exec n online c op = some o) (hle : n ≤ n') :
    s.exec n' online c op = some o := by
  cases op with
  | resume => exact resume_mono h hle
  | watch => exact resume_mono h hle
  | kill that => exact kill_mono h hle
  | assassin =>
      have h : s.assassinEpilogue n c = some o := h
      show s.assassinEpilogue n' c = some o
      unfold assassinEpilogue at h ⊢
      split at h
      · exact h
      · split at h
        case isTrue hk =>
            rw [if_pos hk]
            exact resume_mono h hle
        case isFalse hk =>
            rw [if_neg hk]
            exact h
  | ready that => exact h
  | schedule => exact h
  | exit => exact h
  | resetKillFlag that => exact h

theorem step_mono {i : Cpu × SchedOp} (h : step n online s i = some t) (hle : n ≤ n') :
    step n' online s i = some t := by
  unfold step at h ⊢
  cases hexec : s.exec n online i.1 i.2 with
  | none => simp [hexec] at h
  | some o =>
      rw [hexec] at h
      rw [exec_mono hexec hle]
      exact h

theorem runs_mono {ops : List (Cpu × SchedOp)} : ∀ {s : Sched},
    Run.exec (step n online) s ops = some t → n ≤ n' → Run.exec (step n' online) s ops = some t := by
  induction ops with
  | nil => exact fun h _ => h
  | cons i ops ih =>
      intro s h hle
      cases hs : step n online s i with
      | none => simp [Run.exec, hs] at h
      | some u =>
          simp only [Run.exec, hs] at h
          simp only [Run.exec, step_mono hs hle]
          exact ih h hle

/-- Operations with a bound each can be executed with one bound for all of them. -/
theorem exec_of_opSteps {is : List (Nat × Cpu × SchedOp)} : ∀ {s : Sched},
    Run.exec (opStep online) s is = some t →
      ∃ fuel, Run.exec (step fuel online) s (is.map Prod.snd) = some t := by
  induction is with
  | nil => exact fun h => ⟨0, h⟩
  | cons i is ih =>
      intro s h
      cases hs : opStep online s i with
      | none => simp [Run.exec, hs] at h
      | some u =>
          simp only [Run.exec, hs] at h
          obtain ⟨fuel, hfuel⟩ := ih h
          refine ⟨max i.1 fuel, ?_⟩
          have hfirst : step (max i.1 fuel) online s i.2 = some u :=
            step_mono hs (Nat.le_max_left i.1 fuel)
          simp only [List.map_cons, Run.exec, hfirst]
          exact runs_mono hfuel (Nat.le_max_right i.1 fuel)

end MPStuBS.Thread.Sched
