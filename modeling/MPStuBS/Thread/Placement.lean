import MPStuBS.Thread.ReadyList
import MPStuBS.Thread.Runnable
import MPStuBS.Lib.Run
import Mathlib.Data.List.TakeWhile

/-!
# Where the threads are

Threads move between the ready list and the `life` pointers of the CPUs.
`ReadyList.Placed` says that every thread is in one place only, and that a
thread that was made ready, neither exited since nor ever killed, is in one.
`Placed.switch` is the common part of all thread switches: the next thread comes
out of a pool that consists of the ready list and perhaps the active thread.

`Placement` is the scheduler with the history that the statement needs, `Ok` the
use of the operations: `ready` for a thread that is in no place, `schedule` once
on every CPU, `exit` with a ready thread, on a CPU with an active one. An `exit`
on a CPU that has not been scheduled starts a thread there all the same, and the
`schedule` of this CPU then loses it (`exit_before_schedule_loses`).
-/

set_option autoImplicit false

namespace MPStuBS.Thread

open MPStuBS.Object MPStuBS.Lib.Run MPStuBS.Lib.LinkChain

namespace ReadyList

/-- Every thread is in one place, and an admitted thread that was not killed is in one. -/
structure Placed (a : ReadyList) (admitted killed : ThreadPtr → Bool) : Prop where
  nodup : a.jobs.Nodup
  active : ∀ c t, a.life c = some t → t ∉ a.jobs
  single : ∀ c d t, a.life c = some t → a.life d = some t → c = d
  owed : ∀ t, admitted t = true → killed t = false → t ∈ a.jobs ∨ ∃ c, a.life c = some t
  dying : ∀ t, a.killFlag t = true → killed t = true

variable {a : ReadyList} {admitted admitted' killed : ThreadPtr → Bool} {c : Cpu}
  {t : ThreadPtr} {pool rest : List ThreadPtr}

/-- A thread switch. The pool consists of ready threads and perhaps the active one; what is taken
from it holds every thread of the CPU that is still owed. -/
theorem Placed.switch (h : a.Placed admitted killed) (hnodup : pool.Nodup)
    (hpool : ∀ u ∈ pool, u ∈ a.jobs ∨ a.life c = some u) (hrest : (t :: rest).Sublist pool)
    (hadm : ∀ u, admitted' u = true → admitted u = true)
    (howed : ∀ u, admitted' u = true → killed u = false → u ∈ a.jobs ∨ a.life c = some u →
      u ∈ t :: rest) : (a.switchTo c t rest).Placed admitted' killed := by
  have hnd := List.nodup_cons.1 (hrest.nodup hnodup)
  have hmem : ∀ u ∈ t :: rest, u ∈ a.jobs ∨ a.life c = some u := fun u hu =>
    hpool u (hrest.subset hu)
  -- the threads of other CPUs are in no part of the pool
  have hother : ∀ d u, d ≠ c → a.life d = some u → u ∉ t :: rest := by
    intro d u hd hu hin
    rcases hmem u hin with hj | hc
    · exact h.active d u hu hj
    · exact hd (h.single d c u hu hc)
  refine ⟨hnd.2, ?_, ?_, ?_, h.dying⟩
  · intro d u hu
    by_cases hd : d = c
    · subst hd
      rw [switchTo_life_self] at hu
      obtain rfl := Option.some.inj hu
      exact hnd.1
    · rw [a.switchTo_life_of_ne t rest hd] at hu
      exact fun hin => hother d u hd hu (List.mem_cons_of_mem t hin)
  · -- two CPUs with the same thread: neither or both of them are the one that switched
    have hone : ∀ d u, d ≠ c → (a.switchTo c t rest).life c = some u →
        (a.switchTo c t rest).life d ≠ some u := by
      intro d u hd hu hu'
      rw [switchTo_life_self] at hu
      rw [a.switchTo_life_of_ne t rest hd] at hu'
      obtain rfl := Option.some.inj hu
      exact hother d t hd hu' List.mem_cons_self
    intro d e u hu hu'
    by_cases hd : d = c
    · by_contra hne
      subst hd
      exact hone e u (Ne.symm hne) hu hu'
    · by_cases he : e = c
      · subst he
        exact absurd hu (hone d u hd hu')
      · rw [a.switchTo_life_of_ne t rest hd] at hu
        rw [a.switchTo_life_of_ne t rest he] at hu'
        exact h.single d e u hu hu'
  · intro u hadm' hkill
    have hplace : (u ∈ t :: rest) → u ∈ rest ∨ ∃ d, (a.switchTo c t rest).life d = some u := by
      intro hin
      rcases List.mem_cons.1 hin with rfl | hin
      · exact Or.inr ⟨c, a.switchTo_life_self c u rest⟩
      · exact Or.inl hin
    rcases h.owed u (hadm u hadm') hkill with hj | ⟨d, hd⟩
    · exact hplace (howed u hadm' hkill (Or.inl hj))
    · by_cases hdc : d = c
      · rw [hdc] at hd
        exact hplace (howed u hadm' hkill (Or.inr hd))
      · exact Or.inr ⟨d, (a.switchTo_life_of_ne t rest hdc).trans hd⟩

/-- A thread that is in no place gets one at the end of the list. -/
theorem Placed.enlist (h : a.Placed admitted killed) (hnew : t ∉ a.jobs)
    (hlife : ∀ d, a.life d ≠ some t) :
    (a.jobs ++ [t]).Nodup ∧ ∀ d u, a.life d = some u → u ∉ a.jobs ++ [t] := by
  refine ⟨List.concat_eq_append ▸ h.nodup.concat hnew, fun d u hu hin => ?_⟩
  rcases List.mem_append.1 hin with hin | hin
  · exact h.active d u hu hin
  · rw [List.mem_singleton.1 hin] at hu
    exact hlife d hu

/-- A thread that is taken out of the list leaves the others in their places. -/
theorem Placed.delist (h : a.Placed admitted killed) (t : ThreadPtr) :
    (a.jobs.erase t).Nodup ∧ ∀ d u, a.life d = some u → u ∉ a.jobs.erase t := by
  refine ⟨h.nodup.erase t, fun d u hu hin => ?_⟩
  exact h.active d u hu (List.mem_of_mem_erase hin)

/-- `ready`: the new thread gets its place at the end of the list. -/
theorem Placed.ready (h : a.Placed admitted killed) (hnew : t ∉ a.jobs)
    (hlife : ∀ d, a.life d ≠ some t) :
    { a with jobs := a.jobs ++ [t] }.Placed (Function.update admitted t true) killed := by
  obtain ⟨hnodup, hplace⟩ := h.enlist hnew hlife
  refine ⟨hnodup, hplace, h.single, fun u hadm hkill => ?_, h.dying⟩
  by_cases hut : u = t
  · subst hut
    exact Or.inl (by simp)
  · have hadm' : admitted u = true := (Function.update_of_ne hut true admitted) ▸ hadm
    rcases h.owed u hadm' hkill with hj | hact
    · exact Or.inl (List.mem_append_left _ hj)
    · exact Or.inr hact

/-- `kill`: the thread leaves the list, or goes on running; it is no longer owed a place. -/
theorem Placed.kill (h : a.Placed admitted killed) (t : ThreadPtr) :
    { a with jobs := a.jobs.erase t, killFlag := Function.update a.killFlag t true }.Placed
      admitted (Function.update killed t true) := by
  obtain ⟨hnodup, hplace⟩ := h.delist t
  refine ⟨hnodup, hplace, h.single, ?_, ?_⟩
  · intro u hadm hkill
    have hut : u ≠ t := fun e => by simp [e] at hkill
    rw [Function.update_of_ne hut] at hkill
    rcases h.owed u hadm hkill with hj | hact
    · exact Or.inl ((List.mem_erase_of_ne hut).2 hj)
    · exact Or.inr hact
  · intro u hu
    by_cases hut : u = t
    · subst hut
      simp
    · have hu' : Function.update a.killFlag t true u = true := hu
      rw [Function.update_of_ne hut] at hu' ⊢
      exact h.dying u hu'

/-- The first `schedule` of a CPU, which has no active thread. -/
theorem Placed.schedule (h : a.Placed admitted killed) (hnone : a.life c = none)
    (hj : a.jobs = t :: rest) : (a.switchTo c t rest).Placed admitted killed := by
  refine h.switch (hj ▸ h.nodup) ?_ (List.Sublist.refl _) (fun _ hu => hu) ?_
  · intro u hu
    exact Or.inl (hj ▸ hu)
  · intro u _ _ hu
    rcases hu with hu | hu
    · exact hj ▸ hu
    · rw [hnone] at hu
      cases hu

/-- `exit`: the thread is no longer admitted, so its place may be given up. -/
theorem Placed.exit {old : ThreadPtr} (h : a.Placed admitted killed) (hlife : a.life c = some old)
    (hj : a.jobs = t :: rest) :
    (a.switchTo c t rest).Placed (Function.update admitted old false) killed := by
  have hadm : ∀ u, Function.update admitted old false u = true → u ≠ old ∧ admitted u = true := by
    intro u hu
    have huo : u ≠ old := fun e => by simp [e] at hu
    exact ⟨huo, (Function.update_of_ne huo false admitted) ▸ hu⟩
  refine h.switch (hj ▸ h.nodup) ?_ (List.Sublist.refl _) (fun u hu => (hadm u hu).2) ?_
  · intro u hu
    exact Or.inl (hj ▸ hu)
  · intro u hu _ hin
    rcases hin with hin | hin
    · exact hj ▸ hin
    · rw [hlife] at hin
      exact absurd (Option.some.inj hin).symm (hadm u hu).1

theorem mem_dropWhile_of_not {l : List ThreadPtr} {p : ThreadPtr → Bool} {u : ThreadPtr}
    (hu : u ∈ l) (hp : p u = false) : u ∈ l.dropWhile p := by
  rw [← List.takeWhile_append_dropWhile (p := p) (l := l)] at hu
  rcases List.mem_append.1 hu with hu | hu
  · rw [List.mem_takeWhile_imp hu] at hp
    cases hp
  · exact hu

/-- `resume` drops killed threads only. -/
theorem Placed.resume (h : a.Placed admitted killed) :
    (a.resume c).data.Placed admitted killed := by
  unfold ReadyList.resume
  cases hlife : a.life c with
  | none => exact h
  | some curr =>
      dsimp only
      have hcurr := h.active c curr hlife
      have hnodup : (a.relisted curr).Nodup := by
        unfold relisted
        split
        · exact h.nodup
        · exact List.concat_eq_append ▸ h.nodup.concat hcurr
      have hpool : ∀ u ∈ a.relisted curr, u ∈ a.jobs ∨ a.life c = some u := by
        intro u hu
        unfold relisted at hu
        split at hu
        · exact Or.inl hu
        · rcases List.mem_append.1 hu with hu | hu
          · exact Or.inl hu
          · exact Or.inr (List.mem_singleton.1 hu ▸ hlife)
      -- an owed thread of this CPU is not dying, so it is relisted and not dropped
      have howed : ∀ u, killed u = false → u ∈ a.jobs ∨ a.life c = some u →
          u ∈ (a.relisted curr).dropWhile a.killFlag := by
        intro u hkill hu
        have hflag : a.killFlag u = false := by
          by_contra hne
          rw [h.dying u (by simpa using hne)] at hkill
          cases hkill
        refine mem_dropWhile_of_not ?_ hflag
        unfold relisted
        rcases hu with hu | hu
        · split
          · exact hu
          · exact List.mem_append_left _ hu
        · rw [hlife] at hu
          obtain rfl := Option.some.inj hu
          simp [hflag]
      cases hd : (a.relisted curr).dropWhile a.killFlag with
      | nil =>
          rw [hd] at howed
          dsimp only [Outcome.data]
          refine ⟨List.nodup_nil, fun _ _ _ hin => (by cases hin), h.single, ?_, h.dying⟩
          intro u hadm hkill
          rcases h.owed u hadm hkill with hj | hact
          · exact absurd (howed u hkill (Or.inl hj)) (by simp)
          · exact Or.inr hact
      | cons t rest =>
          rw [hd] at howed
          refine h.switch hnodup hpool (hd ▸ List.dropWhile_sublist _) (fun _ hu => hu) ?_
          intro u _ hkill hu
          exact howed u hkill hu

theorem release_life_of_ne (a : ReadyList) {c d : Cpu} (h : d ≠ c) :
    (a.release c).life d = a.life d := by
  simp [release, h]

theorem resume_life (a : ReadyList) (c : Cpu) :
    (∀ d, d ≠ c → (a.resume c).data.life d = a.life d) ∧
      (a.life c = none → (a.resume c).data.life c = none) := by
  unfold ReadyList.resume
  split
  case h_1 => exact ⟨fun _ _ => rfl, fun hn => hn⟩
  case h_2 curr hlife =>
      split
      case h_1 => exact ⟨fun _ _ => rfl, fun hn => hn⟩
      case h_2 t rest _ =>
          exact ⟨fun d hd => a.switchTo_life_of_ne t rest hd, fun hn => by simp [hlife] at hn⟩

/-- An operation changes the active thread of its own CPU only, and only `schedule` and `exit` give
one to a CPU without. -/
theorem exec_life (a : ReadyList) (online : Nat) (c : Cpu) (op : SchedOp) :
    (∀ d, d ≠ c → (a.exec online c op).data.life d = a.life d) ∧
      (op ≠ .schedule → op ≠ .exit → a.life c = none → (a.exec online c op).data.life c = none) := by
  -- what a resume on this CPU does, for the three operations that may do one
  obtain ⟨hother, hsame⟩ := a.resume_life c
  cases op with
  | ready that => exact ⟨fun _ _ => rfl, fun _ _ hn => hn⟩
  | resetKillFlag that => exact ⟨fun _ _ => rfl, fun _ _ hn => hn⟩
  | kill that => exact ⟨fun _ _ => rfl, fun _ _ hn => hn⟩
  | resume => exact ⟨hother, fun _ _ => hsame⟩
  | watch => exact ⟨hother, fun _ _ => hsame⟩
  | assassin =>
      simp only [exec]
      split
      · exact ⟨fun _ _ => rfl, fun _ _ hn => hn⟩
      · split
        · exact ⟨hother, fun _ _ => hsame⟩
        · exact ⟨fun _ _ => rfl, fun _ _ hn => hn⟩
  | schedule =>
      refine ⟨?_, fun hne => absurd rfl hne⟩
      simp only [exec]
      split
      · exact fun _ _ => rfl
      · exact fun d hd => a.switchTo_life_of_ne _ _ hd
  | exit =>
      refine ⟨?_, fun _ hne => absurd rfl hne⟩
      simp only [exec]
      split
      · exact fun d hd => a.switchTo_life_of_ne _ _ hd
      · exact fun d hd => a.switchTo_life_of_ne _ _ hd
      · exact fun d hd => a.release_life_of_ne hd

end ReadyList

/-! ## Runs -/

/-- The scheduler with history: the CPUs that called `schedule` and those that halted or are lost,
the threads that were made ready and have not exited since, and those that were ever killed. -/
structure Placement where
  sched : Sched
  scheduled : Cpu → Bool
  halted : Cpu → Bool
  admitted : ThreadPtr → Bool
  killed : ThreadPtr → Bool

namespace Placement

/-- Nothing has happened yet. -/
def init : Placement := ⟨Sched.init, fun _ => false, fun _ => false, fun _ => false, fun _ => false⟩

/-- An operation enters the history. -/
def record (p : Placement) (c : Cpu) : SchedOp → Placement
  | .ready that => { p with admitted := Function.update p.admitted that true }
  | .schedule => { p with scheduled := Function.update p.scheduled c true }
  | .exit =>
      match p.sched.life c with
      | some old => { p with admitted := Function.update p.admitted old false }
      | none => p
  | .kill that => { p with killed := Function.update p.killed that true }
  | _ => p

/-- The state after an operation of CPU `c` with outcome `o`. -/
def after (p : Placement) (c : Cpu) (op : SchedOp) (o : Outcome Sched) : Placement :=
  { p.record c op with
    sched := o.data
    halted := if o.stops then Function.update p.halted c true else p.halted }

/-- One operation, executed as a whole, with a bound on the links that its loops follow. -/
def step (online : Nat) (p : Placement) (i : Nat × Cpu × SchedOp) : Option Placement :=
  (p.sched.exec i.1 online i.2.1 i.2.2).map (p.after i.2.1 i.2.2)

/-- The use of the operations, `exit` on any CPU. The bound exceeds the number of ready threads. -/
def OkAnywhere (p : Placement) (i : Nat × Cpu × SchedOp) : Prop :=
  p.halted i.2.1 = false ∧ (∀ l, p.sched.jobsMem.Holds l → l.length + 1 < i.1) ∧
    match i.2.2 with
    | .ready that => ¬ p.sched.Listed that ∧ ∀ d, p.sched.life d ≠ some that
    | .schedule => p.scheduled i.2.1 = false
    | .exit => p.sched.jobs.head ≠ none
    | .resetKillFlag _ => False
    | _ => True

/-- The use of the operations. Only the active thread of a CPU exits. -/
def Ok (p : Placement) (i : Nat × Cpu × SchedOp) : Prop :=
  p.OkAnywhere i ∧ (i.2.2 = .exit → p.sched.life i.2.1 ≠ none)

/-- The ready list is a list, in which every thread has its place. -/
structure Inv (p : Placement) (a : ReadyList) : Prop where
  refines : p.sched.Refines a
  placed : a.Placed p.admitted p.killed
  unscheduled : ∀ c, p.scheduled c = false → a.life c = none

theorem inv_init : init.Inv ReadyList.init where
  refines := Sched.refines_init
  placed :=
    { nodup := List.nodup_nil
      active := fun _ _ ht => by cases ht
      single := fun _ _ _ ht => by cases ht
      owed := fun _ hadm => by cases hadm
      dying := fun _ hk => by cases hk }
  unscheduled _ _ := rfl

/-- A listed thread is a member of the list. -/
theorem not_mem_of_not_listed {s : Sched} {a : ReadyList} (h : s.Refines a) {t : ThreadPtr}
    (ht : ¬ s.Listed t) : t ∉ a.jobs := by
  intro hmem
  obtain ⟨r, hr, -, -⟩ := Segment.prefix_of_mem h.jobs.chain h.jobs.nodup hmem
  exact ht ⟨r, hr⟩

/-- An operation on lists keeps every thread in its place. -/
theorem placed_exec {p : Placement} {a : ReadyList} (h : p.Inv a) (online : Nat)
    {i : Nat × Cpu × SchedOp} (hok : p.Ok i) : (a.exec online i.2.1 i.2.2).data.Placed
      (p.record i.2.1 i.2.2).admitted (p.record i.2.1 i.2.2).killed := by
  obtain ⟨fuel, c, op⟩ := i
  obtain ⟨⟨-, -, hop⟩, hexit⟩ := hok
  have hplaced := h.placed
  cases op with
  | ready that =>
      obtain ⟨hlisted, hactive⟩ := hop
      have hlife : ∀ d, a.life d ≠ some that := fun d => h.refines.life ▸ hactive d
      exact hplaced.ready (not_mem_of_not_listed h.refines hlisted) hlife
  | kill that => exact hplaced.kill that
  | resetKillFlag that => exact hop.elim
  | resume => exact hplaced.resume
  | watch => exact hplaced.resume
  | assassin =>
      simp only [ReadyList.exec]
      split
      · exact hplaced
      · split
        · exact hplaced.resume
        · exact hplaced
  | schedule =>
      have hnone : a.life c = none := h.unscheduled c hop
      cases hj : a.jobs with
      | nil =>
          simp only [ReadyList.exec, hj]
          exact hplaced
      | cons t rest =>
          simp only [ReadyList.exec, hj]
          exact hplaced.schedule hnone hj
  | exit =>
      obtain ⟨old, hl⟩ := Option.ne_none_iff_exists'.1 (hexit rfl)
      have hlife : a.life c = some old := h.refines.life ▸ hl
      cases hj : a.jobs with
      | nil => exact absurd (h.refines.jobs.chain.head_eq.trans (by rw [hj]; rfl)) hop
      | cons t rest =>
          simp only [ReadyList.exec, hlife, hj, record, hl]
          exact hplaced.exit hlife hj

/-- Every operation returns, with the outcome of the operation on lists. -/
theorem exec_returns {p : Placement} {a : ReadyList} (h : p.Inv a) (online : Nat)
    {i : Nat × Cpu × SchedOp} (hok : p.Ok i) :
    ∃ o, p.sched.exec i.1 online i.2.1 i.2.2 = some o ∧
      o.Rel Sched.Refines (a.exec online i.2.1 i.2.2) := by
  obtain ⟨fuel, c, op⟩ := i
  obtain ⟨⟨-, hfuel, hop⟩, -⟩ := hok
  have hready : ∀ t, op = .ready t → t ∉ a.jobs := by
    rintro t rfl
    exact not_mem_of_not_listed h.refines hop.1
  exact h.refines.exec online hready (h.placed.active c) (hfuel a.jobs h.refines.jobs)

theorem record_scheduled (p : Placement) (c : Cpu) {op : SchedOp} (hop : op ≠ .schedule) :
    (p.record c op).scheduled = p.scheduled := by
  cases op with
  | schedule => exact absurd rfl hop
  | exit =>
      simp only [record]
      split <;> rfl
  | ready that => rfl
  | resume => rfl
  | kill that => rfl
  | resetKillFlag that => rfl
  | watch => rfl
  | assassin => rfl

/-- After an operation only the CPUs that called `schedule` have an active thread. -/
theorem unscheduled_exec {p : Placement} {a : ReadyList} (h : p.Inv a) (online : Nat)
    {i : Nat × Cpu × SchedOp} (hok : p.Ok i) (d : Cpu)
    (hd : (p.record i.2.1 i.2.2).scheduled d = false) :
    (a.exec online i.2.1 i.2.2).data.life d = none := by
  obtain ⟨fuel, c, op⟩ := i
  obtain ⟨-, hexit⟩ := hok
  obtain ⟨hother, hsame⟩ := a.exec_life online c op
  by_cases hop : op = .schedule
  · subst hop
    have hdc : d ≠ c := fun e => by simp [record, e] at hd
    have hd' : p.scheduled d = false := (Function.update_of_ne hdc true p.scheduled) ▸ hd
    exact (hother d hdc).trans (h.unscheduled d hd')
  · rw [p.record_scheduled c hop] at hd
    have hnone := h.unscheduled d hd
    by_cases hdc : d = c
    · subst hdc
      -- no active thread, so the operation is no `exit`
      have hne : op ≠ .exit := fun e => hexit e (h.refines.life ▸ hnone)
      exact hsame hop hne hnone
    · exact (hother d hdc).trans hnone

/-- One operation keeps the invariant. -/
theorem Inv.step {online : Nat} {p p' : Placement} {a : ReadyList} {i : Nat × Cpu × SchedOp}
    (h : p.Inv a) (hok : p.Ok i) (hstep : step online p i = some p') : ∃ b, p'.Inv b := by
  obtain ⟨o, hexec, rfl⟩ := Option.map_eq_some_iff.1 hstep
  obtain ⟨o', hexec', hrel⟩ := exec_returns h online hok
  obtain rfl : o = o' := Option.some.inj (hexec.symm.trans hexec')
  exact ⟨_, hrel.data, placed_exec h online hok, unscheduled_exec h online hok⟩

theorem Inv.of_runs {online : Nat} {p : Placement} (h : Runs (Placement.step online) Ok init p) :
    ∃ a, p.Inv a := by
  have hinv := h.invariant (I := fun q => ∃ a, q.Inv a) ⟨_, inv_init⟩
  refine hinv ?_
  rintro q q' i ⟨a, ha⟩ hok hstep
  exact ha.step hok hstep

/-! ## The result -/

/-- In every state that the operations reach, every thread is in one place only, and no thread is
lost that was made ready and neither killed nor exited. -/
theorem thread_placement {online : Nat} {p : Placement} (h : Runs (step online) Ok init p) :
    ∃ jobs, p.sched.jobsMem.Holds jobs ∧ jobs.Nodup ∧
      (∀ c t, p.sched.life c = some t → t ∉ jobs) ∧
      (∀ c d t, p.sched.life c = some t → p.sched.life d = some t → c = d) ∧
      ∀ t, p.admitted t = true → p.killed t = false → t ∈ jobs ∨ ∃ c, p.sched.life c = some t := by
  obtain ⟨a, ha⟩ := Inv.of_runs h
  have hlife := ha.refines.life
  refine ⟨a.jobs, ha.refines.jobs, ha.placed.nodup, ?_, ?_, ?_⟩
  · rw [hlife]
    exact ha.placed.active
  · rw [hlife]
    exact ha.placed.single
  · rw [hlife]
    exact ha.placed.owed

/-- A test for `OkAnywhere`: the iterator yields the ready list. -/
def okAnywhereTest (p : Placement) (i : Nat × Cpu × SchedOp) : Bool :=
  match p.sched.jobsMem.iterate i.1 with
  | none => false
  | some jobs =>
      !p.halted i.2.1 && decide (jobs.length + 1 < i.1) &&
        match i.2.2 with
        | .ready that => !jobs.contains that && decide (∀ d, p.sched.life d ≠ some that)
        | .schedule => !p.scheduled i.2.1
        | .exit => p.sched.jobs.head.isSome
        | .resetKillFlag _ => false
        | _ => true

theorem okAnywhere_of_test {p : Placement} {i : Nat × Cpu × SchedOp}
    (h : p.okAnywhereTest i = true) : p.OkAnywhere i := by
  obtain ⟨fuel, c, op⟩ := i
  simp only [okAnywhereTest] at h
  split at h
  · cases h
  · rename_i jobs hjobs
    have hchain := QueueMem.chain_of_iterateFrom hjobs
    rw [Bool.and_eq_true, Bool.and_eq_true] at h
    obtain ⟨⟨hhalted, hfuel⟩, hop⟩ := h
    refine ⟨by simpa using hhalted, ?_, ?_⟩
    · intro l hl
      rw [Chain.unique hl.chain hchain]
      simpa using hfuel
    · cases op with
      | ready that =>
          simp only [Bool.and_eq_true, decide_eq_true_eq, Bool.not_eq_true',
            List.contains_eq_mem, decide_eq_false_iff_not] at hop
          refine ⟨?_, hop.2⟩
          rintro ⟨r, hr⟩
          exact hop.1 (Chain.mem_of_segment hchain hr)
      | schedule => simpa using hop
      | exit => exact fun hnone => by simp [hnone] at hop
      | resetKillFlag that => cases hop
      | resume => trivial
      | kill that => trivial
      | watch => trivial
      | assassin => trivial

/-- A test for `Ok`. -/
def okTest (p : Placement) (i : Nat × Cpu × SchedOp) : Bool :=
  p.okAnywhereTest i &&
    match i.2.2 with
    | .exit => (p.sched.life i.2.1).isSome
    | _ => true

theorem ok_of_okTest {p : Placement} {i : Nat × Cpu × SchedOp} (h : p.okTest i = true) :
    p.Ok i := by
  obtain ⟨fuel, c, op⟩ := i
  obtain ⟨htest, hlife⟩ := Bool.and_eq_true_iff.1 h
  refine ⟨okAnywhere_of_test htest, ?_⟩
  rintro rfl hnone
  simp [hnone] at hlife

/-- Two CPUs and five threads: one thread is killed while it runs, one while it is listed, and one
exits. The one that remains has its place. -/
theorem thread_placement_fiveThreads : ∃ p jobs, Runs (step 2) Ok init p ∧
    p.sched.jobsMem.Holds jobs ∧ (1 ∈ jobs ∨ ∃ c, p.sched.life c = some 1) := by
  have hrun : ∃ p, exec (fun p i => if p.okTest i then step 2 p i else none) init
      [(7, 0, .ready 1), (7, 0, .ready 2), (7, 0, .ready 3), (7, 0, .ready 4), (7, 0, .schedule),
        (7, 1, .schedule), (7, 0, .kill 2), (7, 1, .assassin), (7, 0, .watch), (7, 1, .exit),
        (7, 1, .ready 5), (7, 0, .kill 5)] = some p ∧
      p.admitted 1 = true ∧ p.killed 1 = false := ⟨_, rfl, rfl, rfl⟩
  obtain ⟨p, hp, hadm, hkill⟩ := hrun
  have hruns : Runs (step 2) Ok init p := runs_of_exec_if (fun _ _ => ok_of_okTest) hp
  obtain ⟨jobs, hjobs, -, -, -, howed⟩ := thread_placement hruns
  exact ⟨p, jobs, hruns, hjobs, howed 1 hadm hkill⟩

/-- CPU 0 exits before it has been scheduled, which makes thread 1 its active one. Its `schedule`
then makes thread 2 the active one, and thread 1 is in no place. -/
theorem exit_before_schedule_loses : ¬ ∀ online p, Runs (step online) OkAnywhere init p →
    ∃ jobs, p.sched.jobsMem.Holds jobs ∧ jobs.Nodup ∧
      (∀ c t, p.sched.life c = some t → t ∉ jobs) ∧
      (∀ c d t, p.sched.life c = some t → p.sched.life d = some t → c = d) ∧
      ∀ t, p.admitted t = true → p.killed t = false →
        t ∈ jobs ∨ ∃ c, p.sched.life c = some t := by
  intro hclaim
  have hrun : ∃ p, exec (fun p i => if p.okAnywhereTest i then step 1 p i else none) init
      [(4, 0, .ready 1), (4, 0, .ready 2), (4, 0, .exit), (4, 0, .schedule)] = some p ∧
      p.admitted 1 = true ∧ p.killed 1 = false ∧ p.sched.jobsMem.iterate 4 = some [] ∧
      ∀ c, p.sched.life c ≠ some 1 := ⟨_, rfl, rfl, rfl, rfl, by decide⟩
  obtain ⟨p, hp, hadm, hkill, hjobs, hlife⟩ := hrun
  have hruns : Runs (step 1) OkAnywhere init p := runs_of_exec_if (fun _ _ => okAnywhere_of_test) hp
  obtain ⟨jobs, hholds, -, -, -, howed⟩ := hclaim 1 p hruns
  obtain rfl : jobs = [] := Chain.unique hholds.chain (QueueMem.chain_of_iterateFrom hjobs)
  rcases howed 1 hadm hkill with hin | ⟨c, hc⟩
  · cases hin
  · exact hlife c hc

end Placement

end MPStuBS.Thread
