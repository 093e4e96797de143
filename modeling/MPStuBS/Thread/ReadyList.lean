import MPStuBS.Thread.Scheduler

/-!
# The scheduler over a list

What the scheduler is for: the ready threads form a list, and the operations
append to it, take its first thread, and skip the dying ones. `Sched.Refines`
ties the intrusive queue to the list, and every operation of the code does what
the operation on lists does (`Sched.Refines.exec`), if `ready` is called for a
thread that is not listed and no active thread is listed.
-/

set_option autoImplicit false

namespace MPStuBS.Thread

open MPStuBS.Object

/-- The scheduler with the ready list as a list. -/
structure ReadyList where
  jobs : List ThreadPtr
  life : Cpu → Option ThreadPtr
  killFlag : ThreadPtr → Bool

namespace ReadyList

/-- No thread known. -/
def init : ReadyList := ⟨[], fun _ => none, fun _ => false⟩

/-- The list from which `resume` takes a thread: the active one is appended unless it is dying. -/
def relisted (a : ReadyList) (curr : ThreadPtr) : List ThreadPtr :=
  if a.killFlag curr then a.jobs else a.jobs ++ [curr]

/-- Thread `t` becomes the active one of CPU `c`, the list `rest` remains. -/
def switchTo (a : ReadyList) (c : Cpu) (t : ThreadPtr) (rest : List ThreadPtr) : ReadyList :=
  { a with jobs := rest, life := Function.update a.life c (some t) }

@[simp] theorem switchTo_life_self (a : ReadyList) (c : Cpu) (t : ThreadPtr)
    (rest : List ThreadPtr) : (a.switchTo c t rest).life c = some t := by
  simp [switchTo]

theorem switchTo_life_of_ne (a : ReadyList) {c d : Cpu} (t : ThreadPtr) (rest : List ThreadPtr)
    (h : d ≠ c) : (a.switchTo c t rest).life d = a.life d := by
  simp [switchTo, h]

/-- CPU `c` has no active thread any more. -/
def release (a : ReadyList) (c : Cpu) : ReadyList :=
  { a with life := Function.update a.life c none }

/-- Append the active thread, drop dying threads, switch to the first one that remains. -/
def resume (a : ReadyList) (c : Cpu) : Outcome ReadyList :=
  match a.life c with
  | none => .die a
  | some curr =>
      match (a.relisted curr).dropWhile a.killFlag with
      | [] => .die { a with jobs := [] }
      | t :: rest => .done (a.switchTo c t rest) (.dispatched t)

/-- One operation, executed by CPU `c` of a system with `online` CPUs. -/
def exec (online : Nat) (a : ReadyList) (c : Cpu) : SchedOp → Outcome ReadyList
  | .ready that => .done { a with jobs := a.jobs ++ [that] } .nothing
  | .schedule =>
      match a.jobs with
      | [] => .die a
      | t :: rest => .done (a.switchTo c t rest) (.dispatched t)
  | .resume => a.resume c
  | .exit =>
      match a.life c, a.jobs with
      | some _, t :: rest => .done (a.switchTo c t rest) (.dispatched t)
      | none, t :: rest => .fault (a.switchTo c t rest) (.dispatched t)
      | _, [] => .lost (a.release c)
  | .kill that =>
      .done { a with
          jobs := a.jobs.erase that
          killFlag := Function.update a.killFlag that true }
        (if that ∈ a.jobs then .nothing else .ipi (Sched.killDest a.life that online))
  | .resetKillFlag that =>
      .done { a with killFlag := Function.update a.killFlag that false } .nothing
  | .watch => a.resume c
  | .assassin =>
      match a.life c with
      | none => .fault a .nothing
      | some current => if a.killFlag current then a.resume c else .done a .nothing

end ReadyList

/-- Two outcomes of the same kind, with the same action and related data. -/
def Outcome.Rel {σ τ : Type} (R : σ → τ → Prop) : Outcome σ → Outcome τ → Prop
  | .done s act, .done a act' => R s a ∧ act = act'
  | .die s, .die a => R s a
  | .fault s act, .fault a act' => R s a ∧ act = act'
  | .lost s, .lost a => R s a
  | _, _ => False

namespace Outcome.Rel

variable {σ τ : Type} {R : σ → τ → Prop} {o : Outcome σ} {o' : Outcome τ}

theorem data (h : o.Rel R o') : R o.data o'.data := by
  cases o <;> cases o' <;> simp only [Outcome.Rel] at h
  case done.done => exact h.1
  case die.die => exact h
  case fault.fault => exact h.1
  case lost.lost => exact h

theorem dispatched (h : o.Rel R o') : o.dispatched? = o'.dispatched? := by
  cases o <;> cases o' <;> simp only [Outcome.Rel] at h
  case done.done s act a act' =>
      obtain ⟨-, rfl⟩ := h
      cases act <;> rfl
  case die.die => rfl
  case fault.fault s act a act' =>
      obtain ⟨-, rfl⟩ := h
      cases act <;> rfl
  case lost.lost => rfl

end Outcome.Rel

namespace Sched

/-- The ready list holds the threads of the list, in order; the other data are the same. -/
structure Refines (s : Sched) (a : ReadyList) : Prop where
  jobs : s.jobsMem.Holds a.jobs
  life : s.life = a.life
  killFlag : s.killFlag = a.killFlag

theorem refines_init : init.Refines ReadyList.init where
  jobs := QueueMem.holds_empty _
  life := rfl
  killFlag := rfl

theorem dequeueJob_nil {s : Sched} (h : s.jobsMem.Holds []) :
    s.dequeueJob.1 = none ∧ s.dequeueJob.2.jobsMem.Holds [] :=
  QueueMem.dequeue_holds h

theorem dequeueJob_cons {s : Sched} {t : ThreadPtr} {rest : List ThreadPtr}
    (h : s.jobsMem.Holds (t :: rest)) :
    s.dequeueJob.1 = some t ∧ s.dequeueJob.2.jobsMem.Holds rest :=
  QueueMem.dequeue_holds h

theorem relist_holds {s : Sched} {a : ReadyList} (h : s.Refines a) {curr : ThreadPtr}
    (hcurr : curr ∉ a.jobs) : (s.relist curr).jobsMem.Holds (a.relisted curr) := by
  unfold relist ReadyList.relisted
  rw [h.killFlag]
  split
  · exact h.jobs
  · exact QueueMem.enqueue_holds h.jobs hcurr

/-- The loop of `resume` drops the dying threads at the front of the list. -/
theorem skipDying_holds {l : List ThreadPtr} : ∀ {s : Sched} {fuel : Nat},
    s.jobsMem.Holds l → l.length < fuel →
      ∃ s', skipDying fuel s.dequeueJob.2 s.dequeueJob.1 =
          some ((l.dropWhile s.killFlag).head?, s') ∧
        s'.jobsMem.Holds (l.dropWhile s.killFlag).tail ∧ s'.life = s.life ∧
          s'.killFlag = s.killFlag := by
  induction l with
  | nil =>
      intro s fuel h hf
      obtain ⟨fuel, rfl⟩ := Nat.exists_eq_succ_of_ne_zero (Nat.ne_of_gt hf)
      obtain ⟨hout, hrest⟩ := dequeueJob_nil h
      exact ⟨s.dequeueJob.2, by rw [hout]; rfl, hrest, rfl, rfl⟩
  | cons x l ih =>
      intro s fuel h hf
      obtain ⟨fuel, rfl⟩ := Nat.exists_eq_succ_of_ne_zero (Nat.ne_of_gt (Nat.zero_lt_of_lt hf))
      obtain ⟨hout, hrest⟩ := dequeueJob_cons h
      have hflag : s.dequeueJob.2.killFlag = s.killFlag := rfl
      cases hk : s.killFlag x with
      | true =>
          -- a dying thread: the loop takes the next one
          obtain ⟨s', hskip, hs', hl, hk'⟩ := ih hrest (Nat.lt_of_succ_lt_succ hf)
          rw [hflag] at hskip hs'
          refine ⟨s', ?_, ?_, hl, hk'⟩
          · rw [hout]
            simp only [skipDying, hflag, hk, if_true, List.dropWhile_cons_of_pos]
            exact hskip
          · simpa only [hk, List.dropWhile_cons_of_pos] using hs'
      | false =>
          refine ⟨s.dequeueJob.2, ?_, ?_, rfl, rfl⟩
          · rw [hout]
            simp [skipDying, hflag, hk]
          · simpa [hk] using hrest

theorem resume_refines {s : Sched} {a : ReadyList} (h : s.Refines a) {c : Cpu} {fuel : Nat}
    (hactive : ∀ t, a.life c = some t → t ∉ a.jobs) (hf : a.jobs.length + 1 < fuel) :
    ∃ o, s.resume fuel c = some o ∧ o.Rel Refines (a.resume c) := by
  unfold resume ReadyList.resume
  rw [h.life]
  cases hlife : a.life c with
  | none => exact ⟨_, rfl, h⟩
  | some curr =>
      -- at most one thread is appended before the loop
      have hlen : (a.relisted curr).length < fuel := by
        have hle : (a.relisted curr).length ≤ a.jobs.length + 1 := by
          unfold ReadyList.relisted
          split <;> simp
        omega
      have hflag : (s.relist curr).killFlag = a.killFlag := by
        rw [← h.killFlag]
        unfold relist
        split <;> rfl
      have hlife' : (s.relist curr).life = a.life := by
        rw [← h.life]
        unfold relist
        split <;> rfl
      obtain ⟨s', hskip, hrest, hl, hk⟩ :=
        skipDying_holds (relist_holds h (hactive curr hlife)) hlen
      rw [hflag] at hskip hrest hk
      rw [hlife'] at hl
      dsimp only
      cases hd : (a.relisted curr).dropWhile a.killFlag with
      | nil =>
          rw [hd] at hskip hrest
          refine ⟨.die s', by rw [hskip]; rfl, ?_⟩
          exact ⟨hrest, hl, hk⟩
      | cons t rest =>
          rw [hd] at hskip hrest
          have hlc : s'.life c = some curr := by rw [hl, hlife]
          refine ⟨.done (s'.setActive c (some t)) (.dispatched t), ?_, ?_, rfl⟩
          · rw [hskip]
            simp [dispatch, hlc]
          · refine ⟨hrest, ?_, hk⟩
            simp [setActive, ReadyList.switchTo, hl]

theorem find_sameItem {l : List ThreadPtr} {that : ThreadPtr} :
    l.find? (QueueMem.sameItem that) = if that ∈ l then some that else none := by
  induction l with
  | nil => rfl
  | cons x l ih =>
      by_cases hx : that = x
      · subst hx
        simp [QueueMem.sameItem]
      · simp [QueueMem.sameItem, hx, ← ih]

theorem eraseP_sameItem {l : List ThreadPtr} {that : ThreadPtr} :
    l.eraseP (QueueMem.sameItem that) = l.erase that := by
  induction l with
  | nil => rfl
  | cons x l ih =>
      by_cases hx : that = x
      · subst hx
        simp [QueueMem.sameItem]
      · simp [QueueMem.sameItem, hx, Ne.symm hx, ih]

theorem kill_refines {s : Sched} {a : ReadyList} (h : s.Refines a) {fuel : Nat}
    (that : ThreadPtr) (online : Nat) (c : Cpu) (hf : a.jobs.length < fuel) :
    ∃ o, s.kill fuel that online = some o ∧ o.Rel Refines (a.exec online c (.kill that)) := by
  have hjobs : (s.setKillFlag that).jobsMem.Holds a.jobs := h.jobs
  obtain ⟨m, hrun, hm, -⟩ := QueueMem.remove_holds hjobs that QueueMem.sameItem hf
  rw [find_sameItem] at hrun
  rw [eraseP_sameItem] at hm
  have hdata : ((s.setKillFlag that).setJobs m).Refines { a with
      jobs := a.jobs.erase that
      killFlag := Function.update a.killFlag that true } := by
    refine ⟨hm, h.life, ?_⟩
    show Function.update s.killFlag that true = _
    rw [h.killFlag]
  by_cases hmem : that ∈ a.jobs
  · rw [if_pos hmem] at hrun
    refine ⟨.done ((s.setKillFlag that).setJobs m) .nothing, ?_, hdata, ?_⟩
    · simp only [kill, hrun]
    · rw [if_pos hmem]
  · rw [if_neg hmem] at hrun
    refine ⟨.done ((s.setKillFlag that).setJobs m) (.ipi (killDest s.life that online)), ?_,
      hdata, ?_⟩
    · simp only [kill, hrun]
    · rw [if_neg hmem, h.life]

/-- Every operation of the code returns, with the outcome of the operation on lists. -/
theorem Refines.exec {s : Sched} {a : ReadyList} (h : s.Refines a) {c : Cpu} {op : SchedOp}
    {fuel : Nat} (online : Nat) (hready : ∀ t, op = .ready t → t ∉ a.jobs)
    (hactive : ∀ t, a.life c = some t → t ∉ a.jobs) (hf : a.jobs.length + 1 < fuel) :
    ∃ o, s.exec fuel online c op = some o ∧ o.Rel Refines (a.exec online c op) := by
  -- three operations resume: the call, the timer, and the assassin
  have hresume := resume_refines h hactive hf
  cases op with
  | ready that =>
      exact ⟨_, rfl, ⟨QueueMem.enqueue_holds h.jobs (hready that rfl), h.life, h.killFlag⟩, rfl⟩
  | resetKillFlag that =>
      refine ⟨_, rfl, ⟨h.jobs, h.life, ?_⟩, rfl⟩
      show Function.update s.killFlag that false = _
      rw [h.killFlag]
  | kill that => exact kill_refines h that online c (by omega)
  | resume => exact hresume
  | watch => exact hresume
  | assassin =>
      simp only [Sched.exec, assassinEpilogue, ReadyList.exec]
      rw [h.life]
      cases hlife : a.life c with
      | none => exact ⟨_, rfl, h, rfl⟩
      | some current =>
          dsimp only
          rw [h.killFlag]
          split
          · exact hresume
          · exact ⟨_, rfl, h, rfl⟩
  | schedule =>
      refine ⟨_, rfl, ?_⟩
      cases hj : a.jobs with
      | nil =>
          obtain ⟨hout, hrest⟩ := dequeueJob_nil (hj ▸ h.jobs)
          simp only [schedule, hout, ReadyList.exec, hj]
          exact ⟨hj.symm ▸ hrest, h.life, h.killFlag⟩
      | cons t rest =>
          obtain ⟨hout, hrest⟩ := dequeueJob_cons (hj ▸ h.jobs)
          simp only [schedule, hout, ReadyList.exec, hj]
          refine ⟨⟨hrest, ?_, h.killFlag⟩, rfl⟩
          show Function.update s.life c (some t) = _
          rw [h.life]
          rfl
  | exit =>
      refine ⟨_, rfl, ?_⟩
      -- `exit` takes the next thread before it looks at the old one
      have hl : s.dequeueJob.2.life c = a.life c := congrFun h.life c
      have hset : ∀ next, Function.update s.life c next = Function.update a.life c next := by
        rw [h.life]
        exact fun _ => rfl
      cases hj : a.jobs with
      | nil =>
          obtain ⟨hout, hrest⟩ := dequeueJob_nil (hj ▸ h.jobs)
          simp only [exit, dispatch, hout, ReadyList.exec, hj]
          exact ⟨hj.symm ▸ hrest, hset none, h.killFlag⟩
      | cons t rest =>
          obtain ⟨hout, hrest⟩ := dequeueJob_cons (hj ▸ h.jobs)
          have hdata : (s.dequeueJob.2.setActive c (some t)).Refines (a.switchTo c t rest) :=
            ⟨hrest, hset (some t), h.killFlag⟩
          cases hlife : a.life c with
          | none =>
              simp only [exit, dispatch, hl, hlife, hout, ReadyList.exec, hj]
              exact ⟨hdata, rfl⟩
          | some old =>
              simp only [exit, dispatch, hl, hlife, hout, ReadyList.exec, hj]
              exact ⟨hdata, rfl⟩

end Sched

end MPStuBS.Thread
