import MPStuBS.Thread.Placement

/-!
# Round robin

The ready list is worked off from front to back. While a thread that is not
killed waits in the list, every `resume`, `exit` and `schedule` takes at least
one thread from in front of it (`Ahead.take`), and no operation puts one there
(`Ahead.keep`). So a thread at position `k` waits through at most `k` of them,
and the next one makes it active (`round_robin`).

All this is about lists, and the ready list is one as long as `ready` is called
for threads that are neither listed nor active; otherwise a thread may be lost
(`listed_thread_lost`).
-/

set_option autoImplicit false

namespace MPStuBS.Thread

open MPStuBS.Object MPStuBS.Lib MPStuBS.Lib.Run MPStuBS.Lib.LinkChain

/-- The operations that take a thread from the ready list. -/
def SchedOp.takes : SchedOp → Bool
  | .resume | .exit | .schedule => true
  | _ => false

namespace ReadyList

/-- Every thread is in one place; nothing is owed. -/
abbrev Apart (a : ReadyList) : Prop := a.Placed (fun _ => false) fun _ => true

theorem apart_init : init.Apart where
  nodup := List.nodup_nil
  active := fun _ _ ht => by cases ht
  single := fun _ _ _ ht => by cases ht
  owed := fun _ hadm => by cases hadm
  dying := fun _ _ => rfl

/-- Thread `t` waits, with at most `k` threads in front of it. -/
def Ahead (a : ReadyList) (t : ThreadPtr) (k : Nat) : Prop :=
  a.killFlag t = false ∧ ∃ pre post, a.jobs = pre ++ t :: post ∧ pre.length ≤ k

variable {a : ReadyList} {c : Cpu} {t : ThreadPtr} {k : Nat}

/-- A switch to the first thread of the list. -/
theorem Apart.take (h : a.Apart) {u : ThreadPtr} {rest : List ThreadPtr}
    (hj : a.jobs = u :: rest) : (a.switchTo c u rest).Apart := by
  refine h.switch (hj ▸ h.nodup) ?_ (List.Sublist.refl _) (fun _ hu => hu) fun _ hu => by cases hu
  intro x hx
  exact Or.inl (hj ▸ hx)

theorem Apart.release (h : a.Apart) : (a.release c).Apart := by
  have hkept : ∀ d u, (a.release c).life d = some u → a.life d = some u := by
    intro d u hu
    by_cases hd : d = c
    · simp [ReadyList.release, hd] at hu
    · rwa [a.release_life_of_ne hd] at hu
  refine ⟨h.nodup, fun d u hu => h.active d u (hkept d u hu), ?_,
    fun _ hadm => Bool.noConfusion hadm, fun _ _ => rfl⟩
  intro d e u hu hu'
  exact h.single d e u (hkept d u hu) (hkept e u hu')

/-- Every operation leaves every thread in one place, if `ready` is called for one in none. -/
theorem Apart.exec (h : a.Apart) (online : Nat) (c : Cpu) {op : SchedOp}
    (hready : ∀ u, op = .ready u → u ∉ a.jobs ∧ ∀ d, a.life d ≠ some u) :
    (a.exec online c op).data.Apart := by
  cases op with
  | ready that =>
      obtain ⟨hnew, hlife⟩ := hready that rfl
      obtain ⟨hnodup, hplace⟩ := h.enlist hnew hlife
      exact ⟨hnodup, hplace, h.single, fun _ hadm => Bool.noConfusion hadm, fun _ _ => rfl⟩
  | kill that =>
      obtain ⟨hnodup, hplace⟩ := h.delist that
      exact ⟨hnodup, hplace, h.single, fun _ hadm => Bool.noConfusion hadm, fun _ _ => rfl⟩
  | resetKillFlag that =>
      exact ⟨h.nodup, h.active, h.single, fun _ hadm => Bool.noConfusion hadm, fun _ _ => rfl⟩
  | resume => exact h.resume
  | watch => exact h.resume
  | assassin =>
      simp only [ReadyList.exec]
      split
      · exact h
      · split
        · exact h.resume
        · exact h
  | schedule =>
      simp only [ReadyList.exec]
      split
      case h_1 => exact h
      case h_2 u rest hj => exact h.take hj
  | exit =>
      simp only [ReadyList.exec]
      split
      case h_1 old u rest _ hj => exact h.take hj
      case h_2 u rest _ hj => exact h.take hj
      case h_3 => exact h.release

/-- An operation that takes no thread leaves `t` waiting where it is, or further in front. -/
theorem Ahead.keep (h : a.Ahead t k) (online : Nat) (c : Cpu) {op : SchedOp}
    (hop : op.takes = false) (hkill : ∀ u, op = .kill u → u ≠ t) (hwatch : op ≠ .watch)
    (hassassin : op ≠ .assassin) : (a.exec online c op).data.Ahead t k := by
  obtain ⟨hflag, pre, post, hj, hk⟩ := h
  cases op with
  | ready that =>
      refine ⟨hflag, pre, post ++ [that], ?_, hk⟩
      show a.jobs ++ [that] = _
      rw [hj, List.append_assoc, List.cons_append]
  | kill that =>
      have hne : t ≠ that := Ne.symm (hkill that rfl)
      have hflag' : Function.update a.killFlag that true t = false :=
        (Function.update_of_ne hne true a.killFlag).trans hflag
      refine ⟨hflag', ?_⟩
      show ∃ pre' post', a.jobs.erase that = pre' ++ t :: post' ∧ pre'.length ≤ k
      rw [hj]
      -- a killed thread is in front of `t` or behind it
      by_cases hmem : that ∈ pre
      · refine ⟨pre.erase that, post, List.erase_append_left _ hmem, ?_⟩
        exact Nat.le_trans List.erase_sublist.length_le hk
      · refine ⟨pre, post.erase that, ?_, hk⟩
        rw [List.erase_append_right _ hmem, List.erase_cons_tail (by simpa using hne)]
  | resetKillFlag that =>
      refine ⟨?_, pre, post, hj, hk⟩
      show Function.update a.killFlag that false t = false
      by_cases hne : t = that
      · rw [hne, Function.update_self]
      · rwa [Function.update_of_ne hne]
  | resume => cases hop
  | exit => cases hop
  | schedule => cases hop
  | watch => exact absurd rfl hwatch
  | assassin => exact absurd rfl hassassin

/-- The first thread of a list in which `t` waits: `t` itself, or one in front of it. -/
theorem Ahead.head (h : a.Ahead t k) : ∃ u rest, a.jobs = u :: rest ∧
    (u = t ∨ u ≠ t ∧ 0 < k ∧ ∃ pre post, rest = pre ++ t :: post ∧ pre.length ≤ k - 1) := by
  obtain ⟨-, pre, post, hj, hk⟩ := h
  cases pre with
  | nil => exact ⟨t, post, hj, Or.inl rfl⟩
  | cons u pre =>
      refine ⟨u, pre ++ t :: post, hj, ?_⟩
      by_cases hut : u = t
      · exact Or.inl hut
      · rw [List.length_cons] at hk
        exact Or.inr ⟨hut, by omega, pre, post, rfl, by omega⟩

/-- What `resume` finds after the dying threads at the front of the list. -/
theorem Ahead.dropWhile (h : a.Ahead t k) (curr : ThreadPtr) :
    ∃ u rest, (a.relisted curr).dropWhile a.killFlag = u :: rest ∧
      (u = t ∨ u ≠ t ∧ 0 < k ∧ ∃ pre post, rest = pre ++ t :: post ∧ pre.length ≤ k - 1) := by
  obtain ⟨hflag, pre, post, hj, hk⟩ := h
  -- relisting the active thread does not change what is in front of `t`
  have hlist : ∃ post', a.relisted curr = pre ++ t :: post' := by
    unfold relisted
    split
    · exact ⟨post, hj⟩
    · exact ⟨post ++ [curr], by rw [hj, List.append_assoc, List.cons_append]⟩
  obtain ⟨post', hpost⟩ := hlist
  rw [hpost]
  clear hj hpost
  -- the dying threads in front of `t` go, and `t` itself is not dying
  induction pre generalizing k with
  | nil => exact ⟨t, post', by simp [hflag], Or.inl rfl⟩
  | cons u pre ih =>
      rw [List.length_cons] at hk
      cases hu : a.killFlag u with
      | true =>
          obtain ⟨u', rest, hdrop, hcases⟩ := ih (k := k) (by omega)
          refine ⟨u', rest, ?_, hcases⟩
          rw [List.cons_append, List.dropWhile_cons_of_pos hu]
          exact hdrop
      | false =>
          refine ⟨u, pre ++ t :: post', by simp [hu], ?_⟩
          by_cases hut : u = t
          · exact Or.inl hut
          · exact Or.inr ⟨hut, by omega, pre, post', rfl, by omega⟩

/-- The thread that an operation makes active, if it takes one. -/
def taken (a : ReadyList) (c : Cpu) : SchedOp → Option ThreadPtr
  | .schedule | .exit => a.jobs.head?
  | .resume =>
      match a.life c with
      | none => none
      | some curr => ((a.relisted curr).dropWhile a.killFlag).head?
  | _ => none

/-- An operation that takes a thread makes `t` active, or it takes one from in front of it. -/
theorem Ahead.take (h : a.Ahead t k) (online : Nat) {op : SchedOp} (hop : op.takes = true)
    (hresume : op = .resume → a.life c ≠ none) :
    a.taken c op = some t ∨ a.taken c op ≠ some t ∧ 0 < k ∧
      (a.exec online c op).data.Ahead t (k - 1) := by
  -- the first thread is `t`, or its switch brings `t` further to the front
  have hfirst : ∀ u rest, a.jobs = u :: rest →
      (u = t ∨ u ≠ t ∧ 0 < k ∧ ∃ pre post, rest = pre ++ t :: post ∧ pre.length ≤ k - 1) →
        u = t ∨ u ≠ t ∧ 0 < k ∧ (a.switchTo c u rest).Ahead t (k - 1) := by
    rintro u rest - (hut | ⟨hut, hk, hpre⟩)
    · exact Or.inl hut
    · exact Or.inr ⟨hut, hk, h.1, hpre⟩
  cases op with
  | schedule =>
      obtain ⟨u, rest, hj, hcases⟩ := h.head
      have htaken : a.taken c .schedule = some u := by simp [taken, hj]
      rw [htaken]
      rcases hfirst u rest hj hcases with hut | ⟨hut, hk, hahead⟩
      · exact Or.inl (congrArg some hut)
      · refine Or.inr ⟨fun e => hut (Option.some.inj e), hk, ?_⟩
        simp only [ReadyList.exec, hj]
        exact hahead
  | exit =>
      obtain ⟨u, rest, hj, hcases⟩ := h.head
      have htaken : a.taken c .exit = some u := by simp [taken, hj]
      rw [htaken]
      rcases hfirst u rest hj hcases with hut | ⟨hut, hk, hahead⟩
      · exact Or.inl (congrArg some hut)
      · refine Or.inr ⟨fun e => hut (Option.some.inj e), hk, ?_⟩
        simp only [ReadyList.exec, hj]
        -- with or without an active thread
        cases a.life c with
        | none => exact hahead
        | some old => exact hahead
  | resume =>
      obtain ⟨curr, hlife⟩ := Option.ne_none_iff_exists'.1 (hresume rfl)
      obtain ⟨u, rest, hdrop, hcases⟩ := h.dropWhile curr
      have htaken : a.taken c .resume = some u := by simp [taken, hlife, hdrop]
      rw [htaken]
      rcases hcases with hut | ⟨hut, hk, hpre⟩
      · exact Or.inl (congrArg some hut)
      · refine Or.inr ⟨fun e => hut (Option.some.inj e), hk, ?_⟩
        simp only [ReadyList.exec, ReadyList.resume, hlife, hdrop]
        exact ⟨h.1, hpre⟩
  | _ => cases hop

end ReadyList

namespace Sched

/-- One operation, executed as a whole, with a bound on the links that its loops follow. -/
def opStep (online : Nat) (s : Sched) (i : Nat × Cpu × SchedOp) : Option Sched :=
  (s.exec i.1 online i.2.1 i.2.2).map Outcome.data

/-- The thread that `Dispatcher::setActive` makes the active one in an operation. -/
def activates (online : Nat) (s : Sched) (i : Nat × Cpu × SchedOp) : Option ThreadPtr :=
  (s.exec i.1 online i.2.1 i.2.2).bind Outcome.dispatched?

/-- The bound exceeds the number of ready threads. -/
def BoundOk (s : Sched) (i : Nat × Cpu × SchedOp) : Prop :=
  ∀ l, s.jobsMem.Holds l → l.length + 1 < i.1

/-- `ready` is called for a thread that is neither listed nor active. -/
def ReadyOk (s : Sched) (i : Nat × Cpu × SchedOp) : Prop :=
  ∀ u, i.2.2 = .ready u → ¬ s.Listed u ∧ ∀ d, s.life d ≠ some u

/-- The operations of a continuation in which `t` is not killed. -/
def Spares (t : ThreadPtr) (s : Sched) (i : Nat × Cpu × SchedOp) : Prop :=
  match i.2.2 with
  | .ready _ | .exit | .schedule => True
  | .kill u => u ≠ t
  | .resume => s.life i.2.1 ≠ none
  | _ => False

/-- A continuation of operations that satisfy `ok`, none of which makes `t` active. The number is
that of the operations that took a thread. -/
inductive Waits (online : Nat) (ok : Sched → Nat × Cpu × SchedOp → Prop) (t : ThreadPtr)
    (s : Sched) : Nat → Sched → Prop
  | refl : Waits online ok t s 0 s
  | tail {n : Nat} {u v : Sched} {i : Nat × Cpu × SchedOp} : Waits online ok t s n u → ok u i →
      activates online u i ≠ some t → opStep online u i = some v →
        Waits online ok t s (if i.2.2.takes then n + 1 else n) v

/-- The ready list is a list, and every thread is in one place. -/
def Listing (s : Sched) (a : ReadyList) : Prop := s.Refines a ∧ a.Apart

section Step

variable {s s' : Sched} {a : ReadyList} {i : Nat × Cpu × SchedOp} {online : Nat}

theorem Listing.ready (h : s.Listing a) (hready : s.ReadyOk i) {u : ThreadPtr}
    (hu : i.2.2 = .ready u) : u ∉ a.jobs ∧ ∀ d, a.life d ≠ some u := by
  obtain ⟨hlisted, hlife⟩ := hready u hu
  exact ⟨Placement.not_mem_of_not_listed h.1 hlisted, fun d => h.1.life ▸ hlife d⟩

/-- An operation returns, with the outcome of the operation on lists. -/
theorem Listing.exec (h : s.Listing a) (online : Nat) (hbound : s.BoundOk i)
    (hready : s.ReadyOk i) : ∃ o, s.exec i.1 online i.2.1 i.2.2 = some o ∧
      o.Rel Refines (a.exec online i.2.1 i.2.2) :=
  h.1.exec online (fun _ ht => (h.ready hready ht).1) (h.2.active i.2.1) (hbound a.jobs h.1.jobs)

theorem Listing.step (h : s.Listing a) (hbound : s.BoundOk i) (hready : s.ReadyOk i)
    (hstep : opStep online s i = some s') :
    s'.Listing (a.exec online i.2.1 i.2.2).data := by
  obtain ⟨o, hexec, hrel⟩ := h.exec online hbound hready
  obtain ⟨o', hexec', rfl⟩ := Option.map_eq_some_iff.1 hstep
  obtain rfl : o = o' := Option.some.inj (hexec.symm.trans hexec')
  exact ⟨hrel.data, h.2.exec online i.2.1 fun _ ht => h.ready hready ht⟩

/-- The code makes the thread active that the operation on lists takes. -/
theorem Listing.activates (h : s.Listing a) (hbound : s.BoundOk i) (hready : s.ReadyOk i)
    (htakes : i.2.2.takes = true) : activates online s i = a.taken i.2.1 i.2.2 := by
  obtain ⟨o, hexec, hrel⟩ := h.exec online hbound hready
  rw [Sched.activates, hexec, Option.bind_some, hrel.dispatched]
  obtain ⟨fuel, c, op⟩ := i
  cases op with
  | schedule =>
      simp only [ReadyList.exec, ReadyList.taken]
      cases a.jobs <;> rfl
  | exit =>
      simp only [ReadyList.exec, ReadyList.taken]
      cases a.life c <;> cases a.jobs <;> rfl
  | resume =>
      simp only [ReadyList.exec, ReadyList.resume, ReadyList.taken]
      cases a.life c with
      | none => rfl
      | some curr =>
          dsimp only
          cases (a.relisted curr).dropWhile a.killFlag <;> rfl
  | _ => cases htakes

end Step

/-- The operations of a continuation, as the scheduler expects them. -/
def Continues (t : ThreadPtr) (s : Sched) (i : Nat × Cpu × SchedOp) : Prop :=
  s.BoundOk i ∧ s.ReadyOk i ∧ s.Spares t i

variable {online k n : Nat} {s u : Sched} {t : ThreadPtr}

/-- While `t` waits, every operation that takes a thread brings it further to the front. -/
theorem Waits.ahead {a : ReadyList} (h : Waits online (fun s i => s.Continues t i) t s n u)
    (hs : s.Listing a) (hahead : a.Ahead t k) :
    n ≤ k ∧ ∃ b, u.Listing b ∧ b.Ahead t (k - n) := by
  induction h with
  | refl => exact ⟨Nat.zero_le k, a, hs, hahead⟩
  | @tail n u v i _ hok hact hstep ih =>
      obtain ⟨hn, b, hu, hb⟩ := ih
      obtain ⟨hbound, hready, hspares⟩ := hok
      have hv := hu.step hbound hready hstep
      cases htakes : i.2.2.takes with
      | true =>
          have hresume : i.2.2 = .resume → b.life i.2.1 ≠ none := by
            intro hop
            simp only [Spares, hop] at hspares
            rwa [← hu.1.life]
          rw [hu.activates hbound hready htakes] at hact
          -- the continuation has not made `t` active, so one thread in front of it is gone
          rcases hb.take online htakes hresume with htaken | ⟨-, hpos, hnext⟩
          · exact absurd htaken hact
          · simp only [if_true]
            refine ⟨by omega, _, hv, ?_⟩
            rw [Nat.sub_add_eq]
            exact hnext
      | false =>
          have hkill : ∀ x, i.2.2 = .kill x → x ≠ t := by
            intro x hop
            simpa only [Spares, hop] using hspares
          have hwatch : i.2.2 ≠ .watch := fun hop => by simp [Spares, hop] at hspares
          have hassassin : i.2.2 ≠ .assassin := fun hop => by simp [Spares, hop] at hspares
          simp only [Bool.false_eq_true, if_false]
          exact ⟨hn, _, hv, hb.keep online i.2.1 htakes hkill hwatch hassassin⟩

theorem Listing.of_runs
    (h : Runs (opStep online) (fun s i => s.BoundOk i ∧ s.ReadyOk i) init s) :
    ∃ a, s.Listing a := by
  apply Runs.invariant h
  · exact ⟨_, refines_init, ReadyList.apart_init⟩
  · rintro a b i ⟨l, hl⟩ ⟨hbound, hready⟩ hstep
    exact ⟨_, hl.step hbound hready hstep⟩

/-- A thread at position `k` of the ready list that is not dying, and is not killed, waits through
at most `k` operations that take a thread; the next one makes it active. -/
theorem round_robin (hreach : Runs (opStep online) (fun s i => s.BoundOk i ∧ s.ReadyOk i) init s)
    {jobs : List ThreadPtr} (hjobs : s.jobsMem.Holds jobs) (hk : jobs[k]? = some t)
    (ht : s.killFlag t = false) (hwaits : Waits online (fun s i => s.Continues t i) t s n u) :
    n ≤ k ∧ (n = k → ∀ i, u.Continues t i → i.2.2.takes = true →
      activates online u i = some t) := by
  obtain ⟨a, ha⟩ := Listing.of_runs hreach
  have hahead : a.Ahead t k := by
    refine ⟨ha.1.killFlag ▸ ht, jobs.take k, jobs.drop (k + 1), ?_, ?_⟩
    · rw [← Chain.unique hjobs.chain ha.1.jobs.chain]
      obtain ⟨hlt, hget⟩ := List.getElem?_eq_some_iff.1 hk
      rw [← hget, List.getElem_cons_drop, List.take_append_drop]
    · rw [List.length_take]
      exact Nat.min_le_left k _
  obtain ⟨hn, b, hu, hb⟩ := hwaits.ahead ha hahead
  refine ⟨hn, ?_⟩
  rintro rfl i ⟨hbound, hready, hspares⟩ htakes
  have hresume : i.2.2 = .resume → b.life i.2.1 ≠ none := by
    intro hop
    simp only [Spares, hop] at hspares
    rwa [← hu.1.life]
  rw [hu.activates hbound hready htakes]
  rcases hb.take online htakes hresume with htaken | ⟨-, hpos, -⟩
  · exact htaken
  -- nobody is in front of `t` any more
  · omega

/-- A test for `BoundOk`: the iterator yields the ready list. -/
def boundTest (s : Sched) (i : Nat × Cpu × SchedOp) : Bool :=
  match s.jobsMem.iterate i.1 with
  | none => false
  | some l => decide (l.length + 1 < i.1)

theorem boundOk_of_test {i : Nat × Cpu × SchedOp} (h : s.boundTest i = true) : s.BoundOk i := by
  unfold boundTest at h
  split at h
  · cases h
  · rename_i l hl
    intro l' hl'
    rw [Chain.unique hl'.chain (QueueMem.chain_of_iterateFrom hl)]
    simpa using h

/-- A test for the use of the operations. -/
def useTest (s : Sched) (i : Nat × Cpu × SchedOp) : Bool :=
  s.boundTest i &&
    match i.2.2, s.jobsMem.iterate i.1 with
    | .ready that, some l => !l.contains that && decide (∀ d, s.life d ≠ some that)
    | _, _ => true

theorem use_of_test {i : Nat × Cpu × SchedOp} (h : s.useTest i = true) :
    s.BoundOk i ∧ s.ReadyOk i := by
  simp only [useTest, Bool.and_eq_true] at h
  obtain ⟨hbound, hop⟩ := h
  refine ⟨boundOk_of_test hbound, fun that hthat => ?_⟩
  simp only [boundTest] at hbound
  split at hbound
  · cases hbound
  · rename_i l hl
    simp only [hthat, hl, Bool.and_eq_true, decide_eq_true_eq, Bool.not_eq_true',
      List.contains_eq_mem, decide_eq_false_iff_not] at hop
    refine ⟨?_, hop.2⟩
    rintro ⟨r, hr⟩
    exact hop.1 (Chain.mem_of_segment (QueueMem.chain_of_iterateFrom hl) hr)

/-- Three threads: the third one waits through two operations, and the third operation, a `resume`,
makes it active. -/
theorem round_robin_threeThreads : ∃ s u, Runs (opStep 2) (fun s i => s.BoundOk i ∧ s.ReadyOk i)
    init s ∧ Waits 2 (fun s i => s.Continues 3 i) 3 s 2 u ∧
      activates 2 u (9, 0, .resume) = some 3 := by
  have hrun : ∃ s, Run.exec (fun s i => if s.useTest i then opStep 2 s i else none) init
      [(9, 0, .ready 1), (9, 0, .ready 2), (9, 0, .ready 3)] = some s ∧
      s.jobsMem.iterate 9 = some [1, 2, 3] ∧ s.killFlag 3 = false ∧
      ∃ v, (s.useTest (9, 0, .schedule) = true ∧ activates 2 s (9, 0, .schedule) = some 1 ∧
          opStep 2 s (9, 0, .schedule) = some v) ∧
        ∃ u, (v.useTest (9, 1, .schedule) = true ∧ activates 2 v (9, 1, .schedule) = some 2 ∧
            opStep 2 v (9, 1, .schedule) = some u) ∧
          u.useTest (9, 0, .resume) = true ∧ u.life 0 = some 1 :=
    ⟨_, rfl, rfl, rfl, _, ⟨rfl, rfl, rfl⟩, _, ⟨rfl, rfl, rfl⟩, rfl, rfl⟩
  obtain ⟨s, hs, hjobs, hflag, v, ⟨huse, hact, hv⟩, u, ⟨huse', hact', hu⟩, huse'', hlife⟩ := hrun
  have hreach : Runs (opStep 2) (fun s i => s.BoundOk i ∧ s.ReadyOk i) init s :=
    runs_of_exec_if (fun _ _ => use_of_test) hs
  obtain ⟨a, ha⟩ := Listing.of_runs hreach
  have hholds : s.jobsMem.Holds [1, 2, 3] := by
    rw [Chain.unique (QueueMem.chain_of_iterateFrom hjobs) ha.1.jobs.chain]
    exact ha.1.jobs
  have hwaits : Waits 2 (fun s i => s.Continues 3 i) 3 s 2 u :=
    .tail (.tail .refl ⟨(use_of_test huse).1, (use_of_test huse).2, trivial⟩ (by simp [hact]) hv)
      ⟨(use_of_test huse').1, (use_of_test huse').2, trivial⟩ (by simp [hact']) hu
  have hresume : u.Continues 3 (9, 0, .resume) :=
    ⟨(use_of_test huse'').1, (use_of_test huse'').2, by simp [Spares, hlife]⟩
  exact ⟨s, u, hreach, hwaits, (round_robin hreach hholds rfl hflag hwaits).2 rfl _ hresume rfl⟩

/-- A second `ready` for the first of two listed threads cuts off the other one: it waits for ever.
-/
theorem listed_thread_lost : ¬ ∀ (online k n : Nat) (s u : Sched) (jobs : List ThreadPtr)
    (t : ThreadPtr), Runs (opStep online) BoundOk init s → s.jobsMem.Holds jobs →
      jobs[k]? = some t → s.killFlag t = false →
        Waits online (fun s i => s.BoundOk i ∧ s.Spares t i) t s n u → n ≤ k := by
  intro hclaim
  have hrun : ∃ s, Run.exec (fun s i => if s.useTest i then opStep 2 s i else none) init
      [(9, 0, .ready 1), (9, 0, .ready 2)] = some s ∧
      s.jobsMem.iterate 9 = some [1, 2] ∧ s.killFlag 2 = false ∧
      ∃ v, (s.boundTest (9, 0, .ready 1) = true ∧ activates 2 s (9, 0, .ready 1) = none ∧
          opStep 2 s (9, 0, .ready 1) = some v) ∧
        ∃ w, (v.boundTest (9, 0, .schedule) = true ∧ activates 2 v (9, 0, .schedule) = some 1 ∧
            opStep 2 v (9, 0, .schedule) = some w) ∧
          ∃ u, w.boundTest (9, 1, .schedule) = true ∧ activates 2 w (9, 1, .schedule) = none ∧
            opStep 2 w (9, 1, .schedule) = some u :=
    ⟨_, rfl, rfl, rfl, _, ⟨rfl, rfl, rfl⟩, _, ⟨rfl, rfl, rfl⟩, _, rfl, rfl, rfl⟩
  obtain ⟨s, hs, hjobs, hflag, v, ⟨hb, hact, hv⟩, w, ⟨hb', hact', hw⟩, u, hb'', hact'', hu⟩ := hrun
  have hreach : Runs (opStep 2) (fun s i => s.BoundOk i ∧ s.ReadyOk i) init s :=
    runs_of_exec_if (fun _ _ => use_of_test) hs
  obtain ⟨a, ha⟩ := Listing.of_runs hreach
  have hholds : s.jobsMem.Holds [1, 2] := by
    rw [Chain.unique (QueueMem.chain_of_iterateFrom hjobs) ha.1.jobs.chain]
    exact ha.1.jobs
  have hwaits : Waits 2 (fun s i => s.BoundOk i ∧ s.Spares 2 i) 2 s 2 u :=
    .tail (.tail (.tail .refl ⟨boundOk_of_test hb, trivial⟩ (by simp [hact]) hv)
      ⟨boundOk_of_test hb', trivial⟩ (by simp [hact']) hw)
      ⟨boundOk_of_test hb'', trivial⟩ (by simp [hact'']) hu
  have hle := hclaim 2 1 2 s u [1, 2] 2 (hreach.mono fun _ _ hok => hok.1) hholds rfl hflag hwaits
  omega

end Sched

end MPStuBS.Thread
