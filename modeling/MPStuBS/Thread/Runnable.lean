import MPStuBS.Thread.Scheduler

/-!
# Runnable threads on the ready list

`Scheduler::resume` puts the active thread back and then takes threads from the
list until it finds one that is not dying. It finds one exactly when such a
thread is listed, which is to say that following the links from the head leads
to it (`Sched.Listed`). The links are taken as they are: the lemmas also hold
for a list that a second `ready` for the same thread has bent.
-/

set_option autoImplicit false

namespace MPStuBS.Thread.Sched

open MPStuBS.Object MPStuBS.Lib.LinkChain

/-- Following the links from the head of the ready list leads to thread `u`. -/
def Listed (s : Sched) (u : ThreadPtr) : Prop :=
  ∃ l, Segment s.link s.jobs.head l (some u)

/-- A thread that is not dying is on the ready list. -/
def HasRunnable (s : Sched) : Prop := ∃ u, s.Listed u ∧ s.killFlag u = false

/-- `jobs.enqueue` makes a thread listed: `tail` addresses the head or the link of a listed
thread. -/
def TailListed (s : Sched) : Prop := s.jobs.tail = .head ∨ ∃ y, s.jobs.tail = .next y ∧ s.Listed y

/-- `resume` on CPU `c` finds a thread: there is an active one, and a thread on the ready list is
not dying, or the active thread is not and it gets listed. -/
def CanResume (s : Sched) (c : Cpu) : Prop :=
  ∃ t, s.life c = some t ∧ (s.HasRunnable ∨ s.killFlag t = false ∧ s.TailListed)

/-- Clearing a link keeps a thread within reach, or the thread whose link it is. -/
theorem setLink_path {m : QueueMem ThreadPtr} {l : List ThreadPtr} {v : ThreadPtr}
    (h : Segment m.link m.queue.head l (some v)) (hnd : l.Nodup) (hv : v ∉ l) (t : ThreadPtr) :
    ∃ w r, (w = v ∨ w = t) ∧
      Segment (m.setLink t none).link (m.setLink t none).queue.head r (some w) ∧ r.Nodup ∧
        w ∉ r := by
  -- if the cleared link is on the path, the path to its thread remains
  by_cases ht : t ∈ l
  · obtain ⟨r, hr, hrnd, htr⟩ := h.prefix_of_mem hnd ht
    exact ⟨t, r, Or.inr rfl, hr.update htr, hrnd, htr⟩
  · exact ⟨v, l, Or.inl rfl, h.update ht, hnd, hv⟩

/-- Storing a thread at a slot keeps another one within reach, or reaches the stored one. -/
theorem store_path {m : QueueMem ThreadPtr} {l : List ThreadPtr} {v : ThreadPtr}
    (h : Segment m.link m.queue.head l (some v)) (hnd : l.Nodup) (t : ThreadPtr)
    (slot : Slot ThreadPtr) :
    ∃ w r, (w = v ∨ w = t) ∧
      Segment (m.store (some t) slot).link (m.store (some t) slot).queue.head r (some w) := by
  cases slot with
  | head => exact ⟨t, [], Or.inr rfl, rfl⟩
  | next y =>
      by_cases hy : y ∈ l
      · obtain ⟨r, hr, -, hyr⟩ := h.prefix_of_mem hnd hy
        refine ⟨t, r ++ [y], Or.inr rfl, ?_⟩
        refine (segment_append [y] r _).2 ⟨some y, hr.update hyr, rfl, ?_⟩
        simp [QueueMem.store]
      · exact ⟨v, l, Or.inl rfl, h.update hy⟩

/-- After `jobs.enqueue(t)` a listed thread is still listed, or `t` is. -/
theorem Listed.enqueueJob {s : Sched} {u : ThreadPtr} (h : s.Listed u) (t : ThreadPtr) :
    (s.enqueueJob t).Listed u ∨ (s.enqueueJob t).Listed t := by
  obtain ⟨l, hl⟩ := h
  obtain ⟨l, hl, hnd, hu⟩ := hl.exists_simple
  have hl' : Segment s.jobsMem.link s.jobsMem.queue.head l (some u) := hl
  -- `enqueue` clears the link of `t` and stores `t` at `*tail`
  obtain ⟨v, r, hv, hr, hrnd, -⟩ := setLink_path hl' hnd hu t
  obtain ⟨w, r', hw, hr'⟩ := store_path hr hrnd t s.jobs.tail
  have hlisted : (s.enqueueJob t).Listed w := ⟨r', hr'⟩
  rcases hw with rfl | rfl
  · rcases hv with rfl | rfl
    · exact Or.inl hlisted
    · exact Or.inr hlisted
  · exact Or.inr hlisted

/-- `jobs.enqueue(t)` lists `t` when `tail` addresses a listed link. -/
theorem TailListed.enqueueJob {s : Sched} (h : s.TailListed) (t : ThreadPtr) :
    (s.enqueueJob t).Listed t := by
  rcases h with htail | ⟨y, htail, l, hl⟩
  · refine ⟨[], ?_⟩
    show ((s.jobsMem.setLink t none).store (some t) s.jobs.tail).queue.head = some t
    rw [htail]
    rfl
  · obtain ⟨l, hl, hnd, hy⟩ := hl.exists_simple
    have hl' : Segment s.jobsMem.link s.jobsMem.queue.head l (some y) := hl
    obtain ⟨v, r, hv, hr, hrnd, hvr⟩ := setLink_path hl' hnd hy t
    rcases hv with rfl | rfl
    · refine ⟨r ++ [v], ?_⟩
      show Segment ((s.jobsMem.setLink t none).store (some t) s.jobs.tail).link
        ((s.jobsMem.setLink t none).store (some t) s.jobs.tail).queue.head (r ++ [v]) (some t)
      rw [htail]
      refine (segment_append [v] r _).2 ⟨some v, hr.update hvr, rfl, ?_⟩
      simp [QueueMem.store]
    · obtain ⟨w, r', hw, hr'⟩ := store_path hr hrnd v s.jobs.tail
      obtain rfl : w = v := by rcases hw with rfl | rfl <;> rfl
      exact ⟨r', hr'⟩

/-- When `resume` has put the active thread back, a runnable thread is listed. -/
theorem CanResume.relist {s : Sched} {c : Cpu} {t : ThreadPtr} (h : s.CanResume c)
    (ht : s.life c = some t) : (s.relist t).HasRunnable := by
  obtain ⟨t', ht', h⟩ := h
  obtain rfl : t' = t := Option.some.inj (ht'.symm.trans ht)
  cases hk : s.killFlag t' with
  | true =>
      simp only [Sched.relist, hk, if_true]
      rcases h with h | h
      · exact h
      · simp [hk] at h
  | false =>
      simp only [Sched.relist, hk]
      rcases h with ⟨u, hu, huk⟩ | ⟨-, htail⟩
      · rcases hu.enqueueJob t' with hl | hl
        · exact ⟨u, hl, huk⟩
        · exact ⟨t', hl, hk⟩
      · exact ⟨t', htail.enqueueJob t', hk⟩

/-- `jobs.dequeue()` answers a thread, and a runnable one remains listed unless it is the answer. -/
theorem HasRunnable.dequeueJob {s : Sched} (h : s.HasRunnable) :
    ∃ x, s.dequeueJob.1 = some x ∧ (s.killFlag x = false ∨ s.dequeueJob.2.HasRunnable) := by
  obtain ⟨u, ⟨l, hl⟩, hu⟩ := h
  obtain ⟨l, hl, hnd, -⟩ := hl.exists_simple
  have hfst : s.dequeueJob.1 = s.jobs.head := QueueMem.dequeue_fst
  cases l with
  | nil => exact ⟨u, hfst.trans hl, Or.inl hu⟩
  | cons x l =>
      obtain ⟨hx, hnd'⟩ := List.nodup_cons.1 hnd
      refine ⟨x, hfst.trans hl.1, Or.inr ⟨u, ⟨l, ?_⟩, hu⟩⟩
      have hm : s.jobsMem.queue.head = some x := hl.1
      obtain ⟨hhead, hlink⟩ := QueueMem.dequeue_of_head hm
      show Segment s.jobsMem.dequeue.2.link s.jobsMem.dequeue.2.queue.head l (some u)
      rw [hhead, hlink]
      exact hl.2.update hx

end MPStuBS.Thread.Sched
