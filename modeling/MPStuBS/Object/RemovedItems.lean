import MPStuBS.Object.QueueFamily

/-!
# The links of removed items

`Queue::dequeue` clears the link of the item that it takes out, under the comment
that this marks the item as removed. `Queue::remove` takes an item out as well,
from any position, but leaves its link alone. So a removed item is marked exactly
when it had no successor: `removed_marked_iff` runs a sequence of operations over
several queues and finds every item outside the queues with a null link, after
each operation, if and only if `remove` only ever takes the last item of a queue.
-/

set_option autoImplicit false

namespace MPStuBS.Object

open MPStuBS.Lib.LinkChain

universe u v

variable {ι : Type v} {α : Type u}

/-- `Queue::next`. -/
def QueueMem.next (m : QueueMem α) (o : α) : Option α := m.link o

/-- The item is in a queue: a range-based loop over one of them yields it. -/
def Queues.InQueue (w : Queues ι α) (x : α) : Prop :=
  ∃ i fuel l, (w.mem i).iterate fuel = some l ∧ x ∈ l

/-- An item in no queue has a null link, and `next` on it yields no item that is in a queue. -/
def Queues.RemovedMarked (w : Queues ι α) : Prop :=
  ∀ x, ¬ w.InQueue x →
    w.link x = none ∧ ∀ i y, (w.mem i).next x = some y → ¬ w.InQueue y

/-- If the operation is a `remove` that takes an item out, it is the last item of its queue. -/
def Lists.RemovesLast (L : Lists ι α) : QueueOp ι α → Prop
  | .remove i item cmp => ∀ x, (L i).find? (cmp item) = some x → (L i).getLast? = some x
  | _ => True

/-- Every `remove` of the sequence takes out at most the last item of its queue. -/
def Lists.RemovesLastRun [DecidableEq ι] [DecidableEq α] (L : Lists ι α) :
    List (QueueOp ι α) → Prop
  | [] => True
  | op :: ops => L.RemovesLast op ∧ RemovesLastRun (L.exec op).2 ops

/-! ## One queue -/

/-- In a chain the last item alone has a null link. -/
theorem link_eq_none_iff {link : α → Option α} {x : α} :
    ∀ {l : List α} {p : Option α}, Chain link p l → x ∈ l →
      (link x = none ↔ l.getLast? = some x)
  | [], _, _, hx => absurd hx List.not_mem_nil
  | [y], _, h, hx => by
      obtain rfl := List.mem_singleton.1 hx
      constructor
      · intro _
        rfl
      · intro _
        exact h.2
  | y :: z :: l, p, h, hx => by
      have hnd : (y :: z :: l).Nodup := h.nodup
      rw [List.getLast?_cons_cons]
      rcases List.mem_cons.1 hx with rfl | hx
      -- the first of two items leads to the second, and is not the last as well
      · have hlink : link x = some z := h.2.1
        constructor
        · intro hn
          rw [hn] at hlink
          cases hlink
        · intro hl
          exact absurd (List.mem_of_getLast? hl) (List.nodup_cons.1 hnd).1
      · exact link_eq_none_iff h.2 hx

namespace QueueMem

variable [DecidableEq α]

/-- A store through another pointer leaves a link alone. -/
theorem store_link_of_ne {m : QueueMem α} {s : Slot α} {x : α} (hs : s ≠ .next x)
    (v : Option α) : (m.store v s).link x = m.link x := by
  cases s with
  | head => rfl
  | next y =>
      have hxy : x ≠ y := fun e => hs (by rw [e])
      exact Function.update_of_ne hxy v m.link

/-- The loop of `remove` leaves the link of the item alone that it takes out: it stores through
the pointer that leads to the item. -/
theorem removeFrom_link_out {m m' : QueueMem α} {cmp : α → α → Bool} {item x : α} (fuel : Nat) :
    ∀ {prev : Slot α} {current : Option α} {l : List α}, Chain m.link current l →
      (∀ y ∈ l, prev ≠ .next y) →
      m.removeFrom cmp item fuel prev current = some (some x, m') → m'.link x = m.link x := by
  induction fuel with
  | zero =>
      intro prev current l _ _ h
      cases h
  | succ fuel ih =>
      intro prev current l hl hprev h
      cases l with
      | nil =>
          obtain rfl : current = none := hl
          cases h
      | cons y l =>
          obtain ⟨rfl, hrest⟩ := hl
          have hnd : y ∉ l := (List.nodup_cons.1 (Chain.nodup (p := some y) ⟨rfl, hrest⟩)).1
          cases hy : cmp item y with
          | true =>
              simp only [removeFrom, removeStep, hy, if_true, Option.some.injEq,
                Prod.mk.injEq] at h
              obtain ⟨rfl, rfl⟩ := h
              have hstore := store_link_of_ne (m := m) (hprev y List.mem_cons_self) (m.link y)
              split
              · exact hstore
              · exact hstore
          | false =>
              simp only [removeFrom, removeStep, hy] at h
              refine ih hrest (fun z hz e => ?_) h
              exact hnd ((Slot.next.inj e) ▸ hz)

/-- `remove` leaves the link of the item alone that it takes out. -/
theorem remove_link_out {m m' : QueueMem α} {l : List α} {fuel : Nat} {item x : α}
    {cmp : α → α → Bool} (h : m.Holds l) (hr : m.remove fuel item cmp = some (some x, m')) :
    m'.link x = m.link x := by
  refine removeFrom_link_out fuel h.chain (fun y _ e => ?_) hr
  cases e

end QueueMem

/-! ## Several queues -/

/-- The item found is the one that is erased. -/
theorem not_mem_eraseP_of_find {p : α → Bool} {x : α} :
    ∀ {l : List α}, l.Nodup → l.find? p = some x → x ∉ l.eraseP p
  | [], _, h => by cases h
  | y :: l, hnd, h => by
      obtain ⟨hy, hl⟩ := List.nodup_cons.1 hnd
      cases hp : p y with
      | true =>
          simp only [List.find?_cons, hp, Option.some.injEq] at h
          simpa [hp, ← h] using hy
      | false =>
          simp only [List.find?_cons, hp] at h
          have hxy : x ≠ y := fun e => hy (e ▸ List.mem_of_find?_eq_some h)
          simpa [hp, hxy] using not_mem_eraseP_of_find hl h

/-- An item that is no longer listed is the item found. -/
theorem find_of_not_mem_eraseP {p : α → Bool} {x : α} :
    ∀ {l : List α}, x ∈ l → x ∉ l.eraseP p → l.find? p = some x
  | [], hx, _ => absurd hx List.not_mem_nil
  | y :: l, hx, hnot => by
      cases hp : p y with
      | true =>
          simp only [List.eraseP_cons, hp, cond_true] at hnot
          rw [(List.mem_cons.1 hx).resolve_right hnot]
          simp [hp]
      | false =>
          simp only [List.eraseP_cons, hp, cond_false, List.mem_cons, not_or] at hnot
          simpa [hp] using find_of_not_mem_eraseP ((List.mem_cons.1 hx).resolve_left hnot.1) hnot.2

/-- Putting an item behind a listed one lists that item and no other. -/
theorem mem_insertBehind [DecidableEq α] {o n x : α} {l : List α} (ho : o ∈ l) :
    x ∈ insertBehind o n l ↔ x = n ∨ x ∈ l := by
  induction l with
  | nil => exact absurd ho List.not_mem_nil
  | cons y l ih =>
      simp only [insertBehind]
      split
      · simp only [List.mem_cons]
        exact or_left_comm
      next hy =>
        have hol : o ∈ l := (List.mem_cons.1 ho).resolve_left (Ne.symm hy)
        simp only [List.mem_cons, ih hol]
        exact or_left_comm

namespace Queues

/-- The items in the queues are those of the lists. -/
theorem Represents.inQueue_iff {w : Queues ι α} {L : Lists ι α} (h : w.Represents L) {x : α} :
    w.InQueue x ↔ ∃ i, x ∈ L i := by
  constructor
  · rintro ⟨i, fuel, l, hl, hx⟩
    have hc : Chain w.link (w.queue i).head l := QueueMem.chain_of_iterateFrom hl
    exact ⟨i, (h.chain i).unique hc ▸ hx⟩
  · rintro ⟨i, hx⟩
    exact ⟨i, (L i).length + 1, L i, QueueMem.iterate_eq (h.holds i) (Nat.lt_succ_self _), hx⟩

/-- The items outside the lists have null links. -/
def UnlistedNull (w : Queues ι α) (L : Lists ι α) : Prop :=
  ∀ x, (∀ i, x ∉ L i) → w.link x = none

theorem Represents.removedMarked_iff {w : Queues ι α} {L : Lists ι α} (h : w.Represents L) :
    w.RemovedMarked ↔ w.UnlistedNull L := by
  constructor
  · intro hm x hx
    exact (hm x fun hq => (h.inQueue_iff.1 hq).elim hx).1
  · intro hn x hx
    have hlink : w.link x = none := hn x fun i hi => hx (h.inQueue_iff.2 ⟨i, hi⟩)
    refine ⟨hlink, fun i y hy => ?_⟩
    rw [show (w.mem i).next x = none from hlink] at hy
    cases hy

variable [DecidableEq ι]

/-- One member of the family changes: an item outside the changed lists keeps its null link if it
was outside the lists before and its link was not written, or else its link is null now. -/
theorem UnlistedNull.put {w : Queues ι α} {L : Lists ι α} (hn : w.UnlistedNull L) {i : ι}
    {m : QueueMem α} {l : List α}
    (hl : ∀ x, x ∉ l → (x ∉ L i ∧ m.link x = w.link x) ∨ m.link x = none) :
    (w.put i m).UnlistedNull (Function.update L i l) := by
  intro x hx
  have hxl : x ∉ l := by simpa using hx i
  rcases hl x hxl with ⟨hxi, hlink⟩ | hnone
  · refine hlink.trans (hn x fun j => ?_)
    rcases eq_or_ne j i with rfl | hj
    · exact hxi
    · simpa [hj] using hx j
  · exact hnone

variable [DecidableEq α]

/-- What `remove` leaves behind: the item that it takes out, if any, is in no list, and its link
is as before. -/
theorem Represents.remove_unlistedNull_iff {w : Queues ι α} {L : Lists ι α} (h : w.Represents L)
    (hn : w.UnlistedNull L) {i : ι} {item : α} {cmp : α → α → Bool} {fuel : Nat}
    {m : QueueMem α} (hf : (L i).length < fuel)
    (hr : (w.mem i).remove fuel item cmp = some ((L i).find? (cmp item), m)) :
    (w.put i m).UnlistedNull (Function.update L i ((L i).eraseP (cmp item))) ↔
      L.RemovesLast (.remove i item cmp) := by
  -- the links outside queue `i` are not written
  have hother : ∀ x, x ∉ L i → m.link x = w.link x := by
    obtain ⟨m', hm', -, hlink⟩ := QueueMem.remove_holds (h.holds i) item cmp hf
    rw [hr] at hm'
    cases hm'
    exact hlink
  -- nor is that of the item taken out
  have hout : ∀ x, (L i).find? (cmp item) = some x → m.link x = w.link x := by
    intro x hx
    rw [hx] at hr
    exact QueueMem.remove_link_out (h.holds i) hr
  constructor
  · intro hnew x hx
    have hxi : x ∈ L i := List.mem_of_find?_eq_some hx
    refine (link_eq_none_iff (h.chain i) hxi).1 ((hout x hx).symm.trans (hnew x fun j => ?_))
    rcases eq_or_ne j i with rfl | hj
    · rw [Function.update_self]
      exact not_mem_eraseP_of_find (h.nodup j) hx
    · rw [Function.update_of_ne hj]
      exact h.disjoint i j (Ne.symm hj) x hxi
  · intro hlast
    refine hn.put fun x hx => ?_
    by_cases hxi : x ∈ L i
    · -- an item that left the list is the one taken out, and the last one
      have hfind := find_of_not_mem_eraseP hxi hx
      have hnone := (link_eq_none_iff (h.chain i) hxi).2 (hlast x hfind)
      exact Or.inr ((hout x hfind).trans hnone)
    · exact Or.inl ⟨hxi, hother x hxi⟩

/-- One operation from queues whose removed items are marked: they are marked after it unless it
is a `remove` that takes out an item in front of another. -/
theorem Represents.unlistedNull_exec {w w' : Queues ι α} {L : Lists ι α} (h : w.Represents L)
    (hn : w.UnlistedNull L) {op : QueueOp ι α} (hop : L.Admissible op) {fuel : Nat}
    (hf : ∀ i, (L i).length < fuel) {r : QueueRet α} (he : w.exec fuel op = some (r, w')) :
    w'.UnlistedNull (L.exec op).2 ↔ L.RemovesLast op := by
  cases op with
  | remove i item cmp =>
      obtain ⟨m, hm, -⟩ := h.remove i item cmp (hf i)
      have hput : w' = w.put i m := by
        have hm' : w.exec fuel (.remove i item cmp) = some (.pointer _, w.put i m) :=
          congrArg (Option.map _) hm
        rw [hm'] at he
        cases he
        rfl
      rw [hput]
      exact h.remove_unlistedNull_iff hn (hf i) hm
  | enqueue i item =>
      cases he
      refine iff_of_true (hn.put fun x hx => ?_) trivial
      have hxi : x ∉ L i := fun hm => hx (List.mem_append_left _ hm)
      have hne : x ≠ item := fun e => hx (by simp [e])
      exact Or.inl ⟨hxi, QueueMem.enqueue_link (h.holds i) hxi hne⟩
  | dequeue i =>
      cases he
      refine iff_of_true (hn.put fun x hx => ?_) trivial
      by_cases hxi : x ∈ L i
      · -- only the first item leaves, and its link is cleared
        have hhead : (w.mem i).queue.head = some x := by
          rw [(h.holds i).chain.head_eq]
          cases hL : L i with
          | nil => rw [hL] at hxi; exact absurd hxi List.not_mem_nil
          | cons y l =>
              rw [hL] at hxi hx
              exact congrArg some ((List.mem_cons.1 hxi).resolve_right hx).symm
        refine Or.inr ?_
        rw [(QueueMem.dequeue_of_head hhead).2]
        exact Function.update_self x none (w.mem i).link
      · exact Or.inl ⟨hxi, QueueMem.dequeue_link (h.holds i) hxi⟩
  | insertFirst i item =>
      cases he
      refine iff_of_true (hn.put fun x hx => ?_) trivial
      have hxi : x ∉ L i := fun hm => hx (List.mem_cons_of_mem item hm)
      have hne : x ≠ item := fun e => hx (by simp [e])
      exact Or.inl ⟨hxi, QueueMem.insertFirst_link hne⟩
  | insertAfter i o n =>
      cases he
      refine iff_of_true (hn.put fun x hx => ?_) trivial
      rw [mem_insertBehind hop.1, not_or] at hx
      have hxo : x ≠ o := fun e => hx.2 (e ▸ hop.1)
      exact Or.inl ⟨hx.2, QueueMem.insertAfter_link hxo hx.1⟩
  | first i =>
      cases he
      exact iff_of_true hn trivial
  | iterate i =>
      obtain ⟨l, -, hl⟩ := Option.map_eq_some_iff.1 he
      cases hl
      exact iff_of_true hn trivial

/-- A run from queues whose removed items are marked: they stay marked after each operation
exactly when every `remove` takes the last item of its queue. -/
theorem Represents.run_marked_iff (ops : List (QueueOp ι α)) :
    ∀ {w : Queues ι α} {L : Lists ι α} {fuel : Nat}, w.Represents L → w.UnlistedNull L →
      L.AdmissibleRun ops → (∀ i, (L i).length + ops.length < fuel) →
      ((∀ k, ∃ r w', w.run fuel (ops.take k) = some (r, w') ∧ w'.RemovedMarked) ↔
        L.RemovesLastRun ops) := by
  induction ops with
  | nil =>
      intro w L fuel h hn _ _
      refine iff_of_true (fun k => ⟨[], w, ?_, h.removedMarked_iff.2 hn⟩) trivial
      rw [List.take_nil]
      rfl
  | cons op ops ih =>
      intro w L fuel h hn hops hf
      obtain ⟨hop, hrest⟩ := hops
      have hf₀ : ∀ i, (L i).length < fuel := fun i => by
        have := hf i
        omega
      have hf₁ : ∀ i, ((L.exec op).2 i).length + ops.length < fuel := fun i => by
        have h1 := hf i
        have h2 := length_exec_le L op i
        simp only [List.length_cons] at h1
        omega
      obtain ⟨w₁, hexec, h₁⟩ := h.exec hop fuel hf₀
      have hstep := h.unlistedNull_exec hn hop hf₀ hexec
      -- a prefix of the run is the first operation and a prefix of the rest
      have hrun : ∀ k, w.run fuel ((op :: ops).take (k + 1)) =
          (w₁.run fuel (ops.take k)).map fun p => ((L.exec op).1 :: p.1, p.2) := by
        intro k
        show Queues.run fuel w (op :: ops.take k) = _
        rw [Queues.run, hexec]
      constructor
      · intro hall
        have hn₁ : w₁.UnlistedNull (L.exec op).2 := by
          obtain ⟨r, w', hr, hm⟩ := hall 1
          rw [hrun 0] at hr
          cases hr
          exact h₁.removedMarked_iff.1 hm
        refine ⟨hstep.1 hn₁, (ih h₁ hn₁ hrest hf₁).1 fun k => ?_⟩
        obtain ⟨r, w', hr, hm⟩ := hall (k + 1)
        rw [hrun k] at hr
        obtain ⟨p, hp, he⟩ := Option.map_eq_some_iff.1 hr
        cases he
        exact ⟨p.1, p.2, hp, hm⟩
      · rintro ⟨hlast, hlastRest⟩ k
        have hn₁ : w₁.UnlistedNull (L.exec op).2 := hstep.2 hlast
        cases k with
        | zero => exact ⟨[], w, rfl, h.removedMarked_iff.2 hn⟩
        | succ k =>
            obtain ⟨r, w', hr, hm⟩ := (ih h₁ hn₁ hrest hf₁).2 hlastRest k
            refine ⟨(L.exec op).1 :: r, w', ?_, hm⟩
            rw [hrun k, hr]
            rfl

/-- On newly constructed queues: every item outside the queues is marked after each operation of
an admissible sequence if and only if every `remove` takes out at most the last item of its
queue. -/
theorem removed_marked_iff (ops : List (QueueOp ι α))
    (hops : Lists.AdmissibleRun (fun _ => []) ops) (fuel : Nat) (hf : ops.length < fuel) :
    (∀ k, ∃ r w, (init : Queues ι α).run fuel (ops.take k) = some (r, w) ∧ w.RemovedMarked) ↔
      Lists.RemovesLastRun (fun _ => []) ops :=
  Represents.run_marked_iff ops represents_init (fun _ _ => rfl) hops fun _ => by simpa using hf

/-- Two items are enqueued, and the second is removed again. -/
theorem removed_marked_iff_last : ∃ r w, (init : Queues (Fin 2) Nat).run 4
    [.enqueue 0 1, .enqueue 0 2, .remove 0 2 QueueMem.sameItem] = some (r, w) ∧
      w.RemovedMarked := by
  refine (removed_marked_iff [.enqueue 0 1, .enqueue 0 2, .remove 0 2 QueueMem.sameItem]
    ?_ 4 (by decide)).2 ?_ 3
  · simp [Lists.AdmissibleRun, Lists.Admissible, Lists.exec, Function.update]
  · simp [Lists.RemovesLastRun, Lists.RemovesLast, Lists.exec, QueueMem.sameItem]

/-- Two items are enqueued, and the first is removed: its link still leads to the second, which
is listed. -/
theorem removed_first_not_marked : ∃ r w, (init : Queues (Fin 2) Nat).run 4
    [.enqueue 0 1, .enqueue 0 2, .remove 0 1 QueueMem.sameItem] = some (r, w) ∧
      ¬ w.InQueue 1 ∧ (w.mem 0).next 1 = some 2 ∧ w.InQueue 2 ∧ ¬ w.RemovedMarked := by
  have hops : Lists.AdmissibleRun (fun _ : Fin 2 => ([] : List Nat))
      [.enqueue 0 1, .enqueue 0 2, .remove 0 1 QueueMem.sameItem] := by
    simp [Lists.AdmissibleRun, Lists.Admissible, Lists.exec, Function.update]
  obtain ⟨w, hrun, h⟩ := Represents.run _ 4 represents_init hops fun _ => by decide
  have hin : ∀ x, w.InQueue x ↔ x = 2 := by
    intro x
    rw [h.inQueue_iff]
    simp [Lists.run, Lists.exec, QueueMem.sameItem, Function.update]
  have hnext : (w.mem 0).next 1 = some 2 := by
    have hlink : ((init : Queues (Fin 2) Nat).run 4
        [.enqueue 0 1, .enqueue 0 2, .remove 0 1 QueueMem.sameItem]).map
          (fun p => (p.2.mem 0).next 1) = some (some 2) := by decide
    rw [hrun] at hlink
    exact Option.some.inj hlink
  have h1 : ¬ w.InQueue 1 := fun hq => by simpa using (hin 1).1 hq
  have h2 : w.InQueue 2 := (hin 2).2 rfl
  exact ⟨_, w, hrun, h1, hnext, h2, fun hm => (hm 1 h1).2 0 2 hnext h2⟩

end Queues

end MPStuBS.Object
