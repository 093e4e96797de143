import MPStuBS.Object.QueueRefinement

/-!
# Several queues over one pool of items

The items have a single link field, so all queues of a program share it.
`Queues` is a family of queue objects over one pool, `Lists` its abstract
counterpart, a family of lists, and both execute the same operations.
`Represents` ties them together: the chain of every queue is its list, the lists
are disjoint, and `tail` addresses the end of the chain.

`queues_refine_lists` runs the two side by side. An item may be inserted only
while no queue lists it, and the anchor of `insert_after` must be listed in that
queue (`Lists.Admissible`); then every operation answers what the list operation
answers, and the queues represent the lists in every state of the run.
-/

set_option autoImplicit false

namespace MPStuBS.Object

open MPStuBS.Lib.LinkChain

universe u v

variable {ι : Type v} {α : Type u}

/-- A family of queue objects and the link fields of the items they list. -/
structure Queues (ι : Type v) (α : Type u) where
  queue : ι → Queue α
  link : α → Option α

/-- The public operations of a queue. -/
inductive QueueOp (ι : Type v) (α : Type u) where
  | enqueue (i : ι) (item : α)
  | dequeue (i : ι)
  | remove (i : ι) (item : α) (cmp : α → α → Bool)
  | insertFirst (i : ι) (item : α)
  | insertAfter (i : ι) (oldItem newItem : α)
  | first (i : ι)
  | iterate (i : ι)

/-- What an operation answers: nothing, a pointer to an item, or the items of a loop. -/
inductive QueueRet (α : Type u) where
  | void
  | pointer (out : Option α)
  | items (l : List α)

namespace Queues

/-- All queues constructed, no item linked. -/
def init : Queues ι α := ⟨fun _ => Queue.empty, fun _ => none⟩

/-- Queue `i` with the link fields. -/
def mem (w : Queues ι α) (i : ι) : QueueMem α := ⟨w.queue i, w.link⟩

variable [DecidableEq ι] [DecidableEq α]

/-- Queue `i` and the link fields replaced. -/
def put (w : Queues ι α) (i : ι) (m : QueueMem α) : Queues ι α :=
  ⟨Function.update w.queue i m.queue, m.link⟩

/-- One operation. The loops follow at most `fuel` links. -/
def exec (fuel : Nat) (w : Queues ι α) : QueueOp ι α → Option (QueueRet α × Queues ι α)
  | .enqueue i item => some (.void, w.put i ((w.mem i).enqueue item))
  | .dequeue i =>
      let r := (w.mem i).dequeue
      some (.pointer r.1, w.put i r.2)
  | .remove i item cmp =>
      ((w.mem i).remove fuel item cmp).map fun r => (.pointer r.1, w.put i r.2)
  | .insertFirst i item => some (.void, w.put i ((w.mem i).insertFirst item))
  | .insertAfter i oldItem newItem => some (.void, w.put i ((w.mem i).insertAfter oldItem newItem))
  | .first i => some (.pointer (w.mem i).first, w)
  | .iterate i => ((w.mem i).iterate fuel).map fun l => (.items l, w)

/-- A sequence of operations, with the answers in order. -/
def run (fuel : Nat) (w : Queues ι α) : List (QueueOp ι α) → Option (List (QueueRet α) × Queues ι α)
  | [] => some ([], w)
  | op :: ops =>
      match w.exec fuel op with
      | none => none
      | some (r, w') => (w'.run fuel ops).map fun p => (r :: p.1, p.2)

end Queues

/-! ## The abstract side -/

/-- A family of lists. -/
abbrev Lists (ι : Type v) (α : Type u) := ι → List α

/-- `newItem` put behind the first `oldItem`. -/
def insertBehind [DecidableEq α] (oldItem newItem : α) : List α → List α
  | [] => []
  | x :: l => if x = oldItem then x :: newItem :: l else x :: insertBehind oldItem newItem l

namespace Lists

variable [DecidableEq ι] [DecidableEq α]

/-- The list operation of the same purpose: append, pop front, erase the first match, push front,
insert behind, look at the front, read all. -/
def exec (L : Lists ι α) : QueueOp ι α → QueueRet α × Lists ι α
  | .enqueue i item => (.void, Function.update L i (L i ++ [item]))
  | .dequeue i => (.pointer (L i).head?, Function.update L i (L i).tail)
  | .remove i item cmp =>
      (.pointer ((L i).find? (cmp item)), Function.update L i ((L i).eraseP (cmp item)))
  | .insertFirst i item => (.void, Function.update L i (item :: L i))
  | .insertAfter i oldItem newItem =>
      (.void, Function.update L i (insertBehind oldItem newItem (L i)))
  | .first i => (.pointer (L i).head?, L)
  | .iterate i => (.items (L i), L)

/-- A sequence of list operations, with the answers in order. -/
def run (L : Lists ι α) : List (QueueOp ι α) → List (QueueRet α) × Lists ι α
  | [] => ([], L)
  | op :: ops =>
      let r := L.exec op
      let p := run r.2 ops
      (r.1 :: p.1, p.2)

omit [DecidableEq ι] [DecidableEq α] in
/-- An item is inserted only while no queue lists it; the anchor of `insert_after` is listed. -/
def Admissible (L : Lists ι α) : QueueOp ι α → Prop
  | .enqueue _ item => ∀ j, item ∉ L j
  | .insertFirst _ item => ∀ j, item ∉ L j
  | .insertAfter i oldItem newItem => oldItem ∈ L i ∧ ∀ j, newItem ∉ L j
  | _ => True

/-- Every operation of the sequence is admissible when its turn comes. -/
def AdmissibleRun (L : Lists ι α) : List (QueueOp ι α) → Prop
  | [] => True
  | op :: ops => L.Admissible op ∧ AdmissibleRun (L.exec op).2 ops

end Lists

/-! ## The refinement -/

/-- The queues represent the lists. -/
structure Queues.Represents (w : Queues ι α) (L : Lists ι α) : Prop where
  chain : ∀ i, Chain w.link (w.queue i).head (L i)
  nodup : ∀ i, (L i).Nodup
  disjoint : ∀ i j, i ≠ j → ∀ x ∈ L i, x ∉ L j
  tail : ∀ i, (w.queue i).tail = endSlot (L i)

namespace Queues

theorem represents_init : (init : Queues ι α).Represents fun _ => [] where
  chain _ := rfl
  nodup _ := List.nodup_nil
  disjoint _ _ _ _ hx := absurd hx (by simp)
  tail _ := rfl

theorem Represents.holds {w : Queues ι α} {L : Lists ι α} (h : w.Represents L) (i : ι) :
    (w.mem i).Holds (L i) :=
  ⟨h.chain i, h.tail i⟩

/-- The items of another queue are not listed in queue `i`. -/
theorem Represents.not_mem {w : Queues ι α} {L : Lists ι α} (h : w.Represents L) {i j : ι}
    (hj : j ≠ i) {x : α} (hx : x ∈ L j) : x ∉ L i :=
  h.disjoint j i hj x hx

variable [DecidableEq ι]

/-- The queue of one member changes to hold a list whose items are listed there or nowhere, and
no link outside the two lists is written: the family represents the changed lists. -/
theorem Represents.put {w : Queues ι α} {L : Lists ι α} (h : w.Represents L) {i : ι}
    {m : QueueMem α} {l : List α} (hm : m.Holds l) (hnew : ∀ x ∈ l, x ∈ L i ∨ ∀ j, x ∉ L j)
    (hlink : ∀ j, j ≠ i → ∀ x ∈ L j, m.link x = w.link x) :
    (w.put i m).Represents (Function.update L i l) := by
  -- the items of the changed list are in no other queue
  have hother : ∀ x ∈ l, ∀ j, j ≠ i → x ∉ L j := by
    intro x hx j hj
    rcases hnew x hx with hxi | hxn
    · exact h.disjoint i j (Ne.symm hj) x hxi
    · exact hxn j
  -- queue `i` holds the new list, the others the lists that they held
  have hholds : ∀ j, ((w.put i m).mem j).Holds (Function.update L i l j) := by
    intro j
    by_cases hj : j = i
    · subst hj
      simpa [Queues.put, mem] using hm
    · rw [Function.update_of_ne hj]
      refine (h.holds j).congr ?_ (hlink j hj)
      exact Function.update_of_ne hj m.queue w.queue
  refine ⟨fun j => (hholds j).chain, fun j => (hholds j).nodup, ?_, fun j => (hholds j).tail⟩
  intro j k hjk x hx
  by_cases hj : j = i
  · subst hj
    rw [Function.update_self] at hx
    rw [Function.update_of_ne (Ne.symm hjk)]
    exact hother x hx k (Ne.symm hjk)
  · rw [Function.update_of_ne hj] at hx
    by_cases hk : k = i
    · subst hk
      rw [Function.update_self]
      exact fun hxl => hother x hxl j hj hx
    · rw [Function.update_of_ne hk]
      exact h.disjoint j k hjk x hx

variable [DecidableEq α]

theorem Represents.enqueue {w : Queues ι α} {L : Lists ι α} (h : w.Represents L) (i : ι)
    {item : α} (hx : ∀ j, item ∉ L j) :
    (w.put i ((w.mem i).enqueue item)).Represents (Function.update L i (L i ++ [item])) := by
  refine h.put (QueueMem.enqueue_holds (h.holds i) (hx i)) ?_ ?_
  · intro y hy
    rcases List.mem_append.1 hy with hy | hy
    · exact Or.inl hy
    · rw [List.mem_singleton.1 hy]; exact Or.inr hx
  · intro j hj y hy
    exact QueueMem.enqueue_link (h.holds i) (h.not_mem hj hy) fun e => hx j (e ▸ hy)

theorem Represents.dequeue {w : Queues ι α} {L : Lists ι α} (h : w.Represents L) (i : ι) :
    (w.mem i).dequeue.1 = (L i).head? ∧
      (w.put i (w.mem i).dequeue.2).Represents (Function.update L i (L i).tail) := by
  obtain ⟨hout, hm⟩ := QueueMem.dequeue_holds (h.holds i)
  refine ⟨hout, h.put hm (fun y hy => Or.inl (List.mem_of_mem_tail hy)) ?_⟩
  intro j hj y hy
  exact QueueMem.dequeue_link (h.holds i) (h.not_mem hj hy)

theorem Represents.remove {w : Queues ι α} {L : Lists ι α} (h : w.Represents L) (i : ι)
    (item : α) (cmp : α → α → Bool) {fuel : Nat} (hf : (L i).length < fuel) :
    ∃ m, (w.mem i).remove fuel item cmp = some ((L i).find? (cmp item), m) ∧
      (w.put i m).Represents (Function.update L i ((L i).eraseP (cmp item))) := by
  obtain ⟨m, hrun, hm, hlink⟩ := QueueMem.remove_holds (h.holds i) item cmp hf
  refine ⟨m, hrun, h.put hm (fun y hy => Or.inl (List.mem_of_mem_eraseP hy)) ?_⟩
  intro j hj y hy
  exact hlink y (h.not_mem hj hy)

theorem Represents.insertFirst {w : Queues ι α} {L : Lists ι α} (h : w.Represents L) (i : ι)
    {item : α} (hx : ∀ j, item ∉ L j) :
    (w.put i ((w.mem i).insertFirst item)).Represents (Function.update L i (item :: L i)) := by
  refine h.put (QueueMem.insertFirst_holds (h.holds i) (hx i)) ?_ ?_
  · intro y hy
    rcases List.mem_cons.1 hy with rfl | hy
    · exact Or.inr hx
    · exact Or.inl hy
  · intro j hj y hy
    exact QueueMem.insertFirst_link fun e => hx j (e ▸ hy)

omit [DecidableEq ι] in
theorem insertBehind_append {l r : List α} {oldItem newItem : α} (h : oldItem ∉ l) :
    insertBehind oldItem newItem (l ++ oldItem :: r) = l ++ oldItem :: newItem :: r := by
  induction l with
  | nil => simp [insertBehind]
  | cons x l ih =>
      have hx : x ≠ oldItem := fun e => h (by simp [e])
      have hl : oldItem ∉ l := fun hl => h (List.mem_cons_of_mem x hl)
      simp [insertBehind, hx, ih hl]

theorem Represents.insertAfter {w : Queues ι α} {L : Lists ι α} (h : w.Represents L) (i : ι)
    {oldItem newItem : α} (ho : oldItem ∈ L i) (hx : ∀ j, newItem ∉ L j) :
    (w.put i ((w.mem i).insertAfter oldItem newItem)).Represents
      (Function.update L i (insertBehind oldItem newItem (L i))) := by
  obtain ⟨l, r, hl⟩ := List.append_of_mem ho
  -- the first `oldItem` is the only one
  have hol : oldItem ∉ l := by
    intro hol
    have hnd := h.nodup i
    rw [hl] at hnd
    exact (List.nodup_append.1 hnd).2.2 oldItem hol oldItem (by simp) rfl
  have hm : ((w.mem i).insertAfter oldItem newItem).Holds (l ++ oldItem :: newItem :: r) :=
    QueueMem.insertAfter_holds (by rw [← hl]; exact h.holds i) (by rw [← hl]; exact hx i)
  rw [hl, insertBehind_append hol]
  refine h.put hm ?_ ?_
  · intro y hy
    by_cases hy' : y = newItem
    · subst hy'
      exact Or.inr hx
    · refine Or.inl ?_
      rw [hl]
      simpa [hy'] using hy
  · intro j hj y hy
    exact QueueMem.insertAfter_link (fun e => h.not_mem hj hy (e ▸ ho)) fun e => hx j (e ▸ hy)

/-- One admissible operation: the same answer, and the queues represent the changed lists. -/
theorem Represents.exec {w : Queues ι α} {L : Lists ι α} (h : w.Represents L)
    {op : QueueOp ι α} (hop : L.Admissible op) (fuel : Nat) (hf : ∀ i, (L i).length < fuel) :
    ∃ w', w.exec fuel op = some ((L.exec op).1, w') ∧ w'.Represents (L.exec op).2 := by
  cases op with
  | enqueue i item => exact ⟨_, rfl, h.enqueue i hop⟩
  | dequeue i =>
      obtain ⟨hout, hr⟩ := h.dequeue i
      refine ⟨_, ?_, hr⟩
      show some (QueueRet.pointer (w.mem i).dequeue.1, _) = _
      rw [hout]
      rfl
  | remove i item cmp =>
      obtain ⟨m, hrun, hr⟩ := h.remove i item cmp (hf i)
      refine ⟨_, ?_, hr⟩
      show ((w.mem i).remove fuel item cmp).map _ = _
      rw [hrun]
      rfl
  | insertFirst i item => exact ⟨_, rfl, h.insertFirst i hop⟩
  | insertAfter i oldItem newItem => exact ⟨_, rfl, h.insertAfter i hop.1 hop.2⟩
  | first i =>
      refine ⟨w, ?_, h⟩
      show some (QueueRet.pointer (w.queue i).head, w) = _
      rw [(h.chain i).head_eq]
      rfl
  | iterate i =>
      refine ⟨w, ?_, h⟩
      show ((w.mem i).iterate fuel).map _ = _
      rw [QueueMem.iterate_eq (h.holds i) (hf i)]
      rfl

/-- No operation makes a list longer by more than one item. -/
theorem length_exec_le (L : Lists ι α) (op : QueueOp ι α) (i : ι) :
    ((L.exec op).2 i).length ≤ (L i).length + 1 := by
  have hins : ∀ (o n : α) (l : List α), (insertBehind o n l).length ≤ l.length + 1 := by
    intro o n l
    induction l with
    | nil => simp [insertBehind]
    | cons x l ih =>
        simp only [insertBehind]
        split
        · simp
        · simpa using ih
  have hupd : ∀ (j : ι) (l : List α), l.length ≤ (L j).length + 1 →
      (Function.update L j l i).length ≤ (L i).length + 1 := by
    intro j l hl
    by_cases hij : i = j
    · subst hij
      simpa using hl
    · rw [Function.update_of_ne hij]
      omega
  cases op with
  | enqueue j item => exact hupd j _ (by simp)
  | dequeue j => exact hupd j _ (by simp; omega)
  | remove j item cmp => exact hupd j _ (Nat.le_succ_of_le List.length_eraseP_le)
  | insertFirst j item => exact hupd j _ (by simp)
  | insertAfter j o n => exact hupd j _ (hins o n (L j))
  | first j => exact Nat.le_succ _
  | iterate j => exact Nat.le_succ _

/-- A run from queues that represent lists, with fuel for the items still to come. -/
theorem Represents.run (ops : List (QueueOp ι α)) :
    ∀ {w : Queues ι α} {L : Lists ι α} (fuel : Nat), w.Represents L → L.AdmissibleRun ops →
      (∀ i, (L i).length + ops.length < fuel) →
      ∃ w', w.run fuel ops = some ((L.run ops).1, w') ∧ w'.Represents (L.run ops).2 := by
  induction ops with
  | nil =>
      intro w L fuel h _ _
      exact ⟨w, rfl, h⟩
  | cons op ops ih =>
      intro w L fuel h hops hf
      -- the bound covers this operation, and the remaining ones with one item more
      obtain ⟨hop, hrest⟩ := hops
      obtain ⟨w', hexec, h'⟩ := h.exec hop fuel fun i => by
        have := hf i
        omega
      obtain ⟨w'', hrun, h''⟩ := ih fuel h' hrest fun i => by
        have h1 := hf i
        have h2 := length_exec_le L op i
        simp only [List.length_cons] at h1
        omega
      refine ⟨w'', ?_, h''⟩
      simp only [Queues.run, hexec, hrun]
      rfl

/-- Every admissible sequence of operations on newly constructed queues answers as the lists do
and ends in queues that represent the lists. -/
theorem queues_refine_lists (ops : List (QueueOp ι α))
    (hops : Lists.AdmissibleRun (fun _ => []) ops) (fuel : Nat) (hf : ops.length < fuel) :
    ∃ w, (init : Queues ι α).run fuel ops = some ((Lists.run (fun _ => []) ops).1, w) ∧
      w.Represents (Lists.run (fun _ => []) ops).2 :=
  Represents.run ops fuel represents_init hops fun _ => by simpa using hf

/-- Two queues: an item moves from one to the other, and the first one loses its last item. -/
theorem queues_refine_lists_two_queues : ∃ w, (init : Queues (Fin 2) Nat).run 6
    [.enqueue 0 1, .enqueue 0 2, .insertAfter 0 1 3, .dequeue 0, .insertFirst 1 1] =
      some ([.void, .void, .void, .pointer (some 1), .void], w) ∧
    w.Represents (Lists.run (fun _ => [])
      [.enqueue 0 1, .enqueue 0 2, .insertAfter 0 1 3, .dequeue 0, .insertFirst 1 1]).2 := by
  apply queues_refine_lists
  · simp [Lists.AdmissibleRun, Lists.Admissible, Lists.exec, insertBehind, Function.update]
  · decide

end Queues

end MPStuBS.Object
