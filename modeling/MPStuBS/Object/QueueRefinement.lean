import MPStuBS.Object.Queue
import Mathlib.Data.List.Lemmas

/-!
# The queue as a list

`QueueMem.Holds m l`: the chain from `head` is the list `l`, and `tail` addresses
the pointer that ends it (`endSlot l`). Every method of the queue acts on `l` as
the list operation of the same purpose and leaves the link fields of all other
items alone (`enqueue_holds`, `dequeue_holds`, `remove_holds`,
`insertFirst_holds`, `insertAfter_holds`, `iterate_eq`).
-/

set_option autoImplicit false

namespace MPStuBS.Object

open MPStuBS.Lib.LinkChain

universe u

variable {α : Type u}

/-- The pointer that ends the chain of `l`: the address of `head`, or the link of the last item. -/
def endSlot (l : List α) : Slot α :=
  match l.getLast? with
  | none => .head
  | some x => .next x

@[simp] theorem endSlot_concat (l : List α) (x : α) : endSlot (l ++ [x]) = .next x := by
  simp [endSlot]

theorem endSlot_append_cons (l r : List α) (x : α) :
    endSlot (l ++ x :: r) = endSlot (x :: r) := by
  simp [endSlot, List.getLast?_append, List.getLast?_cons]

/-- A nonempty list ends in the link of one of its items. -/
theorem endSlot_cons (x : α) (r : List α) : ∃ y ∈ x :: r, endSlot (x :: r) = .next y := by
  rcases List.eq_nil_or_concat' (x :: r) with h | ⟨l, y, h⟩
  · exact absurd h (by simp)
  · refine ⟨y, by simp [h], ?_⟩
    rw [h, endSlot_concat]

/-- The queue holds exactly the items of `l`, in order, and `tail` ends its chain. -/
structure QueueMem.Holds (m : QueueMem α) (l : List α) : Prop where
  chain : Chain m.link m.queue.head l
  tail : m.queue.tail = endSlot l

namespace QueueMem

/-- A new queue holds the empty list. -/
theorem holds_empty (link : α → Option α) : (⟨Queue.empty, link⟩ : QueueMem α).Holds [] :=
  ⟨rfl, rfl⟩

theorem Holds.nodup {m : QueueMem α} {l : List α} (h : m.Holds l) : l.Nodup := h.chain.nodup

/-- The queue object reads only the links of the items it holds. -/
theorem Holds.congr {m m' : QueueMem α} {l : List α} (h : m.Holds l)
    (hq : m'.queue = m.queue) (hl : ∀ x ∈ l, m'.link x = m.link x) : m'.Holds l := by
  refine ⟨?_, by rw [hq]; exact h.tail⟩
  rw [hq]
  exact Segment.congr h.chain hl

@[simp] theorem setHead_queue (m : QueueMem α) (v : Option α) :
    (m.setHead v).queue = ⟨v, m.queue.tail⟩ := rfl

@[simp] theorem setHead_link (m : QueueMem α) (v : Option α) : (m.setHead v).link = m.link := rfl

@[simp] theorem setTail_queue (m : QueueMem α) (s : Slot α) :
    (m.setTail s).queue = ⟨m.queue.head, s⟩ := rfl

@[simp] theorem setTail_link (m : QueueMem α) (s : Slot α) : (m.setTail s).link = m.link := rfl

/-- The iterator yields the items of the list in order. -/
theorem iterateFrom_eq {m : QueueMem α} :
    ∀ {l : List α} {p : Option α} {fuel : Nat}, Chain m.link p l → l.length < fuel →
      m.iterateFrom fuel p = some l
  | [], p, fuel, h, hf => by
      obtain ⟨k, rfl⟩ : ∃ k, fuel = k + 1 := ⟨fuel - 1, by omega⟩
      rw [show p = none from h]
      rfl
  | x :: l, p, fuel, h, hf => by
      obtain ⟨k, rfl⟩ : ∃ k, fuel = k + 1 := ⟨fuel - 1, by omega⟩
      rw [h.1]
      have hk : l.length < k := by simp only [List.length_cons] at hf; omega
      simp [iterateFrom, iterateFrom_eq h.2 hk]

theorem iterate_eq {m : QueueMem α} {l : List α} {fuel : Nat} (h : m.Holds l)
    (hf : l.length < fuel) : m.iterate fuel = some l :=
  iterateFrom_eq h.chain hf

/-- What the iterator yields is the chain. -/
theorem chain_of_iterateFrom {m : QueueMem α} :
    ∀ {fuel : Nat} {l : List α} {p : Option α}, m.iterateFrom fuel p = some l → Chain m.link p l
  | 0, l, p, h => by cases h
  | fuel + 1, l, none, h => by
      obtain rfl := Option.some.inj h
      rfl
  | fuel + 1, l, some x, h => by
      obtain ⟨l', hl', rfl⟩ := Option.map_eq_some_iff.1 h
      exact ⟨rfl, chain_of_iterateFrom hl'⟩

variable [DecidableEq α]

@[simp] theorem setLink_queue (m : QueueMem α) (x : α) (v : Option α) :
    (m.setLink x v).queue = m.queue := rfl

@[simp] theorem setLink_link (m : QueueMem α) (x : α) (v : Option α) :
    (m.setLink x v).link = Function.update m.link x v := rfl

@[simp] theorem store_tail (m : QueueMem α) (v : Option α) (s : Slot α) :
    (m.store v s).queue.tail = m.queue.tail := by
  cases s <;> rfl

/-- Writing the pointer that ends a segment moves the end of the segment. -/
theorem store_endSlot_segment {m : QueueMem α} {l : List α} {q : Option α}
    (h : Segment m.link m.queue.head l q) (hl : l.Nodup) (v : Option α) :
    Segment (m.store v (endSlot l)).link (m.store v (endSlot l)).queue.head l v := by
  rcases List.eq_nil_or_concat' l with rfl | ⟨l', x, rfl⟩
  · exact rfl
  -- the last link is written, the links before it are kept
  · rw [endSlot_concat]
    have hx : x ∉ l' := fun hx => (List.nodup_append.1 hl).2.2 x hx x (by simp) rfl
    obtain ⟨p, hp, hpx⟩ := (segment_append [x] l' m.queue.head).1 h
    refine (segment_append [x] l' _).2 ⟨p, hp.update hx, hpx.1, ?_⟩
    simp [store]

/-- Writing the pointer that ends `l` writes no link outside `l`. -/
theorem store_endSlot_link {m : QueueMem α} {l : List α} {y : α} (hy : y ∉ l) (v : Option α) :
    (m.store v (endSlot l)).link y = m.link y := by
  rcases List.eq_nil_or_concat' l with rfl | ⟨l', x, rfl⟩
  · rfl
  · rw [endSlot_concat]
    have hyx : y ≠ x := fun e => hy (by simp [e])
    exact Function.update_of_ne hyx v m.link

/-- `enqueue` appends. -/
theorem enqueue_holds {m : QueueMem α} {l : List α} {item : α} (h : m.Holds l)
    (hx : item ∉ l) : (m.enqueue item).Holds (l ++ [item]) := by
  have hseg : Segment (m.setLink item none).link (m.setLink item none).queue.head l none :=
    h.chain.update hx
  have hmove := store_endSlot_segment hseg h.nodup (some item)
  refine ⟨?_, (endSlot_concat l item).symm⟩
  show Chain ((m.setLink item none).store (some item) m.queue.tail).link
    ((m.setLink item none).store (some item) m.queue.tail).queue.head (l ++ [item])
  rw [h.tail]
  refine (segment_append [item] l _).2 ⟨some item, hmove, rfl, ?_⟩
  rw [store_endSlot_link hx]
  simp

/-- `enqueue` writes no link outside the queue and the new item. -/
theorem enqueue_link {m : QueueMem α} {l : List α} {item y : α} (h : m.Holds l)
    (hy : y ∉ l) (hne : y ≠ item) : (m.enqueue item).link y = m.link y := by
  show ((m.setLink item none).store (some item) m.queue.tail).link y = m.link y
  rw [h.tail, store_endSlot_link hy]
  exact Function.update_of_ne hne none m.link

/-- `dequeue` answers the first item, or null for the empty queue. -/
theorem dequeue_fst {m : QueueMem α} : m.dequeue.1 = m.queue.head := by
  cases hm : m.queue.head <;> simp [dequeue, hm]

/-- `dequeue` moves the head on and clears the link of the item it answers. -/
theorem dequeue_of_head {m : QueueMem α} {x : α} (h : m.queue.head = some x) :
    m.dequeue.2.queue.head = m.link x ∧ m.dequeue.2.link = Function.update m.link x none := by
  cases hn : m.link x <;> simp [dequeue, h, hn, setHead, setTail, setLink]

/-- `dequeue` removes the first item. -/
theorem dequeue_holds {m : QueueMem α} {l : List α} (h : m.Holds l) :
    m.dequeue.1 = l.head? ∧ m.dequeue.2.Holds l.tail := by
  refine ⟨dequeue_fst.trans h.chain.head_eq, ?_⟩
  cases l with
  | nil =>
      have hm : m.queue.head = none := h.chain.head_eq
      have e : m.dequeue = (none, m) := by simp [dequeue, hm]
      rw [e]
      exact h
  | cons x r =>
      have hx : x ∉ r := (List.nodup_cons.1 h.nodup).1
      have hr : Chain (Function.update m.link x none) (m.link x) r := Segment.update h.chain.2 hx
      have hm : m.queue.head = some x := h.chain.1
      cases r with
      | nil =>
          -- the last item leaves: `tail` goes back to `head`
          have hlink : m.link x = none := h.chain.2
          have e : m.dequeue.2 = ((m.setHead none).setTail .head).setLink x none := by
            simp [dequeue, hm, hlink]
          rw [e]
          exact ⟨rfl, rfl⟩
      | cons y r =>
          -- an item remains, and `tail` addresses the link of the last one
          have hlink : m.link x = some y := h.chain.2.1
          have e : m.dequeue.2 = (m.setHead (some y)).setLink x none := by
            simp [dequeue, hm, hlink]
          rw [e]
          rw [hlink] at hr
          exact ⟨hr, h.tail.trans (endSlot_append_cons [x] r y)⟩

/-- `dequeue` writes no link outside the queue. -/
theorem dequeue_link {m : QueueMem α} {l : List α} {y : α} (h : m.Holds l) (hy : y ∉ l) :
    m.dequeue.2.link y = m.link y := by
  cases l with
  | nil =>
      have hm : m.queue.head = none := h.chain.head_eq
      simp [dequeue, hm]
  | cons x r =>
      have hm : m.queue.head = some x := h.chain.1
      have hyx : y ≠ x := fun e => hy (by simp [e])
      simp only [dequeue, hm]
      split <;> simp [hyx]

/-- The loop of `remove`, standing after the part `l` of the list in which nothing matched. -/
theorem removeFrom_holds {m : QueueMem α} (cmp : α → α → Bool) (item : α) (r : List α) :
    ∀ (l : List α) (fuel : Nat), m.Holds (l ++ r) → (∀ y ∈ l, cmp item y = false) →
      r.length < fuel →
      ∃ m', m.removeFrom cmp item fuel (endSlot l) r.head? = some (r.find? (cmp item), m') ∧
        m'.Holds (l ++ r.eraseP (cmp item)) ∧ ∀ y, y ∉ l ++ r → m'.link y = m.link y := by
  induction r with
  | nil =>
      intro l fuel h _ hf
      obtain ⟨k, rfl⟩ : ∃ k, fuel = k + 1 := ⟨fuel - 1, by omega⟩
      exact ⟨m, rfl, h, fun _ _ => rfl⟩
  | cons x r ih =>
      intro l fuel h hl hf
      obtain ⟨k, rfl⟩ : ∃ k, fuel = k + 1 := ⟨fuel - 1, by omega⟩
      obtain ⟨p, hp, hpx⟩ := (segment_append (x :: r) l m.queue.head).1 h.chain
      cases hx : cmp item x with
      | false =>
          -- no match: the loop goes on with `x` behind it
          have hassoc : l ++ x :: r = (l ++ [x]) ++ r := by simp
          have hnext : r.head? = m.link x := (Chain.head_eq hpx.2).symm
          rw [hassoc] at h
          obtain ⟨m', hm', hh, hlink⟩ := ih (l ++ [x]) k h
            (by
              intro y hy
              rcases List.mem_append.1 hy with hy | hy
              · exact hl y hy
              · rw [List.mem_singleton.1 hy]; exact hx)
            (by simp only [List.length_cons] at hf; omega)
          refine ⟨m', ?_, ?_, fun y hy => hlink y (by rw [← hassoc]; exact hy)⟩
          · rw [endSlot_concat, hnext] at hm'
            simpa [removeFrom, removeStep, hx] using hm'
          · simpa [hx] using hh
      | true =>
          -- the match: `*prev` skips `x`, and `tail` moves back if `x` was the last item
          have hnd : l.Nodup := (List.nodup_append.1 h.nodup).1
          have hdisj : ∀ y ∈ r, y ∉ l := fun y hy hyl =>
            (List.nodup_append.1 h.nodup).2.2 y hyl y (List.mem_cons_of_mem x hy) rfl
          have hxr : x ∉ r := (List.nodup_cons.1 (List.nodup_append.1 h.nodup).2.1).1
          let m₁ := m.store (m.link x) (endSlot l)
          have hchain : Chain m₁.link m₁.queue.head (l ++ r) :=
            (segment_append r l _).2 ⟨m.link x, store_endSlot_segment hp hnd _,
              hpx.2.congr fun y hy => store_endSlot_link (hdisj y hy) _⟩
          have hlink : ∀ y, y ∉ l ++ x :: r → m₁.link y = m.link y := fun y hy =>
            store_endSlot_link (fun hyl => hy (List.mem_append_left _ hyl)) _
          have htail : m₁.queue.tail = endSlot (x :: r) :=
            (store_tail _ _ _).trans (h.tail.trans (endSlot_append_cons l r x))
          have hstep : m.removeFrom cmp item (k + 1) (endSlot l) (some x) =
              some (some x,
                if Slot.next x = m₁.queue.tail then m₁.setTail (endSlot l) else m₁) := by
            simp [removeFrom, removeStep, hx, m₁]
          have hfind : (x :: r).find? (cmp item) = some x := by simp [hx]
          have herase : (x :: r).eraseP (cmp item) = r := by simp [hx]
          rw [hfind, herase]
          cases r with
          | nil =>
              -- `x` was the last item, so `tail` addressed its link
              have hcond : Slot.next x = m₁.queue.tail := htail.symm
              rw [if_pos hcond] at hstep
              exact ⟨_, hstep, ⟨hchain, by simp⟩, hlink⟩
          | cons z r =>
              -- an item follows, and `tail` addresses the link of the last one
              obtain ⟨y, hy, he⟩ := endSlot_cons z r
              have hcond : Slot.next x ≠ m₁.queue.tail := by
                rw [htail, show endSlot (x :: z :: r) = endSlot (z :: r) from
                  endSlot_append_cons [x] r z, he]
                intro e
                injection e with e
                exact hxr (e ▸ hy)
              rw [if_neg hcond] at hstep
              refine ⟨_, hstep, ⟨hchain, ?_⟩, hlink⟩
              rw [htail, endSlot_append_cons l r z]
              exact endSlot_append_cons [x] r z

/-- Where no item matches, the loop of `remove` walks to the end of the chain and answers null. -/
theorem removeFrom_of_chain {m : QueueMem α} (cmp : α → α → Bool) (item : α) :
    ∀ {l : List α} {fuel : Nat} {prev : Slot α} {current : Option α}, Chain m.link current l →
      (∀ y ∈ l, cmp item y = false) → l.length < fuel →
      m.removeFrom cmp item fuel prev current = some (none, m) := by
  intro l
  induction l with
  | nil =>
      intro fuel prev current h _ hf
      obtain ⟨k, rfl⟩ := Nat.exists_eq_add_one_of_ne_zero (Nat.ne_zero_of_lt hf)
      obtain rfl : current = none := h
      rfl
  | cons x l ih =>
      intro fuel prev current h hcmp hf
      obtain ⟨k, rfl⟩ := Nat.exists_eq_add_one_of_ne_zero (Nat.ne_zero_of_lt hf)
      obtain ⟨rfl, hrest⟩ := h
      have hx := hcmp x List.mem_cons_self
      have hnext : m.removeFrom cmp item k (.next x) (m.link x) = some (none, m) :=
        ih hrest (fun y hy => hcmp y (List.mem_cons_of_mem x hy)) (Nat.lt_of_succ_lt_succ hf)
      simpa [removeFrom, removeStep, hx] using hnext

/-- If the loop of `remove` answers null, the links lead to an end and no item before it matches.
The links may be bent in any way. -/
theorem chain_of_removeFrom {m m' : QueueMem α} (cmp : α → α → Bool) (item : α) :
    ∀ {fuel : Nat} {prev : Slot α} {current : Option α},
      m.removeFrom cmp item fuel prev current = some (none, m') →
      ∃ l, Chain m.link current l ∧ ∀ y ∈ l, cmp item y = false := by
  intro fuel
  induction fuel with
  | zero =>
      intro prev current h
      cases h
  | succ fuel ih =>
      intro prev current h
      cases current with
      | none => exact ⟨[], rfl, by simp⟩
      | some x =>
          cases hx : cmp item x with
          | true => simp [removeFrom, removeStep, hx] at h
          | false =>
              simp only [removeFrom, removeStep, hx] at h
              obtain ⟨l, hl, hcmp⟩ := ih h
              refine ⟨x :: l, ⟨rfl, hl⟩, fun y hy => ?_⟩
              rcases List.mem_cons.1 hy with rfl | hy
              · exact hx
              · exact hcmp y hy

/-- `remove` takes out the first item that matches and answers it, or null if none matches. -/
theorem remove_holds {m : QueueMem α} {l : List α} {fuel : Nat} (h : m.Holds l) (item : α)
    (cmp : α → α → Bool) (hf : l.length < fuel) :
    ∃ m', m.remove fuel item cmp = some (l.find? (cmp item), m') ∧
      m'.Holds (l.eraseP (cmp item)) ∧ ∀ y, y ∉ l → m'.link y = m.link y := by
  have key := removeFrom_holds cmp item l [] fuel h (by simp) hf
  rw [← h.chain.head_eq] at key
  exact key

/-- `insert_first` puts the item in front. -/
theorem insertFirst_holds {m : QueueMem α} {l : List α} {item : α} (h : m.Holds l)
    (hx : item ∉ l) : (m.insertFirst item).Holds (item :: l) := by
  have hchain : Chain (Function.update m.link item m.queue.head) m.queue.head l :=
    h.chain.update hx
  cases l with
  | nil =>
      -- into the empty queue: `tail` addresses the link of the new item
      have ht : m.queue.tail = .head := h.tail
      have hm : m.queue.head = none := h.chain
      refine ⟨?_, ?_⟩ <;> simp [insertFirst, ht, hm, endSlot]
  | cons y r =>
      obtain ⟨z, -, hz⟩ := endSlot_cons y r
      have ht : m.queue.tail ≠ .head := by simp [h.tail, hz]
      refine ⟨⟨?_, ?_⟩, ?_⟩
      · simp [insertFirst, ht]
      · simpa [insertFirst, ht] using hchain
      · simpa [insertFirst, ht] using h.tail.trans (endSlot_append_cons [item] r y).symm

/-- `insert_first` writes no link but that of the item. -/
theorem insertFirst_link {m : QueueMem α} {item y : α} (hne : y ≠ item) :
    (m.insertFirst item).link y = m.link y := by
  simp only [insertFirst]
  split <;> simp [hne]

/-- `insert_after` puts the new item behind the old one. -/
theorem insertAfter_holds {m : QueueMem α} {l r : List α} {oldItem newItem : α}
    (h : m.Holds (l ++ oldItem :: r)) (hx : newItem ∉ l ++ oldItem :: r) :
    (m.insertAfter oldItem newItem).Holds (l ++ oldItem :: newItem :: r) := by
  obtain ⟨p, hp, hpo⟩ := (segment_append (oldItem :: r) l m.queue.head).1 h.chain
  have hnd := h.nodup
  simp only [List.mem_append, List.mem_cons, not_or] at hx
  obtain ⟨hxl, hxo, hxr⟩ := hx
  have hol : oldItem ∉ l := fun hol =>
    (List.nodup_append.1 hnd).2.2 oldItem hol oldItem (by simp) rfl
  have hor : oldItem ∉ r := (List.nodup_cons.1 (List.nodup_append.1 hnd).2.1).1
  let m₁ := (m.setLink newItem (m.link oldItem)).setLink oldItem (some newItem)
  -- the old item now leads to the new one, and that to the old successor
  have hlinkOld : m₁.link oldItem = some newItem := by simp [m₁]
  have hlinkNew : m₁.link newItem = m.link oldItem := by simp [m₁, hxo]
  have hchain : Chain m₁.link m.queue.head (l ++ oldItem :: newItem :: r) := by
    refine (segment_append _ l _).2 ⟨p, (hp.update hxl).update hol, hpo.1, ?_⟩
    rw [hlinkOld]
    refine ⟨rfl, ?_⟩
    rw [hlinkNew]
    exact (hpo.2.update hxr).update hor
  rcases List.eq_nil_or_concat' r with rfl | ⟨s, y, rfl⟩
  -- behind the last item: `tail` addresses its link, which now leads to the new item
  · have ht : m.queue.tail = .next oldItem := h.tail.trans (endSlot_concat l oldItem)
    have hload : m₁.load m₁.queue.tail = some newItem := by
      show m₁.load m.queue.tail = some newItem
      rw [ht]
      exact hlinkOld
    have e : m.insertAfter oldItem newItem = m₁.setTail (.next newItem) := if_pos hload
    rw [e]
    refine ⟨hchain, ?_⟩
    rw [show l ++ [oldItem, newItem] = (l ++ [oldItem]) ++ [newItem] by simp, endSlot_concat]
    rfl
  -- in front of another item: the last link is still null
  · have ht : m.queue.tail = .next y := by
      rw [h.tail, show l ++ oldItem :: (s ++ [y]) = (l ++ oldItem :: s) ++ [y] by simp,
        endSlot_concat]
    have hyo : y ≠ oldItem := fun e => hor (by simp [e])
    have hyn : y ≠ newItem := fun e => hxr (by simp [e])
    have hy : m.link y = none := by
      have hc := h.chain
      rw [show l ++ oldItem :: (s ++ [y]) = (l ++ oldItem :: s) ++ [y] by simp] at hc
      exact hc.next_last
    have hload : m₁.load m₁.queue.tail ≠ some newItem := by
      show m₁.load m.queue.tail ≠ some newItem
      rw [ht]
      simp [m₁, load, hyo, hyn, hy]
    have e : m.insertAfter oldItem newItem = m₁ := if_neg hload
    rw [e]
    refine ⟨hchain, ?_⟩
    rw [show l ++ oldItem :: newItem :: (s ++ [y]) = (l ++ oldItem :: newItem :: s) ++ [y] by simp,
      endSlot_concat]
    exact ht

/-- `insert_after` writes no link but those of its two items. -/
theorem insertAfter_link {m : QueueMem α} {oldItem newItem y : α} (ho : y ≠ oldItem)
    (hn : y ≠ newItem) : (m.insertAfter oldItem newItem).link y = m.link y := by
  simp only [insertAfter]
  split <;> simp [ho, hn]

end QueueMem

end MPStuBS.Object
