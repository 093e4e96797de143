import MPStuBS.Lib.LinkChain

/-!
# The intrusive queue

`Queue` of `object/queue.h`: a singly linked list whose link field lives in the
items. `tail` does not point at the last item but at the pointer that will
receive the next item: the field `head` of the queue while the queue is empty,
the link field of the last item otherwise. `Slot` is that pointer to a pointer.

The methods read and write the queue object and the link fields of the items,
so they are functions on `QueueMem`, a queue together with the link fields of
the pool. `remove` and the iterator follow links that a caller may have bent
into a cycle; both take a bound on the number of links they follow and answer
`none` when it does not suffice.
-/

set_option autoImplicit false

namespace MPStuBS.Object

universe u

variable {α : Type u}

/-- The values of a `T**` in a queue: the address of `head`, or of the link field of an item. -/
inductive Slot (α : Type u) where
  | head
  | next (item : α)
  deriving DecidableEq

/-- The two fields of a queue object. -/
structure Queue (α : Type u) where
  head : Option α
  tail : Slot α

/-- The constructor: an empty list, `tail` at the address of `head`. -/
def Queue.empty : Queue α := ⟨none, .head⟩

/-- A queue object and the link fields (`QueueLink::next`) of all items. -/
structure QueueMem (α : Type u) where
  queue : Queue α
  link : α → Option α

namespace QueueMem

variable [DecidableEq α]

/-- `*slot`. -/
def load (m : QueueMem α) : Slot α → Option α
  | .head => m.queue.head
  | .next x => m.link x

/-- `get_node(x)->next = v`. -/
def setLink (m : QueueMem α) (x : α) (v : Option α) : QueueMem α :=
  { m with link := Function.update m.link x v }

/-- `head = v`. -/
def setHead (m : QueueMem α) (v : Option α) : QueueMem α :=
  { m with queue := { m.queue with head := v } }

/-- `tail = slot`. -/
def setTail (m : QueueMem α) (s : Slot α) : QueueMem α :=
  { m with queue := { m.queue with tail := s } }

/-- `*slot = v`. -/
def store (m : QueueMem α) (v : Option α) : Slot α → QueueMem α
  | .head => m.setHead v
  | .next x => m.setLink x v

/-- `Queue::enqueue`. -/
def enqueue (m : QueueMem α) (item : α) : QueueMem α :=
  let m₁ := m.setLink item none
  let m₂ := m₁.store (some item) m₁.queue.tail
  m₂.setTail (.next item)

/-- `Queue::dequeue`: the removed head, or null. -/
def dequeue (m : QueueMem α) : Option α × QueueMem α :=
  match m.queue.head with
  | none => (none, m)
  | some out =>
      let m₁ := m.setHead (m.link out)
      -- `tail` points into the removed item if that was the only one
      let m₂ := if m₁.queue.head = none then m₁.setTail .head else m₁
      (some out, m₂.setLink out none)

/-- What one iteration of the loop in `Queue::remove` does: it returns, or goes on with the next
`prev` and `current`. -/
inductive RemoveStep (α : Type u) where
  | done (out : Option α) (m : QueueMem α)
  | more (prev : Slot α) (current : Option α)

/-- One iteration of the loop in `Queue::remove`. -/
def removeStep (m : QueueMem α) (cmp : α → α → Bool) (item : α) (prev : Slot α) :
    Option α → RemoveStep α
  | none => .done none m
  | some current =>
      if cmp item current then
        let m₁ := m.store (m.link current) prev
        -- unlike `dequeue`, `remove` keeps the link of the item that it takes out
        .done (some current) (if Slot.next current = m₁.queue.tail then m₁.setTail prev else m₁)
      else .more (.next current) (m.link current)

/-- The loop of `Queue::remove`, following at most `fuel` links. -/
def removeFrom (m : QueueMem α) (cmp : α → α → Bool) (item : α) :
    Nat → Slot α → Option α → Option (Option α × QueueMem α)
  | 0, _, _ => none
  | fuel + 1, prev, current =>
      match m.removeStep cmp item prev current with
      | .done out m' => some (out, m')
      | .more prev' current' => m.removeFrom cmp item fuel prev' current'

/-- `Queue::remove`: the removed item, or null. -/
def remove (m : QueueMem α) (fuel : Nat) (item : α) (cmp : α → α → Bool) :
    Option (Option α × QueueMem α) :=
  m.removeFrom cmp item fuel .head m.queue.head

/-- The default comparison of `Queue::remove`: equality of the addresses. -/
def sameItem (a b : α) : Bool := decide (a = b)

/-- `Queue::insert_first`. -/
def insertFirst (m : QueueMem α) (item : α) : QueueMem α :=
  let m₁ := (m.setLink item m.queue.head).setHead (some item)
  if m₁.queue.tail = .head then m₁.setTail (.next item) else m₁

/-- `Queue::insert_after`. -/
def insertAfter (m : QueueMem α) (oldItem newItem : α) : QueueMem α :=
  let m₁ := (m.setLink newItem (m.link oldItem)).setLink oldItem (some newItem)
  if m₁.load m₁.queue.tail = some newItem then m₁.setTail (.next newItem) else m₁

/-- `Queue::first`. -/
def first (m : QueueMem α) : Option α := m.queue.head

/-- The items an iterator starting at `p` yields before it equals `end()`. -/
def iterateFrom (m : QueueMem α) : Nat → Option α → Option (List α)
  | 0, _ => none
  | _ + 1, none => some []
  | fuel + 1, some x => (m.iterateFrom fuel (m.link x)).map (x :: ·)

/-- The items of a range-based loop over the queue. -/
def iterate (m : QueueMem α) (fuel : Nat) : Option (List α) :=
  m.iterateFrom fuel m.queue.head

end QueueMem

end MPStuBS.Object
