import Mathlib.Data.List.Nodup
import Mathlib.Data.List.Basic
import Mathlib.Logic.Function.Basic

/-!
# Chains through a field of next pointers

A singly linked list in a heap is a start pointer and a field `next` that gives
every item its successor. `Segment next p l q` says that following `next` from
`p` visits exactly the items of `l`, in order, and then stands at `q`; a `Chain`
is a segment that ends at the null pointer. The list of a chain is determined by
its start (`Chain.unique`), has no duplicates (`Chain.nodup`), and is not
affected by a write to a field of an item outside it (`Segment.update`).
-/

set_option autoImplicit false

namespace MPStuBS.Lib.LinkChain

universe u

variable {α : Type u}

/-- Following `next` from `p` visits the items of `l`, in order, and arrives at `q`. -/
def Segment (next : α → Option α) : Option α → List α → Option α → Prop
  | p, [], q => p = q
  | p, x :: xs, q => p = some x ∧ Segment next (next x) xs q

/-- Following `next` from `p` visits the items of `l` and then reaches the null pointer. -/
abbrev Chain (next : α → Option α) (p : Option α) (l : List α) : Prop :=
  Segment next p l none

@[simp] theorem segment_nil {next : α → Option α} {p q : Option α} :
    Segment next p [] q ↔ p = q := Iff.rfl

@[simp] theorem segment_cons {next : α → Option α} {p q : Option α} {x : α} {xs : List α} :
    Segment next p (x :: xs) q ↔ p = some x ∧ Segment next (next x) xs q := Iff.rfl

/-- A segment over a concatenation passes through a pointer between the two parts. -/
theorem segment_append {next : α → Option α} {q : Option α} (r : List α) :
    ∀ (l : List α) (p : Option α),
      Segment next p (l ++ r) q ↔ ∃ m, Segment next p l m ∧ Segment next m r q
  | [], p => by simp
  | x :: l, p => by
      simp only [List.cons_append, segment_cons, segment_append r l, and_assoc, exists_and_left]

/-- A segment reads only the fields of its own items. -/
theorem Segment.congr {next next' : α → Option α} {q : Option α} :
    ∀ {l : List α} {p : Option α}, Segment next p l q → (∀ x ∈ l, next' x = next x) →
      Segment next' p l q
  | [], _, h, _ => h
  | x :: l, _, ⟨hp, h⟩, hag => by
      refine ⟨hp, ?_⟩
      rw [hag x List.mem_cons_self]
      exact h.congr fun y hy => hag y (List.mem_cons_of_mem x hy)

/-- Writing the field of an item outside the segment keeps it. -/
theorem Segment.update [DecidableEq α] {next : α → Option α} {p q v : Option α} {l : List α}
    {a : α} (h : Segment next p l q) (ha : a ∉ l) : Segment (Function.update next a v) p l q := by
  refine h.congr fun x hx => ?_
  have hxa : x ≠ a := fun e => ha (e ▸ hx)
  exact Function.update_of_ne hxa v next

/-- The end pointer of a segment is the field of its last item. -/
theorem Segment.next_last {next : α → Option α} {p q : Option α} {l : List α} {x : α}
    (h : Segment next p (l ++ [x]) q) : next x = q := by
  obtain ⟨m, -, -, hx⟩ := (segment_append [x] l p).1 h
  exact hx

/-- The start pointer of a chain is its first item, or null for the empty chain. -/
theorem Chain.head_eq {next : α → Option α} {p : Option α} {l : List α} (h : Chain next p l) :
    p = l.head? := by
  cases l with
  | nil => exact h
  | cons x l => exact h.1

/-- The start pointer determines the list of a chain. -/
theorem Chain.unique {next : α → Option α} :
    ∀ {l l' : List α} {p : Option α}, Chain next p l → Chain next p l' → l = l'
  | [], [], _, _, _ => rfl
  | [], x :: l', p, h, h' => by
      have hp : p = none := h
      rw [hp] at h'
      exact absurd h'.1 (by simp)
  | x :: l, [], p, h, h' => by
      have hp : p = none := h'
      rw [hp] at h
      exact absurd h.1 (by simp)
  | x :: l, y :: l', p, h, h' => by
      have hxy : x = y := Option.some.inj (h.1.symm.trans h'.1)
      subst hxy
      rw [Chain.unique h.2 h'.2]

/-- What the links lead to from the start of a chain is an item of the chain. -/
theorem Chain.mem_of_segment {next : α → Option α} {u : α} :
    ∀ {r l : List α} {p : Option α}, Chain next p l → Segment next p r (some u) → u ∈ l
  | [], l, p, h, hr => by
      have hp : l.head? = some u := (Chain.head_eq h).symm.trans hr
      exact List.mem_of_mem_head? hp
  | x :: r, [], p, h, hr => by
      have hp : p = none := h
      rw [hp] at hr
      exact absurd hr.1 (by simp)
  | x :: r, y :: l, p, h, hr => by
      obtain rfl : x = y := Option.some.inj (hr.1.symm.trans h.1)
      exact List.mem_cons_of_mem x (Chain.mem_of_segment h.2 hr.2)

/-- A finite chain visits no item twice: the second visit would continue like the first. -/
theorem Chain.nodup {next : α → Option α} :
    ∀ {l : List α} {p : Option α}, Chain next p l → l.Nodup
  | [], _, _ => List.nodup_nil
  | x :: l, p, h => by
      refine List.nodup_cons.2 ⟨fun hx => ?_, Chain.nodup h.2⟩
      obtain ⟨s, t, rfl⟩ := List.append_of_mem hx
      obtain ⟨m, -, hm, ht⟩ := (segment_append (x :: t) s (next x)).1 h.2
      have hlen := congrArg List.length (Chain.unique h.2 ht)
      simp only [List.length_append, List.length_cons] at hlen
      omega

/-- A segment to an item can be cut short to one that visits nothing twice, nor the item. -/
theorem Segment.exists_simple {next : α → Option α} {u : α} :
    ∀ {l : List α} {p : Option α}, Segment next p l (some u) →
      ∃ r, Segment next p r (some u) ∧ r.Nodup ∧ u ∉ r
  | [], _, h => ⟨[], h, List.nodup_nil, by simp⟩
  | x :: l, p, h => by
      obtain ⟨r, hr, hnd, hu⟩ := Segment.exists_simple h.2
      by_cases hxu : x = u
      · subst hxu
        exact ⟨[], h.1, List.nodup_nil, by simp⟩
      · by_cases hx : x ∈ r
        · -- the second visit of `x` leads to `u` as the first one does
          obtain ⟨s, t, rfl⟩ := List.append_of_mem hx
          obtain ⟨m, -, hm, ht⟩ := (segment_append (x :: t) s (next x)).1 hr
          refine ⟨x :: t, ⟨h.1, ht⟩, (List.nodup_append.1 hnd).2.1, ?_⟩
          intro hut
          exact hu (List.mem_append_right s hut)
        · refine ⟨x :: r, ⟨h.1, hr⟩, List.nodup_cons.2 ⟨hx, hnd⟩, ?_⟩
          simp [hu, Ne.symm hxu]

/-- An item on the way is reached by the part of the segment before it. -/
theorem Segment.prefix_of_mem {next : α → Option α} {p q : Option α} {l : List α} {x : α}
    (h : Segment next p l q) (hnd : l.Nodup) (hx : x ∈ l) :
    ∃ r, Segment next p r (some x) ∧ r.Nodup ∧ x ∉ r := by
  obtain ⟨s, t, rfl⟩ := List.append_of_mem hx
  obtain ⟨m, hs, hm, -⟩ := (segment_append (x :: t) s p).1 h
  obtain ⟨hnds, -, hdisj⟩ := List.nodup_append.1 hnd
  refine ⟨s, hm ▸ hs, hnds, fun hxs => ?_⟩
  exact hdisj x hxs x List.mem_cons_self rfl

end MPStuBS.Lib.LinkChain
