import MPStuBS.Lib.Run
import Mathlib.Data.BitVec
import Mathlib.Data.List.Infix

/-!
# The bounded buffer

`BBuffer` of `object/bbuffer.h`, with one caller of `produce` and one of `consume` that
interrupt each other between any two reads and writes of `in`, `out` and `data`. The
operands of a comparison are read from left to right.

The positions count the values that went in and out, modulo the capacity, and one cell
stays free: so the cell that the producer writes is none that the consumer may read
(`Flow`). A value counts as accepted when `in` is written, and as returned when `out` is.
-/

set_option autoImplicit false

namespace MPStuBS.Object

open MPStuBS.Lib.Run

universe u

variable {τ : Type u}

/-- The members of `BBuffer`, with `in` and `out`. -/
structure BBuffer (τ : Type u) where
  data : Nat → τ
  inPos : BitVec 32
  outPos : BitVec 32

/-- Where the caller of `produce` is: the next access, and the local variables. -/
inductive Producer (τ : Type u) where
  | idle
  | readOut (val : τ) (nextin : BitVec 32)
  | readIn (val : τ) (nextin : BitVec 32)
  | writeData (val : τ) (nextin i : BitVec 32)
  | writeIn (val : τ) (nextin : BitVec 32)

/-- Where the caller of `consume` is: the next access, and what it has read. `stored` is the
number of values in the buffer when it read `in`, which the program does not know. -/
inductive Consumer (τ : Type u) where
  | idle
  | readOut (i : BitVec 32) (stored : Nat)
  | readIndex
  | readData (i : BitVec 32)
  | readLast (val : τ)
  | writeOut (val : τ) (o : BitVec 32)

/-- The buffer, its two users, and what became of their calls so far: the values that went in and
out, and for each refusal the number of values in the buffer, for `produce` when it read `out` and
for `consume` when it read `in`. -/
structure Traffic (τ : Type u) where
  buffer : BBuffer τ
  producer : Producer τ
  consumer : Consumer τ
  accepted : List τ
  returned : List τ
  full : List Nat
  empty : List Nat

/-- A call of `produce`, and the next access of either side. -/
inductive BBufferStep (τ : Type u) where
  | call (val : τ)
  | produce
  | consume

namespace Traffic

/-- The constructor leaves the cells as they are. -/
def init (data : Nat → τ) : Traffic τ := ⟨⟨data, 0, 0⟩, .idle, .idle, [], [], [], []⟩

/-- The number of values in the buffer. -/
def stored (s : Traffic τ) : Nat := s.accepted.length - s.returned.length

/-- `produce` is called and reads `in`. -/
def call (cap : BitVec 32) (val : τ) (s : Traffic τ) : Option (Traffic τ) :=
  match s.producer with
  | .idle => some { s with producer := .readOut val ((s.buffer.inPos + 1) % cap) }
  | _ => none

/-- The next access of `produce`. -/
def produce (s : Traffic τ) : Option (Traffic τ) :=
  match s.producer with
  | .idle => none
  | .readOut val nextin =>
      if nextin ≠ s.buffer.outPos then some { s with producer := .readIn val nextin }
      else some { s with producer := .idle, full := s.stored :: s.full }
  | .readIn val nextin => some { s with producer := .writeData val nextin s.buffer.inPos }
  | .writeData val nextin i =>
      some { s with
        buffer := { s.buffer with data := Function.update s.buffer.data i.toNat val }
        producer := .writeIn val nextin }
  | .writeIn val nextin =>
      some { s with
        buffer := { s.buffer with inPos := nextin }
        producer := .idle
        accepted := s.accepted ++ [val] }

/-- The next access of `consume`; after one call it is called again. -/
def consume (cap : BitVec 32) (s : Traffic τ) : Option (Traffic τ) :=
  match s.consumer with
  | .idle => some { s with consumer := .readOut s.buffer.inPos s.stored }
  | .readOut i stored =>
      if i ≠ s.buffer.outPos then some { s with consumer := .readIndex }
      else some { s with consumer := .idle, empty := stored :: s.empty }
  | .readIndex => some { s with consumer := .readData s.buffer.outPos }
  | .readData i => some { s with consumer := .readLast (s.buffer.data i.toNat) }
  | .readLast val => some { s with consumer := .writeOut val ((s.buffer.outPos + 1) % cap) }
  | .writeOut val o =>
      some { s with
        buffer := { s.buffer with outPos := o }
        consumer := .idle
        returned := s.returned ++ [val] }

/-- One access of either side. -/
def step (cap : BitVec 32) (s : Traffic τ) : BBufferStep τ → Option (Traffic τ)
  | .call val => s.call cap val
  | .produce => s.produce
  | .consume => s.consume cap

/-- The cells that are accessed next. -/
def indices (s : Traffic τ) : List (BitVec 32) :=
  (match s.producer with
    | .writeData _ _ i => [i]
    | _ => []) ++
  (match s.consumer with
    | .readData i => [i]
    | _ => [])

/-! ## Positions -/

/-- Numbers that are less than a cycle apart have different positions. -/
theorem eq_of_mod_eq {cap a b : Nat} (hle : a ≤ b) (hlt : b < a + cap) (h : b % cap = a % cap) :
    a = b := by
  have hsub := Nat.sub_mod_eq_zero_of_mod_eq h
  rw [Nat.mod_eq_of_lt (by omega)] at hsub
  omega

/-- Moving a position on by one. -/
theorem toNat_succ_mod {cap i : BitVec 32} {n : Nat} (hcap : cap ≠ 0)
    (hi : i.toNat = n % cap.toNat) : ((i + 1) % cap).toNat = (n + 1) % cap.toNat := by
  have hpos : 0 < cap.toNat := Nat.pos_of_ne_zero fun h => hcap (BitVec.eq_of_toNat_eq h)
  have hlt : i.toNat + 1 < 2 ^ 32 := by
    have hmod := Nat.mod_lt n hpos
    have hword := cap.isLt
    omega
  rw [BitVec.toNat_umod, BitVec.toNat_add]
  show (i.toNat + 1) % 2 ^ 32 % cap.toNat = _
  rw [Nat.mod_eq_of_lt hlt, hi, Nat.mod_add_mod]

/-! ## The invariant -/

section Invariant

variable {cap : Nat}

/-- What the producer knows, when `n` values went in and `m` out: past the comparison there is
room for one more. -/
def ProducerAt (cap n m : Nat) (data : Nat → τ) : Producer τ → Prop
  | .idle => True
  | .readOut _ nextin => nextin.toNat = (n + 1) % cap
  | .readIn _ nextin => nextin.toNat = (n + 1) % cap ∧ n + 1 < m + cap
  | .writeData _ nextin i =>
      nextin.toNat = (n + 1) % cap ∧ n + 1 < m + cap ∧ i.toNat = n % cap
  | .writeIn val nextin =>
      nextin.toNat = (n + 1) % cap ∧ n + 1 < m + cap ∧ data (n % cap) = val

/-- What the consumer knows, when `m` values went out: past the comparison there is one more. -/
def ConsumerAt (cap m : Nat) (accepted : List τ) : Consumer τ → Prop
  | .idle => True
  | .readOut i stored =>
      i.toNat = (m + stored) % cap ∧ m + stored ≤ accepted.length ∧ stored < cap
  | .readIndex => m < accepted.length
  | .readData i => m < accepted.length ∧ i.toNat = m % cap
  | .readLast val => accepted[m]? = some val
  | .writeOut val o => accepted[m]? = some val ∧ o.toNat = (m + 1) % cap

/-- The invariant of the traffic through a buffer. -/
structure Flow (cap : Nat) (s : Traffic τ) : Prop where
  inPos : s.buffer.inPos.toNat = s.accepted.length % cap
  outPos : s.buffer.outPos.toNat = s.returned.length % cap
  inOrder : s.returned <+: s.accepted
  room : s.accepted.length < s.returned.length + cap
  cells : ∀ k, s.returned.length ≤ k → k < s.accepted.length →
    s.accepted[k]? = some (s.buffer.data (k % cap))
  producer : ProducerAt cap s.accepted.length s.returned.length s.buffer.data s.producer
  consumer : ConsumerAt cap s.returned.length s.accepted s.consumer
  full : ∀ k ∈ s.full, k = cap - 1
  empty : ∀ k ∈ s.empty, k = 0

variable {s s' : Traffic τ} {data : Nat → τ} {n m : Nat} {val : τ}

/-- A value that goes out leaves more room to the producer. -/
theorem ProducerAt.returned {p : Producer τ} (h : ProducerAt cap n m data p) :
    ProducerAt cap n (m + 1) data p := by
  cases p with
  | idle => trivial
  | readOut val nextin => exact h
  | readIn val nextin => exact ⟨h.1, by have hroom := h.2; omega⟩
  | writeData val nextin i => exact ⟨h.1, by have hroom := h.2.1; omega, h.2.2⟩
  | writeIn val nextin => exact ⟨h.1, by have hroom := h.2.1; omega, h.2.2⟩

/-- A value that goes in is behind those that the consumer knows of. -/
theorem ConsumerAt.accepted {accepted : List τ} {c : Consumer τ}
    (h : ConsumerAt cap m accepted c) (val : τ) : ConsumerAt cap m (accepted ++ [val]) c := by
  have hlen : accepted.length < (accepted ++ [val]).length := by
    rw [List.length_append]
    exact Nat.lt_succ_self _
  have hget : ∀ {x : τ}, accepted[m]? = some x → (accepted ++ [val])[m]? = some x := by
    intro x hx
    rw [List.getElem?_append_left (List.getElem?_eq_some_iff.1 hx).1, hx]
  cases c with
  | idle => trivial
  | readOut i stored => exact ⟨h.1, Nat.le_trans h.2.1 (Nat.le_of_lt hlen), h.2.2⟩
  | readIndex => exact Nat.lt_trans h hlen
  | readData i => exact ⟨Nat.lt_trans h.1 hlen, h.2⟩
  | readLast val => exact hget h
  | writeOut val o => exact ⟨hget h.1, h.2⟩

theorem Flow.le (h : Flow cap s) : s.returned.length ≤ s.accepted.length := h.inOrder.length_le

theorem Flow.stored_le (h : Flow cap s) : s.stored ≤ cap - 1 := by
  have hroom := h.room
  unfold stored
  omega

end Invariant

/-! ## The steps -/

section Steps

variable {cap : BitVec 32} {s s' : Traffic τ} {val : τ}

theorem flow_init (hcap : cap ≠ 0) (data : Nat → τ) : Flow cap.toNat (init data) where
  inPos := (Nat.zero_mod _).symm
  outPos := (Nat.zero_mod _).symm
  inOrder := List.prefix_refl []
  room := by
    have hpos : 0 < cap.toNat := Nat.pos_of_ne_zero fun h => hcap (BitVec.eq_of_toNat_eq h)
    show 0 < 0 + cap.toNat
    omega
  cells k _ hk := absurd hk (Nat.not_lt_zero k)
  producer := trivial
  consumer := trivial
  full k hk := absurd hk List.not_mem_nil
  empty k hk := absurd hk List.not_mem_nil

theorem flow_call (hcap : cap ≠ 0) (h : Flow cap.toNat s) (hs : s.call cap val = some s') :
    Flow cap.toNat s' := by
  unfold call at hs
  split at hs
  · obtain rfl := Option.some.inj hs
    exact { h with producer := toNat_succ_mod hcap h.inPos }
  · cases hs

/-- The comparison fails only if there is no room. -/
theorem full_of_eq {nextin : BitVec 32} (h : Flow cap.toNat s)
    (hp : s.producer = .readOut val nextin) (heq : nextin = s.buffer.outPos) :
    s.stored = cap.toNat - 1 := by
  have hat := h.producer
  rw [hp] at hat
  have hmod : (s.accepted.length + 1) % cap.toNat = s.returned.length % cap.toNat := by
    rw [← h.outPos, ← heq]
    exact hat.symm
  have hle := h.le
  have hroom := h.room
  -- otherwise the position behind the last value would be the one of the first
  have hnot : ¬ s.accepted.length + 1 < s.returned.length + cap.toNat := by
    intro hlt
    have := eq_of_mod_eq (by omega) hlt hmod
    omega
  unfold stored
  omega

theorem room_of_ne {nextin : BitVec 32} (h : Flow cap.toNat s)
    (hp : s.producer = .readOut val nextin) (hne : nextin ≠ s.buffer.outPos) :
    s.accepted.length + 1 < s.returned.length + cap.toNat := by
  have hat := h.producer
  rw [hp] at hat
  have hroom := h.room
  by_contra hnot
  have hfull : s.accepted.length + 1 = s.returned.length + cap.toNat := by omega
  apply hne
  apply BitVec.eq_of_toNat_eq
  rw [h.outPos, hat, hfull, Nat.add_mod_right]

/-- The cell that the producer writes is none of those in use. -/
theorem Flow.write (h : Flow cap.toNat s) {nextin i : BitVec 32}
    (hp : s.producer = .writeData val nextin i) :
    Flow cap.toNat { s with
      buffer := { s.buffer with data := Function.update s.buffer.data i.toNat val }
      producer := .writeIn val nextin } := by
  have hat := h.producer
  rw [hp] at hat
  obtain ⟨hnext, hroom, hi⟩ := hat
  refine { h with cells := fun k hk hlt => ?_, producer := ⟨hnext, hroom, ?_⟩ }
  · have hk' : s.returned.length ≤ k := hk
    have hne : k % cap.toNat ≠ i.toNat := by
      intro heq
      have hk_eq := eq_of_mod_eq (Nat.le_of_lt hlt) (show s.accepted.length < _ by omega)
        (heq.trans hi).symm
      exact absurd hlt (Nat.not_lt.2 (Nat.le_of_eq hk_eq.symm))
    show _ = some (Function.update s.buffer.data i.toNat val (k % cap.toNat))
    rw [Function.update_of_ne hne]
    exact h.cells k hk hlt
  · show Function.update s.buffer.data i.toNat val (s.accepted.length % cap.toNat) = val
    rw [← hi, Function.update_self]

/-- With the new position the value is in the buffer. -/
theorem Flow.publish (h : Flow cap.toNat s) {nextin : BitVec 32}
    (hp : s.producer = .writeIn val nextin) :
    Flow cap.toNat { s with
      buffer := { s.buffer with inPos := nextin }
      producer := .idle
      accepted := s.accepted ++ [val] } := by
  have hat := h.producer
  rw [hp] at hat
  obtain ⟨hnext, hroom, hdata⟩ := hat
  have hlen : (s.accepted ++ [val]).length = s.accepted.length + 1 := List.length_append
  refine { h with
    inPos := by rw [hlen]; exact hnext
    inOrder := h.inOrder.trans (List.prefix_append _ _)
    room := by rw [hlen]; exact hroom
    cells := fun k hk hlt => ?_
    producer := trivial
    consumer := h.consumer.accepted val }
  rw [hlen] at hlt
  by_cases hold : k < s.accepted.length
  · rw [List.getElem?_append_left hold]
    exact h.cells k hk hold
  · obtain rfl : k = s.accepted.length := by omega
    rw [List.getElem?_concat_length]
    exact congrArg some hdata.symm

theorem flow_produce (h : Flow cap.toNat s) (hs : s.produce = some s') : Flow cap.toNat s' := by
  unfold produce at hs
  split at hs
  · cases hs
  · rename_i val nextin hp
    split at hs
    · rename_i hne
      obtain rfl := Option.some.inj hs
      have hat := h.producer
      rw [hp] at hat
      have hroom := room_of_ne h hp hne
      exact { h with producer := ⟨hat, hroom⟩ }
    · rename_i heq
      obtain rfl := Option.some.inj hs
      refine { h with producer := trivial, full := fun k hk => ?_ }
      rcases List.mem_cons.1 hk with rfl | hk
      · exact full_of_eq h hp (not_not.1 heq)
      · exact h.full k hk
  · rename_i val nextin hp
    obtain rfl := Option.some.inj hs
    have hat := h.producer
    rw [hp] at hat
    exact { h with producer := ⟨hat.1, hat.2, h.inPos⟩ }
  · rename_i val nextin i hp
    obtain rfl := Option.some.inj hs
    exact h.write hp
  · rename_i val nextin hp
    obtain rfl := Option.some.inj hs
    exact h.publish hp

/-- The comparison fails only if there was nothing when `in` was read. -/
theorem empty_of_eq {i : BitVec 32} {stored : Nat} (h : Flow cap.toNat s)
    (hc : s.consumer = .readOut i stored) (heq : i = s.buffer.outPos) : stored = 0 := by
  have hat := h.consumer
  rw [hc] at hat
  obtain ⟨hi, -, hlt⟩ := hat
  have hmod : (s.returned.length + stored) % cap.toNat = s.returned.length % cap.toNat := by
    rw [← h.outPos, ← heq]
    exact hi.symm
  have := eq_of_mod_eq (Nat.le_add_right _ _) (by omega) hmod
  omega

theorem more_of_ne {i : BitVec 32} {stored : Nat} (h : Flow cap.toNat s)
    (hc : s.consumer = .readOut i stored) (hne : i ≠ s.buffer.outPos) :
    s.returned.length < s.accepted.length := by
  have hat := h.consumer
  rw [hc] at hat
  obtain ⟨hi, hle, -⟩ := hat
  by_contra hnot
  have hzero : stored = 0 := by omega
  apply hne
  apply BitVec.eq_of_toNat_eq
  rw [h.outPos, hi, hzero, Nat.add_zero]

/-- With the new position the value has left the buffer. -/
theorem Flow.retire (h : Flow cap.toNat s) {o : BitVec 32} (hc : s.consumer = .writeOut val o) :
    Flow cap.toNat { s with
      buffer := { s.buffer with outPos := o }
      consumer := .idle
      returned := s.returned ++ [val] } := by
  have hat := h.consumer
  rw [hc] at hat
  obtain ⟨hval, ho⟩ := hat
  have hlen : (s.returned ++ [val]).length = s.returned.length + 1 := List.length_append
  have hlt : s.returned.length < s.accepted.length := (List.getElem?_eq_some_iff.1 hval).1
  have hroom := h.room
  refine { h with
    outPos := by rw [hlen]; exact ho
    inOrder := ?_
    room := by rw [hlen]; show s.accepted.length < _; omega
    cells := fun k hk hlt => h.cells k (by rw [hlen] at hk; omega) hlt
    producer := by rw [hlen]; exact h.producer.returned
    consumer := trivial }
  -- the value is the one behind those returned before
  obtain ⟨rest, hrest⟩ := h.inOrder
  rw [← hrest, List.getElem?_append_right (Nat.le_refl _), Nat.sub_self] at hval
  cases rest with
  | nil => cases hval
  | cons x rest =>
      obtain rfl : x = val := Option.some.inj hval
      exact ⟨rest, by rw [List.append_assoc, List.singleton_append]; exact hrest⟩

theorem flow_consume (hcap : cap ≠ 0) (h : Flow cap.toNat s) (hs : s.consume cap = some s') :
    Flow cap.toNat s' := by
  have hat := h.consumer
  unfold consume at hs
  split at hs
  · obtain rfl := Option.some.inj hs
    have hle := h.le
    have hroom := h.room
    have hstored : s.returned.length + s.stored = s.accepted.length := by unfold stored; omega
    refine { h with consumer := ⟨?_, Nat.le_of_eq hstored, by omega⟩ }
    rw [hstored]
    exact h.inPos
  · rename_i i stored hc
    split at hs
    · rename_i hne
      obtain rfl := Option.some.inj hs
      have hmore := more_of_ne h hc hne
      exact { h with consumer := hmore }
    · rename_i heq
      obtain rfl := Option.some.inj hs
      refine { h with consumer := trivial, empty := fun k hk => ?_ }
      rcases List.mem_cons.1 hk with rfl | hk
      · exact empty_of_eq h hc (not_not.1 heq)
      · exact h.empty k hk
  · rename_i hc
    obtain rfl := Option.some.inj hs
    rw [hc] at hat
    exact { h with consumer := ⟨hat, h.outPos⟩ }
  · rename_i i hc
    obtain rfl := Option.some.inj hs
    rw [hc] at hat
    refine { h with consumer := ?_ }
    show _ = some (s.buffer.data i.toNat)
    rw [hat.2]
    exact h.cells _ (Nat.le_refl _) hat.1
  · rename_i val hc
    obtain rfl := Option.some.inj hs
    rw [hc] at hat
    exact { h with consumer := ⟨hat, toNat_succ_mod hcap h.outPos⟩ }
  · rename_i val o hc
    obtain rfl := Option.some.inj hs
    exact h.retire hc

theorem flow_of_reaches (hcap : cap ≠ 0) {data : Nat → τ} (h : Reaches (step cap) (init data) s) :
    Flow cap.toNat s := by
  refine h.invariant (flow_init hcap data) fun a b i ha _ hstep => ?_
  cases i with
  | call val => exact flow_call hcap ha hstep
  | produce => exact flow_produce ha hstep
  | consume => exact flow_consume hcap ha hstep

theorem Flow.indices_lt (h : Flow cap.toNat s) (hcap : cap ≠ 0) :
    ∀ i ∈ s.indices, i < cap := by
  have hpos : 0 < cap.toNat := Nat.pos_of_ne_zero fun h => hcap (BitVec.eq_of_toNat_eq h)
  intro i hi
  have hmod : ∃ n, i.toNat = n % cap.toNat := by
    rcases List.mem_append.1 hi with hi | hi
    · have hat := h.producer
      split at hi
      · rename_i hp
        rw [hp] at hat
        rw [List.mem_singleton.1 hi]
        exact ⟨_, hat.2.2⟩
      · cases hi
    · have hat := h.consumer
      split at hi
      · rename_i hc
        rw [hc] at hat
        rw [List.mem_singleton.1 hi]
        exact ⟨_, hat.2⟩
      · cases hi
  obtain ⟨n, hn⟩ := hmod
  rw [BitVec.lt_def, hn]
  exact Nat.mod_lt n hpos

/-- The buffer loses, doubles and reorders nothing, refuses values only when it is full or empty,
and stays within its cells. -/
theorem bbuffer_lossless (cap : BitVec 32) (hcap : cap ≠ 0) (data : Nat → τ) (s : Traffic τ)
    (h : Reaches (step cap) (init data) s) :
    s.returned <+: s.accepted ∧ s.stored ≤ cap.toNat - 1 ∧
      (∀ k ∈ s.full, k = cap.toNat - 1) ∧ (∀ k ∈ s.empty, k = 0) ∧
      s.buffer.inPos < cap ∧ s.buffer.outPos < cap ∧ ∀ i ∈ s.indices, i < cap := by
  have hflow := flow_of_reaches hcap h
  have hpos : 0 < cap.toNat := Nat.pos_of_ne_zero fun h => hcap (BitVec.eq_of_toNat_eq h)
  refine ⟨hflow.inOrder, hflow.stored_le, hflow.full, hflow.empty, ?_, ?_,
    hflow.indices_lt hcap⟩
  · rw [BitVec.lt_def, hflow.inPos]
    exact Nat.mod_lt _ hpos
  · rw [BitVec.lt_def, hflow.outPos]
    exact Nat.mod_lt _ hpos

/-- With two cells: the second value is refused, the first one is returned, and then the buffer is
empty. -/
def oneValue : List (BBufferStep Nat) :=
  [.call 7, .produce, .produce, .produce, .produce, .call 8, .produce,
    .consume, .consume, .consume, .consume, .consume, .consume, .consume, .consume]

theorem bbuffer_lossless_oneValue : ∃ s : Traffic Nat,
    exec (step 2) (init fun _ => 0) oneValue = some s ∧
      s.returned = [7] ∧ s.full = [1] ∧ s.empty = [0] ∧
      s.returned <+: s.accepted ∧ s.stored ≤ (2 : BitVec 32).toNat - 1 ∧
      (∀ k ∈ s.full, k = (2 : BitVec 32).toNat - 1) ∧ (∀ k ∈ s.empty, k = 0) ∧
      s.buffer.inPos < 2 ∧ s.buffer.outPos < 2 ∧ ∀ i ∈ s.indices, i < (2 : BitVec 32) := by
  have hcap : (2 : BitVec 32) ≠ 0 := by decide
  have hrun : ∃ s : Traffic Nat, exec (step 2) (init fun _ => 0) oneValue = some s ∧
      s.returned = [7] ∧ s.full = [1] ∧ s.empty = [0] := ⟨_, rfl, rfl, rfl, rfl⟩
  obtain ⟨s, hs, hreturned, hfull, hempty⟩ := hrun
  exact ⟨s, hs, hreturned, hfull, hempty,
    bbuffer_lossless 2 hcap (fun _ => 0) s (reaches_of_exec hs)⟩

end Steps

end Traffic

end MPStuBS.Object
