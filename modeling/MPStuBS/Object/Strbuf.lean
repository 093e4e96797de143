import Mathlib.Logic.Function.Basic
import Mathlib.Data.List.Basic

/-!
# The string buffer

`Stringbuffer` collects characters until it is flushed. What `flush` does with them is
left to the derived class: it hands the characters in front of `pos` to some output and
sets `pos` back. `put` calls it when the buffer is full.

A store behind the buffer is no step: the member that follows the buffer is `pos`
itself.

If the output cannot tell two chunks from one, then where the buffer is flushed makes no
difference (`exec_flush`).
-/

set_option autoImplicit false

namespace MPStuBS.Object

universe u v

/-- The buffer, the position in it, and the output of the derived class. -/
structure Stringbuffer (τ : Type u) (δ : Type v) where
  buffer : Nat → τ
  pos : Nat
  out : δ

/-- What is done with a stream. -/
inductive StreamOp (τ : Type u) where
  | put (c : τ)
  | flush

/-- The characters that are put. -/
def chars {τ : Type u} : List (StreamOp τ) → List τ
  | [] => []
  | .put c :: ops => c :: chars ops
  | .flush :: ops => chars ops

theorem chars_append {τ : Type u} (ops ops' : List (StreamOp τ)) :
    chars (ops ++ ops') = chars ops ++ chars ops' := by
  induction ops with
  | nil => rfl
  | cons op ops ih =>
      cases op with
      | put c => simp only [List.cons_append, chars, ih]
      | flush => exact ih

theorem chars_map_put {τ : Type u} (cs : List τ) : chars (cs.map StreamOp.put) = cs := by
  induction cs with
  | nil => rfl
  | cons c cs ih => simp only [List.map_cons, chars, ih]

namespace Stringbuffer

variable {τ : Type u} {δ : Type v}

/-- `buffer[pos] = c`. -/
def store (c : τ) (s : Stringbuffer τ δ) : Option (Stringbuffer τ δ) :=
  if s.pos < 80 then some { s with buffer := Function.update s.buffer s.pos c } else none

/-- `pos++`. -/
def increment (s : Stringbuffer τ δ) : Stringbuffer τ δ := { s with pos := s.pos + 1 }

/-- The characters in front of `pos`. -/
def pending (s : Stringbuffer τ δ) : List τ := (List.range s.pos).map s.buffer

/-- `print(buffer, pos)`. -/
def deliver (print : List τ → δ → Option δ) (s : Stringbuffer τ δ) : Option (Stringbuffer τ δ) :=
  match print s.pending s.out with
  | none => none
  | some out => some { s with out := out }

/-- `pos = 0`. -/
def reset (s : Stringbuffer τ δ) : Stringbuffer τ δ := { s with pos := 0 }

/-- `flush`. -/
def flush (print : List τ → δ → Option δ) (s : Stringbuffer τ δ) : Option (Stringbuffer τ δ) :=
  match s.deliver print with
  | none => none
  | some s => some s.reset

/-- `put`. -/
def put (print : List τ → δ → Option δ) (c : τ) (s : Stringbuffer τ δ) :
    Option (Stringbuffer τ δ) :=
  match s.store c with
  | none => none
  -- the test compares for equality: behind 80 it fails for ever
  | some s => if s.increment.pos = 80 then s.increment.flush print else some s.increment

/-- Operations one after the other. -/
def exec (print : List τ → δ → Option δ) : List (StreamOp τ) → Stringbuffer τ δ →
    Option (Stringbuffer τ δ)
  | [], s => some s
  | .put c :: ops, s =>
      match s.put print c with
      | none => none
      | some s => exec print ops s
  | .flush :: ops, s =>
      match s.flush print with
      | none => none
      | some s => exec print ops s

variable {s s' : Stringbuffer τ δ} {c : τ}

theorem store_of_lt (h : s.pos < 80) :
    s.store c = some { s with buffer := Function.update s.buffer s.pos c } := if_pos h

theorem store_of_le (h : 80 ≤ s.pos) : s.store c = none := if_neg (by omega)

theorem length_pending : s.pending.length = s.pos := by
  rw [pending, List.length_map, List.length_range]

/-- A store at `pos` touches no pending character. -/
theorem pending_store (s : Stringbuffer τ δ) (c : τ) :
    ({ s with buffer := Function.update s.buffer s.pos c } : Stringbuffer τ δ).pending =
      s.pending := by
  apply List.map_congr_left
  intro k hk
  exact Function.update_of_ne (Nat.ne_of_lt (List.mem_range.1 hk)) _ _

/-- The character at `pos` is the next one when `pos` moves on. -/
theorem pending_increment (s : Stringbuffer τ δ) :
    s.increment.pending = s.pending ++ [s.buffer s.pos] := by
  simp only [pending, increment]
  rw [List.range_succ, List.map_append, List.map_singleton]

theorem flush_of_print {print : List τ → δ → Option δ} {o : δ}
    (h : print s.pending s.out = some o) : s.flush print = some ⟨s.buffer, 0, o⟩ := by
  simp only [flush, deliver, h]
  rfl

/-- A character is appended to the pending ones, which are delivered when the buffer is full. -/
theorem put_of_lt (print : List τ → δ → Option δ) (c : τ) (h : s.pos < 80) :
    ∃ s₁ : Stringbuffer τ δ, s₁.pending = s.pending ++ [c] ∧ s₁.out = s.out ∧
      s₁.pos = s.pos + 1 ∧
      s.put print c = if s.pos + 1 = 80 then s₁.flush print else some s₁ := by
  refine ⟨({ s with buffer := Function.update s.buffer s.pos c } : Stringbuffer τ δ).increment,
    ?_, rfl, rfl, ?_⟩
  · rw [pending_increment, pending_store]
    simp only [Function.update_self]
  · simp only [put, store_of_lt h]
    rfl

theorem flush_buffer {print : List τ → δ → Option δ} (h : s.flush print = some s') :
    s'.buffer = s.buffer := by
  unfold flush deliver at h
  cases hp : print s.pending s.out with
  | none => simp [hp] at h
  | some o =>
      simp only [hp, Option.some.injEq] at h
      rw [← h]
      rfl

theorem put_buffer {print : List τ → δ → Option δ} (h : s.put print c = some s') :
    s'.buffer = Function.update s.buffer s.pos c := by
  by_cases hpos : s.pos < 80
  · simp only [put, store_of_lt hpos] at h
    split at h
    · exact flush_buffer h
    · rw [← Option.some.inj h]
      rfl
  · simp only [put, store_of_le (Nat.le_of_not_lt hpos)] at h
    cases h

/-- The places of the buffer hold what they did or one of the characters. -/
theorem exec_buffer {print : List τ → δ → Option δ} {ops : List (StreamOp τ)} :
    ∀ {s : Stringbuffer τ δ}, s.exec print ops = some s' →
      ∀ n, s'.buffer n = s.buffer n ∨ s'.buffer n ∈ chars ops := by
  induction ops with
  | nil =>
      intro s h n
      rw [← Option.some.inj h]
      exact .inl rfl
  | cons op ops ih =>
      intro s h n
      cases op with
      | flush =>
          cases hf : s.flush print with
          | none => simp [exec, hf] at h
          | some s₁ =>
              simp only [exec, hf] at h
              rw [← flush_buffer hf]
              exact ih h n
      | put c =>
          cases hp : s.put print c with
          | none => simp [exec, hp] at h
          | some s₁ =>
              simp only [exec, hp] at h
              rcases ih h n with hn | hn
              · rw [hn, put_buffer hp]
                by_cases hpos : n = s.pos
                · rw [hpos, Function.update_self]
                  exact .inr List.mem_cons_self
                · exact .inl (Function.update_of_ne hpos _ _)
              · exact .inr (List.mem_cons_of_mem c hn)

/-- The place at `pos` is written first. -/
theorem exec_put_buffer {print : List τ → δ → Option δ} {ops : List (StreamOp τ)}
    (h : s.exec print (.put c :: ops) = some s') (n : Nat) :
    (n ≠ s.pos ∧ s'.buffer n = s.buffer n) ∨ s'.buffer n ∈ c :: chars ops := by
  cases hp : s.put print c with
  | none => simp [exec, hp] at h
  | some s₁ =>
      simp only [exec, hp] at h
      rcases exec_buffer h n with hn | hn
      · rw [hn, put_buffer hp]
        by_cases hpos : n = s.pos
        · rw [hpos, Function.update_self]
          exact .inr List.mem_cons_self
        · exact .inl ⟨hpos, Function.update_of_ne hpos _ _⟩
      · exact .inr (List.mem_cons_of_mem c hn)

section Independence

variable (print : List τ → δ → Option δ) (total : List τ → δ → δ) (Ok : δ → Prop)

/-- Where an output that accepts all chunks cannot tell two of them from one, the result of a
last `flush` depends on the characters only. -/
theorem exec_flush
    (hprint : ∀ xs o, Ok o → xs.length ≤ 80 → print xs o = some (total xs o))
    (hok : ∀ xs o, Ok o → Ok (total xs o))
    (happend : ∀ xs ys o, Ok o → total ys (total xs o) = total (xs ++ ys) o)
    (ops : List (StreamOp τ)) : ∀ s : Stringbuffer τ δ, s.pos < 80 → Ok s.out →
      ∃ s', s.exec print (ops ++ [.flush]) = some s' ∧ s'.pos = 0 ∧
        s'.out = total (s.pending ++ chars ops) s.out := by
  induction ops with
  | nil =>
      intro s hpos hs
      have hlen : s.pending.length ≤ 80 := by rw [length_pending]; omega
      refine ⟨⟨s.buffer, 0, total s.pending s.out⟩, ?_, rfl, by rw [chars, List.append_nil]⟩
      simp only [List.nil_append, exec, flush_of_print (hprint _ _ hs hlen)]
  | cons op ops ih =>
      intro s hpos hs
      cases op with
      | flush =>
          have hlen : s.pending.length ≤ 80 := by rw [length_pending]; omega
          obtain ⟨s', hexec, hpos', hout⟩ :=
            ih ⟨s.buffer, 0, total s.pending s.out⟩ (Nat.zero_lt_succ _) (hok _ _ hs)
          refine ⟨s', ?_, hpos', ?_⟩
          · simp only [List.cons_append, exec, flush_of_print (hprint _ _ hs hlen)]
            exact hexec
          · rw [hout, happend _ _ _ hs]
            rfl
      | put c =>
          obtain ⟨s₁, hpending, hout₁, hpos₁, hput⟩ := put_of_lt print c hpos
          have hchars : s.pending ++ chars (.put c :: ops) = s₁.pending ++ chars ops := by
            rw [hpending, chars, List.append_assoc, List.singleton_append]
          simp only [List.cons_append, exec, hput, hchars]
          -- the put fills the buffer and flushes it, or only appends
          by_cases hfull : s.pos + 1 = 80
          · have hlen : s₁.pending.length ≤ 80 := by rw [length_pending, hpos₁]; omega
            have hs₁ : Ok s₁.out := hout₁ ▸ hs
            obtain ⟨s', hexec, hpos', hout⟩ :=
              ih ⟨s₁.buffer, 0, total s₁.pending s₁.out⟩ (Nat.zero_lt_succ _) (hok _ _ hs₁)
            refine ⟨s', ?_, hpos', ?_⟩
            · rw [if_pos hfull, flush_of_print (hprint _ _ hs₁ hlen)]
              exact hexec
            · rw [hout, happend _ _ _ hs₁, hout₁]
              rfl
          · obtain ⟨s', hexec, hpos', hout⟩ := ih s₁ (by omega) (hout₁ ▸ hs)
            refine ⟨s', ?_, hpos', ?_⟩
            · rw [if_neg hfull]
              exact hexec
            · rw [hout, hout₁]

end Independence

end Stringbuffer

end MPStuBS.Object
