import Mathlib.Data.List.Basic

/-!
# Computations that keep a log

A `Logged ι α` computes a value and writes entries to a log on the way; `do` joins the
logs in order. The value is the one of the same computation without a log
(`value_bind`), and what holds of all entries in the log follows from the parts of the
computation (`All.bind`, `All.ite`).

`x.Peak f m`: of the entries that `f` gives a number to, `m` is the highest number in
the log. Then all of them lie below a limit exactly if `m` does (`Peak.all_lt_iff`).
-/

set_option autoImplicit false

namespace MPStuBS.Lib

universe u v w

/-- A value and the entries written on the way to it. -/
structure Logged (ι : Type u) (α : Type v) where
  log : List ι
  value : α

namespace Logged

variable {ι : Type u} {α β : Type v}

/-- Write one entry. -/
abbrev note (i : ι) (a : α) : Logged ι α := ⟨[i], a⟩

instance : Monad (Logged ι) where
  pure a := ⟨[], a⟩
  bind x f := ⟨x.log ++ (f x.value).log, (f x.value).value⟩

@[simp] theorem value_pure (a : α) : (pure a : Logged ι α).value = a := rfl

@[simp] theorem value_bind (x : Logged ι α) (f : α → Logged ι β) :
    (x >>= f).value = (f x.value).value := rfl

@[simp] theorem value_ite (c : Prop) [Decidable c] (x y : Logged ι α) :
    (if c then x else y).value = if c then x.value else y.value := apply_ite value c x y

/-! ## What holds of all entries -/

/-- The predicate holds of every entry in the log. -/
def All (P : ι → Prop) (x : Logged ι α) : Prop := ∀ i ∈ x.log, P i

variable {P : ι → Prop} {x : Logged ι α} {g : α → Logged ι β}

theorem All.pure {a : α} : (pure a : Logged ι α).All P := fun _ hi => absurd hi List.not_mem_nil

theorem All.note {i : ι} {a : α} (h : P i) : (note i a).All P := by
  intro j hj
  rwa [List.mem_singleton.1 hj]

theorem All.bind (hx : x.All P) (hg : (g x.value).All P) : (x >>= g).All P := by
  intro i hi
  rcases List.mem_append.1 hi with hi | hi
  · exact hx i hi
  · exact hg i hi

theorem All.ite {c : Prop} [Decidable c] {y : Logged ι α} (hx : c → x.All P)
    (hy : ¬ c → y.All P) : (if c then x else y).All P := by
  split
  case isTrue hc => exact hx hc
  case isFalse hc => exact hy hc

/-! ## The highest number in a log -/

/-- The entries that have a number have one up to `m`. -/
def Below (f : ι → Option Nat) (m : Nat) (x : Logged ι α) : Prop :=
  x.All fun i => ∀ n, f i = some n → n ≤ m

/-- The highest number of an entry in the log. -/
structure Peak (f : ι → Option Nat) (m : Nat) (x : Logged ι α) : Prop where
  attained : ∃ i ∈ x.log, f i = some m
  below : x.Below f m

variable {f : ι → Option Nat} {m : Nat}

theorem Peak.note {i : ι} {a : α} (h : f i = some m) : (note i a).Peak f m :=
  ⟨⟨i, List.mem_singleton_self i, h⟩,
    All.note fun _ hn => Nat.le_of_eq (Option.some.inj (hn.symm.trans h))⟩

/-- The highest number is read first. -/
theorem Peak.bind_left (hx : x.Peak f m) (hg : (g x.value).Below f m) : (x >>= g).Peak f m := by
  obtain ⟨i, hi, hm⟩ := hx.attained
  exact ⟨⟨i, List.mem_append_left _ hi, hm⟩, hx.below.bind hg⟩

/-- The highest number is read later. -/
theorem Peak.bind_right (hx : x.Below f m) (hg : (g x.value).Peak f m) : (x >>= g).Peak f m := by
  obtain ⟨i, hi, hm⟩ := hg.attained
  exact ⟨⟨i, List.mem_append_right _ hi, hm⟩, All.bind hx hg.below⟩

theorem Peak.ite {c : Prop} [Decidable c] {y : Logged ι α} (hx : c → x.Peak f m)
    (hy : ¬ c → y.Peak f m) : (if c then x else y).Peak f m := by
  split
  case isTrue hc => exact hx hc
  case isFalse hc => exact hy hc

/-- A part behind which its value decides how to go on: the highest number of the way taken. -/
theorem Peak.bind_ite (p : α → Prop) [DecidablePred p] {y z : α → Logged ι β} {n : Nat}
    (hy : p x.value → (x >>= y).Peak f m) (hz : ¬ p x.value → (x >>= z).Peak f n) :
    (x >>= fun a => if p a then y a else z a).Peak f (if p x.value then m else n) := by
  by_cases hc : p x.value
  · have heq : (x >>= fun a => if p a then y a else z a) = x >>= y := by
      simp only [bind, if_pos hc]
    rw [heq, if_pos hc]
    exact hy hc
  · have heq : (x >>= fun a => if p a then y a else z a) = x >>= z := by
      simp only [bind, if_neg hc]
    rw [heq, if_neg hc]
    exact hz hc

/-- All numbers lie below a limit exactly if the highest one does. -/
theorem Peak.all_lt_iff (h : x.Peak f m) (base limit : Nat) :
    (x.All fun i => ∀ n, f i = some n → base + n < limit) ↔ base + m < limit := by
  constructor
  · intro hall
    obtain ⟨i, hi, hm⟩ := h.attained
    exact hall i hi m hm
  · intro hm i hi n hn
    exact Nat.lt_of_le_of_lt (Nat.add_le_add_left (h.below i hi n hn) base) hm

end Logged

end MPStuBS.Lib
