import Mathlib.Data.Fintype.Card
import Mathlib.Data.BitVec

/-!
# The order of a ticket lock

A ticket lock hands out consecutive tickets from a counter `next` and serves them
in order through a counter `turn`. Both count modulo `2 ^ w`. A party is outside,
waits with its ticket, is inside, or is about to store the incremented turn that
it has loaded.

`Ordered next turn stage q`: the parties that hold a ticket form the line `q`.
Its first party holds the ticket `turn`, the next one `turn + 1`, and so on up to
`next`; only the first may be past the wait. The four moves of the lock keep the
line (`Ordered.request`, `Ordered.acquire`, `Ordered.load`, `Ordered.release`),
and at most one party is past the wait (`Ordered.unique`). With fewer than `2 ^ w`
parties the wrap-around of the counters is invisible.
-/

set_option autoImplicit false

namespace MPStuBS.Lib.TicketOrder

universe u

variable {P : Type u} {w : Nat}

/-- Where a party stands with respect to the lock. -/
inductive Stage (w : Nat) where
  | outside
  | waiting (ticket : BitVec w)
  | inside
  | releasing (loaded : BitVec w)
  deriving DecidableEq

/-- The party has passed the wait and has not yet released the lock. -/
def Stage.holds : Stage w → Bool
  | .inside | .releasing _ => true
  | _ => false

/-- The parties of `l` wait with the consecutive tickets from `k` up to `e`. -/
def Line (stage : P → Stage w) : BitVec w → List P → BitVec w → Prop
  | k, [], e => k = e
  | k, p :: l, e => stage p = .waiting k ∧ Line stage (k + 1) l e

/-- The first party of the line is served with ticket `turn`. -/
def Served (turn : BitVec w) (s : Stage w) : Prop :=
  s = .waiting turn ∨ s = .inside ∨ s = .releasing turn

/-- The line of the parties that hold a ticket. -/
structure Ordered (next turn : BitVec w) (stage : P → Stage w) (q : List P) : Prop where
  nodup : q.Nodup
  mem : ∀ p, p ∈ q ↔ stage p ≠ .outside
  line : match q with
    | [] => next = turn
    | p :: l => Served turn (stage p) ∧ Line stage (turn + 1) l next

theorem Line.congr {stage stage' : P → Stage w} {e : BitVec w} :
    ∀ {l : List P} {k : BitVec w}, Line stage k l e → (∀ p ∈ l, stage' p = stage p) →
      Line stage' k l e
  | [], _, h, _ => h
  | p :: _, _, h, hag =>
      ⟨(hag p List.mem_cons_self).trans h.1,
        h.2.congr fun x hx => hag x (List.mem_cons_of_mem p hx)⟩

/-- A party in the line waits with a ticket at its distance from the start. -/
theorem Line.ticket {stage : P → Stage w} {e : BitVec w} :
    ∀ {l : List P} {k : BitVec w} {p : P}, Line stage k l e → p ∈ l →
      ∃ i, i < l.length ∧ stage p = .waiting (k + BitVec.ofNat w i)
  | x :: l, k, p, h, hp => by
      rcases List.mem_cons.1 hp with rfl | hp
      · exact ⟨0, by simp, by simpa using h.1⟩
      · obtain ⟨i, hi, hs⟩ := Line.ticket h.2 hp
        refine ⟨i + 1, by simpa using hi, ?_⟩
        rw [hs]
        congr 1
        rw [BitVec.add_assoc, ← BitVec.ofNat_add_ofNat i 1, BitVec.add_comm (BitVec.ofNat w i)]
        rfl

/-- A further party at the end of the line, with the next ticket. -/
theorem Line.concat {stage : P → Stage w} {e : BitVec w} {p : P} (hp : stage p = .waiting e) :
    ∀ {l : List P} {k : BitVec w}, Line stage k l e → Line stage k (l ++ [p]) (e + 1)
  | [], k, h => by
      have hk : k = e := h
      subst hk
      exact ⟨hp, rfl⟩
  | x :: l, k, h => ⟨h.1, Line.concat hp h.2⟩

section Moves

variable {next turn : BitVec w} {stage : P → Stage w} {q : List P}

/-- No party holds a ticket at the start. -/
theorem ordered_init (k : BitVec w) : Ordered k k (fun _ : P => (Stage.outside : Stage w)) [] where
  nodup := List.nodup_nil
  mem _ := by simp
  line := rfl

/-- A party at the head of the line, with the tail of it. -/
theorem Ordered.cases_of_mem (h : Ordered next turn stage q) {p : P} (hp : stage p ≠ .outside) :
    ∃ x l, q = x :: l ∧ (p = x ∨ p ∈ l) := by
  have hpq := (h.mem p).2 hp
  cases q with
  | nil => exact absurd hpq (by simp)
  | cons x l => exact ⟨x, l, rfl, List.mem_cons.1 hpq⟩

/-- A party that has passed the wait is the first of the line. -/
theorem Ordered.head_of_holds (h : Ordered next turn stage q) {p : P}
    (hp : (stage p).holds = true) : ∃ l, q = p :: l := by
  have hne : stage p ≠ .outside := by
    intro e
    simp [e, Stage.holds] at hp
  obtain ⟨x, l, rfl, rfl | hl⟩ := h.cases_of_mem hne
  · exact ⟨l, rfl⟩
  · obtain ⟨i, -, hs⟩ := Line.ticket h.line.2 hl
    simp [hs, Stage.holds] at hp

/-- At most one party has passed the wait. -/
theorem Ordered.unique (h : Ordered next turn stage q) {p p' : P}
    (hp : (stage p).holds = true) (hp' : (stage p').holds = true) : p = p' := by
  obtain ⟨l, hl⟩ := h.head_of_holds hp
  obtain ⟨l', hl'⟩ := h.head_of_holds hp'
  exact (List.cons.inj (hl.symm.trans hl')).1

/-- The loaded turn is still the turn: nobody else stores it. -/
theorem Ordered.loaded_eq (h : Ordered next turn stage q) {p : P} {t : BitVec w}
    (hp : stage p = .releasing t) : t = turn := by
  obtain ⟨l, rfl⟩ := h.head_of_holds (p := p) (by simp [hp, Stage.holds])
  rcases h.line.1 with hs | hs | hs <;> rw [hp] at hs
  · exact absurd hs (by simp)
  · exact absurd hs (by simp)
  · exact Stage.releasing.inj hs

/-- A party whose ticket is up is the first of the line. -/
theorem Ordered.head_of_turn [Fintype P] (hw : Fintype.card P < 2 ^ w)
    (h : Ordered next turn stage q) {p : P} (hp : stage p = .waiting turn) :
    ∃ l, q = p :: l := by
  obtain ⟨x, l, rfl, rfl | hl⟩ := h.cases_of_mem (p := p) (by simp [hp])
  · exact ⟨l, rfl⟩
  · exfalso
    -- further back in the line the ticket is ahead of `turn` by less than `2 ^ w`
    obtain ⟨i, hi, hs⟩ := Line.ticket h.line.2 hl
    have hlen : (x :: l).length ≤ Fintype.card P := h.nodup.length_le_card
    have heq : turn + (1 + BitVec.ofNat w i) = turn := by
      rw [hp] at hs
      rw [← BitVec.add_assoc]
      exact (Stage.waiting.inj hs).symm
    have hzero : (1 + BitVec.ofNat w i : BitVec w) = 0 := by
      have := congrArg (fun b => b - turn) heq
      simpa [BitVec.add_comm turn] using this
    have hnat := congrArg BitVec.toNat hzero
    simp only [List.length_cons] at hlen
    have hlt : 1 + i < 2 ^ w := by omega
    rw [show (1 : BitVec w) = BitVec.ofNat w 1 from rfl, BitVec.ofNat_add_ofNat,
      BitVec.toNat_ofNat, Nat.mod_eq_of_lt hlt] at hnat
    simp at hnat

variable [DecidableEq P]

theorem update_of_not_mem {p x : P} {l : List P} (hp : p ∉ l) (hx : x ∈ l) (s : Stage w) :
    Function.update stage p s x = stage x := by
  have hne : x ≠ p := fun e => hp (e ▸ hx)
  exact Function.update_of_ne hne s stage

/-- Changing the stage of the first party within the service. -/
theorem Ordered.serve (h : Ordered next turn stage q) {p : P} {l : List P} (hq : q = p :: l)
    {s : Stage w} (hs : Served turn s) :
    Ordered next turn (Function.update stage p s) q := by
  subst hq
  have hpl : p ∉ l := (List.nodup_cons.1 h.nodup).1
  refine ⟨h.nodup, fun x => ?_, ?_, ?_⟩
  · by_cases hx : x = p
    · subst hx
      have hne : s ≠ .outside := by rcases hs with rfl | rfl | rfl <;> simp
      simp [hne]
    · rw [Function.update_of_ne hx]
      exact h.mem x
  · rw [Function.update_self]
    exact hs
  · exact h.line.2.congr fun x hx => update_of_not_mem hpl hx s

/-- Taking a ticket: the party joins the line at its end. -/
theorem Ordered.request (h : Ordered next turn stage q) {p : P} (hp : stage p = .outside) :
    Ordered (next + 1) turn (Function.update stage p (.waiting next)) (q ++ [p]) := by
  have hpq : p ∉ q := fun hpq => (h.mem p).1 hpq hp
  -- the parties in the line keep their stages
  have hag : ∀ x ∈ q, Function.update stage p (.waiting next) x = stage x := fun x hx =>
    update_of_not_mem hpq hx _
  refine ⟨?_, fun x => ?_, ?_⟩
  · rw [List.nodup_append]
    refine ⟨h.nodup, List.nodup_singleton p, fun x hx y hy e => ?_⟩
    rw [List.mem_singleton.1 hy] at e
    exact hpq (e ▸ hx)
  · by_cases hx : x = p
    · subst hx
      simp
    · rw [Function.update_of_ne hx]
      simpa [hx] using h.mem x
  · cases q with
    -- an empty line: the party is served at once
    | nil =>
        have hn : next = turn := h.line
        subst hn
        exact ⟨Or.inl (Function.update_self p _ stage), rfl⟩
    | cons x l =>
        refine ⟨?_, Line.concat (Function.update_self p _ stage)
          (h.line.2.congr fun y hy => hag y (List.mem_cons_of_mem x hy))⟩
        rw [hag x List.mem_cons_self]
        exact h.line.1

/-- Passing the wait, when the ticket is up. -/
theorem Ordered.acquire [Fintype P] (hw : Fintype.card P < 2 ^ w)
    (h : Ordered next turn stage q) {p : P} (hp : stage p = .waiting turn) :
    Ordered next turn (Function.update stage p .inside) q := by
  obtain ⟨l, hq⟩ := h.head_of_turn hw hp
  exact h.serve hq (Or.inr (Or.inl rfl))

/-- Loading the turn for the increment. -/
theorem Ordered.load (h : Ordered next turn stage q) {p : P} (hp : stage p = .inside) :
    Ordered next turn (Function.update stage p (.releasing turn)) q := by
  obtain ⟨l, hq⟩ := h.head_of_holds (p := p) (by simp [hp, Stage.holds])
  exact h.serve hq (Or.inr (Or.inr rfl))

/-- Storing the incremented turn: the line moves up by one. -/
theorem Ordered.release (h : Ordered next turn stage q) {p : P} {t : BitVec w}
    (hp : stage p = .releasing t) :
    Ordered next (t + 1) (Function.update stage p .outside) q.tail := by
  obtain rfl := h.loaded_eq hp
  obtain ⟨l, rfl⟩ := h.head_of_holds (p := p) (by simp [hp, Stage.holds])
  obtain ⟨hpl, hl⟩ := List.nodup_cons.1 h.nodup
  have hag : ∀ x ∈ l, Function.update stage p .outside x = stage x := fun x hx =>
    update_of_not_mem hpl hx _
  have hline := h.line.2.congr hag
  refine ⟨hl, fun x => ?_, ?_⟩
  · by_cases hx : x = p
    · subst hx
      simpa using hpl
    · rw [Function.update_of_ne hx, ← h.mem x]
      simp [hx]
  · cases l with
    | nil => exact hline.symm
    -- the next party has the ticket that is up now
    | cons y l => exact ⟨Or.inl hline.1, hline.2⟩

end Moves

end MPStuBS.Lib.TicketOrder
