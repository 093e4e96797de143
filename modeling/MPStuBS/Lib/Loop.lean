import Mathlib.Data.Int.Interval
import Mathlib.Logic.Relation

/-!
# Loops

`loop body fuel s` repeats `body` from state `s` until it is done, at most `fuel`
times; `none` says that this bound did not suffice, or that `body` itself did not
return. `Returns f r` says that `f` gives `r` with every bound that is large enough.
A loop that leads from `s` to `t` in `n` rounds may be entered at `t`
(`Leads.loop_eq`). Where a projection of the state decides where the next round goes,
the loop comes to what a relation reaches (`exists_leads_iff`). If each of its rounds
lowers a measure or changes nothing, it returns exactly if it comes to no round of the
second kind (`returns_iff_no_repeat`).

`forLoop lo hi body s` is the counting loop `for (v = lo; v < hi; ++v)`. If every
round writes a place of its own, and reads none that another round writes, the loop
writes each of these places once (`forLoop_update`).

Of a list of steps that overwrite one value the last one counts (`foldlM_last_write`,
`foldl_range_last_write`).
-/

set_option autoImplicit false

namespace MPStuBS.Lib.Loop

universe u v

variable {σ : Type u} {τ : Type v}

/-- One round of a loop: it goes on in a new state, or it is done. -/
inductive Round (σ : Type u) (τ : Type v) where
  | next (s : σ)
  | done (r : τ)

/-- Repeat the body until it is done. -/
def loop (body : σ → Option (Round σ τ)) : Nat → σ → Option τ
  | 0, _ => none
  | fuel + 1, s =>
      match body s with
      | none => none
      | some (.next t) => loop body fuel t
      | some (.done r) => some r

/-- `n` rounds lead from the first state to the second one. -/
inductive Leads (body : σ → Option (Round σ τ)) : Nat → σ → σ → Prop
  | refl (s : σ) : Leads body 0 s s
  | head {n : Nat} {s t u : σ} : body s = some (.next t) → Leads body n t u →
      Leads body (n + 1) s u

section Rules

variable {body : σ → Option (Round σ τ)} {n m fuel : Nat} {s t u : σ} {r : τ}

theorem loop_of_next (h : body s = some (.next t)) : loop body (fuel + 1) s = loop body fuel t := by
  simp only [loop, h]

theorem loop_of_done (h : body s = some (.done r)) : loop body (fuel + 1) s = some r := by
  simp only [loop, h]

theorem Leads.single (h : body s = some (.next t)) : Leads body 1 s t := .head h (.refl t)

theorem Leads.trans (h : Leads body n s t) (h' : Leads body m t u) : Leads body (n + m) s u := by
  induction h with
  | refl s => rwa [Nat.zero_add]
  | head hb _ ih =>
      rw [Nat.succ_add]
      exact .head hb (ih h')

/-- Where rounds lead, the loop goes on. -/
theorem Leads.loop_eq (h : Leads body n s t) : loop body (n + fuel) s = loop body fuel t := by
  induction h with
  | refl s => rw [Nat.zero_add]
  | head hb _ ih => rw [Nat.succ_add, loop_of_next hb, ih]

/-- What the rounds lead to, seen through a projection that decides where the next round goes. -/
theorem exists_leads_iff {ρ : Type*} (proj : σ → ρ) {step : ρ → ρ → Prop}
    (hforth : ∀ s t, body s = some (.next t) → step (proj s) (proj t) ∨ proj t = proj s)
    (hback : ∀ s p, step (proj s) p → ∃ t, body s = some (.next t) ∧ proj t = p) (s : σ) (p : ρ) :
    (∃ n t, Leads body n s t ∧ proj t = p) ↔ Relation.ReflTransGen step (proj s) p := by
  constructor
  · rintro ⟨n, t, hleads, rfl⟩
    induction hleads with
    | refl s => exact .refl
    | @head n s t u hnext _ ih =>
        rcases hforth s t hnext with hstep | hsame
        · exact .head hstep ih
        · rwa [← hsame]
  · intro h
    induction h with
    | refl => exact ⟨0, s, .refl s, rfl⟩
    | @tail p q _ hstep ih =>
        obtain ⟨n, t, hleads, rfl⟩ := ih
        obtain ⟨u, hnext, rfl⟩ := hback t q hstep
        exact ⟨n + 1, u, hleads.trans (.single hnext), rfl⟩

end Rules

/-! ## Overwriting -/

section Overwriting

variable {ι : Type v} {β : Type u} {body : σ → ι → Option σ}

/-- A fold whose steps overwrite a value, or leave it alone, ends with the last value written. -/
theorem foldlM_last_write (read : σ → β) (write : ι → Option β)
    (hbody : ∀ s x t, body s x = some t → read t = (write x).getD (read s)) :
    ∀ {xs : List ι} {s t : σ}, xs.foldlM body s = some t →
      read t = ((xs.filterMap write).getLast?).getD (read s) := by
  intro xs
  induction xs with
  | nil =>
      intro s t h
      rw [Option.some.inj h]
      rfl
  | cons x xs ih =>
      intro s t h
      rw [List.foldlM_cons] at h
      obtain ⟨u, hu, hrest⟩ := Option.bind_eq_some_iff.1 h
      rw [ih hrest, hbody s x u hu]
      cases hx : write x with
      | none => rw [List.filterMap_cons_none hx, Option.getD_none]
      | some v =>
          rw [List.filterMap_cons_some hx, List.getLast?_cons]
          rfl

/-- A fold whose steps leave a value alone leaves it alone. -/
theorem foldlM_kept (read : σ → β) (hbody : ∀ s x t, body s x = some t → read t = read s)
    {xs : List ι} {s t : σ} (h : xs.foldlM body s = some t) : read t = read s := by
  have hlast := foldlM_last_write read (fun _ => none) hbody h
  rwa [List.filterMap_none] at hlast

/-- A counting loop whose rounds overwrite a value, or leave it alone, ends with what the last
round that writes has written. -/
theorem foldl_range_last_write {f : σ → Nat → σ} (read : σ → β) (write : Nat → Option β)
    (hf : ∀ s i, read (f s i) = (write i).getD (read s)) {n i : Nat} {v : β} {s : σ}
    (hi : i < n) (hv : write i = some v) (hlast : ∀ j, i < j → j < n → write j = none) :
    read ((List.range n).foldl f s) = v := by
  induction n with
  | zero => exact absurd hi (Nat.not_lt_zero i)
  | succ n ih =>
      rw [List.range_succ, List.foldl_append, List.foldl_cons, List.foldl_nil, hf]
      rcases Nat.lt_succ_iff_lt_or_eq.1 hi with hlt | rfl
      · rw [hlast n hlt (Nat.lt_succ_self n)]
        exact ih hlt fun j hij hj => hlast j hij (Nat.lt_succ_of_lt hj)
      · rw [hv]
        rfl

end Overwriting

/-- The result with all bounds from some bound on. -/
def Returns (f : Nat → Option τ) (r : τ) : Prop := ∃ enough, ∀ fuel, enough ≤ fuel → f fuel = some r

theorem Returns.exists_ge {f : Nat → Option τ} {r : τ} (h : Returns f r) (bound : Nat) :
    ∃ fuel, bound ≤ fuel ∧ f fuel = some r := by
  obtain ⟨enough, henough⟩ := h
  exact ⟨max enough bound, Nat.le_max_right _ _, henough _ (Nat.le_max_left _ _)⟩

/-- A loop returns as the loop from its next state does. -/
theorem Returns.of_next {body : σ → Option (Round σ τ)} {s t : σ} {r : τ}
    (hnext : body s = some (.next t)) (h : Returns (fun fuel => loop body fuel t) r) :
    Returns (fun fuel => loop body fuel s) r := by
  obtain ⟨enough, henough⟩ := h
  refine ⟨enough + 1, fun fuel hfuel => ?_⟩
  obtain ⟨fuel, rfl⟩ := Nat.exists_eq_add_one_of_ne_zero (Nat.ne_zero_of_lt hfuel)
  exact (loop_of_next hnext).trans (henough fuel (Nat.le_of_succ_le_succ hfuel))

theorem Returns.unique {f : Nat → Option τ} {r r' : τ} (h : Returns f r) (h' : Returns f r') :
    r = r' := by
  obtain ⟨enough, henough⟩ := h'
  obtain ⟨fuel, hfuel, hf⟩ := h.exists_ge enough
  exact Option.some.inj (hf.symm.trans (henough fuel hfuel))

/-! ## Repeating -/

section Repeating

variable {body : σ → Option (Round σ τ)} {n : Nat} {s t : σ}

/-- After a round that gives its own state again the loop does not end. -/
theorem loop_repeat (h : body s = some (.next s)) (fuel : Nat) : loop body fuel s = none := by
  induction fuel with
  | zero => rfl
  | succ fuel ih => rw [loop_of_next h, ih]

/-- Rounds do not lead out of a loop that never ends. -/
theorem Leads.loop_none (h : Leads body n s t) (ht : ∀ fuel, loop body fuel t = none) :
    ∀ fuel, loop body fuel s = none := by
  induction h with
  | refl s => exact ht
  | head hnext _ ih =>
      intro fuel
      cases fuel with
      | zero => rfl
      | succ fuel => rw [loop_of_next hnext, ih ht]

/-- If every round lowers the measure or gives its own state again, a loop returns exactly if it
comes to no state of the second kind. -/
theorem returns_iff_no_repeat (measure : σ → Nat)
    (hround : ∀ s, (∃ r, body s = some (.done r)) ∨
      ∃ t, body s = some (.next t) ∧ (t = s ∨ measure t < measure s)) :
    (∃ r, Returns (fun fuel => loop body fuel s) r) ↔
      ∀ n t, Leads body n s t → body t ≠ some (.next t) := by
  constructor
  · rintro ⟨r, enough, henough⟩ n t hleads hrepeat
    have hnone := hleads.loop_none (loop_repeat hrepeat) enough
    cases hnone.symm.trans (henough enough (Nat.le_refl enough))
  · intro h
    -- induction on the measure, which the next round lowers
    induction hm : measure s using Nat.strong_induction_on generalizing s with
    | h m ih =>
        rcases hround s with ⟨r, hdone⟩ | ⟨t, hnext, hsame | hlt⟩
        · refine ⟨r, 1, fun fuel hfuel => ?_⟩
          obtain ⟨fuel, rfl⟩ := Nat.exists_eq_add_one_of_ne_zero (Nat.ne_zero_of_lt hfuel)
          exact loop_of_done hdone
        · rw [hsame] at hnext
          exact absurd hnext (h 0 s (.refl s))
        · have htail : ∀ n u, Leads body n t u → body u ≠ some (.next u) :=
            fun n u hleads => h (n + 1) u (.head hnext hleads)
          obtain ⟨r, hr⟩ := ih (measure t) (hm ▸ hlt) htail rfl
          exact ⟨r, hr.of_next hnext⟩

end Repeating

/-- `for (v = lo; v < hi; ++v) s = body v s;` -/
def forLoop (lo hi : Int) (body : Int → σ → σ) (s : σ) : σ :=
  (List.range (hi - lo).toNat).foldl (fun s (k : Nat) => body (lo + k) s) s

/-- What holds before the first round and is carried from each round to the next holds at the end.
-/
theorem forLoop_induct {P : Int → σ → Prop} {lo hi : Int} {s : σ} (body : Int → σ → σ)
    (hle : lo ≤ hi) (h0 : P lo s)
    (hstep : ∀ v s, lo ≤ v → v < hi → P v s → P (v + 1) (body v s)) :
    P hi (forLoop lo hi body s) := by
  have hrounds : ∀ n : Nat, (n : Int) ≤ hi - lo →
      P (lo + n) ((List.range n).foldl (fun s (k : Nat) => body (lo + k) s) s) := by
    intro n
    induction n with
    | zero =>
        intro _
        simpa using h0
    | succ n ih =>
        intro hn
        rw [List.range_succ, List.foldl_append, List.foldl_cons, List.foldl_nil]
        have hnext := hstep (lo + n) _ (by omega) (by omega) (ih (by omega))
        rwa [Int.add_assoc] at hnext
  have hend := hrounds (hi - lo).toNat (by omega)
  have hbound : lo + ((hi - lo).toNat : Int) = hi := by omega
  rwa [hbound] at hend

/-- The places that no round writes are kept, and every round writes its own place once. -/
theorem forLoop_update {ι : Type u} {β : Type v} [DecidableEq ι] {lo hi : Int} {s : ι → β}
    (place : Int → ι) (value : Int → (ι → β) → β) (hle : lo ≤ hi)
    (hinj : ∀ v v', lo ≤ v → v < hi → lo ≤ v' → v' < hi → place v = place v' → v = v')
    (hread : ∀ v s', lo ≤ v → v < hi →
      (∀ k, (∀ v', lo ≤ v' → v' < hi → place v' ≠ k) → s' k = s k) → value v s' = value v s) :
    (∀ k, (∀ v, lo ≤ v → v < hi → place v ≠ k) →
      forLoop lo hi (fun v s => Function.update s (place v) (value v s)) s k = s k) ∧
    (∀ v, lo ≤ v → v < hi →
      forLoop lo hi (fun v s => Function.update s (place v) (value v s)) s (place v) =
        value v s) := by
  have hend := forLoop_induct (P := fun b s' =>
      (∀ k, (∀ v, lo ≤ v → v < hi → place v ≠ k) → s' k = s k) ∧
      (∀ v, lo ≤ v → v < b → b ≤ hi → s' (place v) = value v s))
    (fun v s => Function.update s (place v) (value v s)) hle
    ⟨fun k _ => rfl, fun v hlo hlt _ => absurd hlo (by omega)⟩
    (by
      intro b s' hlo hlt hP
      refine ⟨fun k hk => ?_, fun v hv hvb hb => ?_⟩
      · rw [Function.update_of_ne (hk b hlo hlt).symm]
        exact hP.1 k hk
      · by_cases hvb' : v = b
        · rw [hvb', Function.update_self]
          exact hread b s' hlo hlt hP.1
        · rw [Function.update_of_ne
            (fun h => hvb' (hinj v b hv (by omega) hlo hlt h))]
          exact hP.2 v hv (by omega) (by omega))
  exact ⟨hend.1, fun v hlo hlt => hend.2 v hlo hlt (Int.le_refl hi)⟩

end MPStuBS.Lib.Loop
