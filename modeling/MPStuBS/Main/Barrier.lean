import MPStuBS.Lib.Run
import MPStuBS.Main.StartUp
import Mathlib.Data.Fintype.Card

/-!
# The barrier

The end of the start-up in `main` and `main_ap`, for any number of CPUs: each of them
increments `i` under `ticketlock` and then spins until `i` is 4. As the lock is
exclusive, `i` is the number of CPUs that have incremented it (`Counting`). But 4 is the
number of CPUs only if there are four.
-/

set_option autoImplicit false

namespace MPStuBS.Main

open MPStuBS.Lib.Run MPStuBS.Lib.TicketOrder MPStuBS.Machine

/-- The shared variables, and the places of the CPUs that have come to the barrier. -/
structure Barrier (n : Nat) where
  i : Int
  ticketlock : Ticketlock
  place : Fin n → Place

/-- The CPU has incremented `i`. -/
def Place.counted : Place → Bool
  | .unlock | .unlockStore _ | .wait | .kernel => true
  | _ => false

/-- Where the place is with respect to `ticketlock`. -/
def Place.stage : Place → Stage 32
  | .setup | .lock | .wait | .kernel => .outside
  | .spin current => .waiting current
  | .load | .store _ | .unlock => .inside
  | .unlockStore loaded => .releasing loaded

namespace Barrier

variable {n : Nat}

/-- No CPU has called `lock`. -/
def init : Barrier n := ⟨0, .init, fun _ => .lock⟩

/-- The place of a CPU replaced. -/
def goto (s : Barrier n) (j : Fin n) (pc : Place) : Barrier n :=
  { s with place := Function.update s.place j pc }

/-- The condition of `while (i != 4)`. -/
def spins (s : Barrier n) : Prop := s.i ≠ 4

instance (s : Barrier n) : Decidable s.spins := inferInstanceAs (Decidable (s.i ≠ 4))

/-- The next step of CPU `j`. -/
def step (s : Barrier n) (j : Fin n) : Option (Barrier n) :=
  match s.place j with
  | .setup => none
  | .lock =>
      some ({ s with ticketlock := s.ticketlock.fetchAndAdd }.goto j
        (.spin s.ticketlock.ticketnumber))
  | .spin current => if s.ticketlock.turn = current then some (s.goto j .load) else some s
  | .load => some (s.goto j (.store s.i))
  | .store loaded => some ({ s with i := loaded + 1 }.goto j .unlock)
  | .unlock => some (s.goto j (.unlockStore s.ticketlock.turn))
  | .unlockStore loaded =>
      some ({ s with ticketlock := s.ticketlock.storeTurn loaded }.goto j .wait)
  | .wait => if s.spins then some s else some (s.goto j .kernel)
  | .kernel => none

/-- All CPUs have incremented `i`. -/
def AllCounted (s : Barrier n) : Prop := ∀ j, (s.place j).counted = true

/-- No CPU passes before all have incremented `i`, and then nobody who waits spins on. -/
def Holds (n : Nat) : Prop :=
  ∀ s : Barrier n, Reaches step init s →
    ((∃ j, s.place j = .kernel) → s.AllCounted) ∧
    (s.AllCounted → ∀ j, s.place j = .wait → ¬ s.spins)

/-! ## The start-up as a whole -/

/-- What of the start-up belongs to the barrier; a CPU that is not there yet is about to lock. -/
def ofStartUp (n : Nat) (s : StartUp) : Barrier n where
  i := s.i
  ticketlock := s.ticketlock
  place j := if s.place j = .setup then .lock else s.place j

theorem ofStartUp_goto (s : StartUp) (j : Fin n) (pc : Place) (hpc : pc ≠ .setup) :
    ofStartUp n (s.goto j pc) = (ofStartUp n s).goto j pc := by
  have hplace : (ofStartUp n (s.goto j pc)).place =
      Function.update (ofStartUp n s).place j pc := by
    funext k
    show (if Function.update s.place j pc k = .setup then Place.lock
      else Function.update s.place j pc k) = _
    by_cases hk : k = j
    · rw [hk, Function.update_self, Function.update_self, if_neg hpc]
    · rw [Function.update_of_ne hk, Function.update_of_ne (fun h => hk (Fin.ext h))]
      rfl
  rw [goto, ← hplace]
  rfl

/-- A step of a CPU in `main` or `main_ap` is a step at the barrier, or one on the way to it. -/
theorem mainStep_ofStartUp {P : Platform} {s t : StartUp} {j : Fin n}
    (h : s.mainStep P j = some t) :
    (s.place j = .setup ∧ ofStartUp n t = ofStartUp n s) ∨
      (ofStartUp n s).step j = some (ofStartUp n t) := by
  have hplace : s.place j ≠ .setup → (ofStartUp n s).place j = s.place j := fun hne => if_neg hne
  unfold StartUp.mainStep at h
  cases hj : s.place j with
  | setup =>
      left
      rw [hj] at h
      simp only [Option.ite_none_right_eq_some] at h
      obtain rfl := Option.some.inj h.2
      refine ⟨rfl, ?_⟩
      have hlock : (ofStartUp n s).place j = .lock := if_pos hj
      rw [ofStartUp_goto s j .lock nofun, goto, Function.update_eq_self_iff.2 hlock.symm]
  | lock =>
      right
      rw [hj] at h hplace
      obtain rfl := Option.some.inj h
      rw [step, hplace (by decide)]
      exact congrArg some (ofStartUp_goto { s with ticketlock := s.ticketlock.fetchAndAdd } j
        (.spin s.ticketlock.ticketnumber) nofun).symm
  | spin current =>
      right
      rw [hj] at h hplace
      rw [step, hplace (by simp)]
      by_cases hturn : s.ticketlock.turn = current
      · obtain rfl := Option.some.inj ((if_pos hturn).symm.trans h)
        exact (if_pos hturn).trans (congrArg some (ofStartUp_goto s j .load nofun).symm)
      · obtain rfl := Option.some.inj ((if_neg hturn).symm.trans h)
        exact if_neg hturn
  | load =>
      right
      rw [hj] at h hplace
      obtain rfl := Option.some.inj h
      rw [step, hplace (by decide)]
      exact congrArg some (ofStartUp_goto s j (.store s.i) nofun).symm
  | store loaded =>
      right
      rw [hj] at h hplace
      obtain rfl := Option.some.inj h
      rw [step, hplace (by simp)]
      exact congrArg some (ofStartUp_goto { s with i := loaded + 1 } j .unlock nofun).symm
  | unlock =>
      right
      rw [hj] at h hplace
      obtain rfl := Option.some.inj h
      rw [step, hplace (by decide)]
      exact congrArg some (ofStartUp_goto s j (.unlockStore s.ticketlock.turn) nofun).symm
  | unlockStore loaded =>
      right
      rw [hj] at h hplace
      obtain rfl := Option.some.inj h
      rw [step, hplace (by simp)]
      exact congrArg some (ofStartUp_goto { s with ticketlock := s.ticketlock.storeTurn loaded } j
        .wait nofun).symm
  | wait =>
      right
      rw [hj] at h hplace
      rw [step, hplace (by decide)]
      by_cases hi : s.i ≠ 4
      · obtain rfl := Option.some.inj ((if_pos hi).symm.trans h)
        exact if_pos hi
      · obtain rfl := Option.some.inj ((if_neg hi).symm.trans h)
        exact (if_neg hi).trans (congrArg some (ofStartUp_goto s j .kernel nofun).symm)
  | kernel =>
      rw [hj] at h
      cases h

/-! ## Any other number of CPUs -/

/-- CPU `j` has incremented `i` and waits. -/
def afterCount (s : Barrier n) (j : Fin n) : Barrier n where
  i := s.i + 1
  ticketlock := ⟨s.ticketlock.ticketnumber + 1, s.ticketlock.turn + 1⟩
  place := Function.update s.place j .wait

theorem exec_count {s : Barrier n} {j : Fin n} (hplace : s.place j = .lock)
    (hfree : s.ticketlock.turn = s.ticketlock.ticketnumber) :
    exec step s [j, j, j, j, j, j] = some (s.afterCount j) := by
  simp [exec, step, goto, hplace, hfree, Ticketlock.fetchAndAdd, Ticketlock.storeTurn, afterCount]

/-- The CPUs may come to the barrier one after the other. -/
theorem reaches_counted : ∀ k ≤ n, ∃ s : Barrier n, Reaches step init s ∧ s.i = k ∧
    s.ticketlock.turn = s.ticketlock.ticketnumber ∧
    ∀ j : Fin n, s.place j = if (j : Nat) < k then .wait else .lock := by
  intro k
  induction k with
  | zero => exact fun _ => ⟨init, .refl, rfl, rfl, fun j => rfl⟩
  | succ k ih =>
      intro hk
      obtain ⟨s, hreach, hi, hfree, hplace⟩ := ih (by omega)
      let j : Fin n := ⟨k, by omega⟩
      have hlock : s.place j = .lock := (hplace j).trans (if_neg (Nat.lt_irrefl k))
      refine ⟨s.afterCount j, hreach.trans (reaches_of_exec (exec_count hlock hfree)), ?_, ?_,
        fun x => ?_⟩
      · show s.i + 1 = _
        rw [hi, Nat.cast_succ]
      · show s.ticketlock.turn + 1 = s.ticketlock.ticketnumber + 1
        rw [hfree]
      · show Function.update s.place j .wait x = _
        by_cases hx : x = j
        · rw [hx, Function.update_self]
          exact (if_pos (Nat.lt_succ_self k)).symm
        · have hne : (x : Nat) ≠ k := fun h => hx (Fin.ext h)
          rw [Function.update_of_ne hx, hplace x]
          by_cases hlt : (x : Nat) < k
          · rw [if_pos hlt, if_pos (by omega)]
          · rw [if_neg hlt, if_neg (by omega)]

/-- With a number of CPUs other than 4, all of them may wait for ever. -/
theorem not_holds (hn : 1 ≤ n) (hne : n ≠ 4) : ¬ Holds n := by
  intro h
  obtain ⟨s, hreach, hi, -, hplace⟩ := reaches_counted n (Nat.le_refl n)
  have hwait : ∀ j, s.place j = .wait := fun j => (hplace j).trans (if_pos j.isLt)
  have hall : s.AllCounted := fun j => by rw [hwait j]; rfl
  have hspins : s.spins := by
    unfold spins
    omega
  exact (h s hreach).2 hall ⟨0, hn⟩ (hwait _) hspins

/-! ## Four CPUs -/

/-- The number of CPUs that have incremented `i`. -/
def count (place : Fin n → Place) : Nat :=
  (Finset.univ.filter fun j => (place j).counted = true).card

theorem count_eq_of_counted {place place' : Fin n → Place}
    (h : ∀ j, (place' j).counted = (place j).counted) : count place' = count place := by
  unfold count
  simp only [h]

theorem counted_update {place : Fin n → Place} {j : Fin n} {pc : Place}
    (h : pc.counted = (place j).counted) (k : Fin n) :
    (Function.update place j pc k).counted = (place k).counted := by
  by_cases hk : k = j
  · rw [hk, Function.update_self, h]
  · rw [Function.update_of_ne hk]

theorem count_increment {place : Fin n → Place} {j : Fin n} {pc : Place}
    (hj : (place j).counted = false) (hpc : pc.counted = true) :
    count (Function.update place j pc) = count place + 1 := by
  have hinsert : (Finset.univ.filter fun k => (Function.update place j pc k).counted = true) =
      insert j (Finset.univ.filter fun k => (place k).counted = true) := by
    ext k
    by_cases hk : k = j
    · simp [hk, hpc]
    · simp [hk]
  rw [count, hinsert, Finset.card_insert_of_notMem (by simp [hj])]
  rfl

/-- All CPUs have incremented `i` as soon as their number has. -/
theorem counted_of_count {place : Fin n → Place} (h : count place = n) (j : Fin n) :
    (place j).counted = true := by
  have huniv : (Finset.univ.filter fun k => (place k).counted = true) = Finset.univ :=
    Finset.eq_univ_of_card _ (h.trans (Fintype.card_fin n).symm)
  have hmem : j ∈ Finset.univ.filter fun k => (place k).counted = true := by
    rw [huniv]
    exact Finset.mem_univ j
  exact (Finset.mem_filter.1 hmem).2

/-- The invariant: the lock has its line, `i` counts the CPUs that have incremented it, the CPU that
has loaded `i` has loaded what it is, and who has passed was let pass by 4. -/
structure Counting (s : Barrier n) : Prop where
  ordered : ∃ q, Ordered s.ticketlock.ticketnumber s.ticketlock.turn (Place.stage ∘ s.place) q
  i : s.i = count s.place
  loaded : ∀ j l, s.place j = .store l → l = s.i
  passed : ∀ j, s.place j = .kernel → 4 ≤ s.i

theorem counting_init : Counting (init : Barrier n) where
  ordered := ⟨[], ordered_init 0⟩
  i := by
    have hcount : count (init : Barrier n).place = 0 := by
      rw [count, Finset.card_eq_zero, Finset.filter_eq_empty_iff]
      exact fun _ _ => Bool.false_ne_true
    rw [hcount]
    rfl
  loaded _ _ h := by cases h
  passed _ h := by cases h

/-- At most one CPU is between the wait for the lock and its release. -/
theorem Counting.unique {s : Barrier n} (h : s.Counting) {j k : Fin n}
    (hj : (s.place j).stage.holds = true) (hk : (s.place k).stage.holds = true) : j = k := by
  obtain ⟨q, hq⟩ := h.ordered
  exact hq.unique hj hk

section Step

variable {s : Barrier n} {j : Fin n} {pc : Place}

/-- A step that leaves the count as it is. -/
theorem Counting.goto (h : s.Counting) (lock : Ticketlock)
    (hordered : ∃ q, Ordered lock.ticketnumber lock.turn
      (Function.update (Place.stage ∘ s.place) j pc.stage) q)
    (hcounted : pc.counted = (s.place j).counted) (hloaded : ∀ l, pc = .store l → l = s.i)
    (hpassed : pc = .kernel → 4 ≤ s.i) : ({ s with ticketlock := lock }.goto j pc).Counting where
  ordered := by
    obtain ⟨q, hq⟩ := hordered
    rw [← Function.comp_update] at hq
    exact ⟨q, hq⟩
  i := by
    show s.i = count (Function.update s.place j pc)
    rw [count_eq_of_counted (counted_update hcounted)]
    exact h.i
  loaded k l hk := by
    have hk' : Function.update s.place j pc k = .store l := hk
    by_cases hkj : k = j
    · rw [hkj, Function.update_self] at hk'
      exact hloaded l hk'
    · rw [Function.update_of_ne hkj] at hk'
      exact h.loaded k l hk'
  passed k hk := by
    have hk' : Function.update s.place j pc k = .kernel := hk
    by_cases hkj : k = j
    · rw [hkj, Function.update_self] at hk'
      exact hpassed hk'
    · rw [Function.update_of_ne hkj] at hk'
      exact h.passed k hk'

/-- The line stays as it is if the place is the same for the lock. -/
theorem Counting.ordered_same (h : s.Counting) (hstage : pc.stage = (s.place j).stage) :
    ∃ q, Ordered s.ticketlock.ticketnumber s.ticketlock.turn
      (Function.update (Place.stage ∘ s.place) j pc.stage) q := by
  obtain ⟨q, hq⟩ := h.ordered
  refine ⟨q, ?_⟩
  rwa [Function.update_eq_self_iff.2 hstage]

/-- The store of `i++`: what was loaded is still the value of `i`. -/
theorem Counting.increment (h : s.Counting) {l : Int} (hj : s.place j = .store l) :
    ({ s with i := l + 1 }.goto j .unlock).Counting where
  ordered := by
    have hstage : Place.stage .unlock = (s.place j).stage := by rw [hj]; rfl
    obtain ⟨q, hq⟩ := h.ordered_same hstage
    rw [← Function.comp_update] at hq
    exact ⟨q, hq⟩
  i := by
    show l + 1 = (count (Function.update s.place j .unlock) : Int)
    rw [count_increment (by rw [hj]; rfl) rfl, h.loaded j l hj, h.i, Nat.cast_succ]
  loaded k l' hk := by
    have hk' : Function.update s.place j .unlock k = .store l' := hk
    by_cases hkj : k = j
    · rw [hkj, Function.update_self] at hk'
      cases hk'
    · rw [Function.update_of_ne hkj] at hk'
      -- no other CPU is in the locked section
      exact absurd (h.unique (by rw [hk']; rfl) (by rw [hj]; rfl)) hkj
  passed k hk := by
    have hk' : Function.update s.place j .unlock k = .kernel := hk
    show 4 ≤ l + 1
    by_cases hkj : k = j
    · rw [hkj, Function.update_self] at hk'
      cases hk'
    · rw [Function.update_of_ne hkj] at hk'
      have hle := h.passed k hk'
      rw [← h.loaded j l hj] at hle
      omega

theorem Counting.step (hn : n < 2 ^ 32) (h : s.Counting) {s' : Barrier n}
    (hstep : s.step j = some s') : s'.Counting := by
  have hcard : Fintype.card (Fin n) < 2 ^ 32 := by rwa [Fintype.card_fin]
  obtain ⟨q, hq⟩ := h.ordered
  unfold Barrier.step at hstep
  cases hj : s.place j with
  | setup =>
      rw [hj] at hstep
      cases hstep
  | lock =>
      rw [hj] at hstep
      obtain rfl := Option.some.inj hstep
      have houtside : (Place.stage ∘ s.place) j = .outside := congrArg Place.stage hj
      exact h.goto _ ⟨_, hq.request houtside⟩ (by rw [hj]; rfl) nofun nofun
  | spin current =>
      rw [hj] at hstep
      by_cases hturn : s.ticketlock.turn = current
      · obtain rfl := Option.some.inj ((if_pos hturn).symm.trans hstep)
        have hwaiting : (Place.stage ∘ s.place) j = .waiting s.ticketlock.turn :=
          (congrArg Place.stage hj).trans (congrArg Stage.waiting hturn.symm)
        exact h.goto s.ticketlock ⟨_, hq.acquire hcard hwaiting⟩ (by rw [hj]; rfl) nofun nofun
      · obtain rfl := Option.some.inj ((if_neg hturn).symm.trans hstep)
        exact h
  | load =>
      rw [hj] at hstep
      obtain rfl := Option.some.inj hstep
      exact h.goto s.ticketlock (h.ordered_same (by rw [hj]; rfl)) (by rw [hj]; rfl)
        (fun l hl => (Place.store.inj hl).symm) nofun
  | store loaded =>
      rw [hj] at hstep
      obtain rfl := Option.some.inj hstep
      exact h.increment hj
  | unlock =>
      rw [hj] at hstep
      obtain rfl := Option.some.inj hstep
      have hinside : (Place.stage ∘ s.place) j = .inside := congrArg Place.stage hj
      exact h.goto s.ticketlock ⟨_, hq.load hinside⟩ (by rw [hj]; rfl) nofun nofun
  | unlockStore loaded =>
      rw [hj] at hstep
      obtain rfl := Option.some.inj hstep
      have hreleasing : (Place.stage ∘ s.place) j = .releasing loaded := congrArg Place.stage hj
      exact h.goto _ ⟨_, hq.release hreleasing⟩ (by rw [hj]; rfl) nofun nofun
  | wait =>
      rw [hj] at hstep
      by_cases hspins : s.spins
      · obtain rfl := Option.some.inj ((if_pos hspins).symm.trans hstep)
        exact h
      · obtain rfl := Option.some.inj ((if_neg hspins).symm.trans hstep)
        exact h.goto s.ticketlock (h.ordered_same (by rw [hj]; rfl)) (by rw [hj]; rfl) nofun
          fun _ => Int.le_of_eq (not_not.1 hspins).symm
  | kernel =>
      rw [hj] at hstep
      cases hstep

theorem counting_of_reaches (hn : n < 2 ^ 32) (h : Reaches Barrier.step init s) : s.Counting :=
  h.invariant counting_init fun _ _ _ ha _ hstep => ha.step hn hstep

end Step

theorem count_le (place : Fin n → Place) : count place ≤ n :=
  (Finset.card_filter_le _ _).trans_eq (Finset.card_fin n)

theorem count_of_allCounted {s : Barrier n} (h : s.AllCounted) : count s.place = n := by
  rw [count, Finset.filter_true_of_mem fun j _ => h j]
  exact Finset.card_fin n

theorem holds_four : Holds 4 := by
  intro s hreach
  have hs := counting_of_reaches (by decide) hreach
  have hi := hs.i
  refine ⟨fun ⟨j, hj⟩ => ?_, fun hall j _ => ?_⟩
  · have hpassed := hs.passed j hj
    have hle := count_le s.place
    exact counted_of_count (by omega)
  · rw [count_of_allCounted hall] at hi
    exact not_not.2 hi

/-- The barrier holds exactly for four CPUs. -/
theorem holds_iff (n : Nat) (hn : 1 ≤ n) : Holds n ↔ n = 4 := by
  constructor
  · intro h
    by_contra hne
    exact not_holds hn hne h
  · rintro rfl
    exact holds_four

/-- Four CPUs. -/
theorem holds_iff_four : 1 ≤ 4 ∧ (Holds 4 ↔ 4 = 4) := ⟨by decide, holds_iff 4 (by decide)⟩

/-- On a machine with one CPU nobody passes. -/
theorem not_holds_one : ¬ Holds 1 := not_holds (by decide) (by decide)

end Barrier

end MPStuBS.Main
