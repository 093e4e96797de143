import MPStuBS.Machine.Ticketlock
import MPStuBS.Lib.Run

/-!
# The users of a ticket lock

Any number of CPUs, each of which calls `lock()` and `unlock()` on one
`Ticketlock` in turn. One step is the fetch-and-add, one read of `_turn` in the
wait, the load of `_turn++`, or the store of it; the CPUs take their steps in
any order.

`drawn` and `entered` record the CPUs in the order of their fetch-and-adds and
in the order in which they left the wait, `released` counts the stores.
-/

set_option autoImplicit false

namespace MPStuBS.Machine

open MPStuBS.Lib.Run MPStuBS.Lib.TicketOrder

/-- The lock, the place of every CPU in `lock()` and `unlock()`, and the history. -/
structure LockUsers (n : Nat) where
  lock : Ticketlock
  stage : Fin n → Stage 32
  drawn : List (Fin n)
  entered : List (Fin n)
  released : Nat

namespace LockUsers

variable {n : Nat}

/-- The lock is constructed, and no CPU has called it. -/
def init : LockUsers n := ⟨Ticketlock.init, fun _ => .outside, [], [], 0⟩

/-- The place of CPU `c` replaced. -/
def setStage (m : LockUsers n) (c : Fin n) (s : Stage 32) : LockUsers n :=
  { m with stage := Function.update m.stage c s }

/-- The next step of CPU `c`. -/
def step (m : LockUsers n) (c : Fin n) : Option (LockUsers n) :=
  match m.stage c with
  | .outside =>
      some ({ m with lock := m.lock.fetchAndAdd, drawn := m.drawn ++ [c] }.setStage c
        (.waiting m.lock.ticketnumber))
  | .waiting current =>
      if m.lock.turn = current then
        some ({ m with entered := m.entered ++ [c] }.setStage c .inside)
      else some m
  | .inside => some (m.setStage c (.releasing m.lock.turn))
  | .releasing loaded =>
      some ({ m with lock := m.lock.storeTurn loaded, released := m.released + 1 }.setStage c
        .outside)

/-- The CPUs that hold a ticket are the line `q`, and those that have released theirs are `past`. -/
structure Served (m : LockUsers n) (past q : List (Fin n)) : Prop where
  ordered : Ordered m.lock.ticketnumber m.lock.turn m.stage q
  drawn : m.drawn = past ++ q
  entered : m.entered = past ++ q.filter fun c => (m.stage c).holds
  released : m.released = past.length
  turn : m.lock.turn = BitVec.ofNat 32 m.released

theorem served_init : (init : LockUsers n).Served [] [] where
  ordered := ordered_init 0
  drawn := rfl
  entered := rfl
  released := rfl
  turn := rfl

/-- The filter of the line after a change of one stage that keeps `holds`. -/
theorem filter_holds_update {stage : Fin n → Stage 32} {c : Fin n} {s : Stage 32}
    (hs : s.holds = (stage c).holds) (q : List (Fin n)) :
    q.filter (fun x => (Function.update stage c s x).holds) =
      q.filter fun x => (stage x).holds := by
  apply List.filter_congr
  intro x _
  by_cases hx : x = c
  · rw [hx, Function.update_self, hs]
  · rw [Function.update_of_ne hx]

/-- Behind the first CPU of the line nobody has passed the wait. -/
theorem filter_holds_tail {next turn : Ticket} {stage : Fin n → Stage 32} {c : Fin n}
    {l : List (Fin n)} (h : Ordered next turn stage (c :: l)) :
    l.filter (fun x => (stage x).holds) = [] := by
  rw [List.filter_eq_nil_iff]
  intro x hx hholds
  obtain ⟨l', hl'⟩ := h.head_of_holds hholds
  obtain rfl : c = x := (List.cons.inj hl').1
  exact (List.nodup_cons.1 h.nodup).1 hx

/-- One step of a CPU keeps the line, the history and the count of the stores. -/
theorem Served.step (hn : n < 2 ^ 32) {m m' : LockUsers n} {past q : List (Fin n)} {c : Fin n}
    (h : m.Served past q) (hstep : m.step c = some m') : ∃ past' q', m'.Served past' q' := by
  unfold LockUsers.step at hstep
  cases hc : m.stage c with
  | outside =>
      rw [hc] at hstep
      obtain rfl := Option.some.inj hstep
      -- the new CPU waits at the end of the line
      have hkeep := filter_holds_update (s := .waiting m.lock.ticketnumber)
        (by rw [hc]; rfl : _ = (m.stage c).holds)
      refine ⟨past, q ++ [c], h.ordered.request hc, ?_, ?_, h.released, h.turn⟩
      · show m.drawn ++ [c] = past ++ (q ++ [c])
        rw [h.drawn, List.append_assoc]
      · show m.entered = past ++ (q ++ [c]).filter _
        simp only [setStage]
        rw [hkeep, List.filter_append, h.entered]
        simp [hc, Stage.holds]
  | waiting current =>
      rw [hc] at hstep
      simp only at hstep
      split at hstep
      case isFalse =>
        obtain rfl := Option.some.inj hstep
        exact ⟨past, q, h⟩
      case isTrue hturn =>
        obtain rfl := Option.some.inj hstep
        rw [← hturn] at hc
        have hcard : Fintype.card (Fin n) < 2 ^ 32 := by rwa [Fintype.card_fin]
        obtain ⟨l, rfl⟩ := h.ordered.head_of_turn hcard hc
        have hordered := h.ordered.acquire hcard hc
        refine ⟨past, c :: l, hordered, h.drawn, ?_, h.released, h.turn⟩
        -- before the step nobody of the line holds the lock, afterwards its first CPU does
        have htail := filter_holds_tail hordered
        have hnone := filter_holds_tail h.ordered
        show m.entered ++ [c] = past ++ (c :: l).filter _
        rw [h.entered, List.filter_cons_of_neg (by simp [hc, Stage.holds]), hnone]
        simp only [setStage]
        rw [List.filter_cons_of_pos (by simp [Stage.holds]), htail, List.append_nil]
  | inside =>
      rw [hc] at hstep
      obtain rfl := Option.some.inj hstep
      refine ⟨past, q, h.ordered.load hc, h.drawn, ?_, h.released, h.turn⟩
      simp only [setStage]
      rw [filter_holds_update (by rw [hc]; rfl)]
      exact h.entered
  | releasing loaded =>
      rw [hc] at hstep
      obtain rfl := Option.some.inj hstep
      -- only the first CPU of the line can be in `unlock`
      obtain ⟨l, rfl⟩ := h.ordered.head_of_holds (p := c) (by simp [hc, Stage.holds])
      have hloaded := h.ordered.loaded_eq hc
      have hnone := filter_holds_tail h.ordered
      have hcl : c ∉ l := (List.nodup_cons.1 h.ordered.nodup).1
      have hkeep : l.filter (fun x => (Function.update m.stage c .outside x).holds) =
          l.filter fun x => (m.stage x).holds := by
        apply List.filter_congr
        intro x hx
        rw [update_of_not_mem hcl hx]
      refine ⟨past ++ [c], l, h.ordered.release hc, ?_, ?_, ?_, ?_⟩
      · show m.drawn = past ++ [c] ++ l
        rw [h.drawn, List.append_assoc]
        rfl
      · show m.entered = past ++ [c] ++ l.filter _
        simp only [setStage]
        rw [hkeep, hnone, h.entered, List.filter_cons_of_pos (by simp [hc, Stage.holds]), hnone,
          List.append_nil]
      · show m.released + 1 = (past ++ [c]).length
        rw [h.released, List.length_append]
        rfl
      -- the loaded value was still the turn: the store adds one to it
      · show loaded + 1 = BitVec.ofNat 32 (m.released + 1)
        rw [hloaded, h.turn, ← BitVec.ofNat_add_ofNat]
        rfl

/-- The lock is exclusive, it is entered in the order of the fetch-and-adds, and `_turn` counts the
calls of `unlock()`, however often the counters have wrapped around. -/
theorem ticketlock_first_come_first_served (hn : n < 2 ^ 32) {m : LockUsers n}
    (h : Reaches step init m) :
    (∀ c d, (m.stage c).holds = true → (m.stage d).holds = true → c = d) ∧
      m.entered <+: m.drawn ∧ m.lock.turn = BitVec.ofNat 32 m.released := by
  have hserved : ∃ past q, m.Served past q := by
    apply Runs.invariant h
    · exact ⟨[], [], served_init⟩
    · rintro a b c ⟨past, q, ha⟩ - hstep
      exact ha.step hn hstep
  obtain ⟨past, q, hm⟩ := hserved
  refine ⟨fun c d hc hd => hm.ordered.unique hc hd, ?_, hm.turn⟩
  rw [hm.entered, hm.drawn]
  -- at most the first CPU of the line has passed the wait
  apply (List.prefix_append_right_inj past).2
  cases q with
  | nil => exact List.nil_prefix
  | cons c l =>
      cases hc : (m.stage c).holds with
      | false =>
          rw [List.filter_cons_of_neg (by simp [hc]), filter_holds_tail hm.ordered]
          exact List.nil_prefix
      | true =>
          rw [List.filter_cons_of_pos (by simp [hc]), filter_holds_tail hm.ordered]
          exact (List.prefix_append [c] l)

/-- Three CPUs: the first one is in the critical section while the others wait. -/
theorem ticketlock_first_come_first_served_three :
    ∃ m : LockUsers 3, exec step init [0, 2, 1, 0, 2, 1] = some m ∧ m.drawn = [0, 2, 1] ∧
      m.entered = [0] ∧
      (∀ c d, (m.stage c).holds = true → (m.stage d).holds = true → c = d) ∧
      m.entered <+: m.drawn ∧ m.lock.turn = BitVec.ofNat 32 m.released := by
  have hrun : ∃ m : LockUsers 3, exec step init [0, 2, 1, 0, 2, 1] = some m ∧
      m.drawn = [0, 2, 1] ∧ m.entered = [0] := ⟨_, rfl, rfl, rfl⟩
  obtain ⟨m, hm, hdrawn, hentered⟩ := hrun
  exact ⟨m, hm, hdrawn, hentered,
    ticketlock_first_come_first_served (by decide) (reaches_of_exec hm)⟩

end LockUsers

end MPStuBS.Machine
