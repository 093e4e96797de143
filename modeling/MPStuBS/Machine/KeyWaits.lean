import MPStuBS.Lib.Progress
import MPStuBS.Machine.LedCommands

/-!
# Waiting for the keyboard

`send_byte` waits in a loop until the last byte was taken. `key_hit` sends at most one
command, so if the controller takes every byte at some time, every call returns
(`key_hit_returns`). The rank that falls counts the accesses up to the end of the call and the byte
that is to be taken; only the accesses of a loop that goes on do not count.
-/

set_option autoImplicit false

namespace MPStuBS.Machine

open MPStuBS.Lib.Run KeyboardController

/-- The accesses up to the end of a call, each loop counted once. -/
def KeyPhase.accesses : KeyPhase → Nat
  | .statement => 0
  | .drainByte => 1
  | .dropByte _ => 1
  | .output _ bytes => 2 * bytes.length + 1
  | .await _ bytes => 2 * bytes.length + 2
  | .decode _ => 5
  | .keyHit => 6

namespace KeyRun

variable {stray : KeyTable → Nat → BitVec 8} {s s' : KeyRun}

/-- The byte that the keyboard is to take. -/
def untaken (c : KeyChip) : Nat := c.input.toList.length

/-- What is left of a call. -/
def rank (s : KeyRun) : Nat := 2 * s.phase.accesses + untaken s.chip

/-- `send_byte` goes on waiting. -/
def Blocked (s : KeyRun) : Prop := s.phase.unsent ≠ [] ∧ s.chip.input ≠ none

theorem accesses_sendBytes (bytes : List (BitVec 8)) :
    (sendBytes bytes).accesses = 2 * bytes.length := by
  cases bytes with
  | nil => rfl
  | cons byte bytes => exact (Nat.mul_succ 2 bytes.length).symm

/-- A byte is decoded, which sends at most one command. -/
theorem accesses_decode (stray : KeyTable → Nat → BitVec 8) (byte : BitVec 8) :
    (s.perform fun c => (c.decode stray byte).1).phase.accesses ≤ 4 := by
  show (sendBytes (commandBytes ((s.controller.decode stray byte).1.sent.drop
    s.controller.sent.length))).accesses ≤ 4
  rw [accesses_sendBytes]
  rcases decode_sent stray byte (s := s.controller) with hsent | hsent
  · rw [hsent, List.drop_length]
    decide
  · rw [hsent, List.drop_left]
    exact Nat.le_refl 4

theorem rank_eq {phase : KeyPhase} (h : s.phase = phase) :
    s.rank = 2 * phase.accesses + untaken s.chip := h ▸ rfl

/-- Fewer accesses are left, and the same byte is to be taken. -/
theorem rank_lt {phase : KeyPhase} (h : s.phase = phase)
    (hchip : untaken s'.chip = untaken s.chip)
    (hless : s'.phase.accesses < phase.accesses) : s'.rank < s.rank := by
  rw [rank_eq h, rank, hchip]
  omega

/-- An access brings the call nearer to its end, or the loop goes on. -/
theorem rank_access {others : BitVec 8} (htodo : s.todo = [])
    (hstep : s.access stray others = some s') :
    s'.todo = [] ∧ (s'.rank < s.rank ∨ s.Blocked ∧ s' = s) := by
  -- the constructor is over
  have hover : ∀ {statement rest}, s.todo ≠ statement :: rest := by
    intro statement rest h
    rw [htodo] at h
    cases h
  cases accessed_of_access hstep with
  | drainFull _ hcons _ => exact absurd hcons hover
  | drainEmpty _ hcons _ => exact absurd hcons hover
  | run _ hcons => exact absurd hcons hover
  | drainByte hphase => exact ⟨htodo, .inl (rank_lt hphase rfl Nat.zero_lt_one)⟩
  | hitEmpty hphase _ => exact ⟨htodo, .inl (rank_lt hphase rfl (Nat.succ_pos 5))⟩
  | hitMouse hphase _ _ =>
      have hless : 1 < 6 := by decide
      exact ⟨htodo, .inl (rank_lt hphase rfl hless)⟩
  | hitKey hphase _ _ => exact ⟨htodo, .inl (rank_lt hphase rfl (Nat.lt_succ_self 5))⟩
  | dropByte hphase => exact ⟨htodo, .inl (rank_lt hphase rfl Nat.zero_lt_one)⟩
  | decode hphase =>
      have hle := accesses_decode (s := s) stray s.chip.output.byte
      exact ⟨htodo, .inl (rank_lt hphase rfl (Nat.lt_succ_of_le hle))⟩
  | wait hphase hin =>
      refine ⟨htodo, .inr ⟨⟨?_, (s.chip.status_inpb others).1 hin⟩, rfl⟩⟩
      rw [hphase]
      exact List.cons_ne_nil _ _
  | @ready _ bytes hphase _ =>
      exact ⟨htodo, .inl (rank_lt hphase rfl (Nat.lt_succ_self (2 * bytes.length + 1)))⟩
  | @output byte bytes hphase =>
      refine ⟨htodo, .inl ?_⟩
      -- the byte that is written is to be taken, which costs less than the access
      show 2 * (sendBytes bytes).accesses + 1 < s.rank
      rw [rank_eq hphase, accesses_sendBytes, KeyPhase.accesses]
      omega

/-- The next step is an access outside of a loop that goes on, or a byte is taken. -/
def Helpful (s : KeyRun) : KeyLabel → Prop
  | .access _ => ¬ s.Blocked
  | .take => True
  | _ => False

/-- No step of a call that is in progress raises the rank, and the helpful ones lower it. -/
theorem rank_step (htodo : s.todo = []) (hcall : ¬ s.Idle) {label : KeyLabel}
    (hstep : s.step stray label = some s') :
    s'.todo = [] ∧ (s'.rank < s.rank ∨ ¬ s.Helpful label ∧ s'.rank = s.rank) := by
  cases label with
  | call =>
      obtain ⟨hphase, -, -⟩ := call_eq_some hstep
      exact absurd ⟨hphase, htodo⟩ hcall
  | access others =>
      obtain ⟨htodo', hlt | ⟨hblocked, rfl⟩⟩ := rank_access htodo hstep
      · exact ⟨htodo', .inl hlt⟩
      · exact ⟨htodo', .inr ⟨not_not.2 hblocked, rfl⟩⟩
  | take =>
      obtain ⟨byte, hinput, rfl⟩ := take_eq_some hstep
      refine ⟨htodo, .inl ?_⟩
      have hone : untaken s.chip = 1 := by
        rw [untaken, hinput]
        rfl
      show 2 * s.phase.accesses + 0 < 2 * s.phase.accesses + untaken s.chip
      omega
  | arrive b =>
      obtain ⟨-, rfl⟩ := arrive_eq_some hstep
      exact ⟨htodo, .inr ⟨id, rfl⟩⟩

/-- The program goes on with a call that is in progress, and the controller takes every byte. -/
structure Fair (x : Execution (KeyRun.step stray)) : Prop where
  accesses : ∀ n, ¬ (x.state n).Idle → ∃ k, n ≤ k ∧ ∃ others, x.label k = .access others
  takes : ∀ n, (x.state n).chip.input ≠ none → ∃ k, n ≤ k ∧ x.label k = .take

/-- Every call of `key_hit` returns. -/
theorem key_hit_returns {x : Execution (KeyRun.step stray)} (hfair : Fair x) {n : Nat}
    (hcall : (x.state n).todo = []) : ∃ k, n ≤ k ∧ (x.state k).Idle := by
  by_contra hnever
  have hbusy : ∀ k, n ≤ k → ¬ (x.state k).Idle := fun k hk hidle => hnever ⟨k, hk, hidle⟩
  have hoften : ∀ m, ∃ k, m ≤ k ∧ (x.state k).Helpful (x.label k) := by
    intro m
    obtain ⟨k, hk, others, hlabel⟩ := hfair.accesses (max m n) (hbusy _ (le_max_right m n))
    by_cases hblocked : (x.state k).Blocked
    · obtain ⟨l, hl, htake⟩ := hfair.takes k hblocked.2
      refine ⟨l, ((le_max_left m n).trans hk).trans hl, ?_⟩
      rw [htake]
      trivial
    · refine ⟨k, (le_max_left m n).trans hk, ?_⟩
      rw [hlabel]
      exact hblocked
  apply hnever
  refine x.eventually (I := fun a s => s.todo = [] ∧ s.rank = a) Nat.lt_wfRel.wf hoften ?_
    ⟨hcall, rfl⟩
  rintro k a hk hgoal ⟨htodo, rfl⟩
  obtain ⟨htodo', hlt | ⟨hnot, heq⟩⟩ := rank_step htodo hgoal (x.step_eq k)
  · exact .inl ⟨_, hlt, htodo', rfl⟩
  · exact .inr ⟨hnot, htodo', heq⟩

/-- The byte is taken as soon as it is there, the program goes on, and `key_hit` is called again. -/
def eager (s : KeyRun) : KeyLabel :=
  if s.chip.input ≠ none then .take
  else match s.phase with
    | .statement => .call
    | _ => .access 0

theorem eager_access (htodo : s.todo = []) (hcall : ¬ s.Idle) (hinput : s.chip.input = none) :
    s.eager = .access 0 := by
  rw [eager, if_neg (not_not.2 hinput)]
  cases hphase : s.phase with
  | statement => exact absurd ⟨hphase, htodo⟩ hcall
  | _ => rfl

theorem eager_possible (htodo : s.todo = []) :
    ∃ s', s.step stray s.eager = some s' ∧ s'.todo = [] := by
  cases hinput : s.chip.input with
  | some byte =>
      have heager : s.eager = .take := if_pos (by simp [hinput])
      obtain ⟨s', htake, htodo'⟩ : ∃ s', s.take = some s' ∧ s'.todo = s.todo := by
        rw [KeyRun.take, hinput]
        exact ⟨_, rfl, rfl⟩
      refine ⟨s', ?_, htodo'.trans htodo⟩
      rw [heager]
      exact htake
  | none =>
      by_cases hidle : s.Idle
      · refine ⟨{ s with phase := .keyHit }, ?_, htodo⟩
        simp [eager, hinput, hidle.1, KeyRun.step, htodo]
      · have hsome : (s.access stray 0).isSome = true := by
          rw [KeyRun.access]
          cases hphase : s.phase with
          | statement => exact absurd ⟨hphase, htodo⟩ hidle
          | _ =>
              dsimp only
              repeat' split
              all_goals rfl
        obtain ⟨s', hs'⟩ := Option.isSome_iff_exists.1 hsome
        refine ⟨s', ?_, (rank_access htodo hs').1⟩
        rw [eager_access htodo hidle hinput]
        exact hs'

theorem key_hit_returns_capsLock : ∃ (s : KeyRun) (x : Execution (KeyRun.step fun _ _ => 0)),
    x.state 0 = s ∧ s.phase = .keyHit ∧ ∃ k, 0 ≤ k ∧ (x.state k).Idle := by
  let s : KeyRun := ⟨⟨true, ⟨false, 0x3a⟩, none, ⟨none, 0, 0⟩⟩, construct, .keyHit, [], [],
    [⟨false, 0x3a⟩], []⟩
  let schedule : Nat → KeyRun → KeyLabel := fun _ => eager
  have hpossible : ∀ n (s : KeyRun), s.todo = [] →
      ∃ s', s.step (fun _ _ => 0) (schedule n s) = some s' ∧ s'.todo = [] :=
    fun _ _ htodo => eager_possible htodo
  have htodo : s.todo = [] := rfl
  obtain ⟨x, hzero, hx⟩ := exists_execution hpossible htodo
  have htake : ∀ n, (x.state n).chip.input ≠ none → x.label n = .take := fun n hn =>
    (hx n).2.trans (if_pos hn)
  have haccess : ∀ n, ¬ (x.state n).Idle → (x.state n).chip.input = none →
      x.label n = .access 0 := fun n hcall hn =>
    (hx n).2.trans (eager_access (hx n).1 hcall hn)
  refine ⟨s, x, hzero, rfl, key_hit_returns ⟨?_, fun n hn => ?_⟩ (hx 0).1⟩
  case refine_2 => exact ⟨n, Nat.le_refl n, htake n hn⟩
  intro n hcall
  cases hinput : (x.state n).chip.input with
  | none => exact ⟨n, Nat.le_refl n, 0, haccess n hcall hinput⟩
  | some byte =>
      have hstep := x.step_eq n
      rw [htake n (by simp [hinput]), KeyRun.step, KeyRun.take, hinput] at hstep
      have hnext := Option.some.inj hstep
      refine ⟨n + 1, Nat.le_succ n, 0, haccess (n + 1) ?_ ?_⟩
      · rw [← hnext]
        exact hcall
      · rw [← hnext]

end KeyRun

end MPStuBS.Machine
