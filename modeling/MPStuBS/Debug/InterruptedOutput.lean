import MPStuBS.Lib.Run
import MPStuBS.Object.Strbuf
import Mathlib.Data.List.Count
import Mathlib.Data.List.Nodup

/-!
# Debug output and interrupts

The stream behind `DBG` is written by thread and epilogue code, statement by statement,
and by `guardian`, whose `DBG << "int" << endl` runs with interrupts disabled and so
between two statements of the other writer. Every character gets the number of its `put`,
so that characters can be told apart.

Whether all stores are inside of the buffer and every character is delivered exactly once
depends on the points at which interrupts arrive (`debug_output_safe_iff`). An interrupt
does harm between the store of a character and the increment of `pos`, where it
overwrites the character; while the buffer is full, where it stores behind the buffer; and
between the output of a chunk and `pos = 0`, where it delivers the chunk again.
-/

set_option autoImplicit false

namespace MPStuBS.Debug

open MPStuBS.Lib.Run
open MPStuBS.Object

/-- A character, and the number of its `put`, from 1 on. -/
structure Mark where
  number : Nat
  c : BitVec 8
  deriving DecidableEq

/-- The statements of `put` and `flush`. -/
inductive Stmt where
  | store (c : BitVec 8)
  | increment
  | test
  | print
  | reset

/-- The statements of a writer. The `flush` in `put` is called by `test`. -/
def stmts : List (StreamOp (BitVec 8)) → List Stmt
  | [] => []
  | .put c :: ops => .store c :: .increment :: .test :: stmts ops
  | .flush :: ops => .print :: .reset :: stmts ops

/-- The stream, which keeps what it has delivered; all characters put so far; and whether some
store was not inside of the buffer. -/
structure Output where
  stream : Stringbuffer Mark (List Mark)
  written : List Mark
  overrun : Bool

/-- The output of the stream accepts every chunk. -/
def log (chunk : List Mark) (delivered : List Mark) : Option (List Mark) :=
  some (delivered ++ chunk)

/-- Characters with their numbers, the first of them after `n`. -/
def marks : Nat → List (BitVec 8) → List Mark
  | _, [] => []
  | n, c :: cs => ⟨n + 1, c⟩ :: marks (n + 1) cs

/-- `"int"` and the line break of `endl`. -/
def intText : List (BitVec 8) := [105, 110, 116, 10]

namespace Output

/-- A statement, and the statements that it calls. -/
def run (o : Output) : Stmt → Output × List Stmt
  | .store c =>
      match o.stream.store ⟨o.written.length + 1, c⟩ with
      | none => ({ o with overrun := true }, [])
      | some s => (⟨s, o.written ++ [⟨o.written.length + 1, c⟩], o.overrun⟩, [])
  | .increment => ({ o with stream := o.stream.increment }, [])
  | .test => (o, if o.stream.pos = 80 then [.print, .reset] else [])
  | .print =>
      match o.stream.deliver log with
      | none => (o, [])
      | some s => ({ o with stream := s }, [])
  | .reset => ({ o with stream := o.stream.reset }, [])

/-- `DBG << "int" << endl` in `guardian`. -/
def interrupt (o : Output) : Output :=
  match o.stream.exec log ((marks o.written.length intText).map .put ++ [.flush]) with
  | none => { o with overrun := true }
  | some s => ⟨s, o.written ++ marks o.written.length intText, o.overrun⟩

/-- All stores were inside of the buffer, and every character is delivered exactly once. -/
def Delivered (o : Output) : Prop :=
  o.overrun = false ∧ ∀ m, o.stream.out.count m = if m ∈ o.written then 1 else 0

end Output

/-- The output, and the statements that the writer has still to execute. -/
structure Writer where
  out : Output
  todo : List Stmt

inductive Event where
  | stmt
  | interrupt
  deriving DecidableEq

namespace Writer

/-- The writer executes a statement or is interrupted. After a store that is not inside of the
buffer nothing more is modelled. -/
def step (w : Writer) : Event → Option Writer
  | .stmt =>
      if w.out.overrun then none
      else
        match w.todo with
        | [] => none
        | st :: rest =>
            match w.out.run st with
            | (o, called) => some ⟨o, called ++ rest⟩
  | .interrupt => if w.out.overrun then none else some { w with out := w.out.interrupt }

/-- An empty buffer, and a text with a last `flush`. -/
def start (ops : List (StreamOp (BitVec 8))) : Writer :=
  ⟨⟨⟨fun _ => ⟨0, 0⟩, 0, []⟩, [], false⟩, stmts (ops ++ [.flush])⟩

/-- An interrupt does no harm: the buffer has room, no stored character waits for `increment`, and
no delivered one for `reset`. -/
def safe (w : Writer) : Bool :=
  w.out.stream.pos < 80 &&
    match w.todo with
    | .increment :: _ => false
    | .reset :: _ => w.out.stream.pos == 0
    | _ => true

/-- Every interrupt of the run arrives where it does no harm. -/
def SafeRun : Writer → List Event → Prop
  | _, [] => True
  | w, e :: es =>
      (e = .interrupt → w.safe = true) ∧
        match w.step e with
        | none => True
        | some w' => SafeRun w' es

end Writer

/-! ## What an interrupt does to the output -/

theorem marks_number {n : Nat} {cs : List (BitVec 8)} {m : Mark} (h : m ∈ marks n cs) :
    n < m.number ∧ m.number ≤ n + cs.length := by
  induction cs generalizing n with
  | nil => cases h
  | cons c cs ih =>
      rw [List.length_cons]
      cases h with
      | head => exact ⟨Nat.lt_succ_self n, by simp only; omega⟩
      | tail _ h =>
          have hm := ih h
          omega

theorem length_marks (n : Nat) (cs : List (BitVec 8)) : (marks n cs).length = cs.length := by
  induction cs generalizing n with
  | nil => rfl
  | cons c cs ih => rw [marks, List.length_cons, ih, List.length_cons]

theorem nodup_marks (n : Nat) (cs : List (BitVec 8)) : (marks n cs).Nodup := by
  induction cs generalizing n with
  | nil => exact List.nodup_nil
  | cons c cs ih =>
      refine List.nodup_cons.2 ⟨fun h => ?_, ih (n + 1)⟩
      exact absurd (marks_number h).1 (Nat.lt_irrefl _)

namespace Output

variable {o : Output}

theorem interrupt_overrun (h : 80 ≤ o.stream.pos) : o.interrupt.overrun = true := by
  have hexec : o.stream.exec log ((marks o.written.length intText).map .put ++ [.flush]) =
      none := by
    simp only [intText, marks, List.map_cons, List.cons_append, Stringbuffer.exec, Stringbuffer.put,
      Stringbuffer.store_of_le h]
  simp only [interrupt, hexec]

/-- With room in the buffer, the pending characters and those of the interrupt are delivered, and
the place at `pos` is overwritten. -/
theorem interrupt_eq (h : o.stream.pos < 80) : ∃ buffer : Nat → Mark,
    o.interrupt = ⟨⟨buffer, 0, o.stream.out ++
      (o.stream.pending ++ marks o.written.length intText)⟩,
      o.written ++ marks o.written.length intText, o.overrun⟩ ∧
    ∀ n, (n ≠ o.stream.pos ∧ buffer n = o.stream.buffer n) ∨
      buffer n ∈ marks o.written.length intText := by
  -- the flush at the end delivers what the puts have not delivered yet
  obtain ⟨s', hexec, hpos, hout⟩ := Stringbuffer.exec_flush log (fun chunk out => out ++ chunk)
    (fun _ => True)
    (fun _ _ _ _ => rfl) (fun _ _ _ => trivial) (fun xs ys o _ => List.append_assoc o xs ys)
    ((marks o.written.length intText).map .put) o.stream h trivial
  rw [chars_map_put] at hout
  refine ⟨s'.buffer, ?_, fun n => ?_⟩
  · simp only [Output.interrupt, hexec]
    rw [← hpos, ← hout]
  · have hbuffer : (n ≠ o.stream.pos ∧ s'.buffer n = o.stream.buffer n) ∨ s'.buffer n ∈
        chars ((marks o.written.length intText).map .put ++ [.flush]) :=
      Stringbuffer.exec_put_buffer hexec n
    rw [chars_append, chars_map_put, chars, chars, List.append_nil] at hbuffer
    exact hbuffer

/-- All characters have different numbers, and no place of the buffer has a later one. -/
structure Numbered (o : Output) : Prop where
  nodup : o.written.Nodup
  written {m : Mark} : m ∈ o.written → m.number ≤ o.written.length
  buffer (n : Nat) : (o.stream.buffer n).number ≤ o.written.length

theorem Numbered.interrupt (h : o.Numbered) (hpos : o.stream.pos < 80) : o.interrupt.Numbered := by
  obtain ⟨buffer, heq, hbuffer⟩ := interrupt_eq hpos
  rw [heq]
  refine ⟨?_, fun hm => ?_, fun n => ?_⟩
  · refine List.nodup_append.2 ⟨h.nodup, nodup_marks _ _, fun m hm m' hm' hmm' => ?_⟩
    subst hmm'
    exact absurd (h.written hm) (Nat.not_le.2 (marks_number hm').1)
  · rw [List.length_append, length_marks]
    rcases List.mem_append.1 hm with hm | hm
    · exact Nat.le_add_right_of_le (h.written hm)
    · exact (marks_number hm).2
  · rw [List.length_append, length_marks]
    rcases hbuffer n with ⟨-, hn⟩ | hn
    · simp only [hn]
      exact Nat.le_add_right_of_le (h.buffer n)
    · exact (marks_number hn).2

end Output

/-! ## Interrupts that do no harm -/

/-- What follows a `flush` is nothing, or again a text with a last `flush`. -/
def Ends (k : List Stmt) : Prop := k = [] ∨ ∃ ops, k = stmts (ops ++ [.flush])

/-- Where the writer is, and what has become of the characters put so far. -/
inductive Place (o : Output) : List Stmt → Prop
  | between (ops : List (StreamOp (BitVec 8))) : o.stream.pos < 80 →
      o.written = o.stream.out ++ o.stream.pending → Place o (stmts (ops ++ [.flush]))
  | stored (ops : List (StreamOp (BitVec 8))) : o.stream.pos < 80 →
      o.written = o.stream.out ++ o.stream.pending ++ [o.stream.buffer o.stream.pos] →
      (∀ n, n ≠ o.stream.pos → o.stream.buffer n ≠ o.stream.buffer o.stream.pos) →
      Place o (.increment :: .test :: stmts (ops ++ [.flush]))
  | testing (ops : List (StreamOp (BitVec 8))) : o.stream.pos ≤ 80 →
      o.written = o.stream.out ++ o.stream.pending →
      Place o (.test :: stmts (ops ++ [.flush]))
  | full {k : List Stmt} : o.stream.pos ≤ 80 →
      o.written = o.stream.out ++ o.stream.pending → Ends k → Place o (.print :: .reset :: k)
  | printed {k : List Stmt} (before : List Mark) : o.stream.pos ≤ 80 → o.written = o.stream.out →
      o.stream.out = before ++ o.stream.pending → Ends k → Place o (.reset :: k)
  | done : o.stream.pos = 0 → o.written = o.stream.out → Place o []

namespace Writer

variable {w w' : Writer}

structure Good (w : Writer) : Prop where
  fits : w.out.overrun = false
  numbered : w.out.Numbered
  place : Place w.out w.todo

theorem good_start (ops : List (StreamOp (BitVec 8))) : (start ops).Good where
  fits := rfl
  numbered := ⟨List.nodup_nil, (fun hm => by cases hm), fun _ => Nat.le_refl 0⟩
  place := .between ops (Nat.zero_lt_succ _) rfl

theorem step_stmt {st : Stmt} {rest : List Stmt} (hfits : w.out.overrun = false)
    (htodo : w.todo = st :: rest) :
    w.step .stmt = some ⟨(w.out.run st).1, (w.out.run st).2 ++ rest⟩ := by
  simp only [step, hfits, htodo, Bool.false_eq_true, if_false]

theorem step_interrupt (hfits : w.out.overrun = false) :
    w.step .interrupt = some { w with out := w.out.interrupt } := by
  simp only [step, hfits, Bool.false_eq_true, if_false]

/-- The output of a chunk. -/
theorem Good.print {k : List Stmt} (hw : w.Good) (htodo : w.todo = .print :: .reset :: k)
    (hpos : w.out.stream.pos ≤ 80)
    (hwritten : w.out.written = w.out.stream.out ++ w.out.stream.pending)
    (hk : Ends k) (h : w.step .stmt = some w') : w'.Good := by
  rw [step_stmt hw.fits htodo] at h
  obtain rfl := Option.some.inj h
  exact ⟨hw.fits, ⟨hw.numbered.nodup, hw.numbered.written, hw.numbered.buffer⟩,
    .printed w.out.stream.out hpos hwritten rfl hk⟩

/-- The store of a character. -/
theorem Good.store {c : BitVec 8} {ops : List (StreamOp (BitVec 8))} (hw : w.Good)
    (htodo : w.todo = stmts (.put c :: ops ++ [.flush])) (hpos : w.out.stream.pos < 80)
    (hwritten : w.out.written = w.out.stream.out ++ w.out.stream.pending)
    (h : w.step .stmt = some w') : w'.Good := by
  have hnum := hw.numbered
  rw [step_stmt hw.fits htodo, Output.run, Stringbuffer.store_of_lt hpos] at h
  obtain rfl := Option.some.inj h
  -- the number of the new character is greater than all in the buffer
  have hplace : ∀ n, n ≠ w.out.stream.pos →
      (Function.update w.out.stream.buffer w.out.stream.pos
        ⟨w.out.written.length + 1, c⟩ n).number < w.out.written.length + 1 := by
    intro n hn
    rw [Function.update_of_ne hn]
    exact Nat.lt_succ_of_le (hnum.buffer n)
  refine ⟨hw.fits, ⟨?_, fun hm => ?_, fun n => ?_⟩, .stored ops hpos ?_ fun n hn => ?_⟩
  · refine List.nodup_append.2 ⟨hnum.nodup, List.nodup_singleton _, fun m hm m' hm' hmm' => ?_⟩
    rw [List.mem_singleton.1 hm'] at hmm'
    subst hmm'
    exact absurd (hnum.written hm) (Nat.not_succ_le_self _)
  · rw [List.length_append]
    rcases List.mem_append.1 hm with hm | hm
    · exact Nat.le_add_right_of_le (hnum.written hm)
    · rw [List.mem_singleton.1 hm]
      exact Nat.le_refl _
  · rw [List.length_append]
    by_cases hn : n = w.out.stream.pos
    · simp only [hn, Function.update_self]
      exact Nat.le_refl _
    · exact Nat.le_of_lt (hplace n hn)
  · simp only [Stringbuffer.pending_store, Function.update_self, hwritten]
  · simp only [Function.update_self]
    intro heq
    exact absurd (hplace n hn) (by rw [heq]; exact Nat.lt_irrefl _)

/-- A statement of the writer leaves every character in its place. -/
theorem Good.stmt (hw : w.Good) (h : w.step .stmt = some w') : w'.Good := by
  have hnum := hw.numbered
  have hplace := hw.place
  generalize htodo : w.todo = todo at hplace
  cases hplace with
  -- the writer is done with its text, flushes, or puts the next character
  | between ops hpos hwritten =>
      cases ops with
      | nil => exact hw.print htodo (Nat.le_of_lt hpos) hwritten (.inl rfl) h
      | cons op ops =>
          cases op with
          | flush => exact hw.print htodo (Nat.le_of_lt hpos) hwritten (.inr ⟨ops, rfl⟩) h
          | put c => exact hw.store htodo hpos hwritten h
  | stored ops hpos hwritten hbuffer =>
      rw [step_stmt hw.fits htodo] at h
      obtain rfl := Option.some.inj h
      refine ⟨hw.fits, ⟨hnum.nodup, hnum.written, hnum.buffer⟩, .testing ops hpos ?_⟩
      simp only [Output.run, Stringbuffer.pending_increment]
      rw [hwritten, List.append_assoc]
      rfl
  | testing ops hpos hwritten =>
      rw [step_stmt hw.fits htodo] at h
      obtain rfl := Option.some.inj h
      by_cases hfull : w.out.stream.pos = 80
      · simp only [Output.run, if_pos hfull]
        exact ⟨hw.fits, hnum, .full hpos hwritten (.inr ⟨ops, rfl⟩)⟩
      · simp only [Output.run, if_neg hfull, List.nil_append]
        exact ⟨hw.fits, hnum, .between ops (Nat.lt_of_le_of_ne hpos hfull) hwritten⟩
  | full hpos hwritten hk => exact hw.print htodo hpos hwritten hk h
  | printed before hpos hwritten hout hk =>
      rw [step_stmt hw.fits htodo] at h
      obtain rfl := Option.some.inj h
      refine ⟨hw.fits, ⟨hnum.nodup, hnum.written, hnum.buffer⟩, ?_⟩
      rcases hk with rfl | ⟨ops, rfl⟩
      · exact .done rfl hwritten
      · exact .between ops (Nat.zero_lt_succ _) (hwritten.trans (List.append_nil _).symm)
  | done hpos hwritten =>
      simp only [step, hw.fits, htodo, Bool.false_eq_true, if_false] at h
      cases h

/-- So does an interrupt that does no harm. -/
theorem Good.interrupt (hw : w.Good) (hsafe : w.safe = true) (h : w.step .interrupt = some w') :
    w'.Good := by
  rw [step_interrupt hw.fits] at h
  obtain rfl := Option.some.inj h
  obtain ⟨hroom, htodo⟩ := Bool.and_eq_true_iff.1 hsafe
  have hpos : w.out.stream.pos < 80 := of_decide_eq_true hroom
  obtain ⟨buffer, heq, -⟩ := Output.interrupt_eq hpos
  have hnum := hw.numbered.interrupt hpos
  have hplace := hw.place
  refine ⟨by rw [heq]; exact hw.fits, hnum, ?_⟩
  rw [heq]
  -- all pending characters are delivered, and those of the interrupt behind them
  have hall : w.out.written = w.out.stream.out ++ w.out.stream.pending →
      w.out.written ++ marks w.out.written.length intText =
        w.out.stream.out ++ (w.out.stream.pending ++ marks w.out.written.length intText) := by
    intro hwritten
    rw [← List.append_assoc, ← hwritten]
  generalize w.todo = todo at hplace htodo ⊢
  cases hplace with
  | between ops _ hwritten =>
      exact .between ops (Nat.zero_lt_succ _) ((hall hwritten).trans (List.append_nil _).symm)
  | stored ops _ _ _ => cases htodo
  | testing ops _ hwritten =>
      exact .testing ops (Nat.zero_le _) ((hall hwritten).trans (List.append_nil _).symm)
  | full _ hwritten hk =>
      exact .full (Nat.zero_le _) ((hall hwritten).trans (List.append_nil _).symm) hk
  | printed before _ hwritten hout hk =>
      -- the flush was empty, so nothing is delivered a second time
      have hzero : w.out.stream.pos = 0 := beq_iff_eq.1 htodo
      have hnone : w.out.stream.pending = [] := List.length_eq_zero_iff.1
        (Stringbuffer.length_pending.trans hzero)
      rw [hnone, List.append_nil] at hout
      have hwritten' := hall (hwritten.trans (by rw [hnone, List.append_nil]))
      exact .printed _ (Nat.zero_le _) hwritten' (List.append_nil _).symm hk
  | done hzero hwritten =>
      have hnone : w.out.stream.pending = [] := List.length_eq_zero_iff.1
        (Stringbuffer.length_pending.trans hzero)
      exact .done rfl (hall (hwritten.trans (by rw [hnone, List.append_nil])))

end Writer

/-! ## Interrupts that do harm -/

/-- A character is lost: it was put, but neither is it delivered nor does it stand in the buffer. -/
structure Lost (o : Output) (m : Mark) : Prop where
  number : m.number ≤ o.written.length
  written : m ∈ o.written
  out : m ∉ o.stream.out
  buffer (n : Nat) : o.stream.buffer n ≠ m

/-- Some store was not inside of the buffer, some character is lost, or some was delivered twice. -/
inductive Harmed (o : Output) : Prop
  | overrun : o.overrun = true → Harmed o
  | lost (m : Mark) : Lost o m → Harmed o
  | twice (m : Mark) : 2 ≤ o.stream.out.count m → Harmed o

theorem Lost.pending {o : Output} {m : Mark} (h : Lost o m) : m ∉ o.stream.pending := by
  intro hm
  obtain ⟨n, -, hn⟩ := List.mem_map.1 hm
  exact h.buffer n hn

theorem Lost.run {o : Output} {m : Mark} (h : Lost o m) (st : Stmt)
    (hfits : (o.run st).1.overrun = false) : Lost (o.run st).1 m := by
  cases st with
  | store c =>
      by_cases hpos : o.stream.pos < 80
      · simp only [Output.run, Stringbuffer.store_of_lt hpos]
        refine ⟨?_, List.mem_append_left _ h.written, h.out, fun n hn => ?_⟩
        · rw [List.length_append]
          exact Nat.le_add_right_of_le h.number
        · by_cases hn' : n = o.stream.pos
          · simp only [hn', Function.update_self] at hn
            have hnumber := h.number
            rw [← hn] at hnumber
            exact absurd hnumber (Nat.not_succ_le_self _)
          · simp only [Function.update_of_ne hn'] at hn
            exact h.buffer n hn
      · simp only [Output.run, Stringbuffer.store_of_le (Nat.le_of_not_lt hpos)] at hfits
        cases hfits
  | increment => exact ⟨h.number, h.written, h.out, h.buffer⟩
  | test => exact h
  | print =>
      refine ⟨h.number, h.written, fun hm => ?_, h.buffer⟩
      rcases List.mem_append.1 hm with hm | hm
      · exact h.out hm
      · exact h.pending hm
  | reset => exact ⟨h.number, h.written, h.out, h.buffer⟩

theorem Lost.interrupt {o : Output} {m : Mark} (h : Lost o m) (hpos : o.stream.pos < 80) :
    Lost o.interrupt m := by
  obtain ⟨buffer, heq, hbuffer⟩ := Output.interrupt_eq hpos
  have hnew : m ∉ marks o.written.length intText := fun hm =>
    absurd h.number (Nat.not_le.2 (marks_number hm).1)
  rw [heq]
  refine ⟨?_, List.mem_append_left _ h.written, fun hm => ?_, fun n hn => ?_⟩
  · rw [List.length_append]
    exact Nat.le_add_right_of_le h.number
  · rcases List.mem_append.1 hm with hm | hm
    · exact h.out hm
    · rcases List.mem_append.1 hm with hm | hm
      · exact h.pending hm
      · exact hnew hm
  · rcases hbuffer n with ⟨-, hn'⟩ | hn'
    · exact h.buffer n (hn'.symm.trans hn)
    · exact hnew (hn ▸ hn')

/-- Delivered characters are not taken back. -/
theorem count_run (o : Output) (st : Stmt) (m : Mark) :
    o.stream.out.count m ≤ (o.run st).1.stream.out.count m := by
  cases st with
  | store c =>
      by_cases hpos : o.stream.pos < 80
      · simp only [Output.run, Stringbuffer.store_of_lt hpos]
        exact Nat.le_refl _
      · simp only [Output.run, Stringbuffer.store_of_le (Nat.le_of_not_lt hpos)]
        exact Nat.le_refl _
  | increment => exact Nat.le_refl _
  | test => exact Nat.le_refl _
  | print =>
      simp only [Output.run, Stringbuffer.deliver, log, List.count_append]
      exact Nat.le_add_right _ _
  | reset => exact Nat.le_refl _

namespace Writer

variable {w w' : Writer}

/-- Harm is not undone. -/
theorem harmed_step {e : Event} (h : Harmed w.out) (hstep : w.step e = some w') :
    Harmed w'.out := by
  cases hfits : w.out.overrun with
  | true => cases e <;> simp [step, hfits] at hstep
  | false =>
      cases e with
      | stmt =>
          cases htodo : w.todo with
          | nil => simp [step, hfits, htodo] at hstep
          | cons st rest =>
              rw [step_stmt hfits htodo] at hstep
              obtain rfl := Option.some.inj hstep
              -- a store behind the buffer is harm of its own
              cases hrun : (w.out.run st).1.overrun with
              | true => exact .overrun hrun
              | false =>
                  cases h with
                  | overrun h => rw [hfits] at h; cases h
                  | lost m h => exact .lost m (h.run st hrun)
                  | twice m h => exact .twice m (Nat.le_trans h (count_run _ st m))
      | interrupt =>
          rw [step_interrupt hfits] at hstep
          obtain rfl := Option.some.inj hstep
          by_cases hpos : w.out.stream.pos < 80
          · cases h with
            | overrun h => rw [hfits] at h; cases h
            | lost m h => exact .lost m (h.interrupt hpos)
            | twice m h =>
                obtain ⟨buffer, heq, -⟩ := Output.interrupt_eq hpos
                refine .twice m ?_
                rw [heq, List.count_append]
                exact Nat.le_add_right_of_le h
          · exact .overrun (Output.interrupt_overrun (Nat.le_of_not_lt hpos))

/-- An interrupt that does harm. -/
theorem Good.harmed (hw : w.Good) (hsafe : w.safe = false) (h : w.step .interrupt = some w') :
    Harmed w'.out := by
  rw [step_interrupt hw.fits] at h
  obtain rfl := Option.some.inj h
  by_cases hpos : w.out.stream.pos < 80
  · have hnum := hw.numbered
    obtain ⟨buffer, heq, hbuffer⟩ := Output.interrupt_eq hpos
    have hplace := hw.place
    generalize htodo : w.todo = todo at hplace
    have hroom : decide (w.out.stream.pos < 80) = true := decide_eq_true hpos
    rw [safe, hroom, htodo, Bool.true_and] at hsafe
    cases hplace with
    | stored ops _ hwritten hold =>
        -- the character at `pos` is overwritten
        have hm : w.out.stream.buffer w.out.stream.pos ∈ w.out.written := by
          rw [hwritten]
          exact List.mem_append_right _ List.mem_cons_self
        have hnew : w.out.stream.buffer w.out.stream.pos ∉
            marks w.out.written.length intText := fun hm' =>
          absurd (hnum.written hm) (Nat.not_le.2 (marks_number hm').1)
        have hearlier : w.out.stream.buffer w.out.stream.pos ∉
            w.out.stream.out ++ w.out.stream.pending := by
          have hnodup := hnum.nodup
          rw [hwritten] at hnodup
          exact fun hm' => (List.nodup_append.1 hnodup).2.2 _ hm' _ List.mem_cons_self rfl
        rw [heq]
        refine .lost _ ⟨?_, List.mem_append_left _ hm, fun hm' => ?_, fun n hn => ?_⟩
        · rw [List.length_append]
          exact Nat.le_add_right_of_le (hnum.written hm)
        · rw [← List.append_assoc] at hm'
          rcases List.mem_append.1 hm' with hm' | hm'
          · exact hearlier hm'
          · exact hnew hm'
        · rcases hbuffer n with ⟨hne, hn'⟩ | hn'
          · exact hold n hne (hn'.symm.trans hn)
          · exact hnew (hn ▸ hn')
    | printed before _ hwritten hout hk =>
        -- the chunk is delivered a second time
        have hpending : w.out.stream.buffer 0 ∈ w.out.stream.pending := by
          have hzero : w.out.stream.pos ≠ 0 := beq_eq_false_iff_ne.1 hsafe
          exact List.mem_map.2 ⟨0, List.mem_range.2 (Nat.pos_of_ne_zero hzero), rfl⟩
        have hcount := List.count_pos_iff.2 hpending
        refine .twice (w.out.stream.buffer 0) ?_
        rw [heq, List.count_append, List.count_append, hout, List.count_append]
        omega
    | between ops _ _ =>
        cases ops with
        | nil => cases hsafe
        | cons op ops => cases op <;> cases hsafe
    | testing ops _ _ => cases hsafe
    | full _ _ _ => cases hsafe
    | done _ _ => cases hsafe
  · exact .overrun (Output.interrupt_overrun (Nat.le_of_not_lt hpos))

theorem harmed_exec {es : List Event} : ∀ {w : Writer}, Harmed w.out →
    exec step w es = some w' → Harmed w'.out := by
  induction es with
  | nil =>
      intro w hw h
      rw [← Option.some.inj h]
      exact hw
  | cons e es ih =>
      intro w hw h
      cases hs : w.step e with
      | none => simp [exec, hs] at h
      | some w₁ =>
          simp only [exec, hs] at h
          exact ih (harmed_step hw hs) h

/-- A run that meets no harmful interrupt keeps every character in its place, any other does
harm. -/
theorem Good.run {es : List Event} : ∀ {w : Writer}, w.Good → exec step w es = some w' →
    (SafeRun w es ∧ w'.Good) ∨ (¬ SafeRun w es ∧ Harmed w'.out) := by
  induction es with
  | nil =>
      intro w hw h
      rw [← Option.some.inj h]
      exact .inl ⟨trivial, hw⟩
  | cons e es ih =>
      intro w hw h
      cases hs : w.step e with
      | none => simp [exec, hs] at h
      | some w₁ =>
          simp only [exec, hs] at h
          have hgo : ((e = .interrupt → w.safe = true) ∧ w₁.Good) ∨
              (¬ (e = .interrupt → w.safe = true) ∧ Harmed w₁.out) := by
            cases e with
            | stmt => exact .inl ⟨(fun he => by cases he), hw.stmt hs⟩
            | interrupt =>
                cases hsafe : w.safe with
                | true => exact .inl ⟨fun _ => rfl, hw.interrupt hsafe hs⟩
                | false => exact .inr ⟨(fun he => by cases he rfl), hw.harmed hsafe hs⟩
          simp only [SafeRun, hs]
          rcases hgo with ⟨hok, hw₁⟩ | ⟨hok, hw₁⟩
          · rcases ih hw₁ h with ⟨hrest, hw'⟩ | ⟨hrest, hw'⟩
            · exact .inl ⟨⟨hok, hrest⟩, hw'⟩
            · exact .inr ⟨fun hall => hrest hall.2, hw'⟩
          · exact .inr ⟨fun hall => hok hall.1, harmed_exec hw₁ h⟩

/-- Without harm, everything is delivered at the end. -/
theorem Good.delivered (hw : w.Good) (hdone : w.todo = []) : w.out.Delivered := by
  have hplace := hw.place
  have hall : w.out.written = w.out.stream.out := by
    generalize w.todo = todo at hplace hdone
    cases hplace with
    | done _ hwritten => exact hwritten
    | between ops _ _ =>
        cases ops with
        | nil => cases hdone
        | cons op ops => cases op <;> cases hdone
    | stored _ _ _ _ => cases hdone
    | testing _ _ _ => cases hdone
    | full _ _ _ => cases hdone
    | printed _ _ _ _ _ => cases hdone
  refine ⟨hw.fits, fun m => ?_⟩
  rw [← hall]
  by_cases hm : m ∈ w.out.written
  · rw [if_pos hm]
    exact List.count_eq_one_of_mem hw.numbered.nodup hm
  · rw [if_neg hm]
    exact List.count_eq_zero_of_not_mem hm

end Writer

theorem Harmed.not_delivered {o : Output} (h : Harmed o) : ¬ o.Delivered := by
  rintro ⟨hfits, hcount⟩
  cases h with
  | overrun h => rw [hfits] at h; cases h
  | lost m h =>
      have hm := hcount m
      rw [if_pos h.written, List.count_eq_zero_of_not_mem h.out] at hm
      cases hm
  | twice m h =>
      have hm := hcount m
      split at hm <;> omega

/-- A text is written with a last `flush` while interrupts arrive. All stores are inside of the
buffer and every character of both writers is delivered exactly once if and only if every
interrupt arrives where it does no harm. -/
theorem debug_output_safe_iff {ops : List (StreamOp (BitVec 8))} {es : List Event} {w : Writer}
    (h : exec Writer.step (Writer.start ops) es = some w)
    (hend : w.todo = [] ∨ w.out.overrun = true) :
    w.out.Delivered ↔ Writer.SafeRun (Writer.start ops) es := by
  rcases (Writer.good_start ops).run h with ⟨hsafe, hw⟩ | ⟨hsafe, hw⟩
  · have hdone : w.todo = [] := hend.resolve_right (by rw [hw.fits]; exact Bool.false_ne_true)
    exact ⟨fun _ => hsafe, fun _ => hw.delivered hdone⟩
  · exact ⟨fun hdel => absurd hdel hw.not_delivered, fun hs => absurd hs hsafe⟩

/-- An interrupt between two characters. -/
theorem debug_output_safe_iff_between : ∃ w,
    exec Writer.step (Writer.start [.put 65, .put 66])
      [.stmt, .stmt, .stmt, .interrupt, .stmt, .stmt, .stmt, .stmt, .stmt] = some w ∧
    (w.out.Delivered ↔ Writer.SafeRun (Writer.start [.put 65, .put 66])
      [.stmt, .stmt, .stmt, .interrupt, .stmt, .stmt, .stmt, .stmt, .stmt]) :=
  ⟨_, rfl, debug_output_safe_iff rfl (.inl rfl)⟩

/-- An interrupt between the store and the increment: the character is not delivered. An interrupt
when the buffer has just become full: the store of its first character has index 80. -/
theorem debug_output_harmed :
    (∃ w, exec Writer.step (Writer.start [.put 65])
        [.stmt, .interrupt, .stmt, .stmt, .stmt, .stmt] = some w ∧ w.todo = [] ∧
      ⟨1, 65⟩ ∈ w.out.written ∧ w.out.stream.out.count ⟨1, 65⟩ = 0) ∧
    ∃ w, exec Writer.step (Writer.start (List.replicate 80 (.put 65)))
        (List.replicate (3 * 79 + 2) .stmt ++ [.interrupt]) = some w ∧ w.out.overrun = true := by
  have hfull : (exec Writer.step (Writer.start (List.replicate 80 (.put 65)))
      (List.replicate (3 * 79 + 2) .stmt ++ [.interrupt])).map (fun w => w.out.overrun) =
        some true := by decide +kernel
  refine ⟨⟨_, rfl, rfl, ?_, ?_⟩, Option.map_eq_some_iff.1 hfull⟩
  · decide
  · decide

end MPStuBS.Debug
