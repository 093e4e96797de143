import MPStuBS.Machine.CgaWindows
import MPStuBS.Object.Strbuf

/-!
# Streams in windows

`CGA_Stream` of `device/cgastr.cc` is a string buffer that prints to a window of the
screen. Printing two strings one after the other is printing both of them at once
(`printed_append`): nothing but the screen and the position is carried from one
character to the next, and the cursor keeps the position between two calls. So it
makes no difference where the stream is flushed.
-/

set_option autoImplicit false

namespace MPStuBS.Device

open MPStuBS.Machine
open MPStuBS.Object

/-- A stream: the buffer, and what its window works on. -/
abbrev CgaStream := Stringbuffer Char8 Cga

namespace CgaStream

/-- `print(buffer, pos, attr)`. -/
def print (w : Window) (attr : Attribute) (fuel : Nat) (string : List Char8) (m : Cga) :
    Option Cga := w.print fuel m string attr

/-- `flush`. -/
def flush (w : Window) (attr : Attribute) (fuel : Nat) (s : CgaStream) : Option CgaStream :=
  Stringbuffer.flush (print w attr fuel) s

/-- Characters and flushes one after the other. -/
def exec (w : Window) (attr : Attribute) (fuel : Nat) (ops : List (StreamOp Char8))
    (s : CgaStream) : Option CgaStream := Stringbuffer.exec (print w attr fuel) ops s

end CgaStream

variable {w : Window} {m : Cga} {a : Attribute}

theorem printed_append (hm : w.CursorIn m) (s₁ s₂ : List Char8) :
    w.printed (w.printed m ⟨s₁, a⟩) ⟨s₂, a⟩ = w.printed m ⟨s₁ ++ s₂, a⟩ := by
  have hin := (Local.puts (w := w) (a := a) s₁).inside (p := w.pen m) hm
  have hin' := (Local.puts (w := w) (a := a) s₂).inside hin
  simp only [Window.printed, Window.pen_finish m hin, List.foldl_append]
  exact Window.finish_finish m hin hin'

/-- Two calls of `print` leave what one call with both strings leaves. However a stream is flushed,
at the end it has printed its characters as one call would. -/
theorem flushes_invisible :
    (∀ (w : Window) (a : Attribute) (m : Cga), w.CursorIn m → ∀ s₁ s₂ : List Char8,
      ∃ fuel m₁ m₂, w.print fuel m s₁ a = some m₁ ∧ w.print fuel m₁ s₂ a = some m₂ ∧
        w.print fuel m (s₁ ++ s₂) a = some m₂) ∧
    (∀ (w : Window) (a : Attribute) (s : CgaStream), w.CursorIn s.out → s.pos < 80 →
      ∀ ops : List (StreamOp Char8),
      ∃ fuel s', CgaStream.exec w a fuel (ops ++ [.flush]) s = some s' ∧
        w.print fuel s.out (s.pending ++ chars ops) a = some s'.out) := by
  constructor
  · intro w a m hm s₁ s₂
    have hlen : (s₁ ++ s₂).length = s₁.length + s₂.length := List.length_append
    refine ⟨7 * (s₁ ++ s₂).length + 1, _, _,
      Window.print_printed (c := ⟨s₁, a⟩) m (by simp only; omega),
      Window.print_printed (c := ⟨s₂, a⟩) _ (by simp only; omega), ?_⟩
    rw [printed_append hm]
    exact Window.print_printed (c := ⟨s₁ ++ s₂, a⟩) m (Nat.lt_succ_self _)
  · intro w a s hs hpos ops
    -- a chunk has at most 80 characters, so the rounds for the whole sequence are enough for each
    have hprint : ∀ xs (m : Cga), w.CursorIn m → xs.length ≤ 80 →
        CgaStream.print w a (7 * (s.pending ++ chars ops).length + 7 * 80 + 1) xs m =
          some (w.printed m ⟨xs, a⟩) := by
      intro xs m _ hlen
      exact Window.print_printed (c := ⟨xs, a⟩) m (by simp only; omega)
    obtain ⟨s', hexec, -, hout⟩ := Stringbuffer.exec_flush _ _ w.CursorIn hprint
      (fun _ _ hm => Window.printed_cursorIn hm)
      (fun _ _ _ hm => printed_append hm _ _) ops s hpos hs
    refine ⟨_, s', hexec, ?_⟩
    rw [hout]
    exact Window.print_printed (c := ⟨s.pending ++ chars ops, a⟩) s.out (by simp only; omega)

/-- A window of two columns with the hardware cursor. -/
theorem flushes_invisible_narrow :
    (∃ fuel m₁ m₂, Window.print fuel (twoWindows false) (twoCalls.view false) [65, 9] ⟨7, 0, 0⟩ =
        some m₁ ∧
      Window.print fuel (twoWindows false) m₁ [66] ⟨7, 0, 0⟩ = some m₂ ∧
      Window.print fuel (twoWindows false) (twoCalls.view false) [65, 9, 66] ⟨7, 0, 0⟩ =
        some m₂) ∧
    ∃ fuel s', CgaStream.exec (twoWindows false) ⟨7, 0, 0⟩ fuel [.put 65, .flush, .put 66, .flush]
        ⟨fun _ => 0, 0, twoCalls.view false⟩ = some s' ∧
      Window.print fuel (twoWindows false) (twoCalls.view false) [65, 66] ⟨7, 0, 0⟩ = some s'.out :=
  ⟨flushes_invisible.1 (twoWindows false) ⟨7, 0, 0⟩ (twoCalls.view false) (by decide) [65, 9] [66],
    flushes_invisible.2 (twoWindows false) ⟨7, 0, 0⟩ ⟨fun _ => 0, 0, twoCalls.view false⟩
      (by decide) (by decide) [.put 65, .flush, .put 66]⟩

end MPStuBS.Device
