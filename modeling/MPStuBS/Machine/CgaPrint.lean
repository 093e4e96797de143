import MPStuBS.Machine.CgaScreen
import Mathlib.Tactic.Ring

/-!
# Printing character by character

The loop of `CGA_Screen::print` needs several rounds for a tabulator and keeps a
remainder between them. `Pen.put` is what all rounds for one character do
together, and `print` is the fold of it over the string, followed by `setpos`
(`print_eq`). So the loop ends after at most seven rounds for a character, and
nothing but the screen and the position is carried from one character to the
next.
-/

set_option autoImplicit false

namespace MPStuBS.Machine

open MPStuBS.Lib.Loop

/-- The screen and the position of the next character. -/
structure Pen where
  screen : Screen
  x : Int
  y : Int

namespace Pen

variable (w : Window) (a : Attribute)

/-- A character is shown at the position. -/
def write (ch : Char8) (p : Pen) : Pen :=
  { p with screen := showChar p.screen (w.fromCol + p.x) (w.fromRow + p.y) ch a }

/-- The position moves to the start of the next line. -/
def lineBreak (p : Pen) : Pen :=
  if p.y = w.height - 1 then { p with screen := w.scroll a p.y p.screen, x := 0 }
  else { p with y := p.y + 1, x := 0 }

/-- The position moves on by one. -/
def advance (p : Pen) : Pen :=
  if p.x = w.width - 1 then p.lineBreak w a else { p with x := p.x + 1 }

/-- `n` blanks. -/
def blanks : Nat → Pen → Pen
  | 0, p => p
  | n + 1, p => blanks n ((p.write w a blank).advance w a)

/-- The position moves back by one within the line. -/
def back (p : Pen) : Pen := { p with x := if p.x > 0 then p.x - 1 else p.x }

/-- A tabulator: blanks up to the last column before the stop, which is only passed. -/
def tab (p : Pen) : Pen := (p.blanks w a (3 - p.x.tmod 4).toNat).advance w a

/-- All rounds for one character. -/
def put (p : Pen) (ch : Char8) : Pen :=
  if ch = nul then p
  else if ch = backspace then p.back.write w a blank
  else if ch = newline then p.lineBreak w a
  else if ch = tabulator then p.tab w a
  else (p.write w a ch).advance w a

end Pen

/-- The local variables of `print` with the pen `p`. -/
def Pen.locals (p : Pen) (i : Nat) (remain : Int) : PrintLocals := ⟨i, remain, p.x, p.y, p.screen⟩

namespace Window

variable (w : Window) (a : Attribute)

/-- Moving the cursor after a character that does not break the line itself. -/
theorem printMove_advance (p : Pen) (i : Nat) (remain : Int) :
    w.printMove a (p.x == w.width - 1) (p.x == w.width - 1 && p.y == w.height - 1)
        (p.locals i remain) =
      (p.advance w a).locals i remain := by
  by_cases hx : p.x = w.width - 1
  · by_cases hy : p.y = w.height - 1
    · simp [printMove, Pen.advance, Pen.lineBreak, Pen.locals, hx, hy]
    · simp [printMove, Pen.advance, Pen.lineBreak, Pen.locals, hx, hy]
  · simp [printMove, Pen.advance, Pen.locals, hx]

/-- Moving the cursor after a character that breaks the line. -/
theorem printMove_lineBreak (p : Pen) (i : Nat) (remain : Int) :
    w.printMove a true (p.y == w.height - 1) (p.locals i remain) =
      (p.lineBreak w a).locals i remain := by
  by_cases hy : p.y = w.height - 1
  · simp [printMove, Pen.lineBreak, Pen.locals, hy]
  · simp [printMove, Pen.lineBreak, Pen.locals, hy]

section Rounds

variable {w a} {string : List Char8} {i : Nat} {p : Pen} {ch : Char8}

/-- A round for an ordinary character. -/
theorem printRound_char (hi : string[i]? = some ch) (hnul : ch ≠ nul) (hback : ch ≠ backspace)
    (hline : ch ≠ newline) (htab : ch ≠ tabulator) :
    w.printRound string a (p.locals i 0) =
      some (.next (((p.write w a ch).advance w a).locals (i + 1) 0)) := by
  have hmove := printMove_advance w a (p.write w a ch) (i + 1) 0
  have hback' : (ch != backspace) = true := bne_iff_ne.2 hback
  have hline' : (ch == newline) = false := beq_eq_false_iff_ne.2 hline
  simp only [Pen.write, Pen.locals] at hmove
  simpa [printRound, printNext, Pen.locals, Pen.write, hi, hnul, hback, hback', hline, hline',
    htab] using hmove

theorem printRound_nul (hi : string[i]? = some nul) :
    w.printRound string a (p.locals i 0) = some (.next (p.locals (i + 1) 0)) := by
  simp [printRound, Pen.locals, hi]

theorem printRound_newline (hi : string[i]? = some newline) :
    w.printRound string a (p.locals i 0) = some (.next ((p.lineBreak w a).locals (i + 1) 0)) := by
  have hmove := printMove_lineBreak w a p (i + 1) 0
  simp only [Pen.locals] at hmove
  simpa [printRound, printNext, Pen.locals, hi, newline, nul, backspace, tabulator] using hmove

/-- The position moves back before the blank is shown, and back and on again afterwards. -/
theorem printRound_backspace (hi : string[i]? = some backspace) :
    w.printRound string a (p.locals i 0) =
      some (.next ((p.back.write w a blank).locals (i + 1) 0)) := by
  simp [printRound, printNext, printMove, Pen.locals, Pen.write, Pen.back, hi, nul, backspace,
    tabulator]

/-- A round for a tabulator with more than one position left. -/
theorem printRound_tab (hi : string[i]? = some tabulator) {r : Int} (hr : 1 < r) :
    w.printRound string a (p.locals i r) =
      some (.next (((p.write w a blank).advance w a).locals i (r - 1))) := by
  have hmove := printMove_advance w a (p.write w a blank) i (r - 1)
  have hr0 : r ≠ 0 := by omega
  simp only [Pen.write, Pen.locals] at hmove
  simpa [printRound, printNext, Pen.locals, Pen.write, hi, hr, hr0, nul, backspace, newline,
    tabulator] using hmove

/-- The last round for a tabulator shows nothing. -/
theorem printRound_tab_last (hi : string[i]? = some tabulator) :
    w.printRound string a (p.locals i 1) = some (.next ((p.advance w a).locals (i + 1) 0)) := by
  have hmove := printMove_advance w a p (i + 1) 0
  simp only [Pen.locals] at hmove
  simpa [printRound, printNext, Pen.locals, hi, nul, backspace, newline, tabulator] using hmove

/-- The number of positions to the next stop, the first of them at the position itself. -/
theorem tab_stop (x : Int) : 1 ≤ 4 - x.tmod 4 ∧ 4 - x.tmod 4 ≤ 7 := by
  have hlt := Int.tmod_lt_of_pos x (b := 4) (by decide)
  have hge : -4 < x.tmod 4 := Int.lt_tmod_of_pos x (by decide)
  omega

/-- The first round for a tabulator computes the number of positions. -/
theorem printRound_tab_first (hi : string[i]? = some tabulator) :
    w.printRound string a (p.locals i 0) = w.printRound string a (p.locals i (4 - p.x.tmod 4)) := by
  have hr : 4 - p.x.tmod 4 ≠ 0 := by
    have hstop := tab_stop p.x
    omega
  simp [printRound, printNext, Pen.locals, hi, hr, nul, backspace, newline, tabulator]

/-- A tabulator with `n + 1` positions left takes `n + 1` rounds. -/
theorem leads_tab (hi : string[i]? = some tabulator) (n : Nat) (p : Pen) :
    Leads (w.printRound string a) (n + 1) (p.locals i (n + 1))
      (((p.blanks w a n).advance w a).locals (i + 1) 0) := by
  induction n generalizing p with
  | zero => exact Leads.single (printRound_tab_last hi)
  | succ n ih =>
      refine Leads.head ?_ (ih ((p.write w a blank).advance w a))
      rw [printRound_tab hi (by omega)]
      congr 3
      push_cast
      omega

/-- One round is enough for a character that is no tabulator. -/
theorem printRound_put (hi : string[i]? = some ch) (htab : ch ≠ tabulator) :
    w.printRound string a (p.locals i 0) = some (.next ((p.put w a ch).locals (i + 1) 0)) := by
  by_cases hnul : ch = nul
  · subst hnul
    exact printRound_nul hi
  by_cases hback : ch = backspace
  · subst hback
    exact printRound_backspace hi
  by_cases hline : ch = newline
  · subst hline
    exact printRound_newline hi
  · rw [printRound_char hi hnul hback hline htab]
    simp [Pen.put, hnul, hback, hline, htab]

/-- All rounds for one character: at most seven. -/
theorem leads_put (hi : string[i]? = some ch) (p : Pen) : ∃ n, n ≤ 7 ∧
    Leads (w.printRound string a) n (p.locals i 0) ((p.put w a ch).locals (i + 1) 0) := by
  by_cases htab : ch = tabulator
  · subst htab
    have hstop := tab_stop p.x
    refine ⟨(3 - p.x.tmod 4).toNat + 1, by omega, ?_⟩
    -- the first round finds no remainder and goes on as if it had been computed before
    have hrounds := leads_tab (w := w) (a := a) hi (3 - p.x.tmod 4).toNat p
    have hr : ((3 - p.x.tmod 4).toNat : Int) + 1 = 4 - p.x.tmod 4 := by omega
    rw [hr] at hrounds
    cases hrounds with
    | head hb hrest => exact Leads.head ((printRound_tab_first hi).trans hb) hrest
  · exact ⟨1, by decide, Leads.single (printRound_put hi htab)⟩

/-- All rounds from character `i` to the end of the string. -/
theorem leads_puts (string : List Char8) (k : Nat) : ∀ (i : Nat) (p : Pen), string.length = i + k →
    ∃ n, n ≤ 7 * k ∧ Leads (w.printRound string a) n (p.locals i 0)
      (((string.drop i).foldl (Pen.put w a) p).locals string.length 0) := by
  induction k with
  | zero =>
      intro i p hk
      rw [Nat.add_zero] at hk
      refine ⟨0, Nat.le_refl 0, ?_⟩
      rw [← hk, List.drop_length]
      exact Leads.refl _
  | succ k ih =>
      intro i p hk
      have hlt : i < string.length := by omega
      obtain ⟨n, hn, hput⟩ := leads_put (w := w) (a := a) (List.getElem?_eq_getElem hlt) p
      obtain ⟨m, hm, hrest⟩ := ih (i + 1) (p.put w a string[i]) (by omega)
      -- the rounds for this character, then those for the rest of the string
      refine ⟨n + m, by omega, ?_⟩
      rw [List.drop_eq_getElem_cons hlt, List.foldl_cons]
      exact hput.trans hrest

end Rounds

/-- The pen at the cursor. -/
def pen (m : Cga) : Pen := ⟨m.screen, (w.getpos m).2.1, (w.getpos m).2.2⟩

/-- The cursor is set to the position of the pen, after it was read. -/
def finish (m : Cga) (p : Pen) : Cga := w.setpos { (w.getpos m).1 with screen := p.screen } p.x p.y

theorem getpos_screen (m : Cga) : (w.getpos m).1.screen = m.screen := by
  unfold getpos
  split <;> rfl

/-- `print` puts one character after the other. -/
theorem print_eq {fuel : Nat} (m : Cga) {string : List Char8} (hf : 7 * string.length < fuel) :
    print fuel w m string a = some (w.finish m (string.foldl (Pen.put w a) (w.pen m))) := by
  obtain ⟨n, hn, hleads⟩ :=
    leads_puts (w := w) (a := a) string string.length 0 (w.pen m) (Nat.zero_add _).symm
  obtain ⟨k, rfl⟩ : ∃ k, fuel = n + (k + 1) := ⟨fuel - n - 1, by omega⟩
  -- the rounds for all characters, and one that sees the end of the string
  have hloop : loop (w.printRound string a) (n + (k + 1)) ((w.pen m).locals 0 0) =
      some ((string.foldl (Pen.put w a) (w.pen m)).locals string.length 0) := by
    rw [hleads.loop_eq, List.drop_zero]
    apply loop_of_done
    simp [printRound, Pen.locals]
  have hstart : (⟨0, 0, (w.getpos m).2.1, (w.getpos m).2.2, (w.getpos m).1.screen⟩ : PrintLocals) =
      (w.pen m).locals 0 0 := by
    rw [getpos_screen]
    rfl
  simp only [print]
  rw [hstart, hloop]
  rfl

end Window

end MPStuBS.Machine
