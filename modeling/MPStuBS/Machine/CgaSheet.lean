import MPStuBS.Machine.CgaWindows

/-!
# A window shows the end of a sheet

A `Sheet` has the width of a window and no last row: characters are laid out on it one
after another, and nothing ever scrolls. The window shows its last rows, or its first
ones as long as they fit (`Shows`).

All cells of the sheet from the position of the next character on are blank
(`BlankFrom`). That is why a tabulator may write blanks on the window where it only moves
the position on the sheet, and why the cleared last row of the window is the next row of
the sheet.
-/

set_option autoImplicit false

namespace MPStuBS.Machine

open MPStuBS.Lib.Loop

/-- A sheet: its cells by column and row, and the position of the next character. -/
structure Sheet where
  cells : Int → Int → Cell
  col : Int
  row : Int

namespace Sheet

/-- The unused sheet. -/
def fresh (a : Attribute) : Sheet := ⟨fun _ _ => ⟨blank, a⟩, 0, 0⟩

def write (c : Cell) (s : Sheet) : Sheet :=
  { s with cells := fun x y => if x = s.col ∧ y = s.row then c else s.cells x y }

def newRow (s : Sheet) : Sheet := { s with col := 0, row := s.row + 1 }

/-- The next position, in the next row after the last column. -/
def advance (width : Int) (s : Sheet) : Sheet :=
  if s.col = width - 1 then s.newRow else { s with col := s.col + 1 }

/-- `n` positions further. -/
def skip (width : Int) : Nat → Sheet → Sheet
  | 0, s => s
  | n + 1, s => skip width n (s.advance width)

/-- The position before this one in the same row, if there is any. -/
def back (s : Sheet) : Sheet := { s with col := if s.col > 0 then s.col - 1 else 0 }

/-- The next character is laid out. -/
def put (width : Int) (a : Attribute) (s : Sheet) (ch : Char8) : Sheet :=
  if ch = nul then s
  else if ch = backspace then s.back.write ⟨blank, a⟩
  else if ch = newline then s.newRow
  else if ch = tabulator then s.skip width (4 - s.col % 4).toNat
  else (s.write ⟨ch, a⟩).advance width

/-- The sheet with these characters. -/
def layout (width : Int) (a : Attribute) (string : List Char8) : Sheet :=
  string.foldl (put width a) (fresh a)

/-- The number of rows that have scrolled off a window of this height. -/
def top (height : Int) (s : Sheet) : Int := max 0 (s.row + 1 - height)

/-- The rest of the current row from column `x` on and all rows below are blank. -/
def BlankFrom (a : Attribute) (s : Sheet) (x : Int) : Prop :=
  ∀ u v, s.row < v ∨ v = s.row ∧ x ≤ u → s.cells u v = ⟨blank, a⟩

/-- All rows below a window of this height are blank. -/
def BlankBelow (a : Attribute) (height : Int) (s : Sheet) : Prop :=
  ∀ u v, s.top height + height ≤ v → s.cells u v = ⟨blank, a⟩

section Blank

variable {a : Attribute} {s : Sheet} {x y : Int} {width : Int}

theorem blankFrom_fresh : (fresh a).BlankFrom a 0 := fun _ _ _ => rfl

theorem BlankFrom.mono (h : s.BlankFrom a x) (hle : x ≤ y) : s.BlankFrom a y := by
  intro u v huv
  refine h u v ?_
  omega

theorem BlankFrom.below (h : s.BlankFrom a x) (height : Int) : s.BlankBelow a height := by
  intro u v hv
  refine h u v (.inl ?_)
  unfold Sheet.top at hv
  omega

theorem BlankFrom.write (h : s.BlankFrom a s.col) (c : Cell) :
    (s.write c).BlankFrom a (s.col + 1) := by
  intro u v huv
  simp only [Sheet.write] at huv ⊢
  rw [if_neg (by omega)]
  exact h u v (by omega)

theorem BlankFrom.newRow (h : s.BlankFrom a x) : s.newRow.BlankFrom a 0 := by
  intro u v huv
  simp only [Sheet.newRow] at huv ⊢
  exact h u v (by omega)

theorem BlankFrom.advance (h : s.BlankFrom a (s.col + 1)) :
    (s.advance width).BlankFrom a (s.advance width).col := by
  unfold Sheet.advance
  split
  · exact h.newRow
  · exact h

theorem BlankFrom.erase (h : s.BlankFrom a (s.col + 1)) :
    (s.write ⟨blank, a⟩).BlankFrom a s.col := by
  intro u v huv
  simp only [Sheet.write] at huv ⊢
  by_cases hpos : u = s.col ∧ v = s.row
  · rw [if_pos hpos]
  · rw [if_neg hpos]
    exact h u v (by omega)

theorem BlankFrom.back (h : s.BlankFrom a s.col) : s.back.BlankFrom a (s.back.col + 1) := by
  have hle : s.col ≤ s.back.col + 1 := by
    by_cases hcol : s.col > 0
    · simp only [Sheet.back, if_pos hcol]
      omega
    · simp only [Sheet.back, if_neg hcol]
      omega
  exact h.mono hle

/-- A blank changes nothing there. -/
theorem BlankFrom.write_blank (h : s.BlankFrom a s.col) : s.write ⟨blank, a⟩ = s := by
  have hcells : (fun x y => if x = s.col ∧ y = s.row then ⟨blank, a⟩ else s.cells x y) =
      s.cells := by
    funext u v
    split
    · rename_i huv
      exact (h u v (by omega)).symm
    · rfl
  simp only [Sheet.write, hcells]

end Blank

end Sheet

/-! ## The window and the sheet -/

/-- The window shows the end of the sheet. -/
structure Shows (w : Window) (p : Pen) (s : Sheet) : Prop where
  col : p.x = s.col
  row : p.y = s.row - s.top w.height
  inside : w.Inside p.x p.y
  cells : ∀ x y, w.Inside x y → p.screen (w.cell x y) = s.cells x (s.top w.height + y)

namespace Shows

open Window

variable {w : Window} {a : Attribute} {p : Pen} {s : Sheet}

theorem write (h : Shows w p s) (ch : Char8) : Shows w (p.write w a ch) (s.write ⟨ch, a⟩) where
  col := h.col
  row := h.row
  inside := h.inside
  cells x y hxy := by
    have hrow := h.row
    have hcells := h.cells x y hxy
    simp only [Pen.write, Sheet.write, Sheet.top, showChar_cell h.inside] at hrow hcells ⊢
    by_cases hpos : x = p.x ∧ y = p.y
    · rw [hpos.1, hpos.2, Function.update_self, if_pos ⟨h.col, by omega⟩]
    · have hne : w.cell x y ≠ w.cell p.x p.y := fun heq => hpos (Window.cell_inj hxy h.inside heq)
      rw [Function.update_of_ne hne, if_neg (fun hs => hpos ⟨hs.1.trans h.col.symm, by omega⟩)]
      exact hcells

theorem lineBreak (h : Shows w p s) (hblank : s.BlankBelow a w.height) :
    Shows w (p.lineBreak w a) s.newRow := by
  have hrow := h.row
  have hin := h.inside
  have hinside := (Local.lineBreak (a := a)).inside hin
  unfold Sheet.top at hrow
  by_cases hy : p.y = w.height - 1
  · -- the window scrolls, and its last row is the next row of the sheet
    refine ⟨?_, ?_, hinside, fun x' y hxy => ?_⟩
    · simp only [Pen.lineBreak, if_pos hy, Sheet.newRow]
    · simp only [Pen.lineBreak, if_pos hy, Sheet.newRow, Sheet.top]
      have := hin.2.2.1
      omega
    · have hscroll := scroll_cell p.screen a hxy
      simp only [Pen.lineBreak, if_pos hy, Sheet.newRow, Sheet.top]
      rw [hy, hscroll]
      by_cases hlast : y = w.height - 1
      · rw [if_pos hlast]
        have := hin.2.2.1
        refine (hblank _ _ ?_).symm
        unfold Sheet.top
        omega
      · have hnext : w.Inside x' (y + 1) := by
          have hlt := hxy.2.2.2
          have h0 := hxy.2.2.1
          exact ⟨hxy.1, hxy.2.1, by omega, by omega⟩
        have hrest : s.top w.height + (y + 1) = max 0 (s.row + 1 + 1 - w.height) + y := by
          unfold Sheet.top
          have := hin.2.2.1
          omega
        rw [if_neg hlast, h.cells x' (y + 1) hnext, hrest]
  -- above the last row nothing scrolls
  · have hlt := hin.2.2.2
    have h0 := hin.2.2.1
    have htop : s.newRow.top w.height = s.top w.height := by
      simp only [Sheet.newRow, Sheet.top]
      omega
    refine ⟨?_, ?_, hinside, fun x' y hxy => ?_⟩
    · simp only [Pen.lineBreak, if_neg hy, Sheet.newRow]
    · rw [htop]
      simp only [Pen.lineBreak, if_neg hy, Sheet.newRow, Sheet.top]
      omega
    · rw [htop]
      simp only [Pen.lineBreak, if_neg hy, Sheet.newRow]
      exact h.cells x' y hxy

theorem advance (h : Shows w p s) (hblank : s.BlankBelow a w.height) :
    Shows w (p.advance w a) (s.advance w.width) := by
  have hinside := (Local.advance (a := a)).inside h.inside
  have hcol := h.col
  by_cases hx : p.x = w.width - 1
  · have hx' : s.col = w.width - 1 := by omega
    simp only [Pen.advance, if_pos hx, Sheet.advance, if_pos hx']
    exact h.lineBreak hblank
  · have hx' : ¬ s.col = w.width - 1 := by omega
    simp only [Pen.advance, if_neg hx, Sheet.advance, if_neg hx'] at hinside ⊢
    exact ⟨congrArg (· + 1) hcol, h.row, hinside, h.cells⟩

/-- A blank is written where the sheet is blank already. -/
theorem step (h : Shows w p s) (hblank : s.BlankFrom a s.col) :
    Shows w ((p.write w a blank).advance w a) (s.advance w.width) := by
  have hwrite := h.write (a := a) blank
  rw [hblank.write_blank] at hwrite
  exact hwrite.advance (hblank.below _)

theorem blanks (h : Shows w p s) (hblank : s.BlankFrom a s.col) (n : Nat) :
    Shows w (p.blanks w a n) (s.skip w.width n) ∧
      (s.skip w.width n).BlankFrom a (s.skip w.width n).col := by
  induction n generalizing p s with
  | zero => exact ⟨h, hblank⟩
  | succ n ih =>
      have hnext : s.BlankFrom a (s.col + 1) := hblank.mono (by omega)
      exact ih (h.step hblank) hnext.advance

theorem back (h : Shows w p s) : Shows w p.back s.back := by
  have hinside := Local.back.inside h.inside
  have hcol := h.col
  have h0 := h.inside.1
  refine ⟨?_, h.row, hinside, h.cells⟩
  simp only [Pen.back, Sheet.back]
  -- at the left edge both stay where they are
  split
  · rw [if_pos (by omega), hcol]
  · rw [if_neg (by omega)]
    omega

end Shows

namespace Sheet

variable {width : Int} {s : Sheet}

theorem skip_succ (n : Nat) : s.skip width (n + 1) = (s.skip width n).advance width := by
  induction n generalizing s with
  | zero => rfl
  | succ n ih => exact ih

end Sheet

namespace Shows

variable {w : Window} {a : Attribute} {p : Pen} {s : Sheet}

/-- A character is printed in the window and laid out on the sheet. -/
theorem put (h : Shows w p s) (hblank : s.BlankFrom a s.col) (ch : Char8) :
    Shows w (p.put w a ch) (s.put w.width a ch) ∧
      (s.put w.width a ch).BlankFrom a (s.put w.width a ch).col := by
  unfold Pen.put Sheet.put
  by_cases hnul : ch = nul
  · rw [if_pos hnul, if_pos hnul]
    exact ⟨h, hblank⟩
  rw [if_neg hnul, if_neg hnul]
  by_cases hback : ch = backspace
  · rw [if_pos hback, if_pos hback]
    exact ⟨h.back.write blank, hblank.back.erase⟩
  rw [if_neg hback, if_neg hback]
  by_cases hline : ch = newline
  · rw [if_pos hline, if_pos hline]
    exact ⟨h.lineBreak (hblank.below _), hblank.newRow⟩
  rw [if_neg hline, if_neg hline]
  by_cases htab : ch = tabulator
  · rw [if_pos htab, if_pos htab]
    -- the last position is only passed, which is the same thing on a blank cell
    have hcol := h.col
    have h0 := h.inside.1
    have hcount : (4 - s.col % 4).toNat = (3 - p.x.tmod 4).toNat + 1 := by
      rw [hcol, Int.tmod_eq_emod_of_nonneg (by omega)]
      have := Int.emod_lt_of_pos s.col (b := 4) (by decide)
      omega
    have hblanks := h.blanks hblank (3 - p.x.tmod 4).toNat
    have hnext := hblanks.2.mono (y := (s.skip w.width (3 - p.x.tmod 4).toNat).col + 1) (by omega)
    rw [hcount, Sheet.skip_succ]
    exact ⟨hblanks.1.advance (hblanks.2.below _), hnext.advance⟩
  rw [if_neg htab, if_neg htab]
  exact ⟨(h.write ch).advance ((hblank.write _).below _), (hblank.write _).advance⟩

theorem puts (h : Shows w p s) (hblank : s.BlankFrom a s.col) (string : List Char8) :
    Shows w (string.foldl (Pen.put w a) p) (string.foldl (Sheet.put w.width a) s) ∧
      (string.foldl (Sheet.put w.width a) s).BlankFrom a
        (string.foldl (Sheet.put w.width a) s).col := by
  induction string generalizing p s with
  | nil => exact ⟨h, hblank⟩
  | cons ch string ih =>
      have hput := h.put hblank ch
      exact ih hput.1 hput.2

end Shows

/-! ## From `reset` on -/

namespace Window

variable {w : Window} {a : Attribute} {m : Cga}

/-- The loops of `reset` fill the window. -/
theorem cleared_cell (ch : Char8) (s : Screen) {x y : Int} (h : w.Inside x y) :
    forLoop w.fromCol (w.toCol + 1) (fun x s =>
      forLoop w.fromRow (w.toRow + 1) (fun y s => showChar s x y ch a) s) s (w.cell x y) =
      ⟨ch, a⟩ := by
  have hc := w.cols
  have hr := w.rows
  -- invariant: the columns to the left of `tmpX` are filled
  have hend := forLoop_induct (P := fun tmpX s' => ∀ u v, w.Inside u v → w.fromCol + u < tmpX →
      s' (w.cell u v) = ⟨ch, a⟩)
    (s := s) (fun x s => forLoop w.fromRow (w.toRow + 1) (fun y s => showChar s x y ch a) s)
    (show w.fromCol ≤ w.toCol + 1 by omega)
    (fun u v huv hlt => absurd huv.1 (by omega))
    (by
      intro tmpX s' hlo hhi hP
      obtain ⟨x, rfl⟩ : ∃ x, tmpX = w.fromCol + x := ⟨tmpX - w.fromCol, by omega⟩
      -- and in column `x` the rows above `tmpY`
      have hrow := forLoop_induct (P := fun tmpY s'' => ∀ u v, w.Inside u v →
          u < x ∨ u = x ∧ w.fromRow + v < tmpY → s'' (w.cell u v) = ⟨ch, a⟩)
        (s := s') (fun y s => showChar s (w.fromCol + x) y ch a)
        (show w.fromRow ≤ w.toRow + 1 by omega)
        (fun u v huv hlt => hP u v huv (by have := huv.2.2.1; omega))
        (by
          intro tmpY s'' hlo' hhi' hQ u v huv hlt
          obtain ⟨y, rfl⟩ : ∃ y, tmpY = w.fromRow + y := ⟨tmpY - w.fromRow, by omega⟩
          have hxy : w.Inside x y := by
            refine ⟨by omega, ?_, by omega, ?_⟩
            · unfold width
              omega
            · unfold height
              omega
          rw [showChar_cell hxy]
          by_cases hpos : w.cell u v = w.cell x y
          · rw [hpos, Function.update_self]
          · rw [Function.update_of_ne hpos]
            refine hQ u v huv ?_
            by_cases hv : u = x ∧ v = y
            · exact absurd (by rw [hv.1, hv.2]) hpos
            · omega)
      intro u v huv hlt
      have hv := huv.2.2.2
      unfold height at hv
      exact hrow u v huv (by omega))
  have hx := h.2.1
  unfold width at hx
  exact hend x y h (by omega)

theorem reset_screen (ch : Char8) {x y : Int} (h : w.Inside x y) :
    (w.reset m ch a).screen (w.cell x y) = ⟨ch, a⟩ := by
  simp only [reset, setpos_screen]
  exact cleared_cell ch m.screen h

theorem reset_cursor (ch : Char8) : w.cursor (w.reset m ch a) = (0, 0) := by
  cases hcur : w.useCursor with
  | false => simp only [reset, cursor, getpos, hcur, Bool.false_eq_true, if_false]
  | true =>
      have hset := cursor_setpos { m with screen := forLoop w.fromCol (w.toCol + 1) (fun x s =>
        forLoop w.fromRow (w.toRow + 1) (fun y s => showChar s x y ch a) s) m.screen }
        (inside_origin (w := w))
      simp only [cursor, getpos, hcur, if_true] at hset
      simp only [reset, cursor, getpos, hcur, if_true, hset]

theorem reset_shows : Shows w (w.pen (w.reset m blank a)) (Sheet.fresh a) := by
  have hcur := reset_cursor (w := w) (m := m) (a := a) blank
  have hx : (w.pen (w.reset m blank a)).x = 0 := congrArg Prod.fst hcur
  have hy : (w.pen (w.reset m blank a)).y = 0 := congrArg Prod.snd hcur
  have htop : (Sheet.fresh a).top w.height = 0 := by
    have hheight := height_pos (w := w)
    simp only [Sheet.fresh, Sheet.top]
    omega
  refine ⟨hx, ?_, ?_, fun x y hxy => reset_screen blank hxy⟩
  · rw [hy, htop]
    rfl
  · rw [hx, hy]
    exact inside_origin

/-- Calls with one attribute print the characters of all strings. -/
theorem printed_puts {s : Sheet} (strings : List (List Char8)) (h : Shows w (w.pen m) s)
    (hblank : s.BlankFrom a s.col) :
    Shows w (w.pen ((strings.map fun string => (⟨string, a⟩ : Call)).foldl w.printed m))
      (strings.flatten.foldl (Sheet.put w.width a) s) := by
  induction strings generalizing m s with
  | nil => exact h
  | cons string strings ih =>
      have hputs := h.puts hblank string
      -- the next call starts at the cursor that this one has left
      have hpen : w.pen (w.printed m ⟨string, a⟩) = string.foldl (Pen.put w a) (w.pen m) :=
        pen_finish m hputs.1.inside
      rw [List.flatten_cons, List.foldl_append]
      exact ih (hpen ▸ hputs.1) hputs.2

end Window

/-- A window that was cleared and printed to shows the end of the sheet on which all characters
are laid out, and its cursor is the position on the sheet. -/
theorem window_shows_sheet (w : Window) (a : Attribute) (m : Cga) (strings : List (List Char8)) :
    ∃ fuel m', w.prints fuel (w.reset m blank a) (strings.map fun string => ⟨string, a⟩) =
        some m' ∧
      (∀ x y, w.Inside x y → m'.screen (w.cell x y) =
        (Sheet.layout w.width a strings.flatten).cells x
          ((Sheet.layout w.width a strings.flatten).top w.height + y)) ∧
      w.cursor m' = ((Sheet.layout w.width a strings.flatten).col,
        (Sheet.layout w.width a strings.flatten).row -
          (Sheet.layout w.width a strings.flatten).top w.height) := by
  obtain ⟨fuel, hf⟩ := Window.exists_fuel (strings.map fun string => (⟨string, a⟩ : Call))
  have hreset : Shows w (w.pen (w.reset m blank a)) (Sheet.fresh a) := Window.reset_shows
  have hshows := Window.printed_puts strings hreset Sheet.blankFrom_fresh
  refine ⟨fuel, _, Window.prints_printed hf _, hshows.cells, ?_⟩
  exact Prod.ext hshows.col hshows.row

end MPStuBS.Machine
