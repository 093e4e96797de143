import MPStuBS.Machine.CgaSheet

/-!
# Tabulators

A tabulator in column `x` of a window takes `4 - x % 4` rounds, one for every cell up
to the next stop. The last of these rounds moves the cursor without showing a blank,
so the cell in front of the stop keeps its character. And the rounds are counted
whatever happens to the row: behind the last column the rest of them moves the cursor
into the next row.

The law is that the cursor goes to the next stop of the row, or to the start of the
next row, and that the cells it moves over are blank (`tab_law_iff`).
-/

set_option autoImplicit false

namespace MPStuBS.Machine

open MPStuBS.Lib.Loop

/-! ## Cells one after the other -/

section Cells

variable {width c d : Int}

theorem next_cell (hpos : 0 < width) (c : Int) :
    (c % width + 1) % width = (c + 1) % width ∧
      c / width + (c % width + 1) / width = (c + 1) / width := by
  have hc : c + 1 = c % width + 1 + width * (c / width) := by
    have hdiv := Int.emod_add_mul_ediv c width
    omega
  rw [hc, Int.add_mul_emod_self_left, Int.add_mul_ediv_left _ _ hpos.ne']
  exact ⟨rfl, Int.add_comm _ _⟩

theorem cell_unique (hcol : c % width = d % width) (hrow : c / width = d / width) : c = d := by
  rw [← Int.emod_add_mul_ediv c width, ← Int.emod_add_mul_ediv d width, hcol, hrow]

end Cells

namespace Sheet

variable {width height : Int} {a : Attribute} {s : Sheet}

/-- The next `n` cells are blanked. -/
def fill (width : Int) (a : Attribute) : Nat → Sheet → Sheet
  | 0, s => s
  | n + 1, s => fill width a n ((s.write ⟨blank, a⟩).advance width)

theorem fill_succ (n : Nat) :
    s.fill width a (n + 1) = ((s.fill width a n).write ⟨blank, a⟩).advance width := by
  induction n generalizing s with
  | zero => rfl
  | succ n ih => exact ih

theorem advance_cells : (s.advance width).cells = s.cells := by
  unfold Sheet.advance
  split <;> rfl

/-- A character at the position does not change where the position goes. -/
theorem advance_write (c : Cell) :
    ((s.write c).advance width).col = (s.advance width).col ∧
      ((s.write c).advance width).row = (s.advance width).row := by
  by_cases hlast : s.col = width - 1
  · have hlast' : (s.write c).col = width - 1 := hlast
    rw [Sheet.advance, Sheet.advance, if_pos hlast, if_pos hlast']
    exact ⟨rfl, rfl⟩
  · have hlast' : ¬ (s.write c).col = width - 1 := hlast
    rw [Sheet.advance, Sheet.advance, if_neg hlast, if_neg hlast']
    exact ⟨rfl, rfl⟩

/-- The position behind the last column is the start of the next row. -/
theorem advance_pos (hcol : 0 ≤ s.col) (hlt : s.col < width) :
    (s.advance width).col = (s.col + 1) % width ∧
      (s.advance width).row = s.row + (s.col + 1) / width := by
  unfold Sheet.advance
  split
  case isTrue hlast =>
    have hnext : s.col + 1 = width := by omega
    rw [hnext, Int.emod_self, Int.ediv_self (by omega)]
    exact ⟨rfl, rfl⟩
  case isFalse hlast =>
    have hnext : s.col + 1 < width := by omega
    rw [Int.emod_eq_of_lt (by omega) hnext, Int.ediv_eq_zero_of_lt (by omega) hnext, Int.add_zero]
    exact ⟨rfl, rfl⟩

theorem fill_pos (hcol : 0 ≤ s.col) (hlt : s.col < width) (n : Nat) :
    (s.fill width a n).col = (s.col + n) % width ∧
      (s.fill width a n).row = s.row + (s.col + n) / width := by
  have hpos : 0 < width := by omega
  induction n with
  | zero =>
      rw [Nat.cast_zero, Int.add_zero, Int.emod_eq_of_lt hcol hlt, Int.ediv_eq_zero_of_lt hcol hlt,
        Int.add_zero]
      exact ⟨rfl, rfl⟩
  | succ n ih =>
      obtain ⟨hcol', hrow'⟩ := ih
      obtain ⟨hmod, hdiv⟩ := next_cell hpos (s.col + n)
      have hge : 0 ≤ (s.fill width a n).col := hcol' ▸ Int.emod_nonneg _ hpos.ne'
      have hlt' : (s.fill width a n).col < width := hcol' ▸ Int.emod_lt_of_pos _ hpos
      obtain ⟨hc, hr⟩ :=
        advance_pos (s := (s.fill width a n).write ⟨blank, a⟩) hge hlt'
      have hcast : s.col + ((n + 1 : Nat) : Int) = s.col + n + 1 := by
        push_cast
        omega
      rw [fill_succ, hc, hr, hcast, ← hmod, ← hdiv]
      simp only [Sheet.write, hcol', hrow', Int.add_assoc, and_self]

/-- The cells passed are blank. -/
theorem fill_passed (hcol : 0 ≤ s.col) (hlt : s.col < width) {n j : Nat} (hj : j < n) :
    (s.fill width a n).cells ((s.col + j) % width) (s.row + (s.col + j) / width) = ⟨blank, a⟩ := by
  induction n with
  | zero => exact absurd hj (Nat.not_lt_zero j)
  | succ n ih =>
      obtain ⟨hcol', hrow'⟩ := fill_pos (a := a) hcol hlt n
      rw [fill_succ, advance_cells]
      simp only [Sheet.write]
      split
      · rfl
      · rename_i hother
        apply ih
        -- the last cell is the one written just now
        by_contra hnot
        obtain rfl : j = n := by omega
        exact hother ⟨hcol'.symm, hrow'.symm⟩

/-- The others keep their characters. -/
theorem fill_kept (hcol : 0 ≤ s.col) (hlt : s.col < width) {n : Nat} {u v : Int}
    (hkept : ∀ j < n, ¬ (u = (s.col + (j : Nat)) % width ∧ v = s.row + (s.col + j) / width)) :
    (s.fill width a n).cells u v = s.cells u v := by
  induction n with
  | zero => rfl
  | succ n ih =>
      obtain ⟨hcol', hrow'⟩ := fill_pos (a := a) hcol hlt n
      rw [fill_succ, advance_cells]
      simp only [Sheet.write, hcol', hrow', if_neg (hkept n (Nat.lt_succ_self n))]
      apply ih
      intro j hj
      exact hkept j (Nat.lt_succ_of_lt hj)

theorem BlankBelow.write_blank (h : s.BlankBelow a height) :
    (s.write ⟨blank, a⟩).BlankBelow a height := by
  intro u v hv
  simp only [Sheet.write]
  split
  · rfl
  · exact h u v hv

theorem BlankBelow.advance (h : s.BlankBelow a height) : (s.advance width).BlankBelow a height := by
  intro u v hv
  rw [advance_cells]
  apply h u v
  have hrow : s.row ≤ (s.advance width).row := by
    unfold Sheet.advance
    split
    · exact Int.le_of_lt (Int.lt_succ s.row)
    · exact Int.le_refl s.row
  simp only [Sheet.top] at hv ⊢
  omega

end Sheet

theorem Shows.fill {w : Window} {a : Attribute} (n : Nat) : ∀ {p : Pen} {s : Sheet}, Shows w p s →
    s.BlankBelow a w.height → Shows w (p.blanks w a n) (s.fill w.width a n) ∧
      (s.fill w.width a n).BlankBelow a w.height := by
  induction n with
  | zero =>
      intro p s h hblank
      exact ⟨h, hblank⟩
  | succ n ih =>
      intro p s h hblank
      have hwrite := hblank.write_blank
      exact ih ((h.write blank).advance hwrite) hwrite.advance

namespace Window

variable (w : Window)

/-! ## The law -/

/-- The number of cells from column `x` to the next stop. -/
def toStop (x : Int) : Nat := (4 - x % 4).toNat

/-- The next stop of the row, or the start of the next row. The last row moves up and leaves its
place to the next one. -/
def nextStop (x y : Int) : Int × Int :=
  if x + toStop x < w.width then (x + toStop x, y) else (0, min (y + 1) (w.height - 1))

/-- The cell that is `n` cells behind the cursor, by column and row. Rows below the window count
on. -/
def passed (m : Cga) (n : Nat) : Int × Int :=
  (((w.cursor m).1 + n) % w.width, (w.cursor m).2 + ((w.cursor m).1 + n) / w.width)

/-- The number of rows that have scrolled off when the cursor gets to the stop. -/
def scrolled (m : Cga) : Int :=
  max 0 ((w.passed m (toStop (w.cursor m).1)).2 + 1 - w.height)

/-- What a tabulator should do: the cursor goes to the next stop, and the cells that it moves over
are blank where they can still be seen. -/
structure TabLaw (a : Attribute) (m m' : Cga) : Prop where
  cursor : w.cursor m' = w.nextStop (w.cursor m).1 (w.cursor m).2
  blanks : ∀ n < toStop (w.cursor m).1, w.scrolled m ≤ (w.passed m n).2 →
    m'.screen (w.cell (w.passed m n).1 ((w.passed m n).2 - w.scrolled m)) = ⟨blank, a⟩

/-- `print("\t", 1, a)` obeys the law. -/
def ObeysTabLaw (a : Attribute) (m : Cga) : Prop :=
  ∃ m', Returns (fun fuel => print fuel w m [tabulator] a) m' ∧ w.TabLaw a m m'

theorem toStop_eq (x : Int) : (toStop x : Int) = 4 - x % 4 ∧ 1 ≤ toStop x ∧ toStop x ≤ 4 := by
  have hlt := Int.emod_lt_of_pos x (b := 4) (by decide)
  have hge := Int.emod_nonneg x (b := 4) (by decide)
  unfold toStop
  omega

/-- The cursor always goes to a multiple of 4. -/
theorem nextStop_stop (x y : Int) : 4 ∣ (w.nextStop x y).1 := by
  obtain ⟨hstop, -⟩ := toStop_eq x
  unfold nextStop
  split
  · show 4 ∣ x + (toStop x : Int)
    omega
  · exact Int.dvd_zero 4

variable {w} {a : Attribute} {m : Cga}

/-! ## What print does -/

/-- The window as the first rows of a sheet. -/
def sheetOf (w : Window) (a : Attribute) (m : Cga) : Sheet where
  cells u v := if v < w.height then m.screen (w.cell u v) else ⟨blank, a⟩
  col := (w.cursor m).1
  row := (w.cursor m).2

theorem sheetOf_top (hm : w.CursorIn m) : (w.sheetOf a m).top w.height = 0 := by
  have hlt := hm.2.2.2
  simp only [Sheet.top, sheetOf]
  omega

theorem sheetOf_shows (hm : w.CursorIn m) : Shows w (w.pen m) (w.sheetOf a m) where
  col := rfl
  row := by
    rw [sheetOf_top hm, Int.sub_zero]
    rfl
  inside := hm
  cells x y hxy := by
    rw [sheetOf_top hm, Int.zero_add]
    simp only [sheetOf, if_pos hxy.2.2.2]
    rfl

theorem sheetOf_blankBelow (hm : w.CursorIn m) : (w.sheetOf a m).BlankBelow a w.height := by
  intro u v hv
  rw [sheetOf_top hm, Int.zero_add] at hv
  simp only [sheetOf, if_neg (Int.not_lt.2 hv)]

/-- The sheet after the tabulator: all cells but the last one are blanked. -/
def tabbed (w : Window) (a : Attribute) (m : Cga) : Sheet :=
  ((w.sheetOf a m).fill w.width a (toStop (w.cursor m).1 - 1)).advance w.width

theorem tabbed_shows (hm : w.CursorIn m) :
    Shows w (w.pen (w.printed m ⟨[tabulator], a⟩)) (w.tabbed a m) := by
  obtain ⟨hstop, hone, -⟩ := toStop_eq (w.cursor m).1
  have hx : (w.pen m).x = (w.cursor m).1 := rfl
  have hrounds : (3 - (w.pen m).x.tmod 4).toNat = toStop (w.cursor m).1 - 1 := by
    rw [hx, Int.tmod_eq_emod_of_nonneg hm.1]
    omega
  obtain ⟨hfill, hblank⟩ := (sheetOf_shows (a := a) hm).fill (toStop (w.cursor m).1 - 1)
    (sheetOf_blankBelow hm)
  have htab : Shows w ((w.pen m).tab w a) (w.tabbed a m) := by
    rw [Pen.tab, hrounds]
    exact hfill.advance hblank
  have hpen : w.pen (w.printed m ⟨[tabulator], a⟩) = (w.pen m).tab w a :=
    pen_finish m htab.inside
  rw [hpen]
  exact htab

/-- It stands at the stop. -/
theorem tabbed_pos (hm : w.CursorIn m) :
    (w.tabbed a m).col = (w.passed m (toStop (w.cursor m).1)).1 ∧
      (w.tabbed a m).row = (w.passed m (toStop (w.cursor m).1)).2 := by
  obtain ⟨-, hone, -⟩ := toStop_eq (w.cursor m).1
  have hcount : toStop (w.cursor m).1 - 1 + 1 = toStop (w.cursor m).1 := Nat.sub_add_cancel hone
  obtain ⟨hcol, hrow⟩ := Sheet.fill_pos (s := w.sheetOf a m) (a := a) hm.1 hm.2.1
    (toStop (w.cursor m).1 - 1 + 1)
  rw [Sheet.fill_succ, (Sheet.advance_write _).1, hcount] at hcol
  rw [Sheet.fill_succ, (Sheet.advance_write _).2, hcount] at hrow
  exact ⟨hcol, hrow⟩

theorem tabbed_top (hm : w.CursorIn m) : (w.tabbed a m).top w.height = w.scrolled m := by
  rw [Sheet.top, (tabbed_pos hm).2]
  rfl

/-- All cells passed are blank, except for the last one. -/
theorem tabbed_passed (hm : w.CursorIn m) {n : Nat} (hn : n < toStop (w.cursor m).1 - 1) :
    (w.tabbed a m).cells (w.passed m n).1 (w.passed m n).2 = ⟨blank, a⟩ := by
  unfold tabbed
  rw [Sheet.advance_cells]
  exact Sheet.fill_passed (s := w.sheetOf a m) hm.1 hm.2.1 hn

/-- The last cell passed keeps its character. -/
theorem tabbed_last (hm : w.CursorIn m) :
    (w.tabbed a m).cells (w.passed m (toStop (w.cursor m).1 - 1)).1
        (w.passed m (toStop (w.cursor m).1 - 1)).2 =
      (w.sheetOf a m).cells (w.passed m (toStop (w.cursor m).1 - 1)).1
        (w.passed m (toStop (w.cursor m).1 - 1)).2 := by
  unfold tabbed
  rw [Sheet.advance_cells]
  apply Sheet.fill_kept (s := w.sheetOf a m) hm.1 hm.2.1
  rintro j hj ⟨hcol, hrow⟩
  -- no cell is passed twice
  have hdiv := Int.add_left_cancel hrow
  have hsame : (w.cursor m).1 + ((toStop (w.cursor m).1 - 1 : Nat) : Int) = (w.cursor m).1 + j :=
    cell_unique hcol hdiv
  omega

/-- A cell passed that has not scrolled off is seen in the window. -/
theorem passed_seen (hm : w.CursorIn m) {n : Nat} (hn : n < toStop (w.cursor m).1)
    (hseen : w.scrolled m ≤ (w.passed m n).2) :
    (w.printed m ⟨[tabulator], a⟩).screen
        (w.cell (w.passed m n).1 ((w.passed m n).2 - w.scrolled m)) =
      (w.tabbed a m).cells (w.passed m n).1 (w.passed m n).2 := by
  have hshows := tabbed_shows (a := a) hm
  have hlast := hshows.inside.2.2.2
  rw [hshows.row, tabbed_top hm, (tabbed_pos hm).2] at hlast
  have hle : (w.passed m n).2 ≤ (w.passed m (toStop (w.cursor m).1)).2 :=
    Int.add_le_add_left (Int.ediv_le_ediv width_pos (by omega)) _
  have hinside : w.Inside (w.passed m n).1 ((w.passed m n).2 - w.scrolled m) :=
    ⟨Int.emod_nonneg _ width_pos.ne', Int.emod_lt_of_pos _ width_pos, by omega, by omega⟩
  have hcell := hshows.cells _ _ hinside
  rw [tabbed_top hm, add_sub_cancel] at hcell
  exact hcell

/-! ## When the law holds -/

/-- The rounds end at the stop of the row or at the start of the next row. -/
theorem reaches_stop_iff {x y width height : Int} (hx : 0 ≤ x) (hlt : x < width)
    (hrow : y < height) :
    ((x + (4 - x % 4)) % width, y + (x + (4 - x % 4)) / width -
        max 0 (y + (x + (4 - x % 4)) / width + 1 - height)) =
      (if x + (4 - x % 4) < width then (x + (4 - x % 4), y)
        else ((0 : Int), min (y + 1) (height - 1))) ↔
      x + (4 - x % 4) ≤ width ∨ width ≤ 2 ∧ height ≤ y + 2 := by
  obtain ⟨n, hn⟩ : ∃ n, n = x + (4 - x % 4) := ⟨_, rfl⟩
  rw [← hn]
  rcases Int.lt_trichotomy n width with hfits | hfits | hover
  · rw [Int.emod_eq_of_lt (by omega) hfits, Int.ediv_eq_zero_of_lt (by omega) hfits, if_pos hfits,
      Prod.mk.injEq]
    omega
  · rw [hfits, Int.emod_self, Int.ediv_self (by omega), if_neg (Int.lt_irrefl width), Prod.mk.injEq]
    omega
  · rw [if_neg (by omega), Prod.mk.injEq]
    by_cases hwide : 4 ≤ width
    · -- behind the last column one to three cells are left, which fit into the next row
      have hmod : n % width = n - width := by
        rw [← Int.sub_emod_right, Int.emod_eq_of_lt (by omega) (by omega)]
      rw [hmod]
      omega
    · have hfour : n = 4 := by omega
      obtain rfl | rfl | rfl : width = 1 ∨ width = 2 ∨ width = 3 := by omega
      all_goals
        rw [hfour]
        omega

theorem cursor_obeys_iff (hm : w.CursorIn m) :
    w.cursor (w.printed m ⟨[tabulator], a⟩) = w.nextStop (w.cursor m).1 (w.cursor m).2 ↔
      (w.cursor m).1 + (4 - (w.cursor m).1 % 4) ≤ w.width ∨
        w.width ≤ 2 ∧ w.height ≤ (w.cursor m).2 + 2 := by
  have hshows := tabbed_shows (a := a) hm
  obtain ⟨hcol, hrow⟩ := tabbed_pos (a := a) hm
  have hcursor : w.cursor (w.printed m ⟨[tabulator], a⟩) =
      ((w.tabbed a m).col, (w.tabbed a m).row - (w.tabbed a m).top w.height) :=
    Prod.ext hshows.col hshows.row
  rw [hcursor, Sheet.top, hcol, hrow, passed, nextStop, (toStop_eq _).1]
  exact reaches_stop_iff hm.1 hm.2.1 hm.2.2.2

/-- The cells passed are blank exactly if the last one is: it is below the window and gets cleared,
or it scrolls off, or it was blank before. -/
theorem blanks_obeyed_iff (hm : w.CursorIn m) :
    (∀ n < toStop (w.cursor m).1, w.scrolled m ≤ (w.passed m n).2 →
      (w.printed m ⟨[tabulator], a⟩).screen
        (w.cell (w.passed m n).1 ((w.passed m n).2 - w.scrolled m)) = ⟨blank, a⟩) ↔
      w.height ≤ (w.passed m (toStop (w.cursor m).1 - 1)).2 ∨
        (w.passed m (toStop (w.cursor m).1 - 1)).2 < w.scrolled m ∨
        m.screen (w.cell (w.passed m (toStop (w.cursor m).1 - 1)).1
          (w.passed m (toStop (w.cursor m).1 - 1)).2) = ⟨blank, a⟩ := by
  obtain ⟨-, hone, -⟩ := toStop_eq (w.cursor m).1
  have hlt : toStop (w.cursor m).1 - 1 < toStop (w.cursor m).1 := Nat.sub_lt hone Nat.one_pos
  constructor
  · intro h
    by_contra hnot
    obtain ⟨hbelow, hnot⟩ := not_or.1 hnot
    obtain ⟨hoff, hcell⟩ := not_or.1 hnot
    have hseen := h _ hlt (Int.not_lt.1 hoff)
    rw [passed_seen hm hlt (Int.not_lt.1 hoff), tabbed_last hm] at hseen
    simp only [sheetOf, if_pos (Int.not_le.1 hbelow)] at hseen
    exact hcell hseen
  · intro h n hn hseen
    rw [passed_seen hm hn hseen]
    by_cases hlast : n < toStop (w.cursor m).1 - 1
    · exact tabbed_passed hm hlast
    · obtain rfl : n = toStop (w.cursor m).1 - 1 := by omega
      rw [tabbed_last hm]
      simp only [sheetOf]
      split
      · rename_i hrow
        rcases h with hbelow | hoff | hcell
        · exact absurd hrow (Int.not_lt.2 hbelow)
        · exact absurd hseen (Int.not_le.2 hoff)
        · exact hcell
      · rfl

theorem print_tab (m : Cga) :
    Returns (fun fuel => print fuel w m [tabulator] a) (w.printed m ⟨[tabulator], a⟩) :=
  ⟨8, fun _ hfuel => print_printed (c := ⟨[tabulator], a⟩) m hfuel⟩

theorem obeysTabLaw_iff : w.ObeysTabLaw a m ↔ w.TabLaw a m (w.printed m ⟨[tabulator], a⟩) := by
  constructor
  · rintro ⟨m', hprint, hlaw⟩
    obtain rfl := hprint.unique (print_tab m)
    exact hlaw
  · intro hlaw
    exact ⟨_, print_tab m, hlaw⟩

/-- A tabulator obeys the law exactly if the stop is in this row or right behind it, and the last
cell passed was blank before, gets cleared with a new row, or scrolls off. In the last two rows of a
window of one or two columns the cursor ends at the start of the last row as well. -/
theorem tab_law_iff (w : Window) (a : Attribute) (m : Cga) (hm : w.CursorIn m) :
    w.ObeysTabLaw a m ↔
      ((w.cursor m).1 + (4 - (w.cursor m).1 % 4) ≤ w.width ∨
        w.width ≤ 2 ∧ w.height ≤ (w.cursor m).2 + 2) ∧
      (w.height ≤ (w.passed m (toStop (w.cursor m).1 - 1)).2 ∨
        (w.passed m (toStop (w.cursor m).1 - 1)).2 < w.scrolled m ∨
        m.screen (w.cell (w.passed m (toStop (w.cursor m).1 - 1)).1
          (w.passed m (toStop (w.cursor m).1 - 1)).2) = ⟨blank, a⟩) := by
  rw [obeysTabLaw_iff, ← cursor_obeys_iff (a := a) hm, ← blanks_obeyed_iff hm]
  constructor
  · intro h
    exact ⟨h.cursor, h.blanks⟩
  · rintro ⟨hcursor, hblanks⟩
    exact ⟨hcursor, hblanks⟩

/-- The window of `dout_CPU0`. -/
def doutCpu0 : Window := ⟨0, 38, 17, 20, false, by decide, by decide⟩

/-- A blank screen with the cursor in this column of the first row. -/
def blankAt (x : Int) : Cga := ⟨fun _ => ⟨blank, 7, 0, 0⟩, ⟨0, fun _ => 0⟩, x, 0⟩

/-- From column 3 of a blank row the cursor goes to column 4. -/
theorem tab_law_blank :
    doutCpu0.CursorIn (blankAt 3) ∧ doutCpu0.ObeysTabLaw ⟨7, 0, 0⟩ (blankAt 3) := by
  have hin : doutCpu0.CursorIn (blankAt 3) := by decide
  exact ⟨hin, (tab_law_iff doutCpu0 ⟨7, 0, 0⟩ (blankAt 3) hin).2 (by decide)⟩

/-- In column 36 of 39 the cursor goes to column 1 of the next row. -/
theorem tab_law_column36 : ¬ ∀ (w : Window) (a : Attribute) (m : Cga), w.CursorIn m →
    w.ObeysTabLaw a m := by
  intro h
  have hin : doutCpu0.CursorIn (blankAt 36) := by decide
  have hlaw := obeysTabLaw_iff.1 (h doutCpu0 ⟨7, 0, 0⟩ (blankAt 36) hin)
  have hfits := (cursor_obeys_iff hin).1 hlaw.cursor
  revert hfits
  decide

end Window

end MPStuBS.Machine
