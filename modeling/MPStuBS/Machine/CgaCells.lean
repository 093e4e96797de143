import MPStuBS.Machine.CgaPrint
import Mathlib.Data.Set.Function
import Mathlib.Tactic.IntervalCases

/-!
# The cells of a window

A cell of a window is addressed by its column and row in the window (`cell`), and
`area` is the set of all of them. With its cursor inside, `show` writes one of these
cells, and `scroll` moves them up by one row (`showChar_cell`, `scroll_cell`).

An operation on the pen is `Local` to a window when it keeps the position inside,
changes only cells of the window, and depends on no others. `put` is local
(`Local.put`), and so is a whole string. The position is the cursor before and after
`print` (`print_finish`): `getpos` reads what `setpos` has set (`cursor_setpos`).
-/

set_option autoImplicit false

namespace MPStuBS.Machine

open MPStuBS.Lib.Loop

namespace Window

variable (w : Window)

/-- The cell in column `x` and row `y` of the window. -/
def cell (x y : Int) : Int := w.fromCol + x + (w.fromRow + y) * 80

/-- The columns and rows of the window. -/
def Inside (x y : Int) : Prop := 0 ≤ x ∧ x < w.width ∧ 0 ≤ y ∧ y < w.height

instance (x y : Int) : Decidable (w.Inside x y) := inferInstanceAs (Decidable (_ ∧ _ ∧ _ ∧ _))

/-- The cells of the window. -/
def area : Set Int := { k | ∃ x y, w.Inside x y ∧ k = w.cell x y }

variable {w}

theorem width_pos : 0 < w.width := by
  have h := w.cols
  unfold width
  omega

theorem height_pos : 0 < w.height := by
  have h := w.rows
  unfold height
  omega

theorem inside_origin : w.Inside 0 0 := ⟨Int.le_refl 0, width_pos, Int.le_refl 0, height_pos⟩

theorem Inside.bounds {x y : Int} (h : w.Inside x y) :
    0 ≤ w.fromCol + x ∧ w.fromCol + x ≤ 79 ∧ 0 ≤ w.fromRow + y ∧ w.fromRow + y ≤ 24 := by
  have hc := w.cols
  have hr := w.rows
  simp only [Inside, width, height] at h
  omega

theorem cell_mem {x y : Int} (h : w.Inside x y) : w.cell x y ∈ w.area := ⟨x, y, h, rfl⟩

theorem cell_inj {x y u v : Int} (h : w.Inside x y) (h' : w.Inside u v)
    (heq : w.cell x y = w.cell u v) : x = u ∧ y = v := by
  have hb := h.bounds
  have hb' := h'.bounds
  unfold cell at heq
  omega

/-- Inside of the window, `show` writes the cell. -/
theorem showChar_cell {x y : Int} (h : w.Inside x y) (s : Screen) (ch : Char8) (a : Attribute) :
    showChar s (w.fromCol + x) (w.fromRow + y) ch a =
      Function.update s (w.cell x y) ⟨ch, a⟩ := by
  have hb := h.bounds
  have hx : ¬ w.fromCol + x < 0 := by omega
  have hy : ¬ w.fromRow + y < 0 := by omega
  have hin : ¬ (w.fromCol + x < 0 ∨ w.fromCol + x > 79 ∨
      w.fromRow + y < 0 ∨ w.fromRow + y > 24) := by omega
  simp only [showChar, if_neg hx, if_neg hy, if_neg hin]
  rfl

/-- One round of the outer loop of `scroll`: row `r` gets the row below it. -/
theorem moveRow (s : Screen) {r : Int} (hr : 0 ≤ r) (hlast : r < w.height - 1) :
    (∀ k, (∀ x, w.Inside x r → w.cell x r ≠ k) →
      forLoop w.fromCol (w.toCol + 1) (fun tmpX s =>
        Function.update s (tmpX + (w.fromRow + r) * 80)
          (s (tmpX + (w.fromRow + r + 1) * 80))) s k = s k) ∧
    (∀ x, w.Inside x r →
      forLoop w.fromCol (w.toCol + 1) (fun tmpX s =>
        Function.update s (tmpX + (w.fromRow + r) * 80)
          (s (tmpX + (w.fromRow + r + 1) * 80))) s (w.cell x r) = s (w.cell x (r + 1))) := by
  have hc := w.cols
  have hle : w.fromCol ≤ w.toCol + 1 := by omega
  -- the row that is read is not the row that is written
  have hcopy := forLoop_update (s := s) (fun tmpX => tmpX + (w.fromRow + r) * 80)
    (fun tmpX s => s (tmpX + (w.fromRow + r + 1) * 80)) hle
    (fun v v' _ _ _ _ h => by simpa using h)
    (fun v s' hlo hhi h => h _ (fun v' hlo' hhi' => by omega))
  refine ⟨fun k hk => hcopy.1 k (fun v hlo hhi h => ?_), fun x hx => ?_⟩
  · refine hk (v - w.fromCol) ⟨by omega, by unfold width; omega, hr, by omega⟩ ?_
    unfold cell
    omega
  · have hwidth := hx.2.1
    unfold width at hwidth
    have hval := hcopy.2 (w.fromCol + x) (by have := hx.1; omega) (by omega)
    simp only [cell]
    rw [hval]
    congr 1
    omega

/-- The screen after the outer loop of `scroll`. -/
def movedUp (w : Window) (s : Screen) : Screen :=
  forLoop w.fromRow w.toRow (fun tmpY s =>
    forLoop w.fromCol (w.toCol + 1) (fun tmpX s =>
      Function.update s (tmpX + tmpY * 80) (s (tmpX + (tmpY + 1) * 80))) s) s

/-- The outer loop of `scroll`: every row but the last gets the row below it. -/
theorem moveRows (s : Screen) :
    (∀ k, k ∉ w.area → w.movedUp s k = s k) ∧
    (∀ x y, w.Inside x y →
      w.movedUp s (w.cell x y) = s (w.cell x (if y < w.height - 1 then y + 1 else y))) := by
  have hr := w.rows
  -- invariant: the rows above `tmpY` have their lower neighbours, the others are unchanged
  have hend := forLoop_induct (P := fun tmpY s' => (∀ k, k ∉ w.area → s' k = s k) ∧
      (∀ x y, w.Inside x y →
        s' (w.cell x y) = s (w.cell x (if y < tmpY - w.fromRow then y + 1 else y))))
    (fun tmpY s => forLoop w.fromCol (w.toCol + 1) (fun tmpX s =>
      Function.update s (tmpX + tmpY * 80) (s (tmpX + (tmpY + 1) * 80))) s) hr.2.1
    ⟨fun k _ => rfl, fun x y h => by rw [if_neg (by have := h.2.2.1; omega)]⟩
    (by
      intro tmpY s' hlo hhi hP
      obtain ⟨r, rfl⟩ : ∃ r, tmpY = w.fromRow + r := ⟨tmpY - w.fromRow, by omega⟩
      have hr0 : 0 ≤ r := by omega
      have hlast : r < w.height - 1 := by unfold height; omega
      have hrow := moveRow (w := w) s' hr0 hlast
      refine ⟨fun k hk => ?_, fun x y hxy => ?_⟩
      · rw [hrow.1 k (fun x hx h => hk (h ▸ cell_mem hx))]
        exact hP.1 k hk
      -- the row that is written in this round gets a row that no round has written yet
      · by_cases hy : y = r
        · subst hy
          have hbelow : w.Inside x (y + 1) := ⟨hxy.1, hxy.2.1, by omega, by omega⟩
          rw [hrow.2 x hxy, hP.2 x (y + 1) hbelow, if_neg (by omega), if_pos (by omega)]
        · rw [hrow.1 _ (fun u hu h => hy (cell_inj hu hxy h).2.symm), hP.2 x y hxy]
          congr 2
          by_cases hyr : y < r
          · rw [if_pos (by omega), if_pos (by omega)]
          · rw [if_neg (by omega), if_neg (by omega)])
  have hbound : w.toRow - w.fromRow = w.height - 1 := by unfold height; omega
  refine ⟨hend.1, fun x y hxy => (hend.2 x y hxy).trans ?_⟩
  rw [hbound]

/-- Row `y` filled with blanks. -/
theorem clearRow (s : Screen) (a : Attribute) {y : Int} (hy : 0 ≤ y ∧ y < w.height) :
    (∀ k, (∀ x, w.Inside x y → w.cell x y ≠ k) →
      forLoop 0 w.width (fun c s => showChar s (w.fromCol + c) (w.fromRow + y) blank a) s k =
        s k) ∧
    (∀ x, w.Inside x y →
      forLoop 0 w.width (fun c s => showChar s (w.fromCol + c) (w.fromRow + y) blank a) s
        (w.cell x y) = ⟨blank, a⟩) := by
  have hwidth := width_pos (w := w)
  -- invariant: the columns below `c` are blank
  have hend := forLoop_induct (P := fun c s' =>
      (∀ k, (∀ x, w.Inside x y → w.cell x y ≠ k) → s' k = s k) ∧
      (∀ x, w.Inside x y → x < c → s' (w.cell x y) = ⟨blank, a⟩))
    (fun c s => showChar s (w.fromCol + c) (w.fromRow + y) blank a) (Int.le_of_lt hwidth)
    ⟨fun k _ => rfl, fun x h hx => absurd h.1 (by omega)⟩
    (by
      intro c s' hlo hhi hP
      have hc : w.Inside c y := ⟨hlo, hhi, hy.1, hy.2⟩
      rw [showChar_cell hc]
      refine ⟨fun k hk => ?_, fun x hx hxc => ?_⟩
      · rw [Function.update_of_ne (hk c hc).symm]
        exact hP.1 k hk
      · by_cases hxc' : x = c
        · rw [hxc', Function.update_self]
        · rw [Function.update_of_ne (fun h => hxc' (cell_inj hx hc h).1)]
          exact hP.2 x hx (by omega))
  exact ⟨hend.1, fun x hx => hend.2 x hx hx.2.1⟩

/-- `scroll` touches no cell outside of the window. -/
theorem scroll_frame (s : Screen) (a : Attribute) {k : Int} (hk : k ∉ w.area) :
    w.scroll a (w.height - 1) s k = s k := by
  have hheight := height_pos (w := w)
  have hclear := (clearRow (w := w) (w.movedUp s) a (y := w.height - 1)
    ⟨by omega, by omega⟩).1 k (fun x hx h => hk (h ▸ cell_mem hx))
  exact hclear.trans ((moveRows s).1 k hk)

/-- `scroll` moves the rows up by one and clears the last one. -/
theorem scroll_cell (s : Screen) (a : Attribute) {x y : Int} (h : w.Inside x y) :
    w.scroll a (w.height - 1) s (w.cell x y) =
      if y = w.height - 1 then ⟨blank, a⟩ else s (w.cell x (y + 1)) := by
  have hheight := height_pos (w := w)
  have hclear := clearRow (w := w) (w.movedUp s) a (y := w.height - 1) ⟨by omega, by omega⟩
  by_cases hy : y = w.height - 1
  · rw [if_pos hy]
    subst hy
    exact hclear.2 x h
  · rw [if_neg hy]
    refine (hclear.1 _ (fun u hu heq => hy (cell_inj hu h heq).2.symm)).trans ?_
    rw [(moveRows s).2 x y h, if_pos (by have := h.2.2.2; omega)]

end Window

/-! ## Operations on a window -/

/-- An operation on the pen that works on the window `w` alone. -/
structure Local (w : Window) (f : Pen → Pen) : Prop where
  inside {p : Pen} : w.Inside p.x p.y → w.Inside (f p).x (f p).y
  frame {p : Pen} : w.Inside p.x p.y → Set.EqOn (f p).screen p.screen w.areaᶜ
  moves {p q : Pen} : w.Inside p.x p.y → p.x = q.x → p.y = q.y →
    (f p).x = (f q).x ∧ (f p).y = (f q).y
  reads {p q : Pen} : w.Inside p.x p.y → p.x = q.x → p.y = q.y →
    Set.EqOn p.screen q.screen w.area → Set.EqOn (f p).screen (f q).screen w.area

namespace Local

open Window

variable {w : Window} {a : Attribute} {f g : Pen → Pen}

protected theorem id : Local w (fun p => p) where
  inside h := h
  frame _ _ _ := rfl
  moves _ hx hy := ⟨hx, hy⟩
  reads _ _ _ h := h

protected theorem comp (hg : Local w g) (hf : Local w f) : Local w (fun p => g (f p)) where
  inside h := hg.inside (hf.inside h)
  frame h := (hg.frame (hf.inside h)).trans (hf.frame h)
  moves h hx hy := hg.moves (hf.inside h) (hf.moves h hx hy).1 (hf.moves h hx hy).2
  reads h hx hy hs :=
    hg.reads (hf.inside h) (hf.moves h hx hy).1 (hf.moves h hx hy).2 (hf.reads h hx hy hs)

/-- What is done may depend on the position. -/
theorem of_position
    (h : ∀ x y, w.Inside x y → ∃ g, Local w g ∧ ∀ p : Pen, p.x = x → p.y = y → f p = g p) :
    Local w f where
  inside {p} hp := by
    obtain ⟨g, hg, heq⟩ := h p.x p.y hp
    rw [heq p rfl rfl]
    exact hg.inside hp
  frame {p} hp := by
    obtain ⟨g, hg, heq⟩ := h p.x p.y hp
    rw [heq p rfl rfl]
    exact hg.frame hp
  moves {p q} hp hx hy := by
    obtain ⟨g, hg, heq⟩ := h p.x p.y hp
    rw [heq p rfl rfl, heq q hx.symm hy.symm]
    exact hg.moves hp hx hy
  reads {p q} hp hx hy hs := by
    obtain ⟨g, hg, heq⟩ := h p.x p.y hp
    rw [heq p rfl rfl, heq q hx.symm hy.symm]
    exact hg.reads hp hx hy hs

theorem moveTo {x y : Int} (h : w.Inside x y) : Local w (fun p => { p with x := x, y := y }) where
  inside _ := h
  frame _ _ _ := rfl
  moves _ _ _ := ⟨rfl, rfl⟩
  reads _ _ _ hs := hs

theorem write (ch : Char8) : Local w (Pen.write w a ch) where
  inside h := h
  frame {p} h k hk := by
    simp only [Pen.write, showChar_cell h]
    have hne : k ≠ w.cell p.x p.y := by
      rintro rfl
      exact hk (cell_mem h)
    exact Function.update_of_ne hne _ _
  moves _ hx hy := ⟨hx, hy⟩
  reads {p q} h hx hy hs k hk := by
    simp only [Pen.write, ← hx, ← hy, showChar_cell h]
    by_cases hcell : k = w.cell p.x p.y
    · rw [hcell, Function.update_self, Function.update_self]
    · rw [Function.update_of_ne hcell, Function.update_of_ne hcell]
      exact hs hk

theorem scroll : Local w (fun p => { p with screen := w.scroll a (w.height - 1) p.screen }) where
  inside h := h
  frame _ _ hk := scroll_frame _ a hk
  moves _ hx hy := ⟨hx, hy⟩
  reads {p q} _ _ _ hs k hk := by
    obtain ⟨u, v, huv, rfl⟩ := hk
    simp only [scroll_cell _ a huv]
    by_cases hv : v = w.height - 1
    · rw [if_pos hv, if_pos hv]
    · rw [if_neg hv, if_neg hv]
      have hlt := huv.2.2.2
      exact hs (cell_mem ⟨huv.1, huv.2.1, by have := huv.2.2.1; omega, by omega⟩)

theorem lineBreak : Local w (Pen.lineBreak w a) := by
  refine of_position fun x y h => ?_
  by_cases hy : y = w.height - 1
  · refine ⟨_, (moveTo ⟨Int.le_refl 0, width_pos, h.2.2.1, h.2.2.2⟩).comp (scroll (a := a)), ?_⟩
    intro p _ hp
    subst hp
    simp only [Pen.lineBreak, if_pos hy]
    rw [← hy]
  -- above the last row the position just moves down
  · have hnext : w.Inside 0 (y + 1) :=
      ⟨Int.le_refl 0, width_pos, by have := h.2.2.1; omega, by have := h.2.2.2; omega⟩
    refine ⟨_, moveTo hnext, ?_⟩
    intro p _ hp
    subst hp
    simp only [Pen.lineBreak, if_neg hy]

theorem advance : Local w (Pen.advance w a) := by
  refine of_position fun x y h => ?_
  by_cases hx : x = w.width - 1
  · refine ⟨_, lineBreak (a := a), fun p hp _ => ?_⟩
    rw [Pen.advance, hp, if_pos hx]
  · have hnext : w.Inside (x + 1) y :=
      ⟨by have := h.1; omega, by have := h.2.1; omega, h.2.2.1, h.2.2.2⟩
    refine ⟨_, moveTo hnext, fun p hp hp' => ?_⟩
    subst hp hp'
    rw [Pen.advance, if_neg hx]

theorem blanks (n : Nat) : Local w (Pen.blanks w a n) := by
  induction n with
  | zero => exact Local.id
  | succ n ih => exact ih.comp (advance.comp (write blank))

theorem back : Local w Pen.back := by
  refine of_position fun x y h => ?_
  have hprev : w.Inside (if x > 0 then x - 1 else x) y := by
    have h0 := h.1
    have hlt := h.2.1
    refine ⟨?_, ?_, h.2.2⟩
    · split <;> omega
    · split <;> omega
  refine ⟨_, moveTo hprev, fun p hp hp' => ?_⟩
  subst hp hp'
  rfl

theorem tab : Local w (Pen.tab w a) :=
  of_position fun x _ _ => ⟨_, (advance (a := a)).comp (blanks (a := a) (3 - x.tmod 4).toNat),
    fun p hp _ => by rw [Pen.tab, hp]⟩

/-- A character is printed in the window. -/
theorem put (ch : Char8) : Local w (fun p => p.put w a ch) := by
  unfold Pen.put
  split
  · exact Local.id
  split
  · exact (write blank).comp back
  split
  · exact lineBreak
  split
  · exact tab
  · exact advance.comp (write ch)

/-- A string is printed in the window. -/
theorem puts (string : List Char8) : Local w (fun p => string.foldl (Pen.put w a) p) := by
  induction string with
  | nil => exact Local.id
  | cons ch string ih => exact ih.comp (put ch)

end Local

/-! ## The cursor -/

/-- The two bytes of the hardware cursor, put together again. -/
theorem split_data (data : BitVec 16) :
    (0xFF00 &&& (((((data &&& 0xFF00) >>> 8).setWidth 8).setWidth 16) <<< 8)) +
      (0xFF &&& (data.setWidth 8 &&& 0xFF).setWidth 16) = data := by
  rw [BitVec.add_eq_or_of_and_eq_zero]
  · ext i hi
    interval_cases i <;> simp
  · ext i hi
    interval_cases i <;> simp

namespace Window

variable (w : Window) (m : Cga)

/-- The position of the cursor in the window. -/
def cursor : Int × Int := (w.getpos m).2

variable {w}

/-- The position is read as it was set. -/
theorem cursor_setpos {x y : Int} (h : w.Inside x y) : w.cursor (w.setpos m x y) = (x, y) := by
  have hb := h.bounds
  have hin : ¬ (x < 0 ∨ x ≥ w.width ∨ y < 0 ∨ y ≥ w.height) := by
    unfold Inside at h
    omega
  cases hcur : w.useCursor with
  | false => simp only [cursor, setpos, if_neg hin, getpos, hcur, Bool.false_eq_true, if_false]
  | true =>
      -- the position is below 2000, so it fits into the two registers
      have hdata : ((BitVec.ofInt 16 (w.fromCol + x + (w.fromRow + y) * 80)).toNat : Int) =
          w.fromCol + x + (w.fromRow + y) * 80 := by
        rw [BitVec.toNat_ofInt]
        omega
      simp only [cursor, setpos, if_neg hin, getpos, hcur, if_true, Crtc.outIndex, Crtc.outData,
        Crtc.inData, Function.update_self, split_data, hdata,
        Function.update_of_ne (show (14 : BitVec 8) ≠ 15 by decide)]
      exact Prod.ext (by omega) (by omega)

theorem setpos_screen (x y : Int) : (w.setpos m x y).screen = m.screen := by
  unfold setpos
  split
  · rfl
  split <;> rfl

theorem finish_screen (p : Pen) : (w.finish m p).screen = p.screen := setpos_screen _ _ _

theorem cursor_finish {p : Pen} (h : w.Inside p.x p.y) : w.cursor (w.finish m p) = (p.x, p.y) :=
  cursor_setpos _ h

/-- The next call of `print` starts where the last one has stopped. -/
theorem pen_finish {p : Pen} (h : w.Inside p.x p.y) : w.pen (w.finish m p) = p := by
  have hcur := cursor_finish m h
  unfold cursor at hcur
  simp only [pen, hcur, finish_screen]

/-- The cursor that another call has left is overwritten. -/
theorem finish_finish {p q : Pen} (hp : w.Inside p.x p.y) (hq : w.Inside q.x q.y) :
    w.finish (w.finish m p) q = w.finish m q := by
  have hin : ¬ (p.x < 0 ∨ p.x ≥ w.width ∨ p.y < 0 ∨ p.y ≥ w.height) := by
    unfold Inside at hp
    omega
  have hin' : ¬ (q.x < 0 ∨ q.x ≥ w.width ∨ q.y < 0 ∨ q.y ≥ w.height) := by
    unfold Inside at hq
    omega
  cases hcur : w.useCursor with
  | false => simp only [finish, setpos, if_neg hin, if_neg hin', getpos, hcur, Bool.false_eq_true,
      if_false]
  | true =>
      simp only [finish, setpos, if_neg hin, if_neg hin', getpos, hcur, if_true, Crtc.outIndex,
        Crtc.outData]
      congr 2
      funext k
      -- every register but the two of the cursor keeps its value
      by_cases hk : k = 15
      · rw [hk, Function.update_self, Function.update_self]
      · by_cases hk' : k = 14
        · rw [hk']
          rfl
        · simp only [Function.update_of_ne hk, Function.update_of_ne hk']

end Window

end MPStuBS.Machine
