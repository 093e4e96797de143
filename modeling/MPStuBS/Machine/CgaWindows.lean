import MPStuBS.Machine.CgaCells
import Mathlib.Order.CompletePartialOrder

/-!
# Windows side by side

Several windows on one screen, each with the calls of `print` that are made for it.
The calls are not synchronised: at every step some window executes `getpos`, one
round of the loop, or `setpos` (`Window.turn`), so the rounds of different windows
follow each other in any order.

`Window.outcome` is what a window looks like when all calls made for it are done. The
turns of the window do not change it (`outcome_turn`), and the turns of another window
change neither its cells nor its cursor (`turn_frame`). So a window looks as if its own
calls had been executed alone (`window_isolation`).
-/

set_option autoImplicit false

namespace MPStuBS.Machine

open MPStuBS.Lib.Loop

/-- The arguments of a call of `print`. -/
structure Call where
  string : List Char8
  attrib : Attribute

/-- The local variables of a call that has read the cursor. -/
structure Running where
  call : Call
  i : Nat
  remain : Int
  x : Int
  y : Int

/-- The call that is being executed, and those that follow. -/
structure Task where
  running : Option Running
  calls : List Call

namespace Window

/-- One step of the calls for a window. -/
def turn (w : Window) (m : Cga) (t : Task) : Cga × Task :=
  match t.running with
  | none =>
      match t.calls with
      | [] => (m, t)
      | c :: calls =>
          match w.getpos m with
          | (m, x, y) => (m, ⟨some ⟨c, 0, 0, x, y⟩, calls⟩)
  | some r =>
      match w.printRound r.call.string r.call.attrib ⟨r.i, r.remain, r.x, r.y, m.screen⟩ with
      | none => (m, t)
      | some (.next l) =>
          ({ m with screen := l.screen }, ⟨some ⟨r.call, l.i, l.remain, l.x, l.y⟩, t.calls⟩)
      | some (.done l) => (w.setpos { m with screen := l.screen } l.x l.y, ⟨none, t.calls⟩)

/-- The calls of `print`, one after the other. -/
def prints (w : Window) (fuel : Nat) : Cga → List Call → Option Cga
  | m, [] => some m
  | m, c :: calls =>
      match print fuel w m c.string c.attrib with
      | none => none
      | some m' => prints w fuel m' calls

end Window

/-! ## What is left to do -/

/-- The remaining rounds of a call. -/
def Pen.rest (w : Window) (c : Call) (i : Nat) (remain : Int) (p : Pen) : Pen :=
  if remain = 0 then (c.string.drop i).foldl (Pen.put w c.attrib) p
  else (c.string.drop (i + 1)).foldl (Pen.put w c.attrib)
    ((p.blanks w c.attrib (remain - 1).toNat).advance w c.attrib)

/-- The remainder belongs to a tabulator. -/
def RemainOk (string : List Char8) (i : Nat) (remain : Int) : Prop :=
  remain = 0 ∨ (1 ≤ remain ∧ string[i]? = some tabulator)

theorem local_rest (w : Window) (c : Call) (i : Nat) (remain : Int) :
    Local w (Pen.rest w c i remain) := by
  unfold Pen.rest
  split
  · exact Local.puts _
  · exact (Local.puts _).comp (Local.advance.comp (Local.blanks _))

namespace Window

variable {w : Window} {c : Call} {i : Nat} {remain : Int}

/-- A round does a part of what is left to do, within the window. -/
def Continues (w : Window) (c : Call) (i : Nat) (remain : Int) (p : Pen) : Prop :=
  ∃ (q : Pen) (i' : Nat) (remain' : Int),
    w.printRound c.string c.attrib (p.locals i remain) = some (.next (q.locals i' remain')) ∧
    w.Inside q.x q.y ∧ Set.EqOn q.screen p.screen w.areaᶜ ∧ RemainOk c.string i' remain' ∧
    q.rest w c i' remain' = p.rest w c i remain

/-- A round within a tabulator. -/
theorem continues_tab {p : Pen} (hin : w.Inside p.x p.y) (hi : c.string[i]? = some tabulator)
    (hr : 1 ≤ remain) : Continues w c i remain p := by
  by_cases hlast : remain = 1
  · subst hlast
    have hadvance : Local w (Pen.advance w c.attrib) := Local.advance
    exact ⟨_, _, _, printRound_tab_last hi, hadvance.inside hin, hadvance.frame hin, .inl rfl, rfl⟩
  · have hblank : Local w (fun p => (Pen.write w c.attrib blank p).advance w c.attrib) :=
      Local.advance.comp (Local.write blank)
    refine ⟨_, _, _, printRound_tab hi (by omega), hblank.inside hin, hblank.frame hin,
      .inr ⟨by omega, hi⟩, ?_⟩
    have hcount : (remain - 1).toNat = (remain - 1 - 1).toNat + 1 := by omega
    have hr0 : remain ≠ 0 := by omega
    have hr1 : remain - 1 ≠ 0 := by omega
    simp only [Pen.rest, if_neg hr0, if_neg hr1, hcount, Pen.blanks]

theorem continues {p : Pen} (hin : w.Inside p.x p.y) (hok : RemainOk c.string i remain)
    (hlt : i < c.string.length) : Continues w c i remain p := by
  rcases hok with rfl | ⟨hr, hi⟩
  · have hi := List.getElem?_eq_getElem hlt
    have hrest : p.rest w c i 0 = (p.put w c.attrib c.string[i]).rest w c (i + 1) 0 := by
      simp only [Pen.rest, if_true]
      rw [List.drop_eq_getElem_cons hlt, List.foldl_cons]
    by_cases htab : c.string[i] = tabulator
    · rw [htab] at hi hrest
      -- the first round computes the remainder, and then does what any of them does
      have hstop := tab_stop p.x
      obtain ⟨q, i', remain', hround, hq, hframe, hok, heq⟩ := continues_tab hin hi hstop.1
      refine ⟨q, i', remain', (printRound_tab_first hi).trans hround, hq, hframe, hok, ?_⟩
      have hr0 : 4 - p.x.tmod 4 ≠ 0 := by omega
      have hcount : 4 - p.x.tmod 4 - 1 = 3 - p.x.tmod 4 := by omega
      rw [heq, hrest]
      simp only [Pen.rest, if_neg hr0, if_true, hcount]
      rfl
    · have hput : Local w (fun p => p.put w c.attrib c.string[i]) := Local.put _
      exact ⟨_, _, _, printRound_put hi htab, hput.inside hin, hput.frame hin, .inl rfl, hrest.symm⟩
  · exact continues_tab hin hi hr

/-- The cursor is set to the position of the pen. -/
def setPen (w : Window) (m : Cga) (p : Pen) : Cga :=
  w.setpos { m with screen := p.screen } p.x p.y

/-- The state after a call. -/
def printed (w : Window) (m : Cga) (c : Call) : Cga :=
  w.finish m (c.string.foldl (Pen.put w c.attrib) (w.pen m))

/-- The state after all calls that are made for the window. -/
def outcome (w : Window) (m : Cga) (t : Task) : Cga :=
  t.calls.foldl w.printed
    (match t.running with
      | none => m
      | some r => w.setPen m (Pen.rest w r.call r.i r.remain ⟨m.screen, r.x, r.y⟩))

/-- The cursor is in the window. -/
def CursorIn (w : Window) (m : Cga) : Prop := w.Inside (w.cursor m).1 (w.cursor m).2

instance (m : Cga) : Decidable (w.CursorIn m) := inferInstanceAs (Decidable (w.Inside _ _))

/-- The cursor and the local position are in the window. -/
structure Valid (w : Window) (m : Cga) (t : Task) : Prop where
  cursor : w.CursorIn m
  running {r : Running} : t.running = some r →
    w.Inside r.x r.y ∧ RemainOk r.call.string r.i r.remain

/-- The same window: its cells and its cursor. -/
structure Agree (w : Window) (m n : Cga) : Prop where
  cells : Set.EqOn m.screen n.screen w.area
  cursor : w.cursor m = w.cursor n

theorem print_printed {fuel : Nat} (m : Cga) (hf : 7 * c.string.length < fuel) :
    print fuel w m c.string c.attrib = some (w.printed m c) := print_eq w c.attrib m hf

theorem prints_printed {fuel : Nat} {calls : List Call}
    (hf : ∀ c ∈ calls, 7 * c.string.length < fuel) (m : Cga) :
    w.prints fuel m calls = some (calls.foldl w.printed m) := by
  induction calls generalizing m with
  | nil => rfl
  | cons c calls ih =>
      simp only [prints, print_printed m (hf c List.mem_cons_self), List.foldl_cons]
      exact ih (fun c' hc' => hf c' (List.mem_cons_of_mem c hc')) _

/-- Some number of rounds is enough for all calls. -/
theorem exists_fuel (calls : List Call) : ∃ fuel, ∀ c ∈ calls, 7 * c.string.length < fuel := by
  induction calls with
  | nil => exact ⟨0, fun c hc => by cases hc⟩
  | cons c calls ih =>
      obtain ⟨fuel, hf⟩ := ih
      refine ⟨max fuel (7 * c.string.length + 1), fun c' hc' => ?_⟩
      cases hc' with
      | head => omega
      | tail _ hc' =>
          have hlt := hf c' hc'
          omega

section Turn

variable {m n : Cga} {t : Task}

theorem getpos_crtc (hcur : w.useCursor = false) : (w.getpos m).1 = m := by
  simp only [getpos, hcur, Bool.false_eq_true, if_false]

theorem setpos_crtc (hcur : w.useCursor = false) (x y : Int) :
    (w.setpos m x y).crtc = m.crtc := by
  unfold setpos
  split
  · rfl
  · simp only [hcur, Bool.false_eq_true, if_false]

theorem cursor_getpos : w.cursor (w.getpos m).1 = w.cursor m := by
  cases hcur : w.useCursor with
  | false => rw [getpos_crtc hcur]
  | true => simp only [cursor, getpos, hcur, if_true, Crtc.outIndex]

theorem cursor_screen (s : Screen) : w.cursor { m with screen := s } = w.cursor m := by
  cases hcur : w.useCursor with
  | false => simp only [cursor, getpos, hcur, Bool.false_eq_true, if_false]
  | true => simp only [cursor, getpos, hcur, if_true]

/-- What a turn of a window can do. -/
structure Turned (w : Window) (m : Cga) (t : Task) (m' : Cga) (t' : Task) : Prop where
  valid : w.Valid m' t'
  frame : Set.EqOn m'.screen m.screen w.areaᶜ
  crtc : w.useCursor = false → m'.crtc = m.crtc
  outcome : w.outcome m' t' = w.outcome m t

theorem turned (h : w.Valid m t) : w.Turned m t (w.turn m t).1 (w.turn m t).2 := by
  obtain ⟨running, calls⟩ := t
  cases running with
  | none =>
      cases calls with
      -- no call is left: the turn does nothing
      | nil => exact ⟨h, fun _ _ => rfl, fun _ => rfl, rfl⟩
      | cons c calls =>
          -- the next call reads the cursor
          refine ⟨⟨?_, ?_⟩, ?_, fun hcur => ?_, ?_⟩
          · simp only [turn, CursorIn, cursor_getpos]
            exact h.cursor
          · rintro r hr
            obtain rfl := Option.some.inj hr
            exact ⟨h.cursor, .inl rfl⟩
          · simp only [turn, getpos_screen]
            exact fun _ _ => rfl
          · simp only [turn, getpos_crtc hcur]
          · simp only [turn, outcome, List.foldl_cons, printed, finish, setPen, Pen.rest, if_true,
              List.drop_zero, getpos_screen, pen]
  | some r =>
      obtain ⟨hin, hok⟩ := h.running rfl
      by_cases hlt : r.i < r.call.string.length
      · obtain ⟨q, i', remain', hround, hq, hframe, hok', hrest⟩ :=
          continues (p := ⟨m.screen, r.x, r.y⟩) hin hok hlt
        have hturn : w.turn m ⟨some r, calls⟩ =
            ({ m with screen := q.screen }, ⟨some ⟨r.call, i', remain', q.x, q.y⟩, calls⟩) := by
          simp only [Pen.locals] at hround
          simp only [turn, hround]
        rw [hturn]
        refine ⟨⟨?_, ?_⟩, hframe, fun _ => rfl, ?_⟩
        · simp only [CursorIn, cursor_screen]
          exact h.cursor
        · rintro r' hr'
          obtain rfl := Option.some.inj hr'
          exact ⟨hq, hok'⟩
        · simp only [outcome, setPen, ← hrest]
      -- the call sets the cursor and returns
      · have hnone : r.call.string[r.i]? = none := List.getElem?_eq_none (by omega)
        -- no tabulator is left over at the end of the string
        have hr0 : r.remain = 0 := by
          rcases hok with hr0 | ⟨-, hi⟩
          · exact hr0
          · rw [hnone] at hi
            cases hi
        have hturn : w.turn m ⟨some r, calls⟩ =
            (w.setPen m ⟨m.screen, r.x, r.y⟩, ⟨none, calls⟩) := by
          simp only [turn, printRound, hnone, setPen]
        rw [hturn]
        refine ⟨⟨?_, fun hr => by cases hr⟩, ?_, fun hcur => setpos_crtc hcur _ _, ?_⟩
        · simp only [CursorIn, setPen, cursor_setpos _ hin]
          exact hin
        · simp only [setPen, setpos_screen]
          exact fun _ _ => rfl
        · simp only [outcome, Pen.rest, hr0, if_true, List.drop_eq_nil_of_le (Nat.le_of_not_lt hlt),
            List.foldl_nil]

end Turn

/-! ## Only the cells and the cursor matter -/

section Agreement

variable {m n : Cga} {t : Task}

theorem setPen_agree {p q : Pen} (hp : w.Inside p.x p.y) (hx : p.x = q.x) (hy : p.y = q.y)
    (hs : Set.EqOn p.screen q.screen w.area) : w.Agree (w.setPen m p) (w.setPen n q) where
  cells := by
    simp only [setPen, setpos_screen]
    exact hs
  cursor := by
    have hq : w.Inside q.x q.y := hx ▸ hy ▸ hp
    rw [setPen, setPen, cursor_setpos _ hp, cursor_setpos _ hq, hx, hy]

theorem Agree.position (h : w.Agree m n) :
    (w.pen m).x = (w.pen n).x ∧ (w.pen m).y = (w.pen n).y :=
  ⟨congrArg Prod.fst h.cursor, congrArg Prod.snd h.cursor⟩

theorem Agree.cursorIn (h : w.Agree m n) (hm : w.CursorIn m) : w.CursorIn n := by
  unfold CursorIn at hm ⊢
  rwa [← h.cursor]

theorem printed_cursorIn (hm : w.CursorIn m) : w.CursorIn (w.printed m c) := by
  have hin := (Local.puts (w := w) (a := c.attrib) c.string).inside (p := w.pen m) hm
  unfold CursorIn printed
  rw [cursor_finish m hin]
  exact hin

theorem printed_frame (hm : w.CursorIn m) :
    Set.EqOn (w.printed m c).screen m.screen w.areaᶜ := by
  unfold printed
  rw [finish_screen]
  exact (Local.puts (w := w) (a := c.attrib) c.string).frame (p := w.pen m) hm

theorem printed_agree (h : w.Agree m n) (hm : w.CursorIn m) :
    w.Agree (w.printed m c) (w.printed n c) := by
  have hputs := Local.puts (w := w) (a := c.attrib) c.string
  have hmoves := hputs.moves (p := w.pen m) (q := w.pen n) hm h.position.1 h.position.2
  have hreads := hputs.reads (p := w.pen m) (q := w.pen n) hm h.position.1 h.position.2 h.cells
  exact setPen_agree (hputs.inside (p := w.pen m) hm) hmoves.1 hmoves.2 hreads

theorem calls_agree (calls : List Call) (h : w.Agree m n) (hm : w.CursorIn m) :
    w.Agree (calls.foldl w.printed m) (calls.foldl w.printed n) := by
  induction calls generalizing m n with
  | nil => exact h
  | cons c calls ih => exact ih (printed_agree h hm) (printed_cursorIn hm)

theorem Agree.valid (h : w.Agree m n) (hm : w.Valid m t) : w.Valid n t :=
  ⟨h.cursorIn hm.cursor, hm.running⟩

theorem outcome_agree (h : w.Agree m n) (hm : w.Valid m t) :
    w.Agree (w.outcome m t) (w.outcome n t) := by
  obtain ⟨running, calls⟩ := t
  cases running with
  | none => exact calls_agree calls h hm.cursor
  | some r =>
      have hrest := local_rest w r.call r.i r.remain
      have hin := (hm.running rfl).1
      have hrestIn := hrest.inside (p := ⟨m.screen, r.x, r.y⟩) hin
      have hmoves := hrest.moves (p := ⟨m.screen, r.x, r.y⟩) (q := ⟨n.screen, r.x, r.y⟩) hin rfl rfl
      have hreads := hrest.reads (p := ⟨m.screen, r.x, r.y⟩) (q := ⟨n.screen, r.x, r.y⟩) hin rfl rfl
        h.cells
      refine calls_agree calls (setPen_agree hrestIn hmoves.1 hmoves.2 hreads) ?_
      unfold CursorIn setPen
      rw [cursor_setpos _ hrestIn]
      exact hrestIn

theorem Agree.trans {k : Cga} (h : w.Agree m n) (h' : w.Agree n k) : w.Agree m k :=
  ⟨h.cells.trans h'.cells, h.cursor.trans h'.cursor⟩

end Agreement

end Window

/-! ## One screen for all windows -/

universe u

variable {ι : Type u}

/-- The screen, the controller, and for each window the cursor of its object and its calls. -/
structure Display (ι : Type u) where
  screen : Screen
  crtc : Crtc
  rel : ι → Int × Int
  task : ι → Task

namespace Display

/-- What window `i` works on. -/
def view (d : Display ι) (i : ι) : Cga := ⟨d.screen, d.crtc, (d.rel i).1, (d.rel i).2⟩

variable [DecidableEq ι]

/-- A turn of window `i`. -/
def turn (window : ι → Window) (d : Display ι) (i : ι) : Display ι :=
  match (window i).turn (d.view i) (d.task i) with
  | (m, t) =>
      ⟨m.screen, m.crtc, Function.update d.rel i (m.relX, m.relY), Function.update d.task i t⟩

/-- Turns of the windows in some order. -/
def run (window : ι → Window) (d : Display ι) (schedule : List ι) : Display ι :=
  schedule.foldl (turn window) d

variable {window : ι → Window} {d : Display ι} {i j : ι}

theorem turn_view_self :
    (d.turn window i).view i = ((window i).turn (d.view i) (d.task i)).1 ∧
      (d.turn window i).task i = ((window i).turn (d.view i) (d.task i)).2 := by
  simp only [turn, view, Function.update_self, and_self]

theorem turn_task_of_ne (h : j ≠ i) : (d.turn window j).task i = d.task i := by
  simp only [turn, Function.update_of_ne h.symm]

/-- The turn of another window changes neither the cells of a window nor its cursor. -/
theorem turn_view_of_ne (h : j ≠ i) (hj : (window j).Valid (d.view j) (d.task j))
    (hdisj : Disjoint (window j).area (window i).area)
    (hcur : ¬ ((window j).useCursor = true ∧ (window i).useCursor = true)) :
    (window i).Agree (d.view i) ((d.turn window j).view i) := by
  have hturned := Window.turned hj
  refine ⟨fun k hk => ?_, ?_⟩
  · exact (hturned.frame (fun hk' => Set.disjoint_left.1 hdisj hk' hk)).symm
  · cases hi : (window i).useCursor with
    | false =>
        simp only [Window.cursor, Window.getpos, hi, Bool.false_eq_true, if_false, view, turn,
          Function.update_of_ne h.symm]
    | true =>
        -- the window owns the hardware cursor, so the other one does not touch the controller
        have hcrtc := hturned.crtc (by
          cases hj : (window j).useCursor with
          | false => rfl
          | true => exact absurd ⟨hj, hi⟩ hcur)
        simp only [view] at hcrtc
        simp only [Window.cursor, Window.getpos, hi, if_true, view, turn, hcrtc]

/-- Windows that do not overlap, at most one of them with the hardware cursor. -/
structure Apart (window : ι → Window) : Prop where
  area : ∀ i j, i ≠ j → Disjoint (window i).area (window j).area
  cursor : ∀ i j, (window i).useCursor = true → (window j).useCursor = true → i = j

/-- Every window is valid. -/
def Valid (window : ι → Window) (d : Display ι) : Prop :=
  ∀ i, (window i).Valid (d.view i) (d.task i)

/-- A turn of any window changes the outcome of none. -/
theorem turn_outcome (hw : Apart window) (hd : d.Valid window) (j : ι) :
    (d.turn window j).Valid window ∧
      ∀ i, (window i).Agree ((window i).outcome (d.view i) (d.task i))
        ((window i).outcome ((d.turn window j).view i) ((d.turn window j).task i)) := by
  refine ⟨fun i => ?_, fun i => ?_⟩
  · by_cases hi : j = i
    · subst hi
      rw [turn_view_self.1, turn_view_self.2]
      exact (Window.turned (hd j)).valid
    · rw [turn_task_of_ne hi]
      exact (turn_view_of_ne hi (hd j) (hw.area j i hi) (fun h => hi (hw.cursor j i h.1 h.2))).valid
        (hd i)
  · by_cases hi : j = i
    · subst hi
      rw [turn_view_self.1, turn_view_self.2, (Window.turned (hd j)).outcome]
      exact ⟨fun _ _ => rfl, rfl⟩
    · rw [turn_task_of_ne hi]
      exact Window.outcome_agree
        (turn_view_of_ne hi (hd j) (hw.area j i hi) (fun h => hi (hw.cursor j i h.1 h.2))) (hd i)

theorem run_outcome (hw : Apart window) (hd : d.Valid window) (schedule : List ι) (i : ι) :
    (window i).Agree ((window i).outcome (d.view i) (d.task i))
      ((window i).outcome ((d.run window schedule).view i) ((d.run window schedule).task i)) := by
  induction schedule generalizing d with
  | nil => exact ⟨fun _ _ => rfl, rfl⟩
  | cons j schedule ih =>
      have hturn := turn_outcome hw hd j
      exact (hturn.2 i).trans (ih hturn.1)

end Display

/-- `print` stays in its window and depends on nothing else; and wherever windows are apart, a
window whose calls are done looks as if they had been executed alone. -/
theorem window_isolation :
    (∀ (w : Window) (m : Cga) (string : List Char8) (a : Attribute), w.CursorIn m →
      ∃ fuel m', w.print fuel m string a = some m' ∧ w.CursorIn m' ∧
        Set.EqOn m'.screen m.screen w.areaᶜ ∧
        ∀ n, w.Agree m n → ∃ n', w.print fuel n string a = some n' ∧ w.Agree m' n') ∧
    (∀ (ι : Type u) [DecidableEq ι] (window : ι → Window), Display.Apart window →
      ∀ d : Display ι, (∀ i, (window i).CursorIn (d.view i) ∧ (d.task i).running = none) →
      ∀ (schedule : List ι) (i : ι), (d.run window schedule).task i = ⟨none, []⟩ →
      ∃ fuel m', (window i).prints fuel (d.view i) (d.task i).calls = some m' ∧
        (window i).Agree m' ((d.run window schedule).view i)) := by
  refine ⟨fun w m string a hm => ?_, fun ι _ window hw d hd schedule i hdone => ?_⟩
  · refine ⟨7 * string.length + 1, _,
      Window.print_printed (c := ⟨string, a⟩) m (Nat.lt_succ_self _),
      Window.printed_cursorIn hm, Window.printed_frame hm, fun n hn => ?_⟩
    exact ⟨_, Window.print_printed (c := ⟨string, a⟩) n (Nat.lt_succ_self _),
      Window.printed_agree hn hm⟩
  · have hvalid : d.Valid window := fun j =>
      ⟨(hd j).1, fun hr => by rw [(hd j).2] at hr; cases hr⟩
    have hagree := Display.run_outcome hw hvalid schedule i
    have hstart : (window i).outcome (d.view i) (d.task i) =
        (d.task i).calls.foldl (window i).printed (d.view i) := by
      simp only [Window.outcome, (hd i).2]
    rw [hdone, hstart] at hagree
    obtain ⟨fuel, hf⟩ := Window.exists_fuel (d.task i).calls
    exact ⟨fuel, _, Window.prints_printed hf _, hagree⟩

/-! ## Two windows -/

/-- Two windows next to each other, the first one with the hardware cursor. -/
def twoWindows : Bool → Window
  | false => ⟨0, 1, 0, 1, true, by decide, by decide⟩
  | true => ⟨2, 4, 0, 0, false, by decide, by decide⟩

theorem twoWindows_apart : Display.Apart twoWindows where
  area i j hij := by
    rw [Set.disjoint_left]
    rintro k ⟨x, y, hxy, rfl⟩ ⟨u, v, huv, heq⟩
    cases i with
    | false =>
        cases j with
        | false => exact hij rfl
        | true =>
            simp only [Window.Inside, Window.width, Window.height, Window.cell, twoWindows]
              at hxy huv heq
            omega
    | true =>
        cases j with
        | false =>
            simp only [Window.Inside, Window.width, Window.height, Window.cell, twoWindows]
              at hxy huv heq
            omega
        | true => exact hij rfl
  cursor i j hi hj := by
    cases i with
    | false =>
        cases j with
        | false => rfl
        | true => cases hj
    | true => cases hi

/-- The first window gets a tabulator and a character, the second one a character. -/
def twoCalls : Display Bool where
  screen := fun _ => ⟨blank, ⟨7, 0, 0⟩⟩
  crtc := ⟨0, fun _ => 0⟩
  rel := fun _ => (0, 0)
  task := fun i => ⟨none, [⟨if i then [66] else [tabulator, 65], ⟨7, 0, 0⟩⟩]⟩

theorem window_isolation_twoWindows :
    (∃ fuel m', (twoWindows false).print fuel (twoCalls.view false) [tabulator, 65] ⟨7, 0, 0⟩ =
        some m' ∧ (twoWindows false).CursorIn m') ∧
    ∃ fuel m', (twoWindows true).prints fuel (twoCalls.view true) (twoCalls.task true).calls =
        some m' ∧
      (twoWindows true).Agree m'
        ((twoCalls.run twoWindows [false, true, false, false, true, false, true]).view true) := by
  have hstart : ∀ i, (twoWindows i).CursorIn (twoCalls.view i) := by decide
  constructor
  · obtain ⟨fuel, m', hprint, hin, -⟩ := window_isolation.{0}.1 (twoWindows false)
      (twoCalls.view false) [tabulator, 65] ⟨7, 0, 0⟩ (hstart false)
    exact ⟨fuel, m', hprint, hin⟩
  · exact window_isolation.2 Bool twoWindows twoWindows_apart twoCalls (fun i => ⟨hstart i, rfl⟩)
      [false, true, false, false, true, false, true] true rfl

end MPStuBS.Machine
