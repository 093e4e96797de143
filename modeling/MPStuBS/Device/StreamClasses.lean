import MPStuBS.Device.CgaStream
import MPStuBS.Object.BaseManipulators

/-!
# What the streams deliver

The classes derived from `O_Stream` differ in `flush` only: `CGA_Stream` prints the
characters in front of `pos` to its window, `ConsoleOut` puts them out one by one, and
`FileOut` hands them to `write`, which may take all of them or fewer. The chunks that
a stream has delivered are recorded in front of its output. Together with what is left
in the buffer they are the characters put (`stream_keeps_characters`).
-/

set_option autoImplicit false

namespace MPStuBS.Device

open MPStuBS.Machine
open MPStuBS.Object

universe u v

variable {τ : Type u} {δ : Type v}

/-- Hand characters to an output that says which of them it took, and record these. -/
def record (take : List τ → δ → Option (List τ × δ)) (cs : List τ) (out : List (List τ) × δ) :
    Option (List (List τ) × δ) :=
  match take cs out.2 with
  | none => none
  | some (chunk, o) => some (out.1 ++ [chunk], o)

/-- A class derived from `O_Stream` whose `flush` delivers all the characters of the buffer. -/
structure StreamClass (τ : Type u) (δ : Type v) where
  take : List τ → δ → Option (List τ × δ)
  takes_all : ∀ cs o, cs.length ≤ 80 → ∃ o', take cs o = some (cs, o')

/-! ## One operation and many -/

/-- What characters that were put since `s` have become in `s'`: chunks and the contents of the
buffer. -/
structure Delivered (s : Stringbuffer τ (List (List τ) × δ)) (cs : List τ)
    (s' : Stringbuffer τ (List (List τ) × δ)) : Prop where
  pos : s'.pos < 80
  chunks : ∃ chunks, s'.out.1 = s.out.1 ++ chunks ∧ (∀ chunk ∈ chunks, chunk.length ≤ 80) ∧
    chunks.flatten ++ s'.pending = s.pending ++ cs

section Delivery

variable {s s₁ s₂ : Stringbuffer τ (List (List τ) × δ)} {cs ds : List τ}

theorem Delivered.refl (h : s.pos < 80) : Delivered s [] s where
  pos := h
  chunks := ⟨[], (List.append_nil _).symm, by simp, by simp⟩

theorem Delivered.trans (h : Delivered s cs s₁) (h' : Delivered s₁ ds s₂) :
    Delivered s (cs ++ ds) s₂ := by
  obtain ⟨chunks, hout, hlen, hflat⟩ := h.chunks
  obtain ⟨chunks', hout', hlen', hflat'⟩ := h'.chunks
  refine ⟨h'.pos, chunks ++ chunks', ?_, ?_, ?_⟩
  · rw [hout', hout, List.append_assoc]
  · intro chunk hchunk
    rcases List.mem_append.1 hchunk with hchunk | hchunk
    · exact hlen chunk hchunk
    · exact hlen' chunk hchunk
  · rw [List.flatten_append, List.append_assoc, hflat', ← List.append_assoc, hflat,
      List.append_assoc]

/-- The buffer becomes one more chunk. -/
theorem flush_delivered (c : StreamClass τ δ) (h : s.pos ≤ 80) :
    ∃ s', s.flush (record c.take) = some s' ∧ Delivered s [] s' := by
  have hlen : s.pending.length ≤ 80 := by rwa [Stringbuffer.length_pending]
  obtain ⟨o, htake⟩ := c.takes_all s.pending s.out.2 hlen
  have hrecord : record c.take s.pending s.out = some (s.out.1 ++ [s.pending], o) := by
    simp only [record, htake]
  refine ⟨_, Stringbuffer.flush_of_print hrecord, Nat.zero_lt_succ _, [s.pending], rfl, ?_, ?_⟩
  · intro chunk hchunk
    rwa [List.mem_singleton.1 hchunk]
  · rw [List.flatten_singleton]
    rfl

/-- A character goes to the end of the buffer, which is delivered when it is full. -/
theorem put_delivered (c : StreamClass τ δ) (x : τ) (h : s.pos < 80) :
    ∃ s', s.put (record c.take) x = some s' ∧ Delivered s [x] s' := by
  obtain ⟨s₁, hpending, hout, hpos, hput⟩ := Stringbuffer.put_of_lt (record c.take) x h
  by_cases hfull : s.pos + 1 = 80
  · obtain ⟨s', hflush, hdelivered⟩ := flush_delivered c (s := s₁) (by omega)
    obtain ⟨chunks, hchunks, hlen, hflat⟩ := hdelivered.chunks
    refine ⟨s', by rw [hput, if_pos hfull, hflush], hdelivered.pos, chunks, ?_, hlen, ?_⟩
    · rw [hchunks, hout]
    · rw [hflat, hpending, List.append_nil]
  · refine ⟨s₁, by rw [hput, if_neg hfull], by omega, [], ?_, by simp, ?_⟩
    · rw [hout, List.append_nil]
    · rw [hpending, List.flatten_nil, List.nil_append]

/-- No operation fails, so every store is inside of the buffer. -/
theorem exec_delivered (c : StreamClass τ δ) (ops : List (StreamOp τ)) :
    ∀ {s : Stringbuffer τ (List (List τ) × δ)}, s.pos < 80 →
      ∃ s', s.exec (record c.take) ops = some s' ∧ Delivered s (chars ops) s' := by
  induction ops with
  | nil =>
      intro s h
      exact ⟨s, rfl, .refl h⟩
  | cons op ops ih =>
      intro s h
      cases op with
      | put x =>
          obtain ⟨s₁, hput, hs₁⟩ := put_delivered c x h
          obtain ⟨s', hexec, hs'⟩ := ih hs₁.pos
          refine ⟨s', ?_, hs₁.trans hs'⟩
          simp only [Stringbuffer.exec, hput, hexec]
      | flush =>
          obtain ⟨s₁, hflush, hs₁⟩ := flush_delivered c (Nat.le_of_lt h)
          obtain ⟨s', hexec, hs'⟩ := ih hs₁.pos
          refine ⟨s', ?_, hs₁.trans hs'⟩
          simp only [Stringbuffer.exec, hflush, hexec]

end Delivery

/-! ## The classes -/

/-- A full buffer is printed with enough rounds. -/
theorem print_takes_all (w : Window) (attr : Attribute) {fuel : Nat} (h : 7 * 80 < fuel)
    (cs : List Char8) (m : Cga) (hlen : cs.length ≤ 80) :
    ∃ m', (CgaStream.print w attr fuel cs m).map (fun m => (cs, m)) = some (cs, m') := by
  have hfuel : 7 * cs.length < fuel := by omega
  have hprint : CgaStream.print w attr fuel cs m = some (w.printed m ⟨cs, attr⟩) :=
    Window.print_printed (c := ⟨cs, attr⟩) m hfuel
  exact ⟨_, by rw [hprint, Option.map_some]⟩

/-- `CGA_Stream`, with enough rounds for a full buffer. -/
def cgaStream (w : Window) (attr : Attribute) (fuel : Nat) (h : 7 * 80 < fuel) :
    StreamClass Char8 Cga where
  take cs m := (CgaStream.print w attr fuel cs m).map fun m => (cs, m)
  takes_all := print_takes_all w attr h

/-- One `putchar` of `ConsoleOut`: the character is taken, and appears on the console. -/
def putchar (out : List Char8 × List Char8) (c : Char8) : List Char8 × List Char8 :=
  (out.1 ++ [c], out.2 ++ [c])

theorem foldl_putchar (cs : List Char8) :
    ∀ out : List Char8 × List Char8, cs.foldl putchar out = (out.1 ++ cs, out.2 ++ cs) := by
  induction cs with
  | nil =>
      intro out
      simp
  | cons c cs ih =>
      intro out
      rw [List.foldl_cons, ih, putchar, List.append_assoc, List.append_assoc, List.singleton_append]

/-- `ConsoleOut` -/
def consoleOut : StreamClass Char8 (List Char8) where
  take cs console := some (cs.foldl putchar ([], console))
  takes_all cs console _ := ⟨console ++ cs, congrArg some (foldl_putchar cs ([], console))⟩

/-- `FileOut` with a `write` that returns the number of bytes it took, which is all of them. -/
def fileOut {φ : Type v} (write : List Char8 → φ → Nat × φ)
    (hwrite : ∀ cs file, (write cs file).1 = cs.length) : StreamClass Char8 φ where
  take cs file := some (cs.take (write cs file).1, (write cs file).2)
  takes_all cs file _ := by
    rw [hwrite, List.take_length]
    exact ⟨_, rfl⟩

/-! ## Without the record -/

/-- The stream without the record of its chunks. -/
def forget (s : Stringbuffer τ (List (List τ) × δ)) : Stringbuffer τ δ :=
  ⟨s.buffer, s.pos, s.out.2⟩

/-- What `flush` does with the output. -/
def StreamClass.print (c : StreamClass τ δ) (cs : List τ) (o : δ) : Option δ :=
  (c.take cs o).map Prod.snd

theorem cgaStream_print (w : Window) (attr : Attribute) {fuel : Nat} (h : 7 * 80 < fuel) :
    (cgaStream w attr fuel h).print = CgaStream.print w attr fuel := by
  funext cs m
  simp only [StreamClass.print, cgaStream]
  cases CgaStream.print w attr fuel cs m <;> rfl

theorem flush_forget (c : StreamClass τ δ) (s : Stringbuffer τ (List (List τ) × δ)) :
    (forget s).flush c.print = (s.flush (record c.take)).map forget := by
  have hprint : c.print (forget s).pending (forget s).out =
      (c.take s.pending s.out.2).map Prod.snd := rfl
  simp only [Stringbuffer.flush, Stringbuffer.deliver, record, hprint]
  cases c.take s.pending s.out.2 <;> rfl

theorem put_forget (c : StreamClass τ δ) (x : τ) (s : Stringbuffer τ (List (List τ) × δ)) :
    (forget s).put c.print x = (s.put (record c.take) x).map forget := by
  by_cases hpos : s.pos < 80
  · have hpos' : (forget s).pos < 80 := hpos
    let s₁ : Stringbuffer τ (List (List τ) × δ) :=
      { s with buffer := Function.update s.buffer s.pos x }
    have hstore : (forget s).store x = some (forget s₁) := Stringbuffer.store_of_lt hpos'
    simp only [Stringbuffer.put, hstore, Stringbuffer.store_of_lt hpos]
    split
    case isTrue hfull =>
      rw [if_pos (show s₁.increment.pos = 80 from hfull)]
      exact flush_forget c s₁.increment
    case isFalse hfull =>
      rw [if_neg (show ¬ s₁.increment.pos = 80 from hfull)]
      rfl
  · have hpos' : 80 ≤ (forget s).pos := Nat.le_of_not_lt hpos
    simp only [Stringbuffer.put, Stringbuffer.store_of_le hpos',
      Stringbuffer.store_of_le (Nat.le_of_not_lt hpos)]
    rfl

/-- The record changes nothing: the stream does what it does without. -/
theorem exec_forget (c : StreamClass τ δ) (ops : List (StreamOp τ)) :
    ∀ s : Stringbuffer τ (List (List τ) × δ),
      (forget s).exec c.print ops = (s.exec (record c.take) ops).map forget := by
  induction ops with
  | nil =>
      intro s
      rfl
  | cons op ops ih =>
      intro s
      cases op with
      | flush =>
          simp only [Stringbuffer.exec, flush_forget]
          cases s.flush (record c.take) with
          | none => rfl
          | some s₁ => exact ih s₁
      | put x =>
          simp only [Stringbuffer.exec, put_forget]
          cases s.put (record c.take) x with
          | none => rfl
          | some s₁ => exact ih s₁

/-- For a stream in a window this is `CgaStream.exec`. -/
theorem cgaStream_exec (w : Window) (attr : Attribute) {fuel : Nat} (h : 7 * 80 < fuel)
    (ops : List (StreamOp Char8)) (s : Stringbuffer Char8 (List (List Char8) × Cga)) :
    CgaStream.exec w attr fuel ops (forget s) =
      (s.exec (record (cgaStream w attr fuel h).take) ops).map forget := by
  rw [← exec_forget, cgaStream_print]
  rfl

/-! ## The result -/

/-- Whatever is inserted into a stream of any class, the characters put are those of the items. At
every moment the chunks that were delivered and the contents of the buffer are the characters put so
far, no chunk is longer than the buffer, and the position is inside of it. -/
theorem stream_keeps_characters (c : StreamClass Char8 δ) (items : List OStream.Item)
    (buffer : Nat → Char8) (o : δ) :
    ∃ os, OStream.insertAll items OStream.fresh = some os ∧
      chars os.ops = OStream.texts items 10 ∧
      ∀ n, ∃ s', Stringbuffer.exec (record c.take) (os.ops.take n) ⟨buffer, 0, [], o⟩ = some s' ∧
        s'.out.1.flatten ++ s'.pending = chars (os.ops.take n) ∧
        (∀ chunk ∈ s'.out.1, chunk.length ≤ 80) ∧ s'.pos < 80 := by
  obtain ⟨os, hinsert, hchars⟩ := OStream.insertAll_texts items (s := OStream.fresh)
    (.tail _ (.tail _ (.head _)))
  refine ⟨os, hinsert, hchars, fun n => ?_⟩
  obtain ⟨s', hexec, hdelivered⟩ := exec_delivered c (os.ops.take n)
    (s := ⟨buffer, 0, [], o⟩) (Nat.zero_lt_succ _)
  obtain ⟨chunks, hout, hlen, hflat⟩ := hdelivered.chunks
  rw [List.nil_append] at hout
  refine ⟨s', hexec, ?_, ?_, hdelivered.pos⟩
  · rw [hout, hflat]
    rfl
  · rw [hout]
    exact hlen

end MPStuBS.Device
