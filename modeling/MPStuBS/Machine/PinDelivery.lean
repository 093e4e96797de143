import MPStuBS.Machine.Redirection

/-!
# Where an interrupt at a pin goes

An entry of the redirection table that is not masked leads an interrupt at its pin,
under its vector, to one of the CPUs of its destination. What the entry says is what
calls have written into it last: `init` writes the entries of all slots, `config`,
`allow` and `forbid` write into that of their own. So after a call of `init` the last
writes decide where an interrupt goes (`pin_reaches_iff`), whatever the chip held
before.
-/

set_option autoImplicit false

namespace MPStuBS.Machine

open MPStuBS.Lib.Loop MPStuBS.Lib.Run

/-- An interrupt at the pin may reach CPU `c` under this vector. In logical mode bit `c` of the
destination is CPU `c`. -/
structure RedirectionEntry.MayReach (e : RedirectionEntry) (vector : BitVec 8) (c : Nat) :
    Prop where
  allowed : e.mask = maskEnabled
  logical : e.destinationMode = logicalMode
  vector : e.vector = vector
  listed : e.logicalDestination.getLsbD c = true

/-! ## The last write -/

namespace IoApicCall

/-- The vector that a call writes into the entry of slot `p`. -/
def vectorFor (p : Fin 24) : IoApicCall → Option (BitVec 8)
  | .init _ _ => some 34
  | .config slot vector => if p.val = slot.toNat then some vector else none
  | _ => none

/-- The mask that a call writes into the entry of slot `p`. -/
def maskFor (p : Fin 24) : IoApicCall → Option (BitVec 1)
  | .init _ _ => some maskDisabled
  | .allow slot => if p.val = slot.toNat then some maskEnabled else none
  | .forbid slot => if p.val = slot.toNat then some maskDisabled else none
  | _ => none

/-- The CPUs that a call makes the destination of all slots. -/
def destination : IoApicCall → Option (BitVec 8)
  | .init _ cpumask => some cpumask
  | _ => none

/-- Only `init` chooses between the modes of the destination. -/
def destinationMode : IoApicCall → Option (BitVec 1)
  | .init _ _ => some logicalMode
  | _ => none

end IoApicCall

/-- What the calls have written last. -/
def lastWritten {β : Type} (write : IoApicCall → Option β) (calls : List IoApicCall) : Option β :=
  (calls.filterMap write).getLast?

@[simp] theorem lastWritten_nil {β : Type} (write : IoApicCall → Option β) :
    lastWritten write [] = none := rfl

/-- The first call counts if none after it writes. -/
@[simp] theorem lastWritten_cons {β : Type} (write : IoApicCall → Option β) (c : IoApicCall)
    (calls : List IoApicCall) :
    lastWritten write (c :: calls) = (lastWritten write calls).or (write c) := by
  cases hc : write c with
  | none => rw [lastWritten, List.filterMap_cons_none hc, Option.or_none, lastWritten]
  | some v =>
      rw [lastWritten, List.filterMap_cons_some hc, List.getLast?_cons, lastWritten]
      cases (calls.filterMap write).getLast? <;> rfl

/-- If a call writes, then what was written last is what some call writes. -/
theorem lastWritten_of_mem {β : Type} (write : IoApicCall → Option β) {calls : List IoApicCall}
    {c : IoApicCall} {v : β} (hc : c ∈ calls) (hv : write c = some v) :
    ∃ w, lastWritten write calls = some w ∧ ∃ c' ∈ calls, write c' = some w := by
  have hne : calls.filterMap write ≠ [] :=
    List.ne_nil_of_mem (List.mem_filterMap.2 ⟨c, hc, hv⟩)
  exact ⟨_, List.getLast?_eq_some_getLast hne, List.mem_filterMap.1 (List.getLast_mem hne)⟩

namespace Redirection

variable (t : Redirection) (p : Fin 24) (c : IoApicCall)

theorem modify_entry (slot : BitVec 8) (f : RedirectionEntry → RedirectionEntry) :
    (t.modify slot f).entry p = if p.val = slot.toNat then f (t.entry p) else t.entry p := rfl

theorem vector_apply : ((t.apply c).entry p).vector = (c.vectorFor p).getD (t.entry p).vector := by
  cases c with
  | config slot vector =>
      rw [apply, modify_entry, IoApicCall.vectorFor]
      split <;> rfl
  | allow slot | forbid slot =>
      rw [apply, modify_entry]
      split <;> rfl
  | _ => rfl

theorem mask_apply : ((t.apply c).entry p).mask = (c.maskFor p).getD (t.entry p).mask := by
  cases c with
  | config slot vector =>
      rw [apply, modify_entry]
      split <;> rfl
  | allow slot | forbid slot =>
      rw [apply, modify_entry, IoApicCall.maskFor]
      split <;> rfl
  | _ => rfl

theorem destination_apply :
    ((t.apply c).entry p).logicalDestination = c.destination.getD (t.entry p).logicalDestination ∧
      ((t.apply c).entry p).destinationMode =
        c.destinationMode.getD (t.entry p).destinationMode := by
  cases c with
  | config slot vector =>
      rw [apply, modify_entry]
      split <;> exact ⟨rfl, rfl⟩
  | allow slot | forbid slot =>
      rw [apply, modify_entry]
      split <;> exact ⟨rfl, rfl⟩
  | _ => exact ⟨rfl, rfl⟩

end Redirection

namespace IoApicRun

variable {s : IoApicRun} {apic : IoApic} {p : Fin 24}

/-- The calls that have returned. -/
def calls (s : IoApicRun) : List IoApicCall := s.done.map Prod.fst

/-! ## Calls return -/

theorem admits_access (s : IoApicRun) : s.Admits .access := fun _ h => nomatch h

/-- What is left of a call that answers nothing is executed, and the call returns. -/
theorem runs_actions {c : IoApicCall} {todo : List RegAction}
    (htodo : ∀ a ∈ todo, ∃ reg change, a = .modify reg change) : ∀ {s : IoApicRun},
      s.call = some c → s.todo = todo → s.pc = .select →
        ∃ s', Runs step Admits s s' ∧ s'.call = none ∧ s'.done = s.done ++ [(c, none)] := by
  induction todo with
  | nil =>
      intro s hcall hs hpc
      refine ⟨s.ret c none, Runs.refl.tail s.admits_access ?_, rfl, rfl⟩
      rw [step, hcall, Option.map_some, accessStep, hs]
  | cons a todo ih =>
      intro s hcall hs hpc
      obtain ⟨reg, change, rfl⟩ := htodo a List.mem_cons_self
      obtain ⟨apic, call, _, _, done⟩ := s
      subst hcall hs hpc
      -- select, load and store
      have hselect := Runs.refl.tail (admits_access _) (rfl : step
        ⟨apic, some c, .modify reg change :: todo, .select, done⟩ .access = some
          ⟨apic.select reg, some c, .modify reg change :: todo, .load, done⟩)
      have hload := hselect.tail (admits_access _) rfl
      let apic' := (apic.select reg).store (change (apic.select reg).load)
      have hstore : Runs step Admits ⟨apic, some c, .modify reg change :: todo, .select, done⟩
          ⟨apic', some c, todo, .select, done⟩ := hload.tail (admits_access _) rfl
      obtain ⟨s', hruns, hret, hdone⟩ :=
        ih (s := ⟨apic', some c, todo, .select, done⟩)
          (fun b hb => htodo b (List.mem_cons_of_mem _ hb)) rfl rfl rfl
      exact ⟨s', hstore.trans hruns, hret, hdone⟩

/-- A call returns. -/
theorem runs_call {c : IoApicCall} (hc : c.SlotOk) (hcall : s.call = none) :
    ∃ s', Runs step Admits s s' ∧ s'.call = none ∧ s'.calls = s.calls ++ [c] := by
  obtain ⟨apic, _, todo, pc, done⟩ := s
  subst hcall
  have hbegin : Runs step Admits ⟨apic, none, todo, pc, done⟩
      ⟨apic, some c, c.actions, .select, done⟩ := by
    refine Runs.refl.tail (i := .call c) (fun c' h => ?_) rfl
    obtain rfl := IoApicLabel.call.inj h
    exact hc
  have hcalls : ∀ {s' : IoApicRun} {answer : Option Bool}, s'.done = done ++ [(c, answer)] →
      s'.calls = calls ⟨apic, none, todo, pc, done⟩ ++ [c] := by
    intro s' answer hdone
    rw [calls, calls, hdone, List.map_append]
    rfl
  by_cases hstatus : ∃ slot, c = .status slot
  · obtain ⟨slot, rfl⟩ := hstatus
    have hselect := hbegin.tail (admits_access _) rfl
    exact ⟨_, hselect.tail (admits_access _) rfl, rfl, hcalls rfl⟩
  · have hmodify : ∀ a ∈ c.actions, ∃ reg change, a = .modify reg change := by
      intro a ha
      cases a with
      | modify reg change => exact ⟨reg, change, rfl⟩
      | test reg answer => exact absurd (IoApicCall.test_mem ha) hstatus
    obtain ⟨s', hruns, hret, hdone⟩ := runs_actions hmodify (c := c)
      (s := ⟨apic, some c, c.actions, .select, done⟩) rfl rfl rfl
    exact ⟨s', hbegin.trans hruns, hret, hcalls hdone⟩

/-- Any calls can be made, one after the other. -/
theorem runs_calls {cs : List IoApicCall} (hcs : ∀ c ∈ cs, c.SlotOk) : ∀ {s : IoApicRun},
    s.call = none → ∃ s', Runs step Admits s s' ∧ s'.call = none ∧ s'.calls = s.calls ++ cs := by
  induction cs with
  | nil => exact fun hcall => ⟨_, .refl, hcall, (List.append_nil _).symm⟩
  | cons c cs ih =>
      intro s hcall
      obtain ⟨t, hruns, hidle, hcalls⟩ := runs_call (hcs c List.mem_cons_self) hcall
      have hrest : ∀ d ∈ cs, d.SlotOk := fun d hd => hcs d (List.mem_cons_of_mem c hd)
      obtain ⟨s', hruns', hidle', hcalls'⟩ := ih hrest hidle
      refine ⟨s', hruns.trans hruns', hidle', ?_⟩
      rw [hcalls', hcalls, List.append_assoc]
      rfl

/-! ## The result -/

/-- When all calls are over, a field that calls overwrite has what was written last. -/
theorem entry_last_written {β : Type} (read : RedirectionEntry → β) (write : IoApicCall → Option β)
    (hwrite : ∀ (t : Redirection) (c : IoApicCall),
      read ((t.apply c).entry p) = (write c).getD (read (t.entry p)))
    (hrun : Runs step Admits (idle apic) s) (hcall : s.call = none) :
    read (s.apic.table.entry p) =
      (lastWritten write s.calls).getD (read (apic.table.entry p)) := by
  have hR₀ : (idle apic).Follows apic.table := rfl
  obtain ⟨js, t, hdone, -, hexec, hR⟩ := calls_simulate.run hR₀ hrun
  rw [List.map_id] at hdone
  obtain rfl : s.done = js := hdone
  have hstep : ∀ (t : Redirection) (c : IoApicCall × Option Bool) (t' : Redirection),
      Redirection.step t c = some t' →
        read (t'.entry p) = (write c.1).getD (read (t.entry p)) := by
    intro t c t' h
    rw [Redirection.step] at h
    split at h
    case isTrue =>
        obtain rfl := Option.some.inj h
        exact hwrite t c.1
    case isFalse => cases h
  rw [exec_eq_foldlM] at hexec
  have hlast := foldlM_last_write (fun t : Redirection => read (t.entry p)) (fun c => write c.1)
    hstep hexec
  rw [Follows, hcall] at hR
  rw [lastWritten, calls, List.filterMap_map, show s.apic.table = t from hR]
  exact hlast

/-- Where an interrupt goes, from what was written last. -/
theorem mayReach_iff (hrun : Runs step Admits (idle apic) s) (hcall : s.call = none)
    {m : BitVec 1} {v cpus : BitVec 8}
    (hm : lastWritten (IoApicCall.maskFor p) s.calls = some m)
    (hv : lastWritten (IoApicCall.vectorFor p) s.calls = some v)
    (hcpus : lastWritten IoApicCall.destination s.calls = some cpus)
    (hlogical : lastWritten IoApicCall.destinationMode s.calls = some logicalMode)
    {vector : BitVec 8} {c : Nat} :
    (s.apic.table.entry p).MayReach vector c ↔
      m = maskEnabled ∧ v = vector ∧ cpus.getLsbD c = true := by
  have hmask : (s.apic.table.entry p).mask = m := by
    rw [entry_last_written (·.mask) _ (fun t c => t.mask_apply p c) hrun hcall, hm]
    rfl
  have hvector : (s.apic.table.entry p).vector = v := by
    rw [entry_last_written (·.vector) _ (fun t c => t.vector_apply p c) hrun hcall, hv]
    rfl
  have hdest : (s.apic.table.entry p).logicalDestination = cpus := by
    rw [entry_last_written (·.logicalDestination) _ (fun t c => (t.destination_apply p c).1) hrun
      hcall, hcpus]
    rfl
  have hmode : (s.apic.table.entry p).destinationMode = logicalMode := by
    rw [entry_last_written (·.destinationMode) _ (fun t c => (t.destination_apply p c).2) hrun
      hcall, hlogical]
    rfl
  constructor
  · rintro ⟨hallowed, -, hvec, hlisted⟩
    exact ⟨hmask.symm.trans hallowed, hvector.symm.trans hvec, hdest ▸ hlisted⟩
  · rintro ⟨hallowed, hvec, hlisted⟩
    exact ⟨hmask.trans hallowed, hmode, hvector.trans hvec, hdest.symm ▸ hlisted⟩

/-- After a call of `init` an interrupt at a pin may reach a CPU under a vector exactly if the last
call about the mask of the pin has allowed it, the last vector is this one and the last set of CPUs
has this CPU. All calls are for the 24 slots of the chip. -/
theorem pin_reaches_iff (hrun : Runs step Admits (idle apic) s) (hcall : s.call = none)
    {ioapicID cpumask : BitVec 8} (hinit : IoApicCall.init ioapicID cpumask ∈ s.calls)
    (p : Fin 24) (vector : BitVec 8) (c : Nat) :
    (s.apic.table.entry p).MayReach vector c ↔
      lastWritten (IoApicCall.maskFor p) s.calls = some maskEnabled ∧
      lastWritten (IoApicCall.vectorFor p) s.calls = some vector ∧
      ∃ cpus, lastWritten IoApicCall.destination s.calls = some cpus ∧ cpus.getLsbD c = true := by
  obtain ⟨m, hm, -⟩ := lastWritten_of_mem (IoApicCall.maskFor p) hinit rfl
  obtain ⟨v, hv, -⟩ := lastWritten_of_mem (IoApicCall.vectorFor p) hinit rfl
  obtain ⟨cpus, hcpus, -⟩ := lastWritten_of_mem IoApicCall.destination hinit rfl
  obtain ⟨mode, hmode, c', -, hc'⟩ := lastWritten_of_mem IoApicCall.destinationMode hinit rfl
  have hlogical : mode = logicalMode := by
    -- no call chooses the other mode
    cases c' with
    | init ioapicID cpumask => exact (Option.some.inj hc').symm
    | _ => cases hc'
  rw [mayReach_iff hrun hcall hm hv hcpus (hlogical ▸ hmode), hm, hv, hcpus]
  simp only [Option.some.injEq, exists_eq_left']

/-- Slot 1 is given a vector, allowed and forbidden, and allowed again. -/
theorem pin_reaches_iff_keyboard : ∃ s,
    Runs step Admits (idle ⟨0, fun _ => 0⟩) s ∧ ∀ c : Nat,
      (s.apic.table.entry 1).MayReach 33 c ↔ (0xf : BitVec 8).getLsbD c = true := by
  have hok : ∀ c ∈ [IoApicCall.init 0 0xf, .config 1 33, .allow 1, .forbid 1, .allow 1],
      c.SlotOk := by
    intro c hc
    simp only [List.mem_cons, List.not_mem_nil, or_false] at hc
    rcases hc with rfl | rfl | rfl | rfl | rfl <;> rintro slot ⟨⟩ <;> decide
  obtain ⟨s, hrun, hcall, hcalls⟩ := runs_calls hok (s := idle ⟨0, fun _ => 0⟩) rfl
  refine ⟨s, hrun, fun c => ?_⟩
  have hinit : IoApicCall.init 0 0xf ∈ s.calls := hcalls ▸ List.mem_cons_self
  rw [pin_reaches_iff hrun hcall hinit, hcalls]
  constructor
  · rintro ⟨-, -, _, ⟨⟩, hc⟩
    exact hc
  · exact fun hc => ⟨rfl, rfl, _, rfl, hc⟩

end IoApicRun

end MPStuBS.Machine
