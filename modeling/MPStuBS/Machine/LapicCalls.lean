import MPStuBS.Machine.LocalApic

/-!
# Calls of the local APIC

A call executed access by access, with interrupts, other activity of the chip and
deliveries in between, has the effect of the call executed as a whole. What is known in
the middle of a call (`MidCall`) is that the writable bits are as after the parts that
are over, that a value on its way to a register is the change of what this register
holds, and that behind the waiting loop of `sendIPI` no message waits any more, because
nobody but `sendIPI` sends one.
-/

set_option autoImplicit false

namespace MPStuBS.Machine

open MPStuBS.Lib MPStuBS.Lib.Run

/-! ## Agreement in the writable bits -/

namespace Lapic

/-- Two chips that agree in all bits that software can write, and have sent the same. -/
structure Same (s s' : Lapic) : Prop where
  reg : Registers.Same LapicReg.writable s.reg s'.reg
  sent : s.sent = s'.sent

variable {s s' s'' : Lapic}

theorem Same.refl (s : Lapic) : s.Same s := ⟨Registers.Same.refl s.reg, rfl⟩

theorem Same.trans (h : s.Same s') (h' : s'.Same s'') : s.Same s'' :=
  ⟨h.reg.trans h'.reg, h.sent.trans h'.sent⟩

theorem Same.view (h : s.Same s') : s.view = s'.view := by
  have hldr : ldrLayout.get .lapicId (s.reg .ldr) = ldrLayout.get .lapicId (s'.reg .ldr) :=
    BitLayout.get_of_agreeOn (h.reg .ldr) List.mem_cons_self
  have hdfr : dfrLayout.get .model (s.reg .dfr) = dfrLayout.get .model (s'.reg .dfr) :=
    BitLayout.get_of_agreeOn (h.reg .dfr) List.mem_cons_self
  have htpr : ∀ f ∈ [TprField.taskPrioSub, TprField.taskPrio],
      tprLayout.get f (s.reg .tpr) = tprLayout.get f (s'.reg .tpr) := fun f hf =>
    BitLayout.get_of_agreeOn (h.reg .tpr) hf
  have hsvr : ∀ f ∈ [SvrField.spuriousVector, .apicEnable, .focusProcessorChecking],
      svrLayout.get f (s.reg .spiv) = svrLayout.get f (s'.reg .spiv) := fun f hf =>
    BitLayout.get_of_agreeOn (h.reg .spiv) hf
  simp only [Lapic.view, hldr, hdfr, htpr .taskPrio (by decide), htpr .taskPrioSub (by decide),
    hsvr .spuriousVector (by decide), hsvr .apicEnable (by decide),
    hsvr .focusProcessorChecking (by decide), h.sent]

theorem same_activity (s : Lapic) (bits : LapicReg → BitVec 32) : s.Same (s.activity bits) :=
  ⟨Registers.same_activity s.reg bits, rfl⟩

/-- Every access but the one to `ICR_L` leaves the messages alone. -/
theorem write_of_ne {r : LapicReg} (h : r ≠ .icrl) (value : BitVec 32) :
    s.write r value = { s with reg := Registers.store LapicReg.writable s.reg r value } :=
  if_neg h

theorem read_of_ne {r : LapicReg} (h : r ≠ .icrl) : s.read r = s.reg r := if_neg h

/-- `isIPIDelivered` says whether a message waits. -/
theorem read_icrl_idle :
    icrlLayout.get .deliveryStatus (s.read .icrl) = deliveryStatusIdle ↔ s.pending = false := by
  rw [read, if_pos rfl, BitLayout.get_set_self]
  cases s.pending <;> decide

/-- The end of an interrupt changes nothing that is stored. -/
theorem same_write_eoi (s : Lapic) : s.Same (s.write .eoi 0) := by
  rw [write_of_ne (by decide)]
  have hreadOnly : LapicReg.writable .eoi = 0 := rfl
  exact ⟨Registers.same_store_of_readOnly hreadOnly s.reg 0, rfl⟩

/-! ## Parts executed as a whole -/

/-- A part executed as a whole. -/
def perform (s : Lapic) : LapicAction → Lapic
  | .wait => s
  | .modify reg change => { s with reg := Registers.modify s.reg reg change }
  | .send data =>
      { s with
        reg := Registers.modify s.reg .icrl fun _ => data
        sent := s.sent ++ [IpiMessage.ofRegs (s.reg .icrh) data] }

/-- Messages from words that agree in the bits that software can write. -/
theorem ofRegs_congr {high high' low low' : BitVec 32}
    (hhigh : AgreeOn (LapicReg.writable .icrh) high high')
    (hlow : AgreeOn (LapicReg.writable .icrl) low low') :
    IpiMessage.ofRegs high low = IpiMessage.ofRegs high' low' := by
  have hget : ∀ f ∈ LapicReg.writableIcrL, icrlLayout.get f low = icrlLayout.get f low' :=
    fun f hf => BitLayout.get_of_agreeOn hlow hf
  have hdest : icrhLayout.get .destinationField high = icrhLayout.get .destinationField high' :=
    BitLayout.get_of_agreeOn hhigh List.mem_cons_self
  simp only [IpiMessage.ofRegs, hdest, hget .vector (by decide), hget .deliveryMode (by decide),
    hget .destinationMode (by decide), hget .level (by decide), hget .triggerMode (by decide),
    hget .destinationShorthand (by decide)]

/-- A message that no other one waits before is sent. -/
theorem Same.send (h : s.Same s') (hidle : s'.pending = false) (data : BitVec 32) :
    (s.perform (.send data)).Same (s'.write .icrl data) := by
  have hchange : Uniform fun _ : BitVec 32 => data := fun _ _ _ _ => AgreeOn.refl _
  have hreg : Registers.Same LapicReg.writable (s.perform (.send data)).reg
      (s'.write .icrl data).reg := h.reg.modify_store hchange (AgreeOn.refl _)
  have hhigh : AgreeOn (LapicReg.writable .icrh) (s.reg .icrh) ((s'.write .icrl data).reg .icrh) :=
    h.reg .icrh
  have hlow : AgreeOn (LapicReg.writable .icrl) data ((s'.write .icrl data).reg .icrl) :=
    (agreeOn_merge _ _ _).symm
  have hsent : (s'.write .icrl data).sent = s'.sent ++
      [IpiMessage.ofRegs ((s'.write .icrl data).reg .icrh) ((s'.write .icrl data).reg .icrl)] := by
    simp [write, hidle]
  refine ⟨hreg, ?_⟩
  rw [hsent, ← h.sent, ← ofRegs_congr hhigh hlow]
  rfl

/-- The parts of a call, executed as a whole, are the call. -/
theorem view_call (c : LapicCall) (s : Lapic) :
    (c.actions.foldl perform s).view = s.view.apply c := by
  cases c with
  | init =>
      simp (disch := decide) only [LapicCall.actions, List.foldl_cons, List.foldl_nil, perform,
        view, Registers.modify_self, Registers.modify_of_ne, LapicCall.initTpr, LapicCall.initSvr,
        BitLayout.get_set_self, BitLayout.get_set_of_ne, LapicView.apply]
  | setLogicalLAPICID id =>
      simp (disch := decide) only [LapicCall.actions, List.foldl_cons, List.foldl_nil, perform,
        view, Registers.modify_self, Registers.modify_of_ne, BitLayout.get_set_self,
        LapicView.apply]
  | sendIPI destination data =>
      simp (disch := decide) only [LapicCall.actions, List.foldl_cons, List.foldl_nil, perform,
        view, Registers.modify_self, Registers.modify_of_ne, BitLayout.get_set_self,
        LapicView.apply, IpiMessage.ofRegs]

end Lapic

/-! ## Calls, access by access -/

/-- A change is uniform, and nothing but `send` goes to `ICR_L`. -/
def LapicAction.Respects : LapicAction → Prop
  | .modify reg change => reg ≠ .icrl ∧ Uniform change
  | _ => True

theorem LapicCall.actions_respect (c : LapicCall) : ∀ a ∈ c.actions, a.Respects := by
  cases c with
  | init =>
      have htpr : Uniform LapicCall.initTpr :=
        (uniform_set tprLayout .taskPrioSub 0).comp (uniform_set tprLayout .taskPrio 0)
      have hsvr : Uniform LapicCall.initSvr :=
        (uniform_set svrLayout .focusProcessorChecking focusCpuDisabled).comp <|
          (uniform_set svrLayout .apicEnable lapicEnabled).comp
            (uniform_set svrLayout .spuriousVector 0xff)
      intro a ha
      simp only [actions, List.mem_cons, List.not_mem_nil, or_false] at ha
      rcases ha with rfl | rfl | rfl | rfl
      · exact ⟨by decide, uniform_set ldrLayout .lapicId 0⟩
      · exact ⟨by decide, htpr⟩
      · exact ⟨by decide, uniform_set dfrLayout .model destinationModelFlat⟩
      · exact ⟨by decide, hsvr⟩
  | setLogicalLAPICID id =>
      intro a ha
      obtain rfl := List.mem_singleton.1 ha
      exact ⟨by decide, uniform_set ldrLayout .lapicId id⟩
  | sendIPI destination data =>
      intro a ha
      simp only [actions, List.mem_cons, List.not_mem_nil, or_false] at ha
      rcases ha with rfl | rfl | rfl
      · exact trivial
      · exact ⟨by decide, uniform_set icrhLayout .destinationField destination⟩
      · exact trivial

/-- A message is sent at the end of its call. -/
theorem LapicCall.send_last {c : LapicCall} {data : BitVec 32} {pre rest : List LapicAction}
    (h : c.actions = pre ++ .send data :: rest) : rest = [] := by
  by_contra hne
  have hmem : LapicAction.send data ∈ c.actions.dropLast := by
    rw [h, List.dropLast_append_of_ne_nil (List.cons_ne_nil _ _),
      List.dropLast_cons_of_ne_nil hne]
    exact List.mem_append_right _ List.mem_cons_self
  cases c with
  | init => simp [actions] at hmem
  | setLogicalLAPICID id => simp [actions] at hmem
  | sendIPI destination data => simp [actions] at hmem

namespace LapicRun

/-- A value on its way to a register is the change of what the register holds. -/
def AtAction (s : LapicRun) : Prop :=
  ∀ value, s.value = some value → ∃ reg change rest, s.todo = .modify reg change :: rest ∧
    AgreeOn (LapicReg.writable reg) value (change (s.lapic.reg reg))

/-- The call `c` began with the view `v`. In the bits that software can write, the chip is as after
the parts that are over, each executed as a whole. Behind the waiting loop no message waits. -/
structure MidCall (s : LapicRun) (c : LapicCall) (v : LapicView) : Prop where
  progress : ∃ s₀ pre, s₀.view = v ∧ c.actions = pre ++ s.todo ∧
    (pre.foldl Lapic.perform s₀).Same s.lapic
  action : s.AtAction
  waited : ∀ data, .send data ∈ s.todo → .wait ∈ s.todo ∨ s.lapic.pending = false

/-- The view of the chip is `v`, or was `v` when the call in progress began. -/
def Follows (s : LapicRun) (v : LapicView) : Prop :=
  match s.call with
  | none => s.lapic.view = v
  | some c => s.MidCall c v

variable {s s' : LapicRun} {c : LapicCall} {v : LapicView}

/-- Only a part that changes a register has a value on its way. -/
theorem AtAction.value_none (h : s.AtAction) {a : LapicAction} {rest : List LapicAction}
    (htodo : s.todo = a :: rest) (ha : ∀ reg change, a ≠ .modify reg change) :
    s.value = none := by
  cases hvalue : s.value with
  | none => rfl
  | some value =>
      obtain ⟨reg, change, _, htodo', -⟩ := h value hvalue
      rw [htodo] at htodo'
      exact absurd (List.cons.inj htodo').1 (ha reg change)

/-- What the chip and the handlers do in the middle of a call. -/
theorem MidCall.frame (h : s.MidCall c v) {lapic : Lapic} {handlers : List AckPc}
    (hsame : s.lapic.Same lapic) (hpending : lapic.pending = false ∨
      lapic.pending = s.lapic.pending) :
    MidCall { s with lapic := lapic, handlers := handlers } c v := by
  obtain ⟨s₀, pre, h₀, hpre, hbefore⟩ := h.progress
  refine ⟨⟨s₀, pre, h₀, hpre, hbefore.trans hsame⟩, ?_, ?_⟩
  · intro value hvalue
    obtain ⟨reg, change, rest, htodo, hagree⟩ := h.action value hvalue
    have hmem : LapicAction.modify reg change ∈ c.actions := by
      rw [hpre, htodo]
      exact List.mem_append_right _ List.mem_cons_self
    exact ⟨reg, change, rest, htodo,
      hagree.trans ((LapicCall.actions_respect c _ hmem).2 _ _ _ (hsame.reg reg))⟩
  · intro data hdata
    refine (h.waited data hdata).imp_right fun hidle => ?_
    rcases hpending with hno | hkept
    · exact hno
    · exact hkept.trans hidle

theorem Follows.frame (h : s.Follows v) {lapic : Lapic} {handlers : List AckPc}
    (hsame : s.lapic.Same lapic) (hpending : lapic.pending = false ∨
      lapic.pending = s.lapic.pending) :
    Follows { s with lapic := lapic, handlers := handlers } v := by
  obtain ⟨lapic₀, call, todo, value, handlers₀, done⟩ := s
  cases call with
  | none => exact hsame.view.symm.trans h
  | some c => exact MidCall.frame h hsame hpending

/-- The call goes on to its next part. -/
theorem MidCall.next (h : s.MidCall c v) {a : LapicAction} {rest : List LapicAction}
    (htodo : s.todo = a :: rest) {lapic : Lapic}
    (hsame : ∀ s₀ : Lapic, s₀.Same s.lapic → (s₀.perform a).Same lapic)
    (hwaited : ∀ data, .send data ∈ rest → .wait ∈ rest ∨ lapic.pending = false) :
    MidCall { s with lapic := lapic, todo := rest, value := none } c v := by
  obtain ⟨s₀, pre, h₀, hpre, hbefore⟩ := h.progress
  refine ⟨⟨s₀, pre ++ [a], h₀, ?_, ?_⟩, fun value hvalue => (by cases hvalue), hwaited⟩
  · rw [hpre, htodo, List.append_assoc]
    rfl
  · rw [List.foldl_append, List.foldl_cons, List.foldl_nil]
    exact hsame _ hbefore

/-- An access leads on in the call, or the call returns. -/
theorem MidCall.access (h : s.MidCall c v) (hcall : s.call = some c) :
    (s.accessStep c).call = some c ∧ (s.accessStep c).done = s.done ∧ (s.accessStep c).MidCall c v ∨
      s.accessStep c = { s with call := none, done := s.done ++ [c] } ∧
        s.lapic.view = v.apply c := by
  obtain ⟨s₀, pre, h₀, hpre, hbefore⟩ := h.progress
  obtain ⟨lapic, call, todo, value, handlers, done⟩ := s
  obtain rfl : call = some c := hcall
  cases todo with
  | nil =>
      -- all parts are over
      rw [List.append_nil] at hpre
      refine .inr ⟨rfl, ?_⟩
      rw [← h₀, ← Lapic.view_call, hpre]
      exact hbefore.view.symm
  | cons a rest =>
      have hrespects := LapicCall.actions_respect c a
        (hpre ▸ List.mem_append_right _ List.mem_cons_self)
      cases a with
      | wait =>
          obtain rfl : value = none := h.action.value_none rfl fun _ _ => by simp
          by_cases hidle : icrlLayout.get .deliveryStatus (lapic.read .icrl) = deliveryStatusIdle
          · have hpending : lapic.pending = false := Lapic.read_icrl_idle.1 hidle
            have hnext := h.next rfl (fun _ hsame => hsame) fun _ _ => .inr hpending
            have hstep : accessStep ⟨lapic, some c, .wait :: rest, none, handlers, done⟩ c =
                ⟨lapic, some c, rest, none, handlers, done⟩ := if_pos hidle
            rw [hstep]
            exact .inl ⟨rfl, rfl, hnext⟩
          · have hstep : accessStep ⟨lapic, some c, .wait :: rest, none, handlers, done⟩ c =
                ⟨lapic, some c, .wait :: rest, none, handlers, done⟩ := if_neg hidle
            rw [hstep]
            exact .inl ⟨rfl, rfl, h⟩
      | modify reg change =>
          obtain ⟨hreg, hchange⟩ := hrespects
          cases value with
          | none =>
              refine .inl ⟨rfl, rfl, ⟨⟨s₀, pre, h₀, hpre, hbefore⟩, ?_, h.waited⟩⟩
              intro value hvalue
              obtain rfl := Option.some.inj hvalue
              refine ⟨reg, change, rest, rfl, ?_⟩
              rw [Lapic.read_of_ne hreg]
              exact AgreeOn.refl _
          | some value =>
              obtain ⟨_, _, _, htodo, hagree⟩ := h.action value rfl
              cases htodo
              refine .inl ⟨rfl, rfl, h.next rfl (fun t hsame => ?_) fun data hdata => ?_⟩
              · rw [Lapic.write_of_ne hreg]
                exact ⟨hsame.reg.modify_store hchange hagree, hsame.sent⟩
              · rw [Lapic.write_of_ne hreg]
                refine (h.waited data (List.mem_cons_of_mem _ hdata)).imp_left fun hwait => ?_
                exact (List.mem_cons.1 hwait).resolve_left (by simp)
      | send data =>
          obtain rfl := LapicCall.send_last hpre
          obtain rfl : value = none := h.action.value_none rfl fun _ _ => by simp
          have hpending : lapic.pending = false :=
            (h.waited data List.mem_cons_self).resolve_left (by simp)
          refine .inl ⟨rfl, rfl, h.next rfl (fun t hsame => hsame.send hpending data) ?_⟩
          exact fun _ hdata => absurd hdata List.not_mem_nil

/-- What the calls that have returned lead to is what the chip holds, or held when the call in
progress began. -/
theorem follows_step {v₀ : LapicView} {l : LapicLabel}
    (h : s.Follows (s.done.foldl LapicView.apply v₀)) (hstep : s.step l = some s') :
    s'.Follows (s'.done.foldl LapicView.apply v₀) := by
  cases l with
  | call c =>
      obtain ⟨lapic, call, todo, value, handlers, done⟩ := s
      cases call with
      | some c' => cases hstep
      | none =>
          cases handlers with
          | cons pc rest => cases hstep
          | nil =>
              obtain rfl := Option.some.inj hstep
              refine ⟨⟨lapic, [], h, rfl, Lapic.Same.refl lapic⟩, fun value hvalue => ?_, ?_⟩
              · cases hvalue
              · -- only `sendIPI` sends, and it waits first
                intro data hdata
                cases c with
                | init => simp [LapicCall.actions] at hdata
                | setLogicalLAPICID id => simp [LapicCall.actions] at hdata
                | sendIPI destination data => exact .inl List.mem_cons_self
  | interrupt =>
      obtain rfl := Option.some.inj hstep
      exact h.frame (Lapic.Same.refl _) (.inr rfl)
  | activity bits =>
      obtain rfl := Option.some.inj hstep
      exact h.frame (Lapic.same_activity _ bits) (.inr rfl)
  | delivered =>
      obtain rfl := Option.some.inj hstep
      exact h.frame ⟨Registers.Same.refl _, rfl⟩ (.inl rfl)
  | access =>
      rw [step, access] at hstep
      cases hhandlers : s.handlers with
      | cons pc rest =>
          rw [hhandlers] at hstep
          cases pc with
          | dummyRead =>
              obtain rfl := Option.some.inj hstep
              exact h.frame (Lapic.Same.refl _) (.inr rfl)
          | eoi =>
              obtain rfl := Option.some.inj hstep
              refine h.frame (Lapic.same_write_eoi _) (.inr ?_)
              rw [Lapic.write_of_ne (by decide)]
      | nil =>
          rw [hhandlers] at hstep
          cases hcall : s.call with
          | none => simp [hcall] at hstep
          | some c =>
              simp only [hcall, Option.map_some, Option.some.injEq] at hstep
              subst hstep
              rw [Follows, hcall] at h
              rcases h.access hcall with ⟨hcall', hdone, hmid⟩ | ⟨hret, hview⟩
              · rw [Follows, hcall', hdone]
                exact hmid
              · rw [hret, List.foldl_append, List.foldl_cons, List.foldl_nil]
                exact hview

theorem follows_run {lapic : Lapic} (hrun : Reaches step (idle lapic) s) :
    s.Follows (s.done.foldl LapicView.apply lapic.view) := by
  apply Runs.invariant hrun
  · exact rfl
  · exact fun a b l ha _ hstep => follows_step ha hstep

/-- The calls of `setupThisProcessor` leave an enabled local APIC in the flat model, with the
logical id that it was given. -/
theorem setup_view {lapic : Lapic} {id : BitVec 8} (hrun : Reaches step (idle lapic) s)
    (hcall : s.call = none) (hdone : s.done = [.init, .setLogicalLAPICID id]) :
    s.lapic.view.logicalId = id ∧ s.lapic.view.model = destinationModelFlat ∧
      s.lapic.view.apicEnable = lapicEnabled ∧ s.lapic.view.taskPrio = 0 := by
  have hfollows := follows_run hrun
  rw [Follows, hcall, hdone] at hfollows
  rw [show s.lapic.view = _ from hfollows]
  exact ⟨rfl, rfl, rfl, rfl⟩

/-- While no call is in progress, the fields of the chip that software writes are as the calls that
have returned have set them, one after the other, and the messages sent are those of the calls of
`sendIPI`. -/
theorem lapic_calls {lapic : Lapic} (hrun : Reaches step (idle lapic) s) (hcall : s.call = none) :
    s.lapic.view = s.done.foldl LapicView.apply lapic.view := by
  have hfollows := follows_run hrun
  rw [Follows, hcall] at hfollows
  exact hfollows

/-- The message of `sendCustomIPI`; its trigger mode is what was on the stack. -/
theorem customIPI_message (uninitialised : BitVec 32) (destination vector : BitVec 8) :
    { IpiMessage.ofRegs 0 (LapicCall.customIPI uninitialised vector) with
      destination := destination } =
    ⟨destination, vector, deliveryModeFixed, destinationModeLogical, levelAssert,
      icrlLayout.get .triggerMode uninitialised, destinationShorthandNo⟩ := by
  simp (disch := decide) only [IpiMessage.ofRegs, LapicCall.customIPI, BitLayout.get_set_self,
    BitLayout.get_set_of_ne]

/-- A message still waits when `sendIPI` is called, and two interrupts come, the second one in the
handler of the first one. -/
def assassinLabels : List LapicLabel :=
  [.call (.sendIPI 4 (LapicCall.customIPI 0 100)), .access, .delivered, .access, .access,
    .interrupt, .access, .interrupt, .access, .access, .access, .access, .access, .access]

theorem lapic_calls_assassin : ∃ s, Reaches step (idle ⟨fun _ => 0, true, []⟩) s ∧
    s.done = [.sendIPI 4 (LapicCall.customIPI 0 100)] ∧
    s.lapic.view.sent = [⟨4, 100, 0, 1, 1, 0, 0⟩] := by
  obtain ⟨s, hexec, hcall, hdone⟩ : ∃ s, exec step (idle ⟨fun _ => 0, true, []⟩) assassinLabels =
      some s ∧ s.call = none ∧ s.done = [.sendIPI 4 (LapicCall.customIPI 0 100)] :=
    ⟨_, rfl, rfl, rfl⟩
  have hrun := reaches_of_exec hexec
  refine ⟨s, hrun, hdone, ?_⟩
  rw [lapic_calls hrun hcall, hdone]
  decide

end LapicRun

end MPStuBS.Machine
