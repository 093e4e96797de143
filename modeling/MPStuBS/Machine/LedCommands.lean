import MPStuBS.Machine.KeyBytes
import MPStuBS.Machine.KeyLeds

/-!
# Commands for the keyboard

No byte of a command is lost, because `send_byte` waits until the one before it was taken:
what the keyboard has received, the byte in the buffer and those that are still to be
sent are together what the methods have sent (`CommandsInv`). When nothing is left to be taken, the
keyboard has executed the last command, so that its LEDs show the locks (`leds_shown`).
-/

set_option autoImplicit false

namespace MPStuBS.Machine

open MPStuBS.Lib.Run KeyboardController

/-! ## The commands of a method -/

namespace KeyboardController

variable {s : KeyboardController} (stray : KeyTable → Nat → BitVec 8)

theorem pressed_sent (code : BitVec 8) : (s.pressed stray code).sent = s.sent ∨
    (s.pressed stray code).sent = s.sent ++ [(cmdSetLed, (s.pressed stray code).ledCtrlByte)] := by
  rcases pressed_cases stray code s with
    ⟨-, b, -, heq⟩ | ⟨-, led, on, heq⟩ | ⟨-, heq⟩ | ⟨-, heq⟩
  · rw [heq]
    exact .inl rfl
  · rw [heq]
    exact .inr rfl
  · rw [heq]
    exact .inl rfl
  · rw [heq]
    exact .inl (SameLeds.getAsciiCode stray code).sent

/-- A code sends no command, or the LEDs. -/
theorem decode_sent (code : BitVec 8) : (s.decode stray code).1.sent = s.sent ∨
    (s.decode stray code).1.sent =
      s.sent ++ [(cmdSetLed, (s.decode stray code).1.ledCtrlByte)] := by
  unfold KeyboardController.decode
  split
  · exact .inl rfl
  split
  · exact .inl (SameLeds.released (s := s.onGather Key.invalidate) _).sent
  · exact pressed_sent (s := s.onGather Key.invalidate) stray code

/-- The data of the last command of a kind. -/
def lastData (command : BitVec 8) (commands : List (BitVec 8 × BitVec 8)) : Option (BitVec 8) :=
  (commands.filter (fun c => c.1 = command)).getLast?.map Prod.snd

theorem lastData_concat (command : BitVec 8) (commands : List (BitVec 8 × BitVec 8))
    (c : BitVec 8 × BitVec 8) : lastData command (commands ++ [c]) =
      if c.1 = command then some c.2 else lastData command commands := by
  by_cases hc : c.1 = command
  · simp [lastData, List.filter_append, hc]
  · simp [lastData, List.filter_append, hc]

/-- The two commands that are used, with data that is no command. -/
structure CommandOk (c : BitVec 8 × BitVec 8) : Prop where
  command : c.1 = cmdSetLed ∨ c.1 = cmdSetSpeed
  data : c.2 < KeyboardUnit.firstCommand

/-- The commands that were sent for the LEDs and for the repeat rate. -/
structure CommandsOk (s : KeyboardController) : Prop where
  leds : LedsAgree s
  ok : ∀ c ∈ s.sent, CommandOk c
  rate : lastData cmdSetSpeed s.sent = some 0

theorem commandsOk_construct : CommandsOk construct := by
  constructor
  · exact LedsAgree.construct
  · intro c hc
    have hcommands : c ∈ [(cmdSetLed, (0 : BitVec 8)), (cmdSetLed, 0), (cmdSetLed, 0),
      (cmdSetSpeed, 0)] := hc
    have hdata : (0 : BitVec 8) < KeyboardUnit.firstCommand := by decide
    simp only [List.mem_cons, List.not_mem_nil, or_false] at hcommands
    rcases hcommands with rfl | rfl | rfl | rfl
    · exact ⟨.inl rfl, hdata⟩
    · exact ⟨.inl rfl, hdata⟩
    · exact ⟨.inl rfl, hdata⟩
    · exact ⟨.inr rfl, hdata⟩
  · rfl

/-- The byte for the LEDs has only their bits. -/
theorem LedsAgree.lt_firstCommand (h : LedsAgree s) :
    s.ledCtrlByte < KeyboardUnit.firstCommand := by
  have hmask : s.ledCtrlByte = s.ledCtrlByte &&& 7 := by
    calc s.ledCtrlByte = s.ledCtrlByte &&& (7 ||| ~~~7) := by
          rw [BitVec.or_not_self, BitVec.and_allOnes]
      _ = s.ledCtrlByte &&& 7 := by
          rw [BitVec.and_or_distrib_left, h.others]
          exact BitVec.or_zero
  have hle : s.ledCtrlByte.toNat ≤ 7 := by
    rw [hmask, BitVec.toNat_and]
    exact Nat.and_le_right
  exact BitVec.lt_def.2 (Nat.lt_of_le_of_lt hle (by decide))

theorem CommandsOk.decode (h : CommandsOk s) (code : BitVec 8) :
    CommandsOk (s.decode stray code).1 := by
  have hleds := h.leds.decode stray code
  rcases decode_sent stray code (s := s) with hsent | hsent
  · refine ⟨hleds, ?_, ?_⟩
    · rw [hsent]
      exact h.ok
    · rw [hsent]
      exact h.rate
  · refine ⟨hleds, ?_, ?_⟩
    · intro c hc
      rw [hsent] at hc
      rcases List.mem_append.1 hc with hc | hc
      · exact h.ok c hc
      · rw [List.mem_singleton.1 hc]
        exact ⟨.inl rfl, hleds.lt_firstCommand⟩
    · have hne : ¬ cmdSetLed = cmdSetSpeed := by decide
      rw [hsent, lastData_concat, if_neg hne]
      exact h.rate

end KeyboardController

/-! ## The keyboard after some commands -/

namespace KeyboardUnit

theorem receive_command (k : KeyboardUnit) {c : BitVec 8 × BitVec 8} (h : CommandOk c) :
    [c.1, c.2].foldl receive k = { k with
      command := none
      leds := if c.1 = cmdSetLed then c.2 else k.leds
      rate := if c.1 = cmdSetSpeed then c.2 else k.rate } := by
  have hdata : ¬ c.2 ≥ firstCommand := by
    have hlt := BitVec.lt_def.1 h.data
    rw [ge_iff_le, BitVec.le_def]
    omega
  have hled : cmdSetLed ≥ firstCommand := by decide
  have hspeed : cmdSetSpeed ≥ firstCommand := by decide
  have hne : ¬ cmdSetSpeed = cmdSetLed := by decide
  have hne' : ¬ cmdSetLed = cmdSetSpeed := by decide
  rcases h.command with hc | hc
  · simp [receive, hc, hdata, hled, hne']
  · simp [receive, hc, hdata, hspeed, hne]

variable {commands : List (BitVec 8 × BitVec 8)}

theorem receive_commands (k : KeyboardUnit) (h : ∀ c ∈ commands, CommandOk c) :
    ((commandBytes commands).foldl receive k).leds =
        (lastData cmdSetLed commands).getD k.leds ∧
      ((commandBytes commands).foldl receive k).rate =
        (lastData cmdSetSpeed commands).getD k.rate := by
  induction commands using List.reverseRecOn with
  | nil => exact ⟨rfl, rfl⟩
  | append_singleton commands c ih =>
      have hc : CommandOk c := h c (List.mem_append_right _ (List.mem_singleton_self c))
      obtain ⟨hleds, hrate⟩ := ih fun d hd => h d (List.mem_append_left _ hd)
      have hbytes : commandBytes (commands ++ [c]) = commandBytes commands ++ [c.1, c.2] := by
        rw [commandBytes, List.flatMap_append]
        rfl
      rw [hbytes, List.foldl_append, receive_command _ hc, lastData_concat, lastData_concat]
      constructor
      · by_cases hled : c.1 = cmdSetLed
        · simp [hled]
        · simpa [hled] using hleds
      · by_cases hspeed : c.1 = cmdSetSpeed
        · simp [hspeed]
        · simpa [hspeed] using hrate

end KeyboardUnit

/-! ## Bytes on their way -/

/-- The bytes that `send_byte` is called for. -/
def KeyPhase.unsent : KeyPhase → List (BitVec 8)
  | .await byte bytes => byte :: bytes
  | .output byte bytes => byte :: bytes
  | _ => []

theorem KeyRun.unsent_sendBytes (bytes : List (BitVec 8)) :
    (KeyRun.sendBytes bytes).unsent = bytes := by
  cases bytes with
  | nil => rfl
  | cons byte bytes => rfl

namespace KeyRun

variable {stray : KeyTable → Nat → BitVec 8} {chip : KeyChip} {s s' : KeyRun}

/-- The method sends its commands behind those that were sent before. -/
def Appends (method : KeyboardController → KeyboardController) : Prop :=
  ∀ c : KeyboardController, c.sent <+: (method c).sent

/-- What the keyboard has received and what is on the way to it, together with the byte that was in
the buffer at first, are the commands that were sent. -/
structure CommandsInv (chip : KeyChip) (s : KeyRun) : Prop where
  appends : ∀ method, KeyStatement.run method ∈ s.todo → Appends method
  bytes : s.received ++ s.chip.input.toList ++ s.phase.unsent =
    chip.input.toList ++ commandBytes s.controller.sent
  keyboard : s.chip.keyboard = s.received.foldl KeyboardUnit.receive chip.keyboard

theorem commandsInv_powerOn (chip : KeyChip) : CommandsInv chip (powerOn chip) := by
  refine ⟨?_, ?_, rfl⟩
  · intro method hmem c
    simp only [powerOn, constructor, List.mem_cons, List.not_mem_nil, or_false, reduceCtorEq,
      false_or, KeyStatement.run.injEq] at hmem
    rcases hmem with rfl | rfl | rfl | rfl <;> exact List.prefix_append _ _
  · rfl

/-- Steps that send nothing. -/
theorem CommandsInv.quiet (h : CommandsInv chip s) (htodo : s'.todo <:+ s.todo)
    (hunsent : s'.phase.unsent = s.phase.unsent) (hreceived : s'.received = s.received)
    (hinput : s'.chip.input = s.chip.input) (hkeyboard : s'.chip.keyboard = s.chip.keyboard)
    (hsent : s'.controller.sent = s.controller.sent) : CommandsInv chip s' := by
  refine ⟨fun method hmem => h.appends method (htodo.subset hmem), ?_, ?_⟩
  · rw [hreceived, hinput, hunsent, hsent]
    exact h.bytes
  · rw [hreceived, hkeyboard]
    exact h.keyboard

/-- A method is called. -/
theorem CommandsInv.perform (h : CommandsInv chip s)
    {method : KeyboardController → KeyboardController} (hmethod : Appends method)
    (hunsent : s.phase.unsent = []) : CommandsInv chip (s.perform method) := by
  refine ⟨h.appends, ?_, h.keyboard⟩
  obtain ⟨commands, hcommands⟩ := hmethod s.controller
  have hbytes := h.bytes
  rw [hunsent, List.append_nil] at hbytes
  simp only [KeyRun.perform, unsent_sendBytes]
  rw [hbytes, ← hcommands, List.drop_left, List.append_assoc, commandBytes, commandBytes,
    commandBytes, List.flatMap_append]

/-! ## Steps -/

theorem appends_decode (stray : KeyTable → Nat → BitVec 8) (byte : BitVec 8) :
    Appends fun c => (c.decode stray byte).1 := by
  intro c
  rcases decode_sent stray byte (s := c) with hsent | hsent
  · exact ⟨[], (List.append_nil _).trans hsent.symm⟩
  · exact ⟨_, hsent.symm⟩

/-- The next access of the program, which writes into an empty buffer only. -/
theorem CommandsInv.access (h : CommandsInv chip s) (hok : PhaseOk s.chip s.todo s.phase)
    {others : BitVec 8} (hstep : s.access stray others = some s') : CommandsInv chip s' := by
  have hunsent : ∀ {phase phase' : KeyPhase}, s.phase = phase → phase'.unsent = phase.unsent →
      phase'.unsent = s.phase.unsent := fun hphase h => hphase ▸ h
  cases accessed_of_access hstep with
  | drainFull hphase _ _ => exact h.quiet List.suffix_rfl (hunsent hphase rfl) rfl rfl rfl rfl
  | drainEmpty _ htodo _ => exact h.quiet (htodo ▸ List.suffix_cons _ _) rfl rfl rfl rfl rfl
  | run hphase htodo =>
      have hmethod := h.appends _ (htodo ▸ List.mem_cons_self)
      have hsent := h.perform hmethod (congrArg KeyPhase.unsent hphase)
      exact hsent.quiet (htodo ▸ List.suffix_cons _ _) rfl rfl rfl rfl rfl
  | drainByte hphase => exact h.quiet List.suffix_rfl (hunsent hphase rfl) rfl rfl rfl rfl
  | hitEmpty hphase _ => exact h.quiet List.suffix_rfl (hunsent hphase rfl) rfl rfl rfl rfl
  | hitMouse hphase _ _ => exact h.quiet List.suffix_rfl (hunsent hphase rfl) rfl rfl rfl rfl
  | hitKey hphase _ _ => exact h.quiet List.suffix_rfl (hunsent hphase rfl) rfl rfl rfl rfl
  | dropByte hphase => exact h.quiet List.suffix_rfl (hunsent hphase rfl) rfl rfl rfl rfl
  | decode hphase =>
      have hmethod := appends_decode stray s.chip.output.byte
      have hsent := h.perform hmethod (congrArg KeyPhase.unsent hphase)
      exact hsent.quiet List.suffix_rfl rfl rfl rfl rfl rfl
  | wait _ _ => exact h
  | ready hphase _ => exact h.quiet List.suffix_rfl (hunsent hphase rfl) rfl rfl rfl rfl
  | @output byte bytes hphase =>
      rw [hphase] at hok
      cases hok with
      | output hinput =>
          have hbytes := h.bytes
          rw [hphase, hinput] at hbytes
          refine ⟨h.appends, ?_, h.keyboard⟩
          rw [← hbytes]
          show s.received ++ [byte] ++ (sendBytes bytes).unsent = s.received ++ [] ++ byte :: bytes
          rw [unsent_sendBytes, List.append_nil, List.append_assoc]
          rfl

theorem CommandsInv.take (h : CommandsInv chip s) (hstep : s.take = some s') :
    CommandsInv chip s' := by
  obtain ⟨byte, hinput, rfl⟩ := take_eq_some hstep
  refine ⟨h.appends, ?_, ?_⟩
  · rw [← h.bytes, hinput]
    simp
  · rw [List.foldl_append, ← h.keyboard]
    rfl

theorem CommandsInv.step (h : CommandsInv chip s) (hok : PhaseOk s.chip s.todo s.phase)
    {label : KeyLabel} (hstep : s.step stray label = some s') : CommandsInv chip s' := by
  cases label with
  | call =>
      obtain ⟨hphase, -, rfl⟩ := call_eq_some hstep
      have hunsent : s.phase.unsent = [] := congrArg KeyPhase.unsent hphase
      exact h.quiet List.suffix_rfl hunsent.symm rfl rfl rfl rfl
  | access others => exact h.access hok hstep
  | take => exact h.take hstep
  | arrive b =>
      obtain ⟨-, rfl⟩ := arrive_eq_some hstep
      exact h.quiet List.suffix_rfl rfl rfl rfl rfl rfl

/-- The calls keep what is known of the commands. -/
theorem commandsOk_of_exec {log : List PortEvent} : ∀ {c c' : KeyboardController}, CommandsOk c →
    exec (PortEvent.step stray) c log = some c' → CommandsOk c' := by
  induction log with
  | nil =>
      intro c c' hc h
      rw [← Option.some.inj h]
      exact hc
  | cons e log ih =>
      intro c c' hc h
      obtain ⟨d, hstep, hexec⟩ := exec_cons_cases h
      refine ih ?_ hexec
      cases e with
      | drained b =>
          rw [← Option.some.inj hstep]
          exact hc
      | hit status byte key =>
          rw [PortEvent.step] at hstep
          by_cases hkey : (c.keyHit stray status byte).2 = key
          · rw [if_pos hkey] at hstep
            rw [← Option.some.inj hstep]
            by_cases hout : status &&& outb = outb
            · by_cases haux : status &&& auxb = auxb
              · rw [keyHit_mouse stray c byte hout haux]
                exact hc
              · rw [keyHit_key stray c byte hout haux]
                exact hc.decode stray byte
            · rw [keyHit_empty stray c byte hout]
              exact hc
          · rw [if_neg hkey] at hstep
            cases hstep

/-- No byte of a command is lost. While no method is in progress and the keyboard has taken all
bytes, its LEDs show the locks and it repeats keys at the highest rate. -/
theorem leds_shown (h : Reaches (KeyRun.step stray) (powerOn chip) s) :
    s.received ++ s.chip.input.toList ++ s.phase.unsent =
        chip.input.toList ++ commandBytes s.controller.sent ∧
      (s.Idle → s.chip.input = none →
        (∀ led : Led, s.chip.keyboard.leds &&& led.mask ≠ 0 ↔
          s.controller.gather.has led.lock = true) ∧ s.chip.keyboard.rate = 0) := by
  have hinv : BytesInv stray s ∧ CommandsInv chip s := by
    apply Runs.invariant h
    · exact ⟨bytesInv_powerOn chip, commandsInv_powerOn chip⟩
    · rintro a b label ⟨ha, ha'⟩ _ hstep
      exact ⟨ha.step hstep, ha'.step ha.phase hstep⟩
  refine ⟨hinv.2.bytes, fun hidle hinput => ?_⟩
  have hok : CommandsOk s.controller := by
    have hsettled : s.settled = s.controller := by
      rw [settled, hidle.2]
      rfl
    exact commandsOk_of_exec commandsOk_construct (hsettled ▸ hinv.1.hits)
  have hreceived : s.received = chip.input.toList ++ commandBytes s.controller.sent := by
    rw [← hinv.2.bytes, hinput, hidle.1]
    simp [KeyPhase.unsent]
  obtain ⟨hleds, hrate⟩ := KeyboardUnit.receive_commands
    (chip.input.toList.foldl KeyboardUnit.receive chip.keyboard) hok.ok
  have htold : lastData cmdSetLed s.controller.sent = some s.controller.ledCtrlByte :=
    hok.leds.told
  rw [htold] at hleds
  rw [hok.rate] at hrate
  rw [hinv.2.keyboard, hreceived, List.foldl_append]
  refine ⟨fun led => ?_, hrate⟩
  rw [hleds]
  exact hok.leds.lit led

/-- CapsLock was pressed, and its LED is on. -/
theorem leds_shown_capsLock : ∃ s : KeyRun, s.controller.gather.has .capsLock = true ∧
    s.chip.keyboard.leds &&& Led.capsLock.mask ≠ 0 ∧ s.chip.keyboard.rate = 0 := by
  obtain ⟨s, hs, hphase, htodo, hinput, hlock⟩ : ∃ s,
      exec (KeyRun.step fun _ _ => 0) (powerOn mouseChip) capsLockLabels = some s ∧
        s.phase = .statement ∧ s.todo = [] ∧ s.chip.input = none ∧
          s.controller.gather.has .capsLock = true := ⟨_, rfl, rfl, rfl, rfl, rfl⟩
  obtain ⟨hleds, hrate⟩ := (leds_shown (reaches_of_exec hs)).2 ⟨hphase, htodo⟩ hinput
  exact ⟨s, hlock, (hleds .capsLock).2 hlock, hrate⟩

end KeyRun

end MPStuBS.Machine
