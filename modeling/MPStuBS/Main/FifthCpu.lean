import MPStuBS.Machine.MpDetection
import MPStuBS.Main.CpuIds

/-!
# More CPUs than elements

The detection lists up to `CPU_MAX` = 8 CPUs, but the arrays of the guard and the
dispatcher have 4 elements. The barrier keeps nobody out: it lets every CPU go that
reads 4, and with a fifth CPU this may be CPU 4, which enters the guard with the
index 4. So the accesses are in range exactly for up to four CPUs.
-/

set_option autoImplicit false

namespace MPStuBS.Main

open MPStuBS.Lib.Run MPStuBS.Lib.Loop MPStuBS.Machine MPStuBS.Guard

/-- A configuration that `main` can boot: 1 to `CPU_MAX` CPUs, whose LAPICs have different ids. -/
structure BootConfig where
  conf : SystemConfig
  count_pos : 1 ≤ conf.cpuCount
  count_le : conf.cpuCount ≤ cpuMax
  lapicId_inj : ∀ i < conf.cpuCount, ∀ j < conf.cpuCount, conf.lapicId i = conf.lapicId j → i = j

/-- The machine of the configuration. `copySetupAPtoLowMem` copies the start-up code to 0x40000, and
the LAPICs are not external. -/
def BootConfig.platform (C : BootConfig) : Platform where
  cpuCount := C.conf.cpuCount
  lapicId := C.conf.lapicId
  lapicId_inj := C.lapicId_inj
  startEip := 0x40000
  externalAPIC := false

theorem BootConfig.weirdStartEip (C : BootConfig) : C.platform.weirdStartEip = false := by
  have hstart : C.platform.startEip = 0x40000 := rfl
  rw [Platform.weirdStartEip, hstart]
  decide

/-- In every run in which all CPUs answer, every access has an index smaller than the length of the
array. -/
def AccessesInRange (P : Platform) : Prop :=
  ∀ s, Runs (StartUp.step P) (fun s l => s.answers P l = true) (.init P) s →
    ∀ l, ∀ acc ∈ s.accesses P l, acc.index < acc.array.length

namespace StartUp

variable {P : Platform} {s : StartUp}

/-- What holds of the CPUs in the kernel in every run in which all CPUs answer. -/
theorem startInv_of_runs (hpos : 1 ≤ P.cpuCount) (hcount : P.cpuCount ≤ 255)
    (h : Runs (step P) (fun s l => s.answers P l = true) (init P) s) : StartInv P s := by
  apply Runs.invariant h
  · exact startInv_init hpos
  · intro a b l ha hanswers hstep
    exact ha.step hcount hanswers hstep

/-! ## All CPUs up -/

/-- The boot loop runs inside of `main`. -/
theorem runs_boot {m m' : BootState} (hplace : s.place 0 = .setup) (hmain : s.inMain 0 = true)
    (h : Runs (BootState.step P) (fun m i => m.proceeds P i = true) m m') :
    Runs (step P) (fun s l => s.answers P l = true) { s with boot := m } { s with boot := m' } := by
  induction h with
  | refl => exact .refl
  | @tail t u i _ hok hstep ih =>
      have hanswers : (t.answers P i && _) = true := hok
      rw [Bool.and_eq_true] at hanswers
      cases i with
      | boot delivered =>
          refine ih.tail (i := .boot delivered) hanswers.1 ?_
          have hstep' : t.bootStep P delivered = some u := hstep
          show (if s.place 0 = .setup ∧ s.inMain 0 = true then _ else _) = _
          rw [if_pos ⟨hplace, hmain⟩, hstep']
          rfl
      | ap j =>
          refine ih.tail (i := .ap j) rfl ?_
          have hstep' : t.apStep P j = some u := hstep
          have hj : j ≠ 0 := bne_iff_ne.mp hanswers.2
          simp only [step, if_neg hj, hstep', Option.map_some]

/-! ## The barrier -/

/-- The steps of a CPU to the wait at the barrier, when nobody holds the lock. -/
def barrierLabels (j : Nat) : List Label :=
  [.main j, .main j, .main j, .main j, .main j, .main j, .main j]

/-- CPU `j` has incremented `i` and waits. -/
def afterCount (s : StartUp) (j : Nat) : StartUp :=
  { s with
    i := s.i + 1
    ticketlock := ⟨s.ticketlock.ticketnumber + 1, s.ticketlock.turn + 1⟩
    place := Function.update s.place j .wait }

theorem exec_count {j : Nat} (hplace : s.place j = .setup) (hbarrier : s.atBarrier P j = true)
    (hmain : s.inMain j = true) (hfree : s.ticketlock.turn = s.ticketlock.ticketnumber) :
    exec (fun s l => if s.answers P l then s.step P l else none) s (barrierLabels j) =
      some (s.afterCount j) := by
  have hstay : ∀ t : StartUp, t.activation = s.activation → t.inMain j = true := by
    intro t ht
    rw [inMain, ht]
    exact hmain
  simp [exec, barrierLabels, answers, step, mainStep, goto, hplace, hbarrier, hstay, hfree,
    Ticketlock.fetchAndAdd, Ticketlock.storeTurn, afterCount]

/-- The first `n` processors wait at the barrier, and the others have not come to it. -/
structure Counted (s : StartUp) (n : Nat) : Prop where
  i : s.i = n
  free : s.ticketlock.turn = s.ticketlock.ticketnumber
  wait : ∀ j, 1 ≤ j → j ≤ n → s.place j = .wait
  setup : ∀ j, n < j → s.place j = .setup
  user : ∀ j, s.inMain j = true

theorem Counted.afterCount {n : Nat} (h : Counted s n) :
    Counted (s.afterCount (n + 1)) (n + 1) where
  i := by
    show s.i + 1 = _
    rw [h.i, Nat.cast_succ]
  free := by
    show s.ticketlock.turn + 1 = s.ticketlock.ticketnumber + 1
    rw [h.free]
  wait j hj hle := by
    show Function.update s.place (n + 1) .wait j = .wait
    by_cases hjn : j = n + 1
    · rw [hjn, Function.update_self]
    · rw [Function.update_of_ne hjn]
      exact h.wait j hj (by omega)
  setup j hlt := by
    show Function.update s.place (n + 1) .wait j = .setup
    rw [Function.update_of_ne (by omega)]
    exact h.setup j (by omega)
  user := h.user

/-- The processors come to the barrier one after the other. -/
theorem runs_counted {k n : Nat} (h : Counted s k) (hn : k ≤ n)
    (hup : ∀ j, 1 ≤ j → j ≤ n → s.boot.ap j = .up (BitVec.ofNat 8 j)) :
    ∃ s', Runs (step P) (fun s l => s.answers P l = true) s s' ∧ s'.boot = s.boot ∧
      Counted s' n := by
  induction hn with
  | refl => exact ⟨s, .refl, rfl, h⟩
  | @step n hn ih =>
      obtain ⟨t, hruns, hboot, ht⟩ := ih fun j hj hle => hup j hj (Nat.le_succ_of_le hle)
      have hbarrier : t.atBarrier P (n + 1) = true := by
        rw [atBarrier, if_neg (Nat.succ_ne_zero n), hboot, hup (n + 1) (Nat.le_add_left 1 n)
          (Nat.le_refl _)]
      have hcount := exec_count (ht.setup (n + 1) (Nat.lt_succ_self n)) hbarrier (ht.user _) ht.free
      exact ⟨t.afterCount (n + 1), hruns.trans (runs_of_exec_if (fun _ _ h => h) hcount), hboot,
        ht.afterCount⟩

/-- The data that CPU 4 finds when it enters the guard. -/
def quietEnv : Env where
  cpu := 0
  kernel := .init
  intr := false
  choice := .stmt false
  behind := .user
  found := 0

/-- With four waiting processors CPU 4 passes the barrier and is about to store into `flag`. -/
theorem runs_enter (h : Counted s 4) :
    ∃ s', Runs (step P) (fun s l => s.answers P l = true) s s' ∧ s'.inKernel 4 = true ∧
      s'.activation 4 = .secure (.enter .schedule .setFlag) := by
  have hwait : s.place 4 = .wait := h.wait 4 (by decide) (by decide)
  have hi : s.i = 4 := h.i
  have hmain : s.inMain 4 = true := h.user 4
  have hexec : ∃ s', exec (fun s l => if s.answers P l then s.step P l else none) s
      [.main 4, .kernel 4 quietEnv] = some s' ∧ s'.inKernel 4 = true ∧
      s'.activation 4 = .secure (.enter .schedule .setFlag) := by
    simp [exec, answers, step, mainStep, hmain, hwait, hi, goto, inKernel, kernelStep,
      nextActivation, quietEnv, activationStep, enterStep, Effect.lift, Control.lift, follow]
  obtain ⟨s', hrun, hkernel, hactivation⟩ := hexec
  exact ⟨s', runs_of_exec_if (fun _ _ h => h) hrun, hkernel, hactivation⟩

end StartUp

/-! ## The bound -/

/-- With a fifth CPU there is a run to the access `flag[4]`. -/
theorem fifth_cpu (C : BootConfig) (h : 4 < C.conf.cpuCount) :
    ∃ s, Runs (StartUp.step C.platform) (fun s l => s.answers C.platform l = true)
      (.init C.platform) s ∧
      (⟨.flag, 4⟩ : Access) ∈ s.accesses C.platform (.kernel 4 StartUp.quietEnv) := by
  have hle : C.conf.cpuCount ≤ 8 := C.count_le
  obtain ⟨m, hboots, hpc, hup, -⟩ := BootState.runs_rounds C.weirdStartEip rfl
    (Function.update (fun _ => 0) (C.platform.lapicId 0) 0) (Function.update (fun _ => 0) 0 1)
    C.count_pos (Nat.le_refl C.conf.cpuCount) (by omega)
  have hstart : StartUp.Counted { StartUp.init C.platform with boot := m } 0 := by
    refine ⟨rfl, rfl, fun j hj hj0 => ?_, fun _ _ => rfl, fun _ => rfl⟩
    omega
  obtain ⟨t, hcounts, hboot, ht⟩ := StartUp.runs_counted (P := C.platform) hstart
    (Nat.zero_le 4) fun j hj hj4 => hup j hj (by omega)
  obtain ⟨s, henters, hkernel, hactivation⟩ := StartUp.runs_enter (P := C.platform) ht
  have hruns := ((StartUp.runs_boot rfl rfl hboots).trans hcounts).trans henters
  -- CPU 4 is in the kernel now, where its id is its number
  refine ⟨s, hruns, ?_⟩
  have hinv := StartUp.startInv_of_runs C.count_pos
    (show C.conf.cpuCount ≤ 255 by omega) hruns
  have hid := (hinv.getCPUID_eq C.count_pos hkernel).1
  simp [StartUp.accesses, hkernel, StartUp.quietEnv, hactivation, activationArrays, enterArrays,
    hid]

theorem not_accessesInRange (C : BootConfig) (h : 4 < C.conf.cpuCount) :
    ¬ AccessesInRange C.platform := by
  intro hrange
  obtain ⟨s, hruns, hacc⟩ := fifth_cpu C h
  have hindex : 4 < PerCpuArray.flag.length := hrange s hruns _ _ hacc
  exact absurd hindex (by decide)

/-- The accesses are in range exactly for configurations with up to four CPUs. -/
theorem accesses_in_range_iff (C : BootConfig) :
    AccessesInRange C.platform ↔ C.conf.cpuCount ≤ 4 := by
  constructor
  · intro h
    by_contra hlt
    exact not_accessesInRange C (by omega) h
  · intro hle s hruns l acc hacc
    have hinv := StartUp.startInv_of_runs C.count_pos
      (show C.conf.cpuCount ≤ 255 by omega) hruns
    have hlt := hinv.access_lt C.count_pos hacc
    have hlength : acc.array.length = 4 := by
      cases acc.array with
      | queues => rfl
      | flag => rfl
      | life => rfl
    rw [hlength]
    exact Nat.lt_of_lt_of_le hlt hle

/-! ## A machine with five CPUs -/

/-- The floating pointer structure lies in the EBDA at 639K, and behind it the table with five
processor entries. -/
def fiveCpuImage : Memory :=
  Memory.overlay 0x40e [0xc0, 0x9f] <|
  Memory.overlay 0x9fc00
    [0x5f, 0x4d, 0x50, 0x5f, 0x10, 0xfc, 0x09, 0x00, 0x01, 0x04, 0x8b, 0x00, 0x00, 0x00, 0x00, 0x00,
      0x50, 0x43, 0x4d, 0x50, 0x90, 0x00, 0x04, 0xc7] <|
  Memory.overlay 0x9fc3c [0x00, 0x00, 0x14, 0x03] <|
  Memory.overlay 0x9fc50 [0x00, 0x01, 0x14, 0x01] <|
  Memory.overlay 0x9fc64 [0x00, 0x02, 0x14, 0x01] <|
  Memory.overlay 0x9fc78 [0x00, 0x03, 0x14, 0x01] <|
  Memory.overlay 0x9fc8c [0x00, 0x04, 0x14, 0x01] fun _ => 0

theorem fiveCpuImage_lists :
    collect [] ((searchRanges fiveCpuImage).map (rangeIds fiveCpuImage)) =
      some [0, 1, 2, 3, 4] := by
  have hebda : rangeIds fiveCpuImage ⟨(fiveCpuImage.read16 0x40e).setWidth 32 <<< 4, 1024⟩ =
      some [0, 1, 2, 3, 4] := by
    decide +kernel
  rw [searchRanges, List.map_cons, hebda]
  rfl

/-- Without an ACPI table the detection gives the configuration with five CPUs, and the accesses
are not all in range. -/
theorem five_cpus_overrun :
    ∃ C : BootConfig,
      (∃ d, Returns (fun fuel => searchMPS fuel fiveCpuImage) d ∧
        ∀ acpiConf, acpiConf.cpuCount = 0 → SystemConfig.detected acpiConf d.conf = C.conf) ∧
      ¬ AccessesInRange C.platform := by
  obtain ⟨d, hsearch, hd⟩ :=
    searchConfigs_holds (d := .fresh) Holds.fresh (Nat.zero_le 1) fiveCpuImage_lists
  have hcount : d.conf.cpuCount = 5 := hd.count
  -- the ids in the table are all different
  have hids : ∀ i < d.conf.cpuCount, d.conf.lapicId i = i := by
    intro i hi
    have hlt : i < 5 := hcount ▸ hi
    have hlist : ∀ i < 5, [0, 1, 2, 3, 4].getD i 0 = i := by decide
    rw [hd.lapicId i (Nat.lt_trans hlt (by decide)), hlist i hlt]
  have hinj : ∀ i < d.conf.cpuCount, ∀ j < d.conf.cpuCount,
      d.conf.lapicId i = d.conf.lapicId j → i = j := by
    intro i hi j hj heq
    rwa [hids i hi, hids j hj] at heq
  obtain ⟨C, hC⟩ : ∃ C : BootConfig, C.conf = d.conf :=
    ⟨⟨d.conf, by omega, by rw [hcount]; decide, hinj⟩, rfl⟩
  refine ⟨C, ⟨d, ⟨65536, hsearch⟩, fun acpiConf hacpi => ?_⟩, not_accessesInRange C ?_⟩
  · rw [hC]
    exact SystemConfig.detected_mps hacpi (by omega)
  · rw [hC]
    omega

end MPStuBS.Main
