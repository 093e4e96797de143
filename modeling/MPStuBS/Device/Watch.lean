import MPStuBS.Guard.Kernel
import MPStuBS.Machine.LapicTimer
import MPStuBS.Utils.Math
import Mathlib.Data.Rat.Cast.Order
import Mathlib.Tactic.FieldSimp
import Mathlib.Tactic.Linarith

/-!
# Winding up the watch

`Watch::windup` of `device/watch.cc` halves the number of ticks until it fits into the
counter of the timer, and doubles the divider each time. The divider has 8 bits: its
eighth doubling gives 0 and not 256, so the test `_divide > 128` never succeeds, and
`windup` returns true with the divider 0. Up to there the interval is accurate
(`windup_faithful_iff`).
-/

set_option autoImplicit false

namespace MPStuBS.Device

open MPStuBS.Guard MPStuBS.Lib.Loop MPStuBS.Machine MPStuBS.Utils

/-- The members of `Watch`. -/
structure Watch where
  divide : BitVec 8
  ticks : BitVec 32

/-- A freshly constructed watch. -/
def Watch.fresh : Watch := ⟨1, 0⟩

/-- The watch, the gates of the plugbox, and the timer of the local APIC. -/
structure WatchState where
  watch : Watch
  gateobjs : Nat → Gate
  timer : LapicTimer

/-- `Plugbox::Vector::timer` -/
def timerVector : BitVec 8 := 32

namespace Watch

/-- `Plugbox::assign` -/
def assign (vector : Nat) (gate : Gate) (s : WatchState) : WatchState :=
  if vector ≤ 255 then { s with gateobjs := Function.update s.gateobjs vector gate } else s

/-- One round of the loop of `windup` over the ticks and the divider; it ends with false if the
divider is too large. -/
def windupRound (s : BitVec 64 × BitVec 8) :
    Round (BitVec 64 × BitVec 8) (Bool × BitVec 64 × BitVec 8) :=
  if 2 ^ 31 < s.1.toNat then
    let ticks := s.1 >>> 1
    let divide := s.2 <<< 1
    if 128 < divide.toNat then .done (false, ticks, divide) else .next (ticks, divide)
  else .done (true, s.1, s.2)

/-- `Watch::windup`, where `timer_ticks` returns `tm`. -/
def windup (fuel : Nat) (tm us : BitVec 32) (s : WatchState) : Option (Bool × WatchState) :=
  let s := { s with timer := LapicTimer.measured }
  match div64 fuel (us.setWidth 64 * tm.setWidth 64) 1000 none with
  | none => none
  | some (ticks, _) =>
      match loop (fun s => some (windupRound s)) fuel (ticks, s.watch.divide) with
      | none => none
      | some (false, _, divide) =>
          some (false, { s with watch := { s.watch with divide := divide } })
      | some (true, ticks, divide) =>
          let s := assign timerVector.toNat .watch
            { s with watch := ⟨divide, ticks.setWidth 32⟩ }
          some (true, { s with timer := LapicTimer.setTimer 0 divide timerVector true false })

/-- `Watch::interval`, where `timer_ticks` returns `tm`. -/
def interval (fuel : Nat) (tm : BitVec 32) (w : Watch) : Option (BitVec 32) :=
  match div64 fuel (w.ticks.setWidth 64 * w.divide.setWidth 64 * 1000) (tm.setWidth 64) none with
  | none => none
  | some (us, _) => some (us.setWidth 32)

/-! ## The loop -/

/-- The divider never exceeds 128. -/
theorem divide_shiftLeft : ∀ d : BitVec 8, d = 0 ∨ d ∈ LapicTimer.dividers →
    (d <<< 1 = 0 ∨ d <<< 1 ∈ LapicTimer.dividers) ∧ ¬ 128 < (d <<< 1).toNat := by
  decide

/-- The ticks are halved until they are at most `2 ^ 31`, and the divider is shifted as often. -/
theorem windup_loop : ∀ {n : Nat} (ticks : BitVec 64) (d : BitVec 8),
    (d = 0 ∨ d ∈ LapicTimer.dividers) → ticks.toNat / 2 ^ n ≤ 2 ^ 31 →
    ∃ k, (∀ fuel, n < fuel → loop (fun s => some (windupRound s)) fuel (ticks, d) =
        some (true, ticks >>> k, d <<< k)) ∧
      ticks.toNat / 2 ^ k ≤ 2 ^ 31 ∧ ∀ j < k, 2 ^ 31 < ticks.toNat / 2 ^ j := by
  intro n
  induction n with
  | zero =>
      intro ticks d hd hfits
      rw [pow_zero, Nat.div_one] at hfits
      refine ⟨0, fun fuel hfuel => ?_, by rwa [pow_zero, Nat.div_one], fun j hj => by omega⟩
      obtain ⟨fuel, rfl⟩ := Nat.exists_eq_add_one_of_ne_zero (Nat.ne_zero_of_lt hfuel)
      rw [BitVec.ushiftRight_zero, BitVec.shiftLeft_zero]
      exact loop_of_done (congrArg some (if_neg (Nat.not_lt.2 hfits)))
  | succ n ih =>
      intro ticks d hd hfits
      by_cases hlt : 2 ^ 31 < ticks.toNat
      · obtain ⟨hnext, hsmall⟩ := divide_shiftLeft d hd
        have hround : windupRound (ticks, d) = .next (ticks >>> 1, d <<< 1) := by
          simp only [windupRound, if_pos hlt, if_neg hsmall]
        have hhalf : ∀ j, (ticks >>> 1).toNat / 2 ^ j = ticks.toNat / 2 ^ (j + 1) := by
          intro j
          rw [toNat_shiftRight_one, Nat.div_div_eq_div_mul, ← pow_succ']
        obtain ⟨k, hloop, hle, hbefore⟩ := ih (ticks >>> 1) (d <<< 1) hnext
          (by rwa [hhalf])
        refine ⟨k + 1, fun fuel hfuel => ?_, by rwa [← hhalf], fun j hj => ?_⟩
        · obtain ⟨fuel, rfl⟩ := Nat.exists_eq_add_one_of_ne_zero (Nat.ne_zero_of_lt hfuel)
          rw [loop_of_next (congrArg some hround), hloop fuel (by omega), Nat.add_comm k 1,
            BitVec.shiftRight_add, BitVec.shiftLeft_add]
        · cases j with
          | zero => rwa [pow_zero, Nat.div_one]
          | succ j =>
              rw [← hhalf]
              exact hbefore j (by omega)
      · have hfits' : ticks.toNat ≤ 2 ^ 31 := Nat.le_of_not_lt hlt
        refine ⟨0, fun fuel hfuel => ?_, by rwa [pow_zero, Nat.div_one], fun j hj => by omega⟩
        obtain ⟨fuel, rfl⟩ := Nat.exists_eq_add_one_of_ne_zero (Nat.ne_zero_of_lt hfuel)
        rw [BitVec.ushiftRight_zero, BitVec.shiftLeft_zero]
        exact loop_of_done (congrArg some (if_neg hlt))

/-! ## The result of windup -/

/-- The number of ticks before the divider is chosen. -/
def tickCount (us tm : BitVec 32) : Nat := us.toNat * tm.toNat / 1000

theorem toNat_product (us tm : BitVec 32) :
    (us.setWidth 64 * tm.setWidth 64 : BitVec 64).toNat = us.toNat * tm.toNat := by
  have hlt : us.toNat * tm.toNat < 2 ^ 32 * 2 ^ 32 := Nat.mul_lt_mul'' us.isLt tm.isLt
  rw [BitVec.toNat_mul, BitVec.toNat_setWidth_of_le (by decide),
    BitVec.toNat_setWidth_of_le (by decide)]
  exact Nat.mod_eq_of_lt hlt

/-- Whatever divider the watch has, `windup` returns true, shifts the ticks by the least `k` that
makes them fit, and shifts the divider of the watch by as much. -/
theorem windup_returns_of_divider (us tm : BitVec 32) (s : WatchState)
    (hs : s.watch.divide = 0 ∨ s.watch.divide ∈ LapicTimer.dividers) :
    ∃ k s', Returns (fun fuel => windup fuel tm us s) (true, s') ∧
      s'.watch.divide = s.watch.divide <<< k ∧
      s'.watch.ticks.toNat = tickCount us tm / 2 ^ k ∧
      tickCount us tm / 2 ^ k ≤ 2 ^ 31 ∧ ∀ j < k, 2 ^ 31 < tickCount us tm / 2 ^ j := by
  have hticks : ((us.setWidth 64 * tm.setWidth 64 : BitVec 64) / 1000).toNat = tickCount us tm := by
    rw [BitVec.toNat_udiv, toNat_product]
    rfl
  have hfits : ((us.setWidth 64 * tm.setWidth 64 : BitVec 64) / 1000).toNat / 2 ^ 64 ≤ 2 ^ 31 := by
    rw [Nat.div_eq_of_lt (BitVec.isLt _)]
    exact Nat.zero_le _
  obtain ⟨k, hloop, hle, hbefore⟩ := windup_loop _ s.watch.divide hs hfits
  rw [hticks] at hle
  simp only [hticks] at hbefore
  let ticks := ((us.setWidth 64 * tm.setWidth 64 : BitVec 64) / 1000) >>> k
  let divide := s.watch.divide <<< k
  let t := assign timerVector.toNat .watch
    { s with timer := .measured, watch := ⟨divide, ticks.setWidth 32⟩ }
  have hwindup : ∀ fuel, 66 ≤ fuel → windup fuel tm us s =
      some (true, { t with timer := .setTimer 0 divide timerVector true false }) := by
    intro fuel hfuel
    simp only [windup, div64_eq (show (1000 : BitVec 64) ≠ 0 by decide) none hfuel,
      hloop fuel (by omega)]
    rfl
  refine ⟨k, _, ⟨66, hwindup⟩, rfl, ?_, hle, hbefore⟩
  show (ticks.setWidth 32).toNat = _
  rw [BitVec.toNat_setWidth, BitVec.toNat_ushiftRight, Nat.shiftRight_eq_div_pow, hticks,
    Nat.mod_eq_of_lt (by omega)]

/-- `windup` always returns true, with the ticks shifted by the least `k` that makes them fit. -/
theorem windup_returns (us tm : BitVec 32) (s : WatchState) (hs : s.watch = .fresh) :
    ∃ k s', Returns (fun fuel => windup fuel tm us s) (true, s') ∧
      s'.watch.divide = (1 : BitVec 8) <<< k ∧ s'.watch.ticks.toNat = tickCount us tm / 2 ^ k ∧
      tickCount us tm / 2 ^ k ≤ 2 ^ 31 ∧ ∀ j < k, 2 ^ 31 < tickCount us tm / 2 ^ j := by
  have hdivider : s.watch.divide ∈ LapicTimer.dividers := by
    rw [hs]
    decide
  obtain ⟨k, s', h⟩ := windup_returns_of_divider us tm s (.inr hdivider)
  rw [hs] at h
  exact ⟨k, s', h⟩

/-! ## The interval -/

/-- `interval` recomputes the microseconds from the ticks and the divider. -/
theorem interval_returns {tm : BitVec 32} {w : Watch} (htm : tm ≠ 0)
    (hfits : w.ticks.toNat * w.divide.toNat * 1000 < 2 ^ 64)
    (hresult : w.ticks.toNat * w.divide.toNat * 1000 / tm.toNat < 2 ^ 32) :
    ∃ intv : BitVec 32, Returns (fun fuel => interval fuel tm w) intv ∧
      intv.toNat = w.ticks.toNat * w.divide.toNat * 1000 / tm.toNat := by
  have htm64 : tm.setWidth 64 ≠ 0 := by
    intro h
    apply htm
    have hnat := congrArg BitVec.toNat h
    rw [BitVec.toNat_setWidth_of_le (by decide)] at hnat
    exact BitVec.eq_of_toNat_eq hnat
  have hproduct : (w.ticks.setWidth 64 * w.divide.setWidth 64 * 1000 : BitVec 64).toNat =
      w.ticks.toNat * w.divide.toNat * 1000 := by
    rw [BitVec.toNat_mul, BitVec.toNat_mul, BitVec.toNat_setWidth_of_le (by decide),
      BitVec.toNat_setWidth_of_le (by decide), Nat.mod_mul_mod]
    exact Nat.mod_eq_of_lt hfits
  let us := (w.ticks.setWidth 64 * w.divide.setWidth 64 * 1000 : BitVec 64) / tm.setWidth 64
  have hinterval : ∀ fuel, 66 ≤ fuel → interval fuel tm w = some (us.setWidth 32) := by
    intro fuel hfuel
    simp only [interval, div64_eq htm64 none hfuel]
    rfl
  refine ⟨us.setWidth 32, ⟨66, hinterval⟩, ?_⟩
  rw [BitVec.toNat_setWidth, BitVec.toNat_udiv, hproduct, BitVec.toNat_setWidth_of_le (by decide),
    Nat.mod_eq_of_lt hresult]

/-- Halving `k` times and dividing again loses less than `1000 * 2 ^ k` of the product. -/
theorem product_bounds (us tm : BitVec 32) (k : Nat) :
    tickCount us tm / 2 ^ k * 2 ^ k * 1000 ≤ us.toNat * tm.toNat ∧
      us.toNat * tm.toNat < tickCount us tm / 2 ^ k * 2 ^ k * 1000 + 1000 * 2 ^ k := by
  have hpow : 0 < 2 ^ k := Nat.pow_pos two_pos
  have hticks := Nat.div_add_mod (us.toNat * tm.toNat) 1000
  have hticks_lt := Nat.mod_lt (us.toNat * tm.toNat) (show 0 < 1000 by decide)
  have hhalves := Nat.div_add_mod (tickCount us tm) (2 ^ k)
  have hhalves_lt := Nat.mod_lt (tickCount us tm) hpow
  rw [Nat.mul_comm (2 ^ k)] at hhalves
  unfold tickCount at *
  omega

/-- `windup` succeeds with a divider of the hardware and an accurate interval, or it reports that
the ticks do not fit. -/
def WindupFaithful (us tm : BitVec 32) : Prop :=
  ∀ s : WatchState, s.watch = .fresh →
    ∃ ok s', Returns (fun fuel => windup fuel tm us s) (ok, s') ∧
      (ok = true →
        s'.watch.divide ∈ LapicTimer.dividers ∧ LapicTimer.timerDiv s'.watch.divide ≠ 0xff ∧
        ∃ intv : BitVec 32, Returns (fun fuel => interval fuel tm s'.watch) intv ∧
          (us.toNat : ℚ) - 1000 * s'.watch.divide.toNat / tm.toNat - 1 < intv.toNat ∧
          intv.toNat ≤ us.toNat) ∧
      (2 ^ 32 ≤ tickCount us tm / 128 → ok = false)

/-- A shift by at most 7 gives a divider of the hardware. -/
theorem one_shiftLeft_divider : ∀ k : Nat, k < 8 →
    (1 : BitVec 8) <<< k ∈ LapicTimer.dividers ∧ ((1 : BitVec 8) <<< k).toNat = 2 ^ k := by
  decide

/-- With a divider of the hardware the interval is accurate. -/
theorem interval_accurate {us tm : BitVec 32} {k : Nat} {w : Watch} (htm : tm ≠ 0)
    (hticks : w.ticks.toNat = tickCount us tm / 2 ^ k) (hdivide : w.divide.toNat = 2 ^ k) :
    ∃ intv : BitVec 32, Returns (fun fuel => interval fuel tm w) intv ∧
      (us.toNat : ℚ) - 1000 * w.divide.toNat / tm.toNat - 1 < intv.toNat ∧
      intv.toNat ≤ us.toNat := by
  have hpos : 0 < tm.toNat := Nat.pos_of_ne_zero fun h => htm (BitVec.eq_of_toNat_eq h)
  obtain ⟨hle, hlt⟩ := product_bounds us tm k
  rw [← hticks, ← hdivide] at hle hlt
  have hus : w.ticks.toNat * w.divide.toNat * 1000 / tm.toNat ≤ us.toNat :=
    Nat.div_le_of_le_mul (by rwa [Nat.mul_comm tm.toNat])
  have hproduct := toNat_product us tm
  obtain ⟨intv, hreturns, hintv⟩ := interval_returns htm
    (Nat.lt_of_le_of_lt hle (hproduct ▸ BitVec.isLt _)) (Nat.lt_of_le_of_lt hus us.isLt)
  refine ⟨intv, hreturns, ?_, hintv ▸ hus⟩
  -- the division loses less than the frequency once more
  have hrem := Nat.lt_mul_div_succ (w.ticks.toNat * w.divide.toNat * 1000) hpos
  rw [← hintv] at hrem
  have hsum : us.toNat * tm.toNat < tm.toNat * (intv.toNat + 1) + 1000 * w.divide.toNat := by
    omega
  have hsum' : (us.toNat : ℚ) * tm.toNat < tm.toNat * (intv.toNat + 1) + 1000 * w.divide.toNat := by
    exact_mod_cast hsum
  have hpos' : (0 : ℚ) < tm.toNat := by exact_mod_cast hpos
  rw [sub_sub, sub_lt_iff_lt_add, ← mul_lt_mul_iff_left₀ hpos', add_mul, add_mul,
    div_mul_cancel₀ _ hpos'.ne']
  linarith only [hsum']

/-- More ticks lead to the divider 0. -/
theorem windup_divide_zero {us tm : BitVec 32} (hbig : 2 ^ 31 < tickCount us tm / 128)
    (s : WatchState) (hs : s.watch = .fresh) :
    ∃ s', Returns (fun fuel => windup fuel tm us s) (true, s') ∧ s'.watch.divide = 0 := by
  obtain ⟨k, s', hwindup, hdivide, -, hle, -⟩ := windup_returns us tm s hs
  refine ⟨s', hwindup, ?_⟩
  -- seven halvings do not suffice, and the eighth one clears the divider
  have hk : 8 ≤ k := by
    by_contra hk
    have hmono : tickCount us tm / 2 ^ 7 ≤ tickCount us tm / 2 ^ k :=
      Nat.div_le_div_left (Nat.pow_le_pow_right two_pos (by omega)) (Nat.pow_pos two_pos)
    exact absurd (Nat.le_trans hmono hle) (Nat.not_le.2 hbig)
  rw [hdivide]
  exact BitVec.shiftLeft_eq_zero hk

theorem not_windupFaithful {us tm : BitVec 32} (hbig : 2 ^ 31 < tickCount us tm / 128) :
    ¬ WindupFaithful us tm := by
  intro h
  obtain ⟨ok, s', hok, htrue, -⟩ := h ⟨.fresh, fun _ => .panic, .measured⟩ rfl
  obtain ⟨t, hwindup, hzero⟩ := windup_divide_zero hbig ⟨.fresh, fun _ => .panic, .measured⟩ rfl
  obtain ⟨rfl, rfl⟩ := Prod.mk.inj (hok.unique hwindup)
  have hmem := (htrue rfl).1
  rw [hzero] at hmem
  exact absurd hmem (by decide)

/-- `windup` is faithful exactly if the ticks fit with the divider 128. -/
theorem windup_faithful_iff (us tm : BitVec 32) (htm : tm ≠ 0) :
    WindupFaithful us tm ↔ us.toNat * tm.toNat / 1000 / 128 ≤ 2 ^ 31 := by
  constructor
  · intro h
    by_contra hbig
    exact not_windupFaithful (Nat.lt_of_not_le hbig) h
  · intro hfits s hs
    have hfits' : tickCount us tm / 2 ^ 7 ≤ 2 ^ 31 := hfits
    obtain ⟨k, t, hwindup, hdivide, hticks, -, hbefore⟩ := windup_returns us tm s hs
    have hk : k < 8 := by
      by_contra hk
      have hlt := hbefore 7 (by omega)
      omega
    obtain ⟨hmem, hpow⟩ := one_shiftLeft_divider k hk
    rw [← hdivide] at hmem hpow
    refine ⟨true, t, hwindup, fun _ => ⟨hmem, (LapicTimer.timerDiv_accepts _).2 hmem,
      interval_accurate htm hticks hpow⟩, fun hlarge => ?_⟩
    exact absurd hlarge (by norm_num at hfits'; omega)

/-- A second with a million ticks a millisecond. -/
theorem windup_faithful_second :
    (1000000 : BitVec 32) ≠ 0 ∧ (WindupFaithful 1000000 1000000 ↔
      (1000000 : BitVec 32).toNat * (1000000 : BitVec 32).toNat / 1000 / 128 ≤ 2 ^ 31) :=
  ⟨by decide, windup_faithful_iff 1000000 1000000 (by decide)⟩

/-- Ten minutes with a million ticks a millisecond do not fit. -/
theorem windup_ten_minutes : ¬ WindupFaithful 600000000 1000000 :=
  not_windupFaithful (by decide)

end Watch

end MPStuBS.Device
