import MPStuBS.Device.Watch

/-!
# The divider that windup leaves behind

`Watch::windup` doubles the member `_divide` and never sets it back to 1, so a call
starts with the divider of the call before. After calls that halved their ticks the
divider is too large by as many doublings, unless the new call clears it anyway
(`windup_memoryless_iff`).

The loop stops as soon as the ticks are at most `2 ^ 31`, although the counter holds
every number below `2 ^ 32`. So the divider is mostly twice as large as needed
(`smallest_divider_iff`).
-/

set_option autoImplicit false

namespace MPStuBS.Device.Watch

open MPStuBS.Lib.Loop MPStuBS.Machine

/-- Calls of `windup` one after the other, each given by what `timer_ticks` returns during it and
by its argument. -/
def windups (fuel : Nat) : List (BitVec 32 × BitVec 32) → WatchState → Option WatchState
  | [], s => some s
  | (tm, us) :: calls, s =>
      match windup fuel tm us s with
      | none => none
      | some (_, s) => windups fuel calls s

/-- After these calls `windup` does what it does on a fresh watch, and where it returns false it
leaves the watch as it was. -/
def WindupMemoryless (calls : List (BitVec 32 × BitVec 32)) (tm us : BitVec 32) : Prop :=
  ∀ s t : WatchState, s.watch = .fresh → t.watch = .fresh →
    ∃ s₁ s₂ t₁ ok ok', Returns (fun fuel => windups fuel calls s) s₁ ∧
      Returns (fun fuel => windup fuel tm us s₁) (ok, s₂) ∧
      Returns (fun fuel => windup fuel tm us t) (ok', t₁) ∧
      s₂.watch.ticks = t₁.watch.ticks ∧ s₂.watch.divide = t₁.watch.divide ∧ ok = ok' ∧
      (∀ fuel, interval fuel tm s₂.watch = interval fuel tm t₁.watch) ∧
      (ok = false → s₂.watch.ticks = s₁.watch.ticks ∧ s₂.watch.divide = s₁.watch.divide)

/-! ## Halvings -/

section Halvings

variable {ticks k k' : Nat}

/-- The ticks fit at once exactly if they are not halved at all. -/
theorem halvings_eq_zero_iff (hle : ticks / 2 ^ k ≤ 2 ^ 31)
    (hbefore : ∀ j < k, 2 ^ 31 < ticks / 2 ^ j) : k = 0 ↔ ticks ≤ 2 ^ 31 := by
  constructor
  · rintro rfl
    rwa [pow_zero, Nat.div_one] at hle
  · intro hfits
    by_contra hk
    have hlt := hbefore 0 (Nat.pos_of_ne_zero hk)
    rw [pow_zero, Nat.div_one] at hlt
    exact absurd hfits (Nat.not_le.2 hlt)

/-- Eight halvings or more clear the divider. -/
theorem eight_le_halvings_iff (hle : ticks / 2 ^ k ≤ 2 ^ 31)
    (hbefore : ∀ j < k, 2 ^ 31 < ticks / 2 ^ j) : 8 ≤ k ↔ 2 ^ 31 < ticks / 2 ^ 7 := by
  constructor
  · intro hk
    exact hbefore 7 hk
  · intro hbig
    by_contra hk
    have hmono : ticks / 2 ^ 7 ≤ ticks / 2 ^ k :=
      Nat.div_le_div_left (Nat.pow_le_pow_right two_pos (by omega)) (Nat.pow_pos two_pos)
    exact absurd (Nat.le_trans hmono hle) (Nat.not_le.2 hbig)

/-- The number of halvings depends on the ticks only. -/
theorem halvings_unique (hle : ticks / 2 ^ k ≤ 2 ^ 31) (hle' : ticks / 2 ^ k' ≤ 2 ^ 31)
    (hbefore : ∀ j < k, 2 ^ 31 < ticks / 2 ^ j) (hbefore' : ∀ j < k', 2 ^ 31 < ticks / 2 ^ j) :
    k = k' := by
  apply Nat.le_antisymm
  · by_contra hlt
    exact absurd hle' (Nat.not_le.2 (hbefore k' (Nat.lt_of_not_le hlt)))
  · by_contra hlt
    exact absurd hle (Nat.not_le.2 (hbefore' k (Nat.lt_of_not_le hlt)))

end Halvings

/-! ## Earlier calls -/

/-- Shifted as often as you like, the divider stays one of the hardware or 0. -/
theorem divider_shiftLeft {d : BitVec 8} (hd : d = 0 ∨ d ∈ LapicTimer.dividers) (k : Nat) :
    d <<< k = 0 ∨ d <<< k ∈ LapicTimer.dividers := by
  induction k with
  | zero => rwa [BitVec.shiftLeft_zero]
  | succ k ih =>
      rw [BitVec.shiftLeft_add]
      exact (divide_shiftLeft _ ih).1

/-- The divider 1 shifted by `m + k` is the one shifted by `k` only if `m` is 0 or both are 0. -/
theorem one_shiftLeft_add_iff (m k : Nat) :
    (1 : BitVec 8) <<< m <<< k = (1 : BitVec 8) <<< k ↔ m = 0 ∨ 8 ≤ k := by
  rw [← BitVec.shiftLeft_add]
  constructor
  · intro heq
    by_contra hne
    obtain ⟨hm, hk⟩ := not_or.1 hne
    have hpow := (one_shiftLeft_divider k (by omega)).2
    by_cases hmk : m + k < 8
    · have hpow' := (one_shiftLeft_divider (m + k) hmk).2
      rw [heq, hpow] at hpow'
      have hinj := Nat.pow_right_injective (Nat.le_refl 2) hpow'
      omega
    · rw [← heq, BitVec.shiftLeft_eq_zero (by omega)] at hpow
      exact absurd hpow (Nat.pow_pos two_pos).ne
  · rintro (rfl | hk)
    · rw [Nat.zero_add]
    · rw [BitVec.shiftLeft_eq_zero (by omega), BitVec.shiftLeft_eq_zero hk]

/-- Calls one after the other shift the divider by the halvings of all of them. -/
theorem windups_returns (calls : List (BitVec 32 × BitVec 32)) :
    ∀ s : WatchState, (s.watch.divide = 0 ∨ s.watch.divide ∈ LapicTimer.dividers) →
      ∃ m s', Returns (fun fuel => windups fuel calls s) s' ∧
        s'.watch.divide = s.watch.divide <<< m ∧
        (m = 0 ↔ ∀ call ∈ calls, tickCount call.2 call.1 ≤ 2 ^ 31) := by
  induction calls with
  | nil =>
      intro s _
      refine ⟨0, s, ⟨0, fun _ _ => rfl⟩, ?_, by simp⟩
      rw [BitVec.shiftLeft_zero]
  | cons call calls ih =>
      intro s hs
      obtain ⟨tm, us⟩ := call
      obtain ⟨k, s₁, ⟨enough, hwindup⟩, hdivide, -, hle, hbefore⟩ :=
        windup_returns_of_divider us tm s hs
      obtain ⟨m, s₂, ⟨enough', hwindups⟩, hdivide', hzero⟩ :=
        ih s₁ (hdivide ▸ divider_shiftLeft hs k)
      refine ⟨k + m, s₂, ⟨max enough enough', fun fuel hfuel => ?_⟩, ?_, ?_⟩
      · simp only [windups, hwindup fuel (by omega)]
        exact hwindups fuel (by omega)
      · rw [hdivide', hdivide, BitVec.shiftLeft_add]
      · rw [Nat.add_eq_zero_iff, hzero, halvings_eq_zero_iff hle hbefore, List.forall_mem_cons]

theorem fresh_divider {s : WatchState} (hs : s.watch = .fresh) :
    s.watch.divide ∈ LapicTimer.dividers := by
  rw [hs]
  decide

/-- Where `windup` has no memory, no earlier call halved its ticks, or this one halves them so often
that the divider is 0 in any case. -/
theorem ticks_fit_of_memoryless {calls : List (BitVec 32 × BitVec 32)} {tm us : BitVec 32}
    (h : WindupMemoryless calls tm us) :
    (∀ call ∈ calls, tickCount call.2 call.1 ≤ 2 ^ 31) ∨ 2 ^ 31 < tickCount us tm / 128 := by
  let s : WatchState := ⟨.fresh, fun _ => .panic, .measured⟩
  have hfirst : s.watch.divide ∈ LapicTimer.dividers := fresh_divider rfl
  obtain ⟨s₁, s₂, t₁, ok, ok', hwindups, hwindup, hfresh, -, hdivide, -⟩ := h s s rfl rfl
  obtain ⟨m, u₁, hwindups', hm, hzero⟩ := windups_returns calls s (.inr hfirst)
  obtain rfl := hwindups.unique hwindups'
  obtain ⟨k, u₂, hwindup', hk, -, hle, hbefore⟩ := windup_returns_of_divider us tm s₁
    (hm ▸ divider_shiftLeft (.inr hfirst) m)
  obtain ⟨rfl, rfl⟩ := Prod.mk.inj (hwindup.unique hwindup')
  obtain ⟨k', u₃, hfresh', hk', -, hle', hbefore'⟩ := windup_returns us tm s rfl
  obtain ⟨rfl, rfl⟩ := Prod.mk.inj (hfresh.unique hfresh')
  obtain rfl := halvings_unique hle hle' hbefore hbefore'
  rw [hk, hm, hk'] at hdivide
  exact ((one_shiftLeft_add_iff m k).1 hdivide).imp hzero.1 (eight_le_halvings_iff hle hbefore).1

/-- `windup` has no memory exactly if no earlier call halved its ticks, or if this one halves them
so often that the divider is 0 in any case. -/
theorem windup_memoryless_iff (calls : List (BitVec 32 × BitVec 32)) (tm us : BitVec 32) :
    WindupMemoryless calls tm us ↔
      (∀ call ∈ calls, call.2.toNat * call.1.toNat / 1000 ≤ 2 ^ 31) ∨
        2 ^ 31 < us.toNat * tm.toNat / 1000 / 128 := by
  constructor
  · intro h
    exact ticks_fit_of_memoryless h
  · intro h s t hs ht
    have hfirst := fresh_divider hs
    obtain ⟨m, s₁, hwindups, hm, hzero⟩ := windups_returns calls s (.inr hfirst)
    obtain ⟨k, s₂, hwindup, hk, hticks, hle, hbefore⟩ := windup_returns_of_divider us tm s₁
      (hm ▸ divider_shiftLeft (.inr hfirst) m)
    obtain ⟨k', t₁, hfresh, hk', hticks', hle', hbefore'⟩ := windup_returns us tm t ht
    obtain rfl := halvings_unique hle hle' hbefore hbefore'
    have hdivide : s₂.watch.divide = t₁.watch.divide := by
      rw [hk, hm, hk', hs]
      exact (one_shiftLeft_add_iff m k).2
        (h.imp hzero.2 (eight_le_halvings_iff hle hbefore).2)
    have hsame : s₂.watch.ticks = t₁.watch.ticks :=
      BitVec.eq_of_toNat_eq (hticks.trans hticks'.symm)
    have hinterval : ∀ fuel, interval fuel tm s₂.watch = interval fuel tm t₁.watch := by
      intro fuel
      simp only [interval, hsame, hdivide]
    exact ⟨s₁, s₂, t₁, true, true, hwindups, hwindup, hfresh, hsame, hdivide, rfl, hinterval,
      fun hfalse => absurd hfalse (by decide)⟩

/-- A second after four seconds, with a million ticks a millisecond. -/
theorem not_windupMemoryless_second : ¬ WindupMemoryless [(1000000, 4000000)] 1000000 1000000 := by
  intro h
  rcases ticks_fit_of_memoryless h with hfirst | hsecond
  · have hfour := hfirst _ (List.mem_singleton_self _)
    exact absurd hfour (by decide)
  · exact absurd hsecond (by decide)

/-! ## The smallest divider -/

/-- Where `windup` succeeds on a fresh watch, its divider is the smallest power of two with which
the ticks fit into 32 bits. -/
def SmallestDivider (us tm : BitVec 32) : Prop :=
  ∀ s : WatchState, s.watch = .fresh →
    ∃ ok s', Returns (fun fuel => windup fuel tm us s) (ok, s') ∧
      (ok = true → IsLeast {d | (∃ k, d = 2 ^ k) ∧ tickCount us tm / d < 2 ^ 32}
        s'.watch.divide.toNat)

/-- A power of two is the smallest one that fits exactly if it fits and the ones before do not. -/
theorem isLeast_pow_iff {ticks k : Nat} :
    IsLeast {d | (∃ j, d = 2 ^ j) ∧ ticks / d < 2 ^ 32} (2 ^ k) ↔
      ticks / 2 ^ k < 2 ^ 32 ∧ ∀ j < k, 2 ^ 32 ≤ ticks / 2 ^ j := by
  constructor
  · rintro ⟨⟨-, hfits⟩, hleast⟩
    refine ⟨hfits, fun j hj => ?_⟩
    by_contra hlt
    have hle : 2 ^ k ≤ 2 ^ j := hleast ⟨⟨j, rfl⟩, Nat.lt_of_not_le hlt⟩
    exact absurd ((Nat.pow_le_pow_iff_right (by decide)).1 hle) (Nat.not_le.2 hj)
  · rintro ⟨hfits, hbefore⟩
    refine ⟨⟨⟨k, rfl⟩, hfits⟩, ?_⟩
    rintro d ⟨⟨j, rfl⟩, hj⟩
    apply Nat.pow_le_pow_right two_pos
    by_contra hlt
    exact absurd hj (Nat.not_lt.2 (hbefore j (Nat.lt_of_not_le hlt)))

theorem div_two_pow_succ (ticks k : Nat) : ticks / 2 ^ (k + 1) = ticks / 2 ^ k / 2 := by
  rw [Nat.div_div_eq_div_mul, ← pow_succ]

/-- Ticks that become exactly `2 ^ 31` after some halvings were too many for the counter before. -/
theorem overflow_before {ticks k : Nat} (hk : ticks / 2 ^ k = 2 ^ 31) :
    ∀ j < k, 2 ^ 32 ≤ ticks / 2 ^ j := by
  intro j hj
  have hmono : ticks / 2 ^ k ≤ ticks / 2 ^ (j + 1) :=
    Nat.div_le_div_left (Nat.pow_le_pow_right two_pos hj) (Nat.pow_pos two_pos)
  rw [div_two_pow_succ, hk] at hmono
  omega

/-- The halvings of `windup` are as few as needed exactly if there are none, or if they end at
`2 ^ 31`. -/
theorem fewest_halvings_iff {ticks k : Nat} (hle : ticks / 2 ^ k ≤ 2 ^ 31)
    (hbefore : ∀ j < k, 2 ^ 31 < ticks / 2 ^ j) :
    (∀ j < k, 2 ^ 32 ≤ ticks / 2 ^ j) ↔ k = 0 ∨ ticks / 2 ^ k = 2 ^ 31 := by
  constructor
  · intro h
    cases k with
    | zero => exact .inl rfl
    | succ k =>
        have hlast := h k (Nat.lt_succ_self k)
        rw [div_two_pow_succ] at hle ⊢
        exact .inr (by omega)
  · rintro (rfl | hk)
    · intro j hj
      exact absurd hj (Nat.not_lt_zero j)
    · exact overflow_before hk

/-- The divider as a number: eight halvings or more give 0. -/
theorem one_shiftLeft_toNat (k : Nat) :
    ((1 : BitVec 8) <<< k).toNat = if k < 8 then 2 ^ k else 0 := by
  split
  case isTrue hk => exact (one_shiftLeft_divider k hk).2
  case isFalse hk =>
    rw [BitVec.shiftLeft_eq_zero (Nat.le_of_not_lt hk)]
    rfl

/-- Where the divider is the smallest one, no halving is needed or at most seven end at `2 ^ 31`. -/
theorem ticks_of_smallestDivider {us tm : BitVec 32} (h : SmallestDivider us tm) :
    tickCount us tm ≤ 2 ^ 31 ∨ ∃ k, 1 ≤ k ∧ k ≤ 7 ∧ tickCount us tm / 2 ^ k = 2 ^ 31 := by
  let s : WatchState := ⟨.fresh, fun _ => .panic, .measured⟩
  obtain ⟨ok, s', hwindup, hleast⟩ := h s rfl
  obtain ⟨k, t, hwindup', hdivide, -, hle, hbefore⟩ := windup_returns us tm s rfl
  obtain ⟨rfl, rfl⟩ := Prod.mk.inj (hwindup.unique hwindup')
  have hmin := hleast rfl
  rw [hdivide, one_shiftLeft_toNat] at hmin
  by_cases hk : k < 8
  · rw [if_pos hk, isLeast_pow_iff] at hmin
    obtain hzero | hend := (fewest_halvings_iff hle hbefore).1 hmin.2
    · exact .inl ((halvings_eq_zero_iff hle hbefore).1 hzero)
    · by_cases hzero : k = 0
      · exact .inl ((halvings_eq_zero_iff hle hbefore).1 hzero)
      · exact .inr ⟨k, by omega, by omega, hend⟩
  · -- the divider 0 is no power of two
    rw [if_neg hk] at hmin
    obtain ⟨⟨⟨j, hj⟩, -⟩, -⟩ := hmin
    exact absurd hj (Nat.pow_pos two_pos).ne

/-- The divider is the smallest one exactly if the ticks fit without halving them, or if at most
seven halvings end at `2 ^ 31`. -/
theorem smallest_divider_iff (us tm : BitVec 32) :
    SmallestDivider us tm ↔
      us.toNat * tm.toNat / 1000 ≤ 2 ^ 31 ∨
        ∃ k, 1 ≤ k ∧ k ≤ 7 ∧ us.toNat * tm.toNat / 1000 / 2 ^ k = 2 ^ 31 := by
  constructor
  · intro h
    exact ticks_of_smallestDivider h
  · intro h s hs
    obtain ⟨k, t, hwindup, hdivide, -, hle, hbefore⟩ := windup_returns us tm s hs
    refine ⟨true, t, hwindup, fun _ => ?_⟩
    have hsmall : k < 8 ∧ (k = 0 ∨ tickCount us tm / 2 ^ k = 2 ^ 31) := by
      obtain hfits | ⟨j, -, hj, hend⟩ := h
      · have hzero := (halvings_eq_zero_iff hle hbefore).2 hfits
        exact ⟨by omega, .inl hzero⟩
      · have hend' : tickCount us tm / 2 ^ j = 2 ^ 31 := hend
        have hover := overflow_before hend'
        obtain rfl := halvings_unique hle (Nat.le_of_eq hend') hbefore
          fun i hi => Nat.lt_of_lt_of_le (by decide) (hover i hi)
        exact ⟨by omega, .inr hend'⟩
    rw [hdivide, one_shiftLeft_toNat, if_pos hsmall.1, isLeast_pow_iff]
    exact ⟨Nat.lt_of_le_of_lt hle (by decide), (fewest_halvings_iff hle hbefore).2 hsmall.2⟩

/-- Three seconds with a million ticks a millisecond fit into the counter with the divider 1. -/
theorem not_smallestDivider_three_seconds : ¬ SmallestDivider 3000000 1000000 := by
  intro h
  obtain hfits | ⟨k, hk, hk', hend⟩ := ticks_of_smallestDivider h
  · revert hfits
    decide
  · have hnone : ∀ k < 8, tickCount 3000000 1000000 / 2 ^ k ≠ 2 ^ 31 := by decide
    exact hnone k (Nat.lt_succ_of_le hk') hend

end MPStuBS.Device.Watch
