import MPStuBS.Lib.Loop
import Mathlib.Tactic.Ring

/-!
# Division with 64 bits

`Math::div64` of `utils/math.h`: the divisor is shifted to the left until its top bit
is set, together with a bit that counts what it stands for, and then both come back
bit by bit while the divisor is subtracted wherever it fits. In the second loop the
number is always less than twice the current divisor (`DivInv`).
-/

set_option autoImplicit false

namespace MPStuBS.Utils

open MPStuBS.Lib.Loop

/-- The local variables of `div64`, the parameters included. -/
structure DivState where
  num : BitVec 64
  den : BitVec 64
  quot : BitVec 64
  qbit : BitVec 64

/-- One round of `while ((int64_t)den >= 0)`. -/
def normRound (s : DivState) : Round DivState DivState :=
  if 0 ≤ s.den.toInt then .next { s with den := s.den <<< 1, qbit := s.qbit <<< 1 }
  else .done s

/-- The body of `if (den <= num)`. -/
def subtract (s : DivState) : DivState :=
  if s.den ≤ s.num then { s with num := s.num - s.den, quot := s.quot + s.qbit } else s

/-- One round of `while (qbit)`. -/
def divRound (s : DivState) : Round DivState DivState :=
  if s.qbit = 0 then .done s
  else .next { subtract s with den := s.den >>> 1, qbit := s.qbit >>> 1 }

/-- `Math::div64`: the quotient, and what `rem_p` points to. -/
def div64 (fuel : Nat) (num den : BitVec 64) (remP : Option (BitVec 64)) :
    Option (BitVec 64 × Option (BitVec 64)) :=
  match loop (fun s => some (normRound s)) fuel ⟨num, den, 0, 1⟩ with
  | none => none
  | some s =>
      match loop (fun s => some (divRound s)) fuel s with
      | none => none
      | some s => some (s.quot, remP.map fun _ => s.num)

/-! ## The first loop -/

section Normalise

variable {s : DivState} {d k n : Nat}

/-- The divisor and its bit, both shifted by `k`. -/
structure Shifted (d k : Nat) (s : DivState) : Prop where
  den : s.den.toNat = d * 2 ^ k
  qbit : s.qbit.toNat = 2 ^ k

theorem toInt_nonneg_iff (x : BitVec 64) : 0 ≤ x.toInt ↔ x.toNat < 2 ^ 63 := by
  rw [BitVec.toInt_eq_toNat_cond]
  split <;> omega

theorem toNat_shiftLeft_one {x : BitVec 64} (h : x.toNat < 2 ^ 63) :
    (x <<< 1).toNat = x.toNat * 2 := by
  rw [BitVec.toNat_shiftLeft, Nat.shiftLeft_eq]
  omega

theorem toNat_shiftRight_one (x : BitVec 64) : (x >>> 1).toNat = x.toNat / 2 := by
  rw [BitVec.toNat_ushiftRight, Nat.shiftRight_eq_div_pow, pow_one]

theorem Shifted.next (h : Shifted d k s) (hd : 0 < d) (hlt : s.den.toNat < 2 ^ 63) :
    Shifted d (k + 1) { s with den := s.den <<< 1, qbit := s.qbit <<< 1 } where
  den := by
    show (s.den <<< 1).toNat = _
    rw [toNat_shiftLeft_one hlt, h.den, pow_succ, Nat.mul_assoc]
  qbit := by
    have hle : 2 ^ k ≤ d * 2 ^ k := Nat.le_mul_of_pos_left _ hd
    have hq : s.qbit.toNat < 2 ^ 63 := by
      rw [h.qbit]
      rw [h.den] at hlt
      omega
    show (s.qbit <<< 1).toNat = _
    rw [toNat_shiftLeft_one hq, h.qbit, pow_succ]

/-- At most `n` rounds are needed for a divisor with a bit among the top `n + 1`. -/
theorem normalise (hd : 0 < d) : ∀ {n k : Nat} {s : DivState}, Shifted d k s →
    2 ^ 63 ≤ s.den.toNat * 2 ^ n → ∃ t k', k' ≤ k + n ∧
      (∀ fuel, n < fuel → loop (fun s => some (normRound s)) fuel s = some t) ∧
      Shifted d k' t ∧ 2 ^ 63 ≤ t.den.toNat ∧ t.num = s.num ∧ t.quot = s.quot := by
  intro n
  induction n with
  | zero =>
      intro k s h hbit
      rw [pow_zero, Nat.mul_one] at hbit
      refine ⟨s, k, Nat.le_refl _, fun fuel hfuel => ?_, h, hbit, rfl, rfl⟩
      obtain ⟨fuel, rfl⟩ := Nat.exists_eq_add_one_of_ne_zero (Nat.ne_zero_of_lt hfuel)
      apply loop_of_done
      rw [normRound, if_neg]
      rw [toInt_nonneg_iff]
      omega
  | succ n ih =>
      intro k s h hbit
      by_cases hlt : s.den.toNat < 2 ^ 63
      · have hround : normRound s = .next { s with den := s.den <<< 1, qbit := s.qbit <<< 1 } :=
          if_pos ((toInt_nonneg_iff _).2 hlt)
        have hnext : 2 ^ 63 ≤ (s.den <<< 1).toNat * 2 ^ n := by
          rwa [toNat_shiftLeft_one hlt, Nat.mul_assoc, ← pow_succ']
        obtain ⟨t, k', hk', hloop, ht⟩ := ih (h.next hd hlt) hnext
        refine ⟨t, k', by omega, fun fuel hfuel => ?_, ht⟩
        obtain ⟨fuel, rfl⟩ := Nat.exists_eq_add_one_of_ne_zero (Nat.ne_zero_of_lt hfuel)
        rw [loop_of_next (congrArg some hround)]
        exact hloop fuel (by omega)
      · refine ⟨s, k, by omega, fun fuel hfuel => ?_, h, Nat.le_of_not_lt hlt, rfl, rfl⟩
        obtain ⟨fuel, rfl⟩ := Nat.exists_eq_add_one_of_ne_zero (Nat.ne_zero_of_lt hfuel)
        apply loop_of_done
        rw [normRound, if_neg]
        rwa [toInt_nonneg_iff]

end Normalise

/-! ## The second loop -/

/-- The invariant of the second loop for `N / d`, with the divisor shifted by `k`. -/
structure DivInv (N d k : Nat) (s : DivState) : Prop where
  shifted : Shifted d k s
  lt : s.num.toNat < 2 * (d * 2 ^ k)
  eq : s.quot.toNat * d + s.num.toNat = N

section Subtract

variable {N d k : Nat} {s : DivState}

/-- After the subtraction the number is less than the divisor. -/
theorem DivInv.subtract (h : DivInv N d k s) (hd : 0 < d) (hN : N < 2 ^ 64) :
    (subtract s).num.toNat < d * 2 ^ k ∧
      (subtract s).quot.toNat * d + (subtract s).num.toNat = N := by
  have hden := h.shifted.den
  have hlt := h.lt
  unfold Utils.subtract
  by_cases hle : s.den ≤ s.num
  · have hle' : s.den.toNat ≤ s.num.toNat := hle
    have hnum : (s.num - s.den).toNat = s.num.toNat - d * 2 ^ k := by
      rw [BitVec.toNat_sub_of_le hle, hden]
    have hsum : (s.quot.toNat + s.qbit.toNat) * d + (s.num.toNat - d * 2 ^ k) = N := by
      rw [h.shifted.qbit, Nat.add_mul, Nat.mul_comm (2 ^ k) d, ← h.eq]
      omega
    -- the quotient does not overflow, as it is at most `N`
    have hquot : (s.quot + s.qbit).toNat = s.quot.toNat + s.qbit.toNat := by
      have hle_mul : s.quot.toNat + s.qbit.toNat ≤ (s.quot.toNat + s.qbit.toNat) * d :=
        Nat.le_mul_of_pos_right _ hd
      rw [BitVec.toNat_add, Nat.mod_eq_of_lt]
      omega
    rw [if_pos hle]
    refine ⟨?_, ?_⟩
    · show (s.num - s.den).toNat < _
      omega
    · show (s.quot + s.qbit).toNat * d + (s.num - s.den).toNat = N
      rw [hquot, hnum, hsum]
  · have hlt' : s.num.toNat < s.den.toNat := Nat.lt_of_not_le hle
    rw [if_neg hle]
    exact ⟨hden ▸ hlt', h.eq⟩

/-- One round with the divisor shifted by `k + 1` leaves it shifted by `k`. -/
theorem DivInv.next (h : DivInv N d (k + 1) s) (hd : 0 < d) (hN : N < 2 ^ 64) :
    DivInv N d k { Utils.subtract s with den := s.den >>> 1, qbit := s.qbit >>> 1 } := by
  obtain ⟨hlt, heq⟩ := h.subtract hd hN
  rw [pow_succ, ← Nat.mul_assoc] at hlt
  refine ⟨⟨?_, ?_⟩, by simp only; omega, heq⟩
  · show (s.den >>> 1).toNat = _
    rw [toNat_shiftRight_one, h.shifted.den, pow_succ, ← Nat.mul_assoc,
      Nat.mul_div_cancel _ two_pos]
  · show (s.qbit >>> 1).toNat = _
    rw [toNat_shiftRight_one, h.shifted.qbit, pow_succ, Nat.mul_div_cancel _ two_pos]

theorem divRound_of_shifted (h : Shifted d k s) :
    divRound s = .next { Utils.subtract s with den := s.den >>> 1, qbit := s.qbit >>> 1 } := by
  refine if_neg fun hzero => ?_
  have hqbit := h.qbit
  rw [hzero] at hqbit
  exact absurd hqbit.symm (Nat.pow_pos two_pos).ne'

/-- The second loop leaves quotient and remainder after `k + 1` rounds. -/
theorem divide (hd : 0 < d) (hN : N < 2 ^ 64) : ∀ {k : Nat} {s : DivState}, DivInv N d k s →
    ∃ t, (∀ fuel, k + 1 < fuel → loop (fun s => some (divRound s)) fuel s = some t) ∧
      t.num.toNat < d ∧ t.quot.toNat * d + t.num.toNat = N := by
  intro k
  induction k with
  | zero =>
      intro s h
      obtain ⟨hlt, heq⟩ := h.subtract hd hN
      rw [pow_zero, Nat.mul_one] at hlt
      refine ⟨{ Utils.subtract s with den := s.den >>> 1, qbit := s.qbit >>> 1 },
        fun fuel hfuel => ?_, hlt, heq⟩
      obtain ⟨fuel, rfl⟩ : ∃ n, fuel = n + 1 + 1 := ⟨fuel - 2, by omega⟩
      rw [loop_of_next (congrArg some (divRound_of_shifted h.shifted))]
      -- the bit is shifted out, whatever the divisor is now
      have hzero : s.qbit >>> 1 = 0 := by
        apply BitVec.eq_of_toNat_eq
        rw [toNat_shiftRight_one, h.shifted.qbit]
        rfl
      exact loop_of_done (congrArg some (if_pos hzero))
  | succ k ih =>
      intro s h
      obtain ⟨t, hloop, ht⟩ := ih (h.next hd hN)
      refine ⟨t, fun fuel hfuel => ?_, ht⟩
      obtain ⟨fuel, rfl⟩ := Nat.exists_eq_add_one_of_ne_zero (Nat.ne_zero_of_lt hfuel)
      rw [loop_of_next (congrArg some (divRound_of_shifted h.shifted))]
      exact hloop fuel (by omega)

end Subtract

/-- With 66 rounds for each loop `div64` divides. -/
theorem div64_eq {num den : BitVec 64} (hden : den ≠ 0) (remP : Option (BitVec 64)) {fuel : Nat}
    (hfuel : 66 ≤ fuel) :
    div64 fuel num den remP = some (num / den, remP.map fun _ => num % den) := by
  have hd : 0 < den.toNat := Nat.pos_of_ne_zero fun h => hden (BitVec.eq_of_toNat_eq h)
  have hstart : Shifted den.toNat 0 ⟨num, den, 0, 1⟩ :=
    ⟨by rw [pow_zero, Nat.mul_one], rfl⟩
  obtain ⟨s, k, hk, hnorm, hs, htop, hnum, hquot⟩ := normalise (n := 63) hd hstart
    (Nat.le_mul_of_pos_left _ hd)
  have hinv : DivInv num.toNat den.toNat k s := by
    refine ⟨hs, ?_, ?_⟩
    · rw [← hs.den, hnum]
      have hlt := num.isLt
      omega
    · rw [hquot, hnum]
      exact (congrArg (· + num.toNat) (Nat.zero_mul _)).trans (Nat.zero_add _)
  obtain ⟨t, hdiv, hlt, heq⟩ := divide hd num.isLt hinv
  have hresult : num.toNat / den.toNat = t.quot.toNat ∧ num.toNat % den.toNat = t.num.toNat := by
    rw [Nat.div_mod_unique hd]
    exact ⟨by rw [← heq, Nat.mul_comm, Nat.add_comm], hlt⟩
  have hq : t.quot = num / den := by
    apply BitVec.eq_of_toNat_eq
    rw [BitVec.toNat_udiv, hresult.1]
  have hr : t.num = num % den := by
    apply BitVec.eq_of_toNat_eq
    rw [BitVec.toNat_umod, hresult.2]
  simp only [div64, hnorm fuel (by omega), hdiv fuel (by omega), hq, hr]

/-- `div64` returns the quotient, and stores the remainder if there is a place for it. -/
theorem div64_exact (num den : BitVec 64) (hden : den ≠ 0) (remP : Option (BitVec 64)) :
    ∃ quot rem, Returns (fun fuel => div64 fuel num den remP) (quot, remP.map fun _ => rem) ∧
      quot = num / den ∧ rem = num % den ∧
      num.toNat = quot.toNat * den.toNat + rem.toNat ∧ rem < den := by
  refine ⟨_, _, ⟨66, fun fuel hfuel => div64_eq hden remP hfuel⟩, rfl, rfl, ?_, ?_⟩
  · rw [BitVec.toNat_udiv, BitVec.toNat_umod, Nat.mul_comm]
    exact (Nat.div_add_mod _ _).symm
  · exact BitVec.umod_lt num ((BitVec.pos_iff_ne_zero den).2 hden)

/-- A divisor with its top bit set. -/
theorem div64_exact_topBit :
    ∃ quot rem, Returns (fun fuel => div64 fuel (-1) (BitVec.intMin 64) (some 0))
        (quot, (some (0 : BitVec 64)).map fun _ => rem) ∧
      quot = -1 / BitVec.intMin 64 ∧ rem = -1 % BitVec.intMin 64 ∧
      (-1 : BitVec 64).toNat = quot.toNat * (BitVec.intMin 64).toNat + rem.toNat ∧
      rem < BitVec.intMin 64 :=
  div64_exact (-1) (BitVec.intMin 64) (by decide) (some 0)

end MPStuBS.Utils
