import Mathlib.Data.BitVec
import Mathlib.Logic.Function.Basic

/-!
# Fields of a word

A `BitLayout` divides a word into fields that fit into it and do not overlap, as a
structure of bit fields does (`BitLayout.packed`). A field holds what was stored into it last
(`get_set_self`), and storing into it leaves the others alone (`get_set_of_ne`); a
word is the sum of its bits, so nothing else is needed to reason about fields.

Of a device register only some fields take what is written to it. `merge` combines
two words along a mask, and `fieldMask` is the mask of a list of fields. Words that
`AgreeOn` the mask have the same values in the listed fields (`get_of_agreeOn`).

A number may be kept in two fields, and is put together again from both (`join_parts`).
-/

set_option autoImplicit false

namespace MPStuBS.Lib

universe u

/-- The fields of a word of `w` bits: where each begins, and how wide it is. -/
structure BitLayout (ι : Type u) (w : Nat) where
  start : ι → Nat
  width : ι → Nat
  fits : ∀ i, start i + width i ≤ w
  disjoint : ∀ i j, i ≠ j → start i + width i ≤ start j ∨ start j + width j ≤ start i

section Packed

variable {ι : Type u} (width : ι → Nat)

/-- The bits of all fields together. -/
def packedWidth : List ι → Nat
  | [] => 0
  | j :: fields => width j + packedWidth fields

variable [DecidableEq ι]

/-- Where field `i` begins if the fields follow one another. -/
def packedStart : List ι → ι → Nat
  | [], _ => 0
  | j :: fields, i => if i = j then 0 else width j + packedStart fields i

variable {width}

theorem packedStart_fits {fields : List ι} {i : ι} (hi : i ∈ fields) :
    packedStart width fields i + width i ≤ packedWidth width fields := by
  induction fields with
  | nil => cases hi
  | cons j fields ih =>
      rw [packedStart, packedWidth]
      by_cases hij : i = j
      · rw [if_pos hij, hij]
        omega
      · have hrest := ih ((List.mem_cons.1 hi).resolve_left hij)
        rw [if_neg hij]
        omega

theorem packedStart_disjoint {fields : List ι} {i j : ι} (hi : i ∈ fields) (hj : j ∈ fields)
    (h : i ≠ j) : packedStart width fields i + width i ≤ packedStart width fields j ∨
      packedStart width fields j + width j ≤ packedStart width fields i := by
  induction fields with
  | nil => cases hi
  | cons k fields ih =>
      rw [packedStart, packedStart]
      by_cases hik : i = k
      · rw [if_pos hik, if_neg fun hjk => h (hik.trans hjk.symm), hik]
        omega
      · by_cases hjk : j = k
        · rw [if_neg hik, if_pos hjk, hjk]
          omega
        · have hrest := ih ((List.mem_cons.1 hi).resolve_left hik)
            ((List.mem_cons.1 hj).resolve_left hjk)
          rw [if_neg hik, if_neg hjk]
          omega

/-- A structure of bit fields: they follow one another, and the first one has the low bits. -/
@[reducible] def BitLayout.packed (width : ι → Nat) {w : Nat} (fields : List ι)
    (hall : ∀ i, i ∈ fields) (hw : packedWidth width fields = w) : BitLayout ι w where
  start := packedStart width fields
  width := width
  fits i := hw ▸ packedStart_fits (hall i)
  disjoint i j h := packedStart_disjoint (hall i) (hall j) h

end Packed

/-- The bits of `x` where the mask is set, and those of `y` elsewhere. -/
def merge {w : Nat} (mask x y : BitVec w) : BitVec w := (x &&& mask) ||| (y &&& ~~~mask)

theorem getLsbD_merge {w : Nat} (mask x y : BitVec w) (n : Nat) :
    (merge mask x y).getLsbD n = if mask.getLsbD n then x.getLsbD n else y.getLsbD n := by
  rw [merge, BitVec.getLsbD_or, BitVec.getLsbD_and, BitVec.getLsbD_and, BitVec.getLsbD_not]
  by_cases hn : n < w
  · cases mask.getLsbD n <;> simp [hn]
  · have hge : w ≤ n := Nat.le_of_not_lt hn
    simp [hn, BitVec.getLsbD_of_ge _ n hge]

/-! ## Parts of a number -/

section Parts

variable {w : Nat}

/-- A mask does not matter for the bits that it leaves alone. -/
theorem setWidth_and {k : Nat} {mask : BitVec w} (hmask : mask.setWidth k = BitVec.allOnes k)
    (x : BitVec w) : (x &&& mask).setWidth k = x.setWidth k := by
  rw [BitVec.setWidth_and, hmask, BitVec.and_allOnes]

/-- A number put together from its upper `k` and its lower `n` bits. -/
theorem join_parts {n k : Nat} {x : BitVec w} (hx : x.toNat < 2 ^ (n + k)) :
    ((x >>> n).setWidth k).setWidth w <<< n ||| (x.setWidth n).setWidth w = x := by
  apply BitVec.eq_of_getLsbD_eq
  intro i hi
  simp only [BitVec.getLsbD_or, BitVec.getLsbD_shiftLeft, BitVec.getLsbD_setWidth,
    BitVec.getLsbD_ushiftRight, hi, decide_true, Bool.true_and]
  by_cases hlow : i < n
  · simp [hlow]
  · have hsub : n + (i - n) = i := by omega
    have hw : i - n < w := by omega
    by_cases hhigh : i - n < k
    · simp [hlow, hw, hhigh, hsub]
    · have hbit : x.getLsbD i = false := by
        apply Nat.testBit_lt_two_pow
        exact Nat.lt_of_lt_of_le hx (Nat.pow_le_pow_right (by decide) (by omega))
      simp [hlow, hhigh, hbit]

/-- The lower `n` bits replaced by ones. -/
theorem shift_or_ones {n : Nat} {ones : BitVec w}
    (hones : ∀ i < w, ones.getLsbD i = decide (i < n)) (x : BitVec w) :
    (x >>> n) <<< n ||| ones = x ||| ones := by
  apply BitVec.eq_of_getLsbD_eq
  intro i hi
  rw [BitVec.getLsbD_or, BitVec.getLsbD_or, hones i hi, BitVec.getLsbD_shiftLeft,
    BitVec.getLsbD_ushiftRight]
  by_cases hlow : i < n
  · simp [hlow]
  · have hsub : n + (i - n) = i := by omega
    simp [hlow, hi, hsub]

end Parts

/-- Two words have the same bits where the mask is set. -/
def AgreeOn {w : Nat} (mask x y : BitVec w) : Prop :=
  ∀ n, mask.getLsbD n = true → x.getLsbD n = y.getLsbD n

section AgreeOn

variable {w : Nat} {mask x y z : BitVec w}

theorem AgreeOn.refl (x : BitVec w) : AgreeOn mask x x := fun _ _ => rfl

theorem AgreeOn.symm (h : AgreeOn mask x y) : AgreeOn mask y x := fun n hn => (h n hn).symm

theorem AgreeOn.trans (h : AgreeOn mask x y) (h' : AgreeOn mask y z) : AgreeOn mask x z :=
  fun n hn => (h n hn).trans (h' n hn)

theorem agreeOn_merge (mask x y : BitVec w) : AgreeOn mask (merge mask x y) x := fun n hn => by
  rw [getLsbD_merge, if_pos hn]

end AgreeOn

namespace BitLayout

variable {ι : Type u} {w : Nat} (L : BitLayout ι w)

/-- Bit `n` belongs to field `i`. -/
def Covers (i : ι) (n : Nat) : Prop := L.start i ≤ n ∧ n < L.start i + L.width i

instance (i : ι) (n : Nat) : Decidable (L.Covers i n) :=
  inferInstanceAs (Decidable (_ ∧ _))

/-- The ones of field `i`. -/
def mask (i : ι) : BitVec w := (BitVec.allOnes (L.width i)).setWidth w <<< L.start i

/-- The value of field `i`. -/
def get (i : ι) (x : BitVec w) : BitVec (L.width i) := x.extractLsb' (L.start i) (L.width i)

/-- The word with the value of field `i` replaced. -/
def set (i : ι) (v : BitVec (L.width i)) (x : BitVec w) : BitVec w :=
  (x &&& ~~~L.mask i) ||| (v.setWidth w <<< L.start i)

/-- The ones of some fields. -/
def fieldMask (fields : List ι) : BitVec w := fields.foldr (fun i m => L.mask i ||| m) 0

variable {L} {i j : ι} {x y : BitVec w} {fields : List ι}

theorem Covers.unique {n : Nat} (hi : L.Covers i n) (hj : L.Covers j n) : i = j := by
  by_contra hne
  have hi₁ := hi.1
  have hi₂ := hi.2
  have hj₁ := hj.1
  have hj₂ := hj.2
  rcases L.disjoint i j hne with h | h <;> omega

theorem getLsbD_mask (n : Nat) : (L.mask i).getLsbD n = decide (L.Covers i n) := by
  have hfits := L.fits i
  rw [mask, BitVec.getLsbD_shiftLeft, BitVec.getLsbD_setWidth, BitVec.getLsbD_allOnes,
    Bool.eq_iff_iff]
  simp only [Bool.and_eq_true, decide_eq_true_eq, Bool.not_eq_true', decide_eq_false_iff_not]
  rw [Covers]
  omega

theorem getLsbD_get (n : Nat) :
    (L.get i x).getLsbD n = (decide (n < L.width i) && x.getLsbD (L.start i + n)) := by
  rw [get, BitVec.getLsbD_extractLsb']

theorem getLsbD_set {v : BitVec (L.width i)} (n : Nat) :
    (L.set i v x).getLsbD n =
      if L.Covers i n then v.getLsbD (n - L.start i) else x.getLsbD n := by
  have hfits := L.fits i
  rw [set, BitVec.getLsbD_or, BitVec.getLsbD_and, BitVec.getLsbD_not, getLsbD_mask,
    BitVec.getLsbD_shiftLeft, BitVec.getLsbD_setWidth]
  by_cases hn : n < w
  · by_cases hc : L.Covers i n
    · have hlow : ¬ n < L.start i := Nat.not_lt.2 hc.1
      have hw : n - L.start i < w := by omega
      simp [hc, hn, hlow, hw]
    · have hout : v.getLsbD (n - L.start i) = false ∨ n < L.start i := by
        by_cases hlow : n < L.start i
        · exact .inr hlow
        · refine .inl (BitVec.getLsbD_of_ge v _ ?_)
          have hnot : ¬ (L.start i ≤ n ∧ n < L.start i + L.width i) := hc
          omega
      rcases hout with hout | hout <;> simp [hc, hn, hout]
  · have hc : ¬ L.Covers i n := fun h => hn (Nat.lt_of_lt_of_le h.2 hfits)
    simp [hc, hn, BitVec.getLsbD_of_ge x n (Nat.le_of_not_lt hn)]

/-- Two words with the same bits in a field have the same value in it. -/
theorem get_congr (h : ∀ n, L.Covers i n → x.getLsbD n = y.getLsbD n) : L.get i x = L.get i y := by
  apply BitVec.eq_of_getLsbD_eq
  intro n hn
  rw [getLsbD_get, getLsbD_get, h (L.start i + n) ⟨Nat.le_add_right _ n, by omega⟩]

@[simp] theorem get_set_self (v : BitVec (L.width i)) : L.get i (L.set i v x) = v := by
  apply BitVec.eq_of_getLsbD_eq
  intro n hn
  have hc : L.Covers i (L.start i + n) := ⟨Nat.le_add_right _ n, by omega⟩
  rw [getLsbD_get, getLsbD_set, if_pos hc, Nat.add_sub_cancel_left]
  simp [hn]

theorem get_set_of_ne (h : j ≠ i) (v : BitVec (L.width i)) :
    L.get j (L.set i v x) = L.get j x := by
  apply get_congr
  intro n hj
  rw [getLsbD_set, if_neg fun hi => h (hj.unique hi)]

theorem getLsbD_fieldMask (n : Nat) :
    (L.fieldMask fields).getLsbD n = true ↔ ∃ i ∈ fields, L.Covers i n := by
  induction fields with
  | nil => simp [fieldMask]
  | cons i fields ih =>
      rw [fieldMask, List.foldr_cons, ← fieldMask, BitVec.getLsbD_or, Bool.or_eq_true, ih,
        getLsbD_mask, decide_eq_true_eq]
      simp

theorem get_of_agreeOn (h : AgreeOn (L.fieldMask fields) x y) (hi : i ∈ fields) :
    L.get i x = L.get i y := by
  apply get_congr
  intro n hn
  exact h n ((getLsbD_fieldMask n).2 ⟨i, hi, hn⟩)

/-- Storing into a field keeps the agreement, inside the mask or outside of it. -/
theorem set_agreeOn {mask : BitVec w} (h : AgreeOn mask x y) (v : BitVec (L.width i)) :
    AgreeOn mask (L.set i v x) (L.set i v y) := by
  intro n hn
  rw [getLsbD_set, getLsbD_set, h n hn]

end BitLayout

end MPStuBS.Lib
