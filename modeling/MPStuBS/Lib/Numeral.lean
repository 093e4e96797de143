import Mathlib.Data.Nat.Digits.Lemmas
import Mathlib.Tactic.Ring

/-!
# Numerals

The canonical numeral of a number in a base, most significant digit first, and the value
of a row of digits by Horner's rule. Reading a numeral back gives the number
(`value_numeral`).
-/

set_option autoImplicit false

namespace MPStuBS.Lib.Numeral

variable {b n d : Nat}

/-- The digits of `n` in base `b`, without leading zeros; the one digit 0 for zero. -/
def numeral (b n : Nat) : List Nat := if n = 0 then [0] else (b.digits n).reverse

/-- The value of digits in base `b`. -/
def value (b : Nat) (ds : List Nat) : Nat := ds.foldl (fun v d => v * b + d) 0

theorem value_append_singleton (b : Nat) (ds : List Nat) (d : Nat) :
    value b (ds ++ [d]) = value b ds * b + d := by
  rw [value, List.foldl_append]
  rfl

theorem value_reverse (b : Nat) (ds : List Nat) : value b ds.reverse = Nat.ofDigits b ds := by
  induction ds with
  | nil => rfl
  | cons d ds ih =>
      rw [List.reverse_cons, value_append_singleton, ih, Nat.ofDigits_cons]
      ring

theorem numeral_of_ne_zero (hn : n ≠ 0) : numeral b n = (b.digits n).reverse := if_neg hn

/-- A numeral reads back as its number. -/
theorem value_numeral (b n : Nat) : value b (numeral b n) = n := by
  by_cases hn : n = 0
  · rw [hn, numeral, if_pos rfl]
    exact Nat.zero_mul b
  · rw [numeral_of_ne_zero hn, value_reverse, Nat.ofDigits_digits]

theorem numeral_lt (hb : 1 < b) (hd : d ∈ numeral b n) : d < b := by
  by_cases hn : n = 0
  · rw [numeral, if_pos hn, List.mem_singleton] at hd
    omega
  · rw [numeral_of_ne_zero hn, List.mem_reverse] at hd
    exact Nat.digits_lt_base hb hd

/-- Only zero has a numeral that starts with 0. -/
theorem numeral_head (hn : n ≠ 0) : (numeral b n).head? ≠ some 0 := by
  rw [numeral_of_ne_zero hn, List.head?_reverse]
  intro h
  exact Nat.getLast_digit_ne_zero b hn (List.getLast_of_mem_getLast? h)

end MPStuBS.Lib.Numeral
