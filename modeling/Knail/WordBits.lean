import Mathlib.Data.Nat.Bitwise
import Mathlib.Tactic.Common

/-! # Bit fields of natural numbers -/
namespace Knail

variable {x y m k a w : ℕ}

/-- Masking out a bit field is shifting, reducing and shifting back. -/
theorem and_field (x a w : ℕ) : x&&&(2^w-1)*2^a=x/2^a%2^w*2^a:=by
  apply Nat.eq_of_testBit_eq
  intro i
  rw [Nat.testBit_and,Nat.testBit_mul_two_pow,Nat.testBit_mul_two_pow,Nat.testBit_mod_two_pow,
    Nat.testBit_div_two_pow,Nat.testBit_two_pow_sub_one]
  by_cases hi : a ≤ i
  · have : i-a+a=i:=by omega
    simp [hi,this,Bool.and_comm]
  · simp [hi]

/-- A word that fits a field has no bits in a disjoint one. -/
theorem and_eq_zero_of_field (hx : x&&&m=x) (hm : m&&&k=0) : x&&&k=0:=by
  rw [←hx,Nat.and_assoc,hm,Nat.and_zero]

/-- Adding bits outside a field does not change it. -/
theorem or_and_of_and_eq_zero (hy : y&&&k=0) : (x|||y)&&&k=x&&&k:=by
  rw [Nat.and_or_distrib_right,hy,Nat.or_zero]

theorem or_and_of_left_eq_zero (hx : x&&&k=0) : (x|||y)&&&k=y&&&k:=by
  rw [Nat.and_or_distrib_right,hx,Nat.zero_or]

end Knail
