import Mathlib.Algebra.Order.Group.Nat
import Mathlib.Tactic.Ring

/-! Integers rounded to a number of bits, ties to even, and the decimal with
the fewest digits that rounds to a given one. -/

namespace Hopper.Kernel.Rounding

/-- How many of a unit are nearest to a number, an even count of two that are
as near. -/
def count (number unit : Nat) : Nat :=
  if 2 * (number % unit) < unit ∨ 2 * (number % unit) = unit ∧ number / unit % 2 = 0 then number / unit
  else number / unit + 1

def otherCount (number unit : Nat) : Nat :=
  if count number unit = number / unit then number / unit + 1 else number / unit

/-- The nearest number of at most so many significant bits. -/
def nearest (bits number : Nat) : Nat :=
  if number < 2 ^ bits then number
  else count number (2 ^ (number.log2 + 1 - bits)) * 2 ^ (number.log2 + 1 - bits)

/-- The decimal that ends in the most zeros, at most so many, among those that
round to the number. -/
def shortestOf (bits number : Nat) : Nat → Nat
  | 0 => number
  | zeros + 1 =>
    match [count number (10 ^ (zeros + 1)), otherCount number (10 ^ (zeros + 1))].find? fun digits =>
        decide (nearest bits (digits * 10 ^ (zeros + 1)) = number) with
    | some digits => digits * 10 ^ (zeros + 1)
    | none => shortestOf bits number zeros

def shortest (bits number : Nat) : Nat :=
  shortestOf bits number (number.log2 + 1)

theorem count_mul (digits : Nat) {unit : Nat} (positive : 0 < unit) : count (digits * unit) unit = digits := by
  rw [count, Nat.mul_mod_left, Nat.mul_div_cancel digits positive, if_pos (.inl (by omega))]

theorem count_le (number unit : Nat) : count number unit ≤ number / unit + 1 := by
  unfold count
  split <;> omega

variable {bits : Nat} {number : Nat}

theorem nearest_of_lt (small : number < 2 ^ bits) : nearest bits number = number :=
  if_pos small

theorem nearest_of_dvd (exact : 2 ^ (number.log2 + 1 - bits) ∣ number) : nearest bits number = number := by
  unfold nearest
  split
  · rfl
  · obtain ⟨digits, same⟩ := exact
    have counted := count_mul digits (Nat.two_pow_pos (number.log2 + 1 - bits))
    rw [Nat.mul_comm, ← same] at counted
    rw [counted, Nat.mul_comm, ← same]

theorem nearest_mul {digits : Nat} (positive : 0 < bits) (few : digits ≤ 2 ^ bits) (shift : Nat) :
    nearest bits (digits * 2 ^ shift) = digits * 2 ^ shift := by
  apply nearest_of_dvd
  rcases Nat.eq_or_lt_of_le few with rfl | less
  · rw [← Nat.pow_add, Nat.log2_two_pow]
    exact Nat.pow_dvd_pow 2 (by omega)
  · refine Nat.dvd_mul_left_of_dvd (Nat.pow_dvd_pow 2 ?_) digits
    have bound : digits * 2 ^ shift < 2 ^ (bits + shift) := by
      rw [Nat.pow_add]
      exact Nat.mul_lt_mul_of_pos_right less (Nat.two_pow_pos shift)
    rcases Nat.eq_zero_or_pos (digits * 2 ^ shift) with zero | some
    · rw [zero, Nat.log2_zero]
      omega
    · have log := (Nat.log2_lt some.ne').mpr bound
      omega

theorem nearest_nearest (positive : 0 < bits) (number : Nat) : nearest bits (nearest bits number) = nearest bits number := by
  by_cases small : number < 2 ^ bits
  · rw [nearest_of_lt small, nearest_of_lt small]
  · have long := (Nat.le_log2 (by have := Nat.two_pow_pos bits; omega)).mpr (not_lt.mp small)
    have below : number / 2 ^ (number.log2 + 1 - bits) < 2 ^ bits := by
      rw [Nat.div_lt_iff_lt_mul (Nat.two_pow_pos _), ← Nat.pow_add]
      have log : number < 2 ^ (number.log2 + 1) := Nat.lt_log2_self
      rwa [show bits + (number.log2 + 1 - bits) = number.log2 + 1 by omega]
    have few := (count_le number (2 ^ (number.log2 + 1 - bits))).trans below
    rw [show nearest bits number = _ from if_neg small, nearest_mul positive few]

theorem nearest_shortest (exact : nearest bits number = number) : nearest bits (shortest bits number) = number := by
  have of (zeros : Nat) : nearest bits (shortestOf bits number zeros) = number := by
    induction zeros with
    | zero => exact exact
    | succ zeros ih =>
      unfold shortestOf
      split
      · next digits found =>
        have rounds := List.find?_some found
        exact of_decide_eq_true rounds
      · exact ih
  exact of _

example : shortest 53 (2 ^ 63) = 9223372036854776000 := by decide +kernel

end Hopper.Kernel.Rounding
