import Hopper.Kernel.Bytes
import Mathlib.Algebra.Order.Field.Power
import Mathlib.Algebra.Order.Ring.Rat
import Mathlib.Tactic.FieldSimp
import Mathlib.Tactic.Positivity
import Mathlib.Tactic.Ring

/-! JSON numbers: their texts, and the rational numbers they denote. -/

namespace Hopper.Kernel

open List Bytes

/-! Multiples of powers of ten. -/

theorem zpow_ten_ne_zero (power : Int) : (10 : ℚ) ^ power ≠ 0 :=
  zpow_ne_zero _ (by norm_num)

theorem scaled_lt_iff {value length : Nat} (positive : 0 < length) (low : 10 ^ (length - 1) ≤ value) (high : value < 10 ^ length)
    (power limit : Int) : (value : ℚ) * 10 ^ power < 10 ^ limit ↔ length + power ≤ limit := by
  have one : (1 : ℚ) < 10 := by norm_num
  have scale : (0 : ℚ) < 10 ^ power := zpow_pos (by norm_num) _
  constructor
  · intro less
    by_contra more
    have below : (10 : ℚ) ^ limit ≤ 10 ^ ((length : Int) - 1 + power) := zpow_le_zpow_right₀ one.le (by omega)
    have split : (10 : ℚ) ^ ((length : Int) - 1 + power) = ((10 ^ (length - 1) : Nat) : ℚ) * 10 ^ power := by
      rw [zpow_add₀ (by norm_num), Nat.cast_pow, ← zpow_natCast, Nat.cast_sub positive]
      norm_num
    have above := mul_le_mul_of_nonneg_right (Nat.cast_le.mpr low) scale.le
    exact absurd less (not_lt.mpr (below.trans (split ▸ above)))
  · intro fits
    have bound := mul_lt_mul_of_pos_right (Nat.cast_lt.mpr high) scale
    have join : ((10 ^ length : Nat) : ℚ) * 10 ^ power = 10 ^ ((length : Int) + power) := by
      rw [zpow_add₀ (by norm_num), Nat.cast_pow, ← zpow_natCast]
      norm_num
    exact bound.trans_le (join ▸ zpow_le_zpow_right₀ one.le fits)

theorem scaled_isInt_iff {value : Int} (odd : ¬10 ∣ value) (power : Int) :
    (∃ integer : Int, (value : ℚ) * 10 ^ power = integer) ↔ 0 ≤ power := by
  constructor
  · rintro ⟨integer, same⟩
    by_contra negative
    obtain ⟨count, rfl⟩ : ∃ count : Nat, power = -((count : Int) + 1) := ⟨(-power - 1).toNat, by omega⟩
    rw [zpow_neg, ← div_eq_mul_inv, div_eq_iff (zpow_ten_ne_zero _)] at same
    have whole : value = integer * 10 ^ (count + 1) := by
      have cast : ((count : Int) + 1) = ((count + 1 : Nat) : Int) := rfl
      rw [cast, zpow_natCast] at same
      exact_mod_cast same
    exact odd (whole ▸ Dvd.dvd.mul_left (dvd_pow_self 10 (Nat.succ_ne_zero count)) integer)
  · intro nonneg
    obtain ⟨count, rfl⟩ := Int.eq_ofNat_of_zero_le nonneg
    refine ⟨value * 10 ^ count, ?_⟩
    push_cast
    rw [zpow_natCast]

theorem scaled_inj {left right leftPower rightPower : Int} (leftOdd : ¬10 ∣ left) (rightOdd : ¬10 ∣ right)
    (same : (left : ℚ) * 10 ^ leftPower = right * 10 ^ rightPower) : left = right ∧ leftPower = rightPower := by
  have move (this other : Int) (power target : Int) (same : (this : ℚ) * 10 ^ power = other * 10 ^ target) :
      ∃ integer : Int, (this : ℚ) * 10 ^ (power - target) = integer := by
    refine ⟨other, ?_⟩
    rw [zpow_sub₀ (by norm_num), ← mul_div_assoc, div_eq_iff (zpow_ten_ne_zero _), same]
  have below := (scaled_isInt_iff leftOdd _).mp (move left right leftPower rightPower same)
  have above := (scaled_isInt_iff rightOdd _).mp (move right left rightPower leftPower same.symm)
  obtain rfl : leftPower = rightPower := by omega
  exact ⟨Int.cast_injective (mul_right_cancel₀ (zpow_ten_ne_zero _) same), rfl⟩

/-! Numbers as they are written. -/

inductive ExponentSign where
  | none
  | plus
  | minus

def ExponentSign.text : ExponentSign → Bytes
  | .none => []
  | .plus => [43]
  | .minus => [45]

structure Exponent where
  upper : Bool
  sign : ExponentSign
  digits : Bytes
  present : digits ≠ []
  all : Digits digits

def Exponent.value (exponent : Exponent) : Int :=
  match exponent.sign with
  | .minus => -natural exponent.digits
  | .none | .plus => natural exponent.digits

def Exponent.text (exponent : Exponent) : Bytes :=
  (if exponent.upper then 69 else 101) :: (exponent.sign.text ++ exponent.digits)

/-- A number as it is written. Only a zero that is the whole part is in front of
it. -/
structure Number where
  negative : Bool
  whole : Bytes
  fraction : Option Bytes
  exponent : Option Exponent
  wholeSome : whole ≠ []
  wholeAll : Digits whole
  lead : whole.head? = some (digitByte 0) → whole = [digitByte 0]
  fractionSome : ∀ digits ∈ fraction, digits ≠ []
  fractionAll : ∀ digits ∈ fraction, Digits digits

namespace Number

def decimals (number : Number) : Bytes :=
  number.fraction.getD []

def mantissa (number : Number) : Bytes :=
  number.whole ++ number.decimals

def exponentValue (number : Number) : Int :=
  number.exponent.elim 0 Exponent.value

def text (number : Number) : Bytes :=
  (if number.negative then [45] else []) ++
    (number.whole ++ number.fraction.elim [] (46 :: ·) ++ number.exponent.elim [] Exponent.text)

def value (number : Number) : ℚ :=
  (if number.negative then -1 else 1) * natural number.mantissa *
    10 ^ (number.exponentValue - number.decimals.length)

theorem decimals_all (number : Number) : Digits number.decimals := by
  rw [decimals]
  cases held : number.fraction with
  | none => exact nofun
  | some digits => exact number.fractionAll digits held

theorem mantissa_all (number : Number) : Digits number.mantissa :=
  number.wholeAll.append number.decimals_all

def significant (number : Number) : Bytes :=
  trimRight (trimLeft number.mantissa)

def power (number : Number) : Int :=
  number.exponentValue - number.decimals.length + ((trimLeft number.mantissa).length - number.significant.length : Nat)

section
variable (number : Number)
include number

theorem natural_mantissa : natural number.mantissa =
      natural number.significant * 10 ^ ((trimLeft number.mantissa).length - number.significant.length) := by
  rw [← natural_trimLeft, natural_trimRight]
  rfl

theorem value_eq :
    number.value = (if number.negative then -1 else 1) * natural number.significant * 10 ^ number.power := by
  rw [value, power, natural_mantissa, zpow_add₀ (by norm_num), zpow_natCast, Nat.cast_mul, Nat.cast_pow]
  push_cast
  ring

theorem significant_all : Digits number.significant := by
  intro byte mem
  have inTrimmed := (List.rdropWhile_prefix _ _).subset mem
  exact number.mantissa_all byte ((dropWhile_suffix _).subset inTrimmed)

theorem significant_lead : number.significant.head? ≠ some (digitByte 0) := by
  intro zero
  obtain ⟨rest, split⟩ := rdropWhile_prefix (p := (· == digitByte 0)) (l := trimLeft number.mantissa)
  have first : (trimLeft number.mantissa).head? = some (digitByte 0) := by
    rw [← split, head?_append, show ((trimLeft number.mantissa).rdropWhile (· == digitByte 0)) = number.significant from rfl,
      zero]
    rfl
  have kept := head?_dropWhile_not (· == digitByte 0) number.mantissa
  rw [show number.mantissa.dropWhile (· == digitByte 0) = trimLeft number.mantissa from rfl, first] at kept
  exact absurd kept (by decide)

theorem significant_not_dvd (present : number.significant ≠ []) : ¬10 ∣ natural number.significant := by
  obtain ⟨front, last, split, positive⟩ := trimRight_eq_concat present
  have digit : isDigit last = true := by
    refine number.significant_all last ?_
    rw [significant, split]
    exact mem_append_right _ mem_cons_self
  rw [significant, split]
  exact not_dvd_natural digit positive

theorem value_eq_zero : number.value = 0 ↔ number.significant = [] := by
  rw [value_eq]
  constructor
  · intro zero
    by_contra present
    have positive : natural number.significant ≠ 0 :=
      fun none => number.significant_not_dvd present (none ▸ Nat.dvd_zero 10)
    have sign : (if number.negative then (-1 : ℚ) else 1) ≠ 0 := by split <;> norm_num
    have power : (10 : ℚ) ^ number.power ≠ 0 := zpow_ne_zero _ (by norm_num)
    exact mul_ne_zero (mul_ne_zero sign (Nat.cast_ne_zero.mpr positive)) power zero
  · intro none
    rw [none, show natural [] = 0 from rfl, Nat.cast_zero, mul_zero, zero_mul]

end

def signedDigits (number : Number) : Int :=
  (if number.negative then -1 else 1) * natural number.significant

theorem value_eq_signed (number : Number) : number.value = number.signedDigits * 10 ^ number.power := by
  rw [value_eq, signedDigits]
  cases number.negative <;> simp

theorem signedDigits_not_dvd (number : Number) (present : number.significant ≠ []) : ¬(10 : Int) ∣ number.signedDigits := by
  have odd : ¬(10 : Int) ∣ natural number.significant := by exact_mod_cast number.significant_not_dvd present
  rw [signedDigits]
  cases number.negative <;> simpa using odd

variable {left right : Number}

theorem signedDigits_inj (leftSome : left.significant ≠ []) (rightSome : right.significant ≠ [])
    (same : left.signedDigits = right.signedDigits) :
    left.negative = right.negative ∧ left.significant = right.significant := by
  have leftBound := le_natural left.significant_all leftSome left.significant_lead
  have rightBound := le_natural right.significant_all rightSome right.significant_lead
  have leftPositive := (Nat.pow_pos (by decide)).trans_le leftBound
  have rightPositive := (Nat.pow_pos (by decide)).trans_le rightBound
  have equal : natural left.significant = natural right.significant ∧ left.negative = right.negative := by
    rw [signedDigits, signedDigits] at same
    cases leftSign : left.negative <;> cases rightSign : right.negative <;> simp [leftSign, rightSign] at same ⊢ <;> omega
  refine ⟨equal.2, ?_⟩
  rw [← decimal_natural left.significant_all leftSome left.significant_lead, equal.1,
    decimal_natural right.significant_all rightSome right.significant_lead]

theorem value_eq_mul_iff (leftSome : left.significant ≠ []) (rightSome : right.significant ≠ []) (apart : Int) :
    left.value = right.value * 10 ^ apart ↔
      left.negative = right.negative ∧ left.significant = right.significant ∧ left.power = right.power + apart := by
  rw [value_eq_signed, value_eq_signed, mul_assoc, ← zpow_add₀ (by norm_num)]
  constructor
  · intro same
    obtain ⟨digits, power⟩ :=
      scaled_inj (left.signedDigits_not_dvd leftSome) (right.signedDigits_not_dvd rightSome) same
    obtain ⟨sign, digits⟩ := signedDigits_inj leftSome rightSome digits
    exact ⟨sign, digits, power⟩
  · rintro ⟨sign, digits, power⟩
    rw [signedDigits, signedDigits, sign, digits, power]

theorem value_eq_iff : left.value = right.value ↔ left.significant = right.significant ∧
        (left.significant = [] ∨ left.negative = right.negative ∧ left.power = right.power) := by
  by_cases leftNone : left.significant = []
  · rw [left.value_eq_zero.mpr leftNone, eq_comm, right.value_eq_zero, leftNone, eq_comm]
    simp
  · by_cases rightNone : right.significant = []
    · rw [right.value_eq_zero.mpr rightNone, left.value_eq_zero, rightNone]
      simp [leftNone]
    · have apart := value_eq_mul_iff leftNone rightNone 0
      rw [zpow_zero, mul_one, add_zero] at apart
      rw [apart]
      simp only [leftNone, false_or]
      exact and_left_comm

theorem abs_value_lt_iff (number : Number) (present : number.significant ≠ []) (limit : Int) :
    |number.value| < 10 ^ limit ↔ number.significant.length + number.power ≤ limit := by
  have size : |number.value| = natural number.significant * 10 ^ number.power := by
    have scale : (0 : ℚ) < 10 ^ number.power := zpow_pos (by norm_num) _
    rw [value_eq]
    cases number.negative <;> simp [abs_mul, abs_of_pos scale]
  rw [size]
  exact scaled_lt_iff (length_pos_iff.mpr present) (le_natural number.significant_all present number.significant_lead)
    (natural_lt number.significant_all) _ _

theorem value_isInt_iff (number : Number) (present : number.significant ≠ []) (places : Int) :
    (∃ integer : Int, number.value * 10 ^ places = integer) ↔ 0 ≤ number.power + places := by
  rw [value_eq_signed, mul_assoc, ← zpow_add₀ (by norm_num)]
  exact scaled_isInt_iff (number.signedDigits_not_dvd present) _

end Number

end Hopper.Kernel
