import Hopper.Sqlite.Decimal

/-! The numbers that are refused, and the texts that equal numbers share. An
`int64` holds the power of ten of a number, and may not hold it with the digits
before the point added or the zeros at the end. -/

namespace Hopper.Guarantees

open List Option Kernel Kernel.Bytes Sqlite

/-- A number that Postgres's `numeric` holds, by its digits on either side of the
point. -/
def Numeric (value : ℚ) : Prop :=
  |value| < 10 ^ maxNumericWhole ∧ ∃ integer : Int, value * 10 ^ maxNumericFraction = integer

def maxExponent : Int := 9223372036854775807

section
variable {number : Number}

theorem mantissa_length_le (number : Number) : number.mantissa.length ≤ number.text.length := by
  rw [Number.text, Number.mantissa, Number.decimals]
  cases number.fraction with
  | none =>
    simp only [getD_none, elim_none, length_append, length_nil]
    omega
  | some =>
    simp only [getD_some, elim_some, length_append, length_cons]
    omega

theorem significant_length_le (number : Number) : number.significant.length ≤ (trimLeft number.mantissa).length ∧
      (trimLeft number.mantissa).length ≤ number.mantissa.length ∧ number.decimals.length ≤ number.mantissa.length := by
  refine ⟨(List.rdropWhile_prefix _ _).length_le, (dropWhile_suffix _).length_le, ?_⟩
  rw [Number.mantissa, length_append]
  omega

theorem checkNumber_ok_iff (short : number.text.length < 9223372036854775808) (present : number.significant ≠ []) :
    checkNumber number.text = .ok () ↔ Fits number ∧ int64 (number.significant.length + int64 number.power) ≤ maxNumericWhole ∧
        -maxNumericFraction ≤ int64 number.power := by
  rw [checkNumber, parseDecimal_text short]
  by_cases fits : Fits number
  · rw [if_pos fits, decimalOf, if_neg present]
    dsimp only [bind, Except.bind]
    by_cases whole : int64 (number.significant.length + int64 number.power) > maxNumericWhole
    · rw [if_pos ⟨present, whole⟩]
      exact ⟨nofun, fun ⟨_, le, _⟩ => absurd whole (not_lt.mpr le)⟩
    · rw [if_neg fun both => whole both.2]
      by_cases fraction : int64 number.power < -maxNumericFraction
      · rw [if_pos fraction]
        exact ⟨nofun, fun ⟨_, _, le⟩ => absurd fraction (not_lt.mpr le)⟩
      · rw [if_neg fraction]
        exact ⟨fun _ => ⟨fits, not_lt.mp whole, not_lt.mp fraction⟩, fun _ => rfl⟩
  · rw [if_neg fits]
    exact ⟨nofun, fun ⟨is, _⟩ => absurd is fits⟩

theorem numeric_iff (present : number.significant ≠ []) : Numeric number.value ↔
      number.significant.length + number.power ≤ maxNumericWhole ∧ -maxNumericFraction ≤ number.power := by
  rw [Numeric, number.abs_value_lt_iff present, number.value_isInt_iff present]
  exact and_congr_right fun _ => ⟨fun _ => by omega, fun _ => by omega⟩

theorem multiple_iff (present : number.significant ≠ []) (power : Int) :
    (∃ integer : Int, number.value = integer * 10 ^ power) ↔ power ≤ number.power := by
  have moved : (∃ integer : Int, number.value = integer * 10 ^ power) ↔ ∃ integer : Int, number.value * 10 ^ (-power) = integer := by
    refine exists_congr fun integer => ?_
    rw [zpow_neg, ← div_eq_mul_inv, div_eq_iff (zpow_ten_ne_zero power)]
  rw [moved, number.value_isInt_iff present]
  exact ⟨fun _ => by omega, fun _ => by omega⟩

end

/-- A number is refused if and only if `numeric` does not hold it, but for one so
large that its digits before the point are too many for an `int64`, while its
power of ten is not. -/
theorem checkNumber_iff_numeric (number : Number) (short : number.text.length < 4611686018427387904) (nonzero : number.value ≠ 0) :
    (checkNumber number.text = .ok () ↔ Numeric number.value) ↔
      |number.value| < 10 ^ maxExponent ∨ maxExponent < number.exponentValue ∨
        ∃ integer : Int, number.value = integer * 10 ^ (maxExponent + 1) := by
  have present : number.significant ≠ [] := fun none => nonzero (number.value_eq_zero.mpr none)
  have positive := length_pos_iff.mpr present
  obtain ⟨significant, trimmed, decimals⟩ := significant_length_le number
  have mantissa := mantissa_length_le number
  rw [checkNumber_ok_iff (by omega) present, numeric_iff present, number.abs_value_lt_iff present, multiple_iff present]
  have split : number.power = number.exponentValue - number.decimals.length +
      ((trimLeft number.mantissa).length - number.significant.length : Nat) := rfl
  have fits : Fits number ↔ -9223372036854775808 ≤ number.exponentValue ∧ number.exponentValue < 9223372036854775808 ∧
        -9223372036854775808 ≤ number.exponentValue - number.decimals.length := Iff.rfl
  rw [fits]
  unfold maxExponent maxNumericWhole maxNumericFraction
  by_cases read : Fits number
  · rw [fits] at read
    by_cases large : 9223372036854775808 ≤ number.power
    · have wrapped := int64_above large (by omega)
      rw [wrapped]
      omega
    · have kept : int64 number.power = number.power := int64_of_inRange (by omega) (by omega)
      rw [kept]
      by_cases many : 9223372036854775808 ≤ number.significant.length + number.power
      · rw [int64_above many (by omega)]
        omega
      · rw [int64_of_inRange (by omega) (by omega)]
        omega
  · rw [fits] at read
    omega

/-- `1e9223372036854775807`. -/
def hugeNumber : Number where
  negative := false
  whole := ascii "1"
  fraction := none
  exponent := some ⟨false, .none, ascii "9223372036854775807", by decide, by decide⟩
  wholeSome := by decide
  wholeAll := by decide
  lead := by decide
  fractionSome := nofun
  fractionAll := nofun

theorem checkNumber_accepts_huge :
    hugeNumber.text = ascii "1e9223372036854775807" ∧ hugeNumber.value ≠ 0 ∧ checkNumber hugeNumber.text = .ok () ∧
      ¬Numeric hugeNumber.value := by
  have present : hugeNumber.significant ≠ [] := by decide
  refine ⟨by decide, fun zero => present (hugeNumber.value_eq_zero.mp zero), by decide, ?_⟩
  rw [numeric_iff present]
  decide

/-- `-12.50e3`. -/
def plainNumber : Number where
  negative := true
  whole := ascii "12"
  fraction := some (ascii "50")
  exponent := some ⟨false, .none, ascii "3", by decide, by decide⟩
  wholeSome := by decide
  wholeAll := by decide
  lead := by decide
  fractionSome := by decide
  fractionAll := by decide

theorem checkNumber_iff_numeric_plain :
    plainNumber.text = ascii "-12.50e3" ∧ (checkNumber plainNumber.text = .ok () ↔ Numeric plainNumber.value) := by
  have present : plainNumber.significant ≠ [] := by decide
  refine ⟨by decide, (checkNumber_iff_numeric plainNumber (by decide)
    (fun zero => present (plainNumber.value_eq_zero.mp zero))).mpr (.inl ?_)⟩
  rw [plainNumber.abs_value_lt_iff present]
  decide

/-! Canonical texts. -/

/-- What an `int64` leaves out when it wraps around. -/
def int64Span : Int := 18446744073709551616

/-- A decimal as a number is read: with digits but for zero. -/
def ReadDecimal (d : Decimal) : Prop :=
  Digits d.digits ∧ d.digits.head? ≠ some (digitByte 0) ∧ (d.digits = [] → d = {})

theorem read_decimalOf (number : Number) : ReadDecimal (decimalOf number) := by
  rw [decimalOf]
  split
  · exact ⟨nofun, nofun, fun _ => rfl⟩
  · next present => exact ⟨number.significant_all, number.significant_lead, fun none => absurd none present⟩

theorem trimMinus_string {d : Decimal} (read : ReadDecimal d) (present : d.digits ≠ []) :
    trimMinus d.string = (d.negative, d.digits ++ 101 :: formatInt d.exp) := by
  have plain (rest : Bytes) : trimMinus (d.digits ++ rest) = (false, d.digits ++ rest) := by
    cases held : d.digits with
    | nil => exact absurd held present
    | cons byte =>
      have other : byte ≠ 45 := by
        rintro rfl
        exact not_mem_digits read.1 rfl (held ▸ mem_cons_self)
      rw [cons_append, trimMinus]
      simpa using other
  rw [Decimal.string, if_neg present, append_assoc, append_assoc]
  cases d.negative with
  | false => exact plain _
  | true => rfl

theorem string_injective {left right : Decimal} (leftRead : ReadDecimal left) (rightRead : ReadDecimal right)
    (same : left.string = right.string) : left = right := by
  have letter {d : Decimal} (read : ReadDecimal d) :
      cut 101 (d.digits ++ 101 :: formatInt d.exp) = (d.digits, some (formatInt d.exp)) :=
    cut_append (not_mem_digits read.1 rfl)
  have zero {d : Decimal} (read : ReadDecimal d) (present : d.digits ≠ []) : d.string ≠ ascii "0" := by
    intro is
    have front := trimMinus_string read present
    rw [is, show trimMinus (ascii "0") = (false, ascii "0") from rfl, Prod.mk.injEq] at front
    have cuts := letter read
    rw [← front.2, show cut 101 (ascii "0") = (ascii "0", none) by decide, Prod.mk.injEq] at cuts
    cases cuts.2
  by_cases leftNone : left.digits = []
  · by_cases rightNone : right.digits = []
    · rw [leftRead.2.2 leftNone, rightRead.2.2 rightNone]
    · have text : left.string = ascii "0" := if_pos leftNone
      exact absurd (same.symm.trans text) (zero rightRead rightNone)
  · by_cases rightNone : right.digits = []
    · have text : right.string = ascii "0" := if_pos rightNone
      exact absurd (same.trans text) (zero leftRead leftNone)
    · have fronts := trimMinus_string leftRead leftNone
      rw [same, trimMinus_string rightRead rightNone, Prod.mk.injEq] at fronts
      have cuts := letter leftRead
      rw [← fronts.2, letter rightRead, Prod.mk.injEq, some.injEq] at cuts
      cases left
      cases right
      simp only [Decimal.mk.injEq]
      exact ⟨fronts.1.symm, cuts.1.symm, formatInt_injective cuts.2.symm⟩

variable {number : Number}

theorem canonicalNumber_ok_iff (short : number.text.length < 9223372036854775808) {text : Bytes} :
    canonicalNumber number.text = .ok text ↔ Fits number ∧ text = (decimalOf number).string := by
  rw [canonicalNumber, parseDecimal_text short]
  by_cases fits : Fits number
  · rw [if_pos fits]
    exact ⟨fun same => ⟨fits, (Except.ok.inj same).symm⟩, fun ⟨_, same⟩ => same ▸ rfl⟩
  · rw [if_neg fits]
    exact ⟨nofun, fun ⟨is, _⟩ => absurd is fits⟩

variable {left right : Number}

theorem decimalOf_eq_iff : decimalOf left = decimalOf right ↔ left.significant = right.significant ∧
        (left.significant = [] ∨ left.negative = right.negative ∧ int64 left.power = int64 right.power) := by
  by_cases leftNone : left.significant = []
  · by_cases rightNone : right.significant = []
    · simp [decimalOf, leftNone, rightNone]
    · simp [decimalOf, leftNone, rightNone, Ne.symm rightNone]
  · by_cases rightNone : right.significant = []
    · simp [decimalOf, leftNone, rightNone]
    · simp [decimalOf, leftNone, rightNone]
      tauto

theorem string_eq_iff : (decimalOf left).string = (decimalOf right).string ↔ left.significant = right.significant ∧
        (left.significant = [] ∨ left.negative = right.negative ∧ int64 left.power = int64 right.power) := by
  rw [← decimalOf_eq_iff]
  exact ⟨string_injective (read_decimalOf left) (read_decimalOf right), congrArg _⟩

theorem power_bounds (short : number.text.length < 9223372036854775808) (fits : Fits number) :
    -9223372036854775808 ≤ number.power ∧ number.power < 18446744073709551616 := by
  obtain ⟨significant, trimmed, decimals⟩ := significant_length_le number
  have mantissa := mantissa_length_le number
  obtain ⟨low, high, shifted⟩ := fits
  rw [Number.power]
  omega

theorem int64_power_eq_iff (leftShort : left.text.length < 9223372036854775808)
    (rightShort : right.text.length < 9223372036854775808) (leftFits : Fits left) (rightFits : Fits right) :
    int64 left.power = int64 right.power ↔
      left.power = right.power ∨ left.power = right.power + int64Span ∨ right.power = left.power + int64Span := by
  have leftBounds := power_bounds leftShort leftFits
  have rightBounds := power_bounds rightShort rightFits
  have read (power : Int) (low : -9223372036854775808 ≤ power) (high : power < 18446744073709551616) :
      int64 power = if power < 9223372036854775808 then power else power - 18446744073709551616 := by
    split
    · exact int64_of_inRange low (by omega)
    · exact int64_above (by omega) (by omega)
  rw [read _ leftBounds.1 leftBounds.2, read _ rightBounds.1 rightBounds.2]
  unfold int64Span
  omega

/-- Canonical texts are equal if and only if the numbers are, but for numbers that
differ by the factor that an `int64` wraps around. -/
theorem canonicalNumber_iff_value (left right : Number) (leftShort : left.text.length < 9223372036854775808)
    (rightShort : right.text.length < 9223372036854775808) {leftText rightText : Bytes}
    (leftRead : canonicalNumber left.text = .ok leftText) (rightRead : canonicalNumber right.text = .ok rightText) :
    (leftText = rightText ↔ left.value = right.value) ↔
      (left.value ≠ 0 → left.value ≠ right.value * 10 ^ int64Span ∧ right.value ≠ left.value * 10 ^ int64Span) := by
  obtain ⟨leftFits, rfl⟩ := (canonicalNumber_ok_iff leftShort).mp leftRead
  obtain ⟨rightFits, rfl⟩ := (canonicalNumber_ok_iff rightShort).mp rightRead
  rw [string_eq_iff, Number.value_eq_iff]
  by_cases same : left.significant = right.significant ∧ left.negative = right.negative ∧ left.value ≠ 0
  · obtain ⟨digits, sign, nonzero⟩ := same
    have leftSome : left.significant ≠ [] := fun none => nonzero (left.value_eq_zero.mpr none)
    have rightSome := digits ▸ leftSome
    have above := Number.value_eq_mul_iff leftSome rightSome int64Span
    have below := Number.value_eq_mul_iff rightSome leftSome int64Span
    rw [int64_power_eq_iff leftShort rightShort leftFits rightFits, Ne, Ne, Ne, above, below]
    simp only [digits, sign, rightSome, nonzero, true_and, false_or, not_false_eq_true, forall_const, int64Span]
    omega
  · refine iff_of_true ?_ fun nonzero => ?_
    · by_cases none : left.significant = []
      · simp [none]
      · have nonzero : left.value ≠ 0 := fun zero => none (left.value_eq_zero.mp zero)
        simp only [none, false_or]
        exact iff_of_false (fun both => same ⟨both.1, both.2.1, nonzero⟩) fun both => same ⟨both.1, both.2.1, nonzero⟩
    · have leftSome : left.significant ≠ [] := fun none => nonzero (left.value_eq_zero.mpr none)
      by_cases rightNone : right.significant = []
      · rw [right.value_eq_zero.mpr rightNone, zero_mul]
        exact ⟨nonzero, (mul_ne_zero nonzero (zpow_ten_ne_zero _)).symm⟩
      · rw [Ne, Ne, Number.value_eq_mul_iff leftSome rightNone, Number.value_eq_mul_iff rightNone leftSome]
        exact ⟨fun both => same ⟨both.2.1, both.1, nonzero⟩, fun both => same ⟨both.2.1.symm, both.1.symm, nonzero⟩⟩

/-- `10e9223372036854775807`. -/
def wrappingNumber : Number :=
  { hugeNumber with
    whole := ascii "10"
    wholeSome := by decide
    wholeAll := by decide
    lead := by decide }

/-- `1e-9223372036854775808`. -/
def tinyNumber : Number :=
  { hugeNumber with exponent := some ⟨false, .minus, ascii "9223372036854775808", by decide, by decide⟩ }

theorem canonicalNumber_shared :
    wrappingNumber.text = ascii "10e9223372036854775807" ∧ tinyNumber.text = ascii "1e-9223372036854775808" ∧
      canonicalNumber wrappingNumber.text = .ok (ascii "1e-9223372036854775808") ∧
        canonicalNumber tinyNumber.text = .ok (ascii "1e-9223372036854775808") ∧ wrappingNumber.value ≠ tinyNumber.value := by
  refine ⟨by decide, by decide, by decide, by decide, fun same => ?_⟩
  have leftSome : wrappingNumber.significant ≠ [] := by decide
  have rightSome : tinyNumber.significant ≠ [] := by decide
  have apart := (Number.value_eq_mul_iff leftSome rightSome 0).mp (by rw [zpow_zero, mul_one, same])
  exact absurd apart.2.2 (by decide)

/-- `-125E+2`. -/
def roundNumber : Number where
  negative := true
  whole := ascii "125"
  fraction := none
  exponent := some ⟨true, .plus, ascii "2", by decide, by decide⟩
  wholeSome := by decide
  wholeAll := by decide
  lead := by decide
  fractionSome := nofun
  fractionAll := nofun

theorem canonicalNumber_iff_value_round :
    canonicalNumber plainNumber.text = .ok (ascii "-125e2") ∧ canonicalNumber roundNumber.text = .ok (ascii "-125e2") ∧
      ((ascii "-125e2" = ascii "-125e2" ↔ plainNumber.value = roundNumber.value) ↔
        (plainNumber.value ≠ 0 → plainNumber.value ≠ roundNumber.value * 10 ^ int64Span ∧
          roundNumber.value ≠ plainNumber.value * 10 ^ int64Span)) :=
  ⟨by decide, by decide, canonicalNumber_iff_value plainNumber roundNumber (by decide) (by decide) (by decide) (by decide)⟩

end Hopper.Guarantees
