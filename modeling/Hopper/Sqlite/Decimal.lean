import Hopper.Kernel.Number

/-! Numbers as the driver's JSON functions read them. Texts of numbers are ASCII. -/

namespace Hopper.Sqlite

open List Option Kernel Kernel.Bytes

/-- A JSON number as digits and a power of ten: no digit at either end is zero,
and zero has none. -/
structure Decimal where
  negative : Bool := false
  digits : Bytes := []
  exp : Int := 0
deriving DecidableEq

def Decimal.string (d : Decimal) : Bytes :=
  if d.digits = [] then ascii "0"
  else (if d.negative then ascii "-" else []) ++ d.digits ++ ascii "e" ++ formatInt d.exp

def toLower (text : Bytes) : Bytes :=
  text.map fun byte => if 65 ≤ byte ∧ byte ≤ 90 then byte + 32 else byte

def trimMinus : Bytes → Bool × Bytes
  | 45 :: rest => (true, rest)
  | text => (false, text)

def trimPlus : Bytes → Bytes
  | 43 :: rest => rest
  | text => text

def exponentOutOfRange (s : Bytes) : Bytes :=
  ascii "number " ++ s ++ ascii ": exponent out of range"

def parseExponent (s : Bytes) : Option Bytes → Except Bytes Int
  | none => .ok 0
  | some exponent => (parseInt (trimPlus exponent)).elim (.error (exponentOutOfRange s)) .ok

/-- Parses a JSON number. Its exponent may be as large as an `int64` holds. -/
def parseDecimal (text : Bytes) : Except Bytes Decimal := do
  let (negative, s) := trimMinus text
  let (mantissa, exponent) := cut 101 (toLower s)
  let exp ← parseExponent s exponent
  let (whole, frac) := cut 46 mantissa
  let digits := whole ++ frac.getD []
  if int64 (exp - (frac.getD []).length) > exp then
    throw (exponentOutOfRange s)
  let exp := int64 (exp - (frac.getD []).length)
  let digits := trimLeft digits
  let trimmed := trimRight digits
  let exp := int64 (exp + (digits.length - trimmed.length : Nat))
  pure (if trimmed = [] then {} else { negative := negative, digits := trimmed, exp := exp })

def canonicalNumber (s : Bytes) : Except Bytes Bytes :=
  (parseDecimal s).map Decimal.string

/-- The digits that Postgres's `numeric` holds before the point. -/
def maxNumericWhole : Int := 131072

def maxNumericFraction : Int := 16383

/-- Refuses a number beyond the range of Postgres's `numeric`. -/
def checkNumber (n : Bytes) : Except Bytes Unit := do
  let d ← parseDecimal n
  if d.digits ≠ [] ∧ int64 (d.digits.length + d.exp) > maxNumericWhole then
    throw (ascii "has a number, " ++ n.take 20 ++ ascii "..., beyond the range of Postgres's numeric")
  if d.exp < -maxNumericFraction then
    throw (ascii "has a number, " ++ n.take 20 ++ ascii "..., with more decimals than Postgres's numeric holds")

/-! How a JSON number is read. -/

section
variable {digits : Bytes}

theorem toLower_digits (all : Digits digits) : toLower digits = digits := by
  have each : ∀ byte ∈ digits, (if 65 ≤ byte ∧ byte ≤ 90 then byte + 32 else byte) = byte := by
    intro byte mem
    have digit := all byte mem
    rw [isDigit, decide_eq_true_eq] at digit
    refine if_neg fun upper => ?_
    have := UInt8.le_iff_toNat_le.mp upper.1
    have : (65 : UInt8).toNat = 65 := rfl
    omega
  exact (map_congr_left each).trans (map_id' _)

theorem not_mem_digits {byte : UInt8} (all : Digits digits) (other : isDigit byte = false) : byte ∉ digits :=
  fun mem => absurd (all byte mem) (other ▸ Bool.false_ne_true)

end

theorem trimMinus_text (number : Number) :
    trimMinus number.text = (number.negative, number.whole ++ number.fraction.elim [] (46 :: ·) ++
      number.exponent.elim [] Exponent.text) := by
  have plain (rest : Bytes) : trimMinus (number.whole ++ rest) = (false, number.whole ++ rest) := by
    cases held : number.whole with
    | nil => exact absurd held number.wholeSome
    | cons byte =>
      have other : byte ≠ 45 := by
        rintro rfl
        exact not_mem_digits number.wholeAll rfl (held ▸ mem_cons_self)
      rw [cons_append, trimMinus]
      simpa using other
  rw [Number.text]
  cases number.negative with
  | false =>
    rw [append_assoc]
    exact plain _
  | true => rfl

theorem cut_exponent (number : Number) :
    cut 101 (toLower (number.whole ++ number.fraction.elim [] (46 :: ·) ++ number.exponent.elim [] Exponent.text)) =
      (number.whole ++ number.fraction.elim [] (46 :: ·),
        number.exponent.map fun exponent => exponent.sign.text ++ exponent.digits) := by
  have mantissa : toLower (number.whole ++ number.fraction.elim [] (46 :: ·)) =
      number.whole ++ number.fraction.elim [] (46 :: ·) := by
    rw [toLower, map_append]
    refine congrArg₂ _ (toLower_digits number.wholeAll) ?_
    cases held : number.fraction with
    | none => rfl
    | some digits => exact congrArg (46 :: ·) (toLower_digits (number.fractionAll digits held))
  have absent : (101 : UInt8) ∉ number.whole ++ number.fraction.elim [] (46 :: ·) := by
    rw [List.mem_append, not_or]
    refine ⟨not_mem_digits number.wholeAll rfl, ?_⟩
    cases held : number.fraction with
    | none => exact not_mem_nil
    | some digits =>
      rw [elim_some, mem_cons, not_or]
      exact ⟨by decide, not_mem_digits (number.fractionAll digits held) rfl⟩
  rw [toLower, map_append, ← toLower, ← toLower, mantissa]
  cases number.exponent with
  | none =>
    rw [elim_none, show toLower [] = [] from rfl, append_nil]
    exact cut_absent absent
  | some exponent =>
    have lowered : toLower exponent.text = 101 :: (exponent.sign.text ++ exponent.digits) := by
      have sign : toLower exponent.sign.text = exponent.sign.text := by
        cases exponent.sign <;> rfl
      rw [Exponent.text, toLower, map_cons, map_append, ← toLower, ← toLower, sign, toLower_digits exponent.all]
      cases exponent.upper <;> rfl
    rw [elim_some, lowered]
    exact cut_append absent

theorem cut_point (number : Number) :
    cut 46 (number.whole ++ number.fraction.elim [] (46 :: ·)) = (number.whole, number.fraction) := by
  have absent : (46 : UInt8) ∉ number.whole := not_mem_digits number.wholeAll rfl
  cases number.fraction with
  | none =>
    rw [elim_none, append_nil]
    exact cut_absent absent
  | some => exact cut_append absent

theorem parseInt_exponent (exponent : Exponent) : parseInt (trimPlus (exponent.sign.text ++ exponent.digits)) =
      if -9223372036854775808 ≤ exponent.value ∧ exponent.value < 9223372036854775808 then some exponent.value else none := by
  have plain : trimPlus exponent.digits = exponent.digits ∧ signed exponent.digits = (false, exponent.digits) := by
    cases held : exponent.digits with
    | nil => exact absurd held exponent.present
    | cons byte =>
      have plus : byte ≠ 43 := by
        rintro rfl
        exact not_mem_digits exponent.all rfl (held ▸ mem_cons_self)
      have minus : byte ≠ 45 := by
        rintro rfl
        exact not_mem_digits exponent.all rfl (held ▸ mem_cons_self)
      constructor
      · rw [trimPlus]
        simpa using plus
      · rw [signed]
        · simpa using minus
        · simpa using plus
  have read (text : Bytes) (negative : Bool) (value : Int) (sign : signed text = (negative, exponent.digits))
      (same : (if negative then -(natural exponent.digits : Int) else natural exponent.digits) = value) :
      parseInt text = if -9223372036854775808 ≤ value ∧ value < 9223372036854775808 then some value else none := by
    rw [parseInt, sign]
    simp only [same, exponent.present, exponent.all, ne_eq, not_false_eq_true, true_and]
  rw [Exponent.value]
  cases exponent.sign with
  | none =>
    rw [ExponentSign.text, nil_append, plain.1]
    exact read _ false _ plain.2 rfl
  | plus => exact read _ false _ plain.2 rfl
  | minus => exact read _ true _ rfl rfl

/-- A number whose exponent an `int64` holds, with and without its decimals. -/
def Fits (number : Number) : Prop :=
  -9223372036854775808 ≤ number.exponentValue ∧ number.exponentValue < 9223372036854775808 ∧
    -9223372036854775808 ≤ number.exponentValue - number.decimals.length

instance (number : Number) : Decidable (Fits number) :=
  inferInstanceAs (Decidable (_ ∧ _ ∧ _))

def decimalOf (number : Number) : Decimal :=
  if number.significant = [] then {}
  else { negative := number.negative, digits := number.significant, exp := int64 number.power }

section
variable {number : Number}

theorem decimals_length_lt (short : number.text.length < 9223372036854775808) : number.decimals.length < 9223372036854775808 := by
  refine lt_of_le_of_lt ?_ short
  rw [Number.text, Number.decimals]
  cases number.fraction with
  | none => exact Nat.zero_le _
  | some =>
    simp only [getD_some, elim_some, length_append, length_cons]
    omega

theorem parseExponent_eq (s : Bytes) : parseExponent s (number.exponent.map fun exponent => exponent.sign.text ++ exponent.digits) =
      if -9223372036854775808 ≤ number.exponentValue ∧ number.exponentValue < 9223372036854775808 then
        .ok number.exponentValue
      else .error (exponentOutOfRange s) := by
  rw [Number.exponentValue]
  cases number.exponent with
  | none => rfl
  | some =>
    rw [map_some, elim_some, parseExponent, parseInt_exponent]
    split <;> rfl

theorem parseDecimal_text (short : number.text.length < 9223372036854775808) : parseDecimal number.text =
      if Fits number then .ok (decimalOf number) else .error (exponentOutOfRange (trimMinus number.text).2) := by
  have few := decimals_length_lt short
  rw [parseDecimal, trimMinus_text]
  simp only [cut_exponent, cut_point, parseExponent_eq]
  rw [← Number.decimals, ← Number.mantissa]
  by_cases read : -9223372036854775808 ≤ number.exponentValue ∧ number.exponentValue < 9223372036854775808
  · rw [if_pos read]
    dsimp only [bind, Except.bind]
    by_cases low : -9223372036854775808 ≤ number.exponentValue - number.decimals.length
    · have shifted : int64 (number.exponentValue - number.decimals.length) = number.exponentValue - number.decimals.length :=
        int64_of_inRange low (by omega)
      have fits : Fits number := ⟨read.1, read.2, low⟩
      rw [if_pos fits, shifted, if_neg (by omega)]
      rfl
    · have wrapped : int64 (number.exponentValue - number.decimals.length) =
          number.exponentValue - number.decimals.length + 18446744073709551616 :=
        int64_below (by omega) (by omega)
      rw [if_neg fun fits : Fits number => low fits.2.2, wrapped, if_pos (by omega)]
      rfl
  · rw [if_neg read, if_neg fun fits : Fits number => read ⟨fits.1, fits.2.1⟩]
    rfl

end

end Hopper.Sqlite
