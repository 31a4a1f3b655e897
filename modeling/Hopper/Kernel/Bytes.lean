import Mathlib.Data.Nat.Digits.Lemmas
import Mathlib.Data.List.DropRight
import Mathlib.Data.List.TakeWhile

/-! Texts as bytes: cutting them at a separator, and decimal numerals as Go's
`strconv` reads and writes them. -/

namespace Hopper.Kernel

open List

abbrev Bytes := List UInt8

/-- Decided over the bytes of the text, not over all bytes. -/
instance (priority := high) decidableForallByte (holds : UInt8 → Prop) [DecidablePred holds] (text : Bytes) :
    Decidable (∀ byte ∈ text, holds byte) :=
  text.decidableBAll holds

namespace Bytes

def ascii (text : String) : Bytes :=
  text.toList.map Char.toUInt8

/-- The text before the first separator, and the text after it if there is one. -/
def cut (separator : UInt8) (text : Bytes) : Bytes × Option Bytes :=
  (text.takeWhile (· != separator), (text.dropWhile (· != separator)).tail?)

section
variable {separator : UInt8} {text pre post : Bytes}

theorem cut_append (absent : separator ∉ pre) : cut separator (pre ++ separator :: post) = (pre, some post) := by
  have plain : ∀ byte ∈ pre, (byte != separator) = true := by
    intro byte mem
    rw [bne_iff_ne]
    rintro rfl
    exact absent mem
  rw [cut, takeWhile_append_of_pos plain, dropWhile_append_of_pos plain]
  simp

theorem cut_absent (absent : separator ∉ text) : cut separator text = (text, none) := by
  have plain : ∀ byte ∈ text, (byte != separator) = true := by
    intro byte mem
    rw [bne_iff_ne]
    rintro rfl
    exact absent mem
  rw [cut, takeWhile_eq_self_iff.mpr plain, dropWhile_eq_nil_iff.mpr plain]
  rfl

end

/-! Numerals. -/

def isDigit (byte : UInt8) : Bool :=
  decide (48 ≤ byte.toNat ∧ byte.toNat ≤ 57)

def Digits (text : Bytes) : Prop :=
  ∀ byte ∈ text, isDigit byte = true

instance (text : Bytes) : Decidable (Digits text) :=
  inferInstanceAs (Decidable (∀ byte ∈ text, isDigit byte = true))

def digitValue (byte : UInt8) : Nat := byte.toNat - 48

def digitByte (value : Nat) : UInt8 := UInt8.ofNat (48 + value)

def natural (digits : Bytes) : Nat :=
  Nat.ofDigits 10 (digits.reverse.map digitValue)

def decimal (value : Nat) : Bytes :=
  if value = 0 then [digitByte 0] else (Nat.digits 10 value).reverse.map digitByte

variable {byte : UInt8}

theorem digitValue_lt (digit : isDigit byte = true) : digitValue byte < 10 := by
  rw [isDigit, decide_eq_true_eq] at digit
  rw [digitValue]
  omega

theorem digitByte_digitValue (digit : isDigit byte = true) : digitByte (digitValue byte) = byte := by
  rw [isDigit, decide_eq_true_eq] at digit
  rw [digitByte, digitValue, Nat.add_sub_cancel' digit.1, UInt8.ofNat_toNat]

variable {value : Nat}

theorem toNat_digitByte (small : value < 10) : (digitByte value).toNat = 48 + value := by
  rw [digitByte, UInt8.toNat_ofNat']
  omega

theorem isDigit_digitByte (small : value < 10) : isDigit (digitByte value) = true := by
  rw [isDigit, toNat_digitByte small, decide_eq_true_eq]
  omega

theorem digitValue_digitByte (small : value < 10) : digitValue (digitByte value) = value := by
  rw [digitValue, toNat_digitByte small]
  omega

theorem digitValue_eq_zero (digit : isDigit byte = true) : digitValue byte = 0 ↔ byte = digitByte 0 := by
  constructor
  · intro zero
    rw [← digitByte_digitValue digit, zero]
  · rintro rfl
    rfl

theorem Digits.append {left right : Bytes} (leftDigits : Digits left) (rightDigits : Digits right) : Digits (left ++ right) :=
  fun byte mem => (List.mem_append.mp mem).elim (leftDigits byte) (rightDigits byte)

theorem natural_append (left right : Bytes) : natural (left ++ right) = natural left * 10 ^ right.length + natural right := by
  rw [natural, reverse_append, map_append, Nat.ofDigits_append, length_map, length_reverse, natural,
    natural, Nat.mul_comm, Nat.add_comm]

variable {value : Int} {digits : Bytes}

theorem digitValues_lt (all : Digits digits) : ∀ value ∈ digits.reverse.map digitValue, value < 10 := by
  intro value mem
  obtain ⟨byte, present, rfl⟩ := mem_map.mp mem
  exact digitValue_lt (all byte (mem_reverse.mp present))

theorem natural_lt (all : Digits digits) : natural digits < 10 ^ digits.length := by
  have bound := Nat.ofDigits_lt_base_pow_length (by decide : 1 < 10) (digitValues_lt all)
  rwa [length_map, length_reverse] at bound

theorem natural_zeros {zeros : Bytes} (all : ∀ byte ∈ zeros, byte = digitByte 0) : natural zeros = 0 := by
  induction zeros with
  | nil => rfl
  | cons byte zeros ih =>
    obtain ⟨zero, rest⟩ := forall_mem_cons.mp all
    rw [← singleton_append, natural_append, ih rest, zero, show natural [digitByte 0] = 0 from rfl, Nat.zero_mul]

theorem decimal_natural (all : Digits digits) (present : digits ≠ []) (lead : digits.head? ≠ some (digitByte 0)) :
    decimal (natural digits) = digits := by
  have last : ∀ nonempty : digits.reverse.map digitValue ≠ [], (digits.reverse.map digitValue).getLast nonempty ≠ 0 := by
    intro nonempty zero
    cases digits with
    | nil => exact present rfl
    | cons byte =>
      rw [getLast_map, getLast_reverse, head_cons, digitValue_eq_zero (all byte mem_cons_self)] at zero
      exact lead (congrArg some zero)
  have back : Nat.digits 10 (natural digits) = digits.reverse.map digitValue :=
    Nat.digits_ofDigits 10 (by decide) _ (digitValues_lt all) last
  have positive : natural digits ≠ 0 := by
    intro zero
    rw [zero, Nat.digits_zero] at back
    exact present (reverse_eq_nil_iff.mp (map_eq_nil_iff.mp back.symm))
  rw [decimal, if_neg positive, back, ← map_reverse, reverse_reverse, map_map]
  have each : digits.map (digitByte ∘ digitValue) = digits.map id :=
    map_congr_left fun byte mem => digitByte_digitValue (all byte mem)
  rw [each, map_id]

theorem natural_decimal (value : Nat) : natural (decimal value) = value := by
  rw [decimal]
  split
  · next zero => rw [zero]; rfl
  · have each : (Nat.digits 10 value).map (digitValue ∘ digitByte) = (Nat.digits 10 value).map id :=
      map_congr_left fun digit mem => digitValue_digitByte (Nat.digits_lt_base (by decide) mem)
    rw [natural, ← map_reverse, reverse_reverse, map_map, each, map_id, Nat.ofDigits_digits]

theorem digits_decimal (value : Nat) : Digits (decimal value) := by
  intro byte mem
  rw [decimal] at mem
  split at mem
  · cases mem_singleton.mp mem
    rfl
  · obtain ⟨digit, present, rfl⟩ := mem_map.mp mem
    exact isDigit_digitByte (Nat.digits_lt_base (by decide) (mem_reverse.mp present))

theorem le_natural (all : Digits digits) (present : digits ≠ []) (lead : digits.head? ≠ some (digitByte 0)) :
    10 ^ (digits.length - 1) ≤ natural digits := by
  cases digits with
  | nil => exact absurd rfl present
  | cons byte rest =>
    have positive : 0 < digitValue byte := by
      rw [Nat.pos_iff_ne_zero, Ne, digitValue_eq_zero (all byte mem_cons_self)]
      rintro rfl
      exact lead rfl
    have one : natural [byte] = digitValue byte := by simp [natural]
    rw [← singleton_append, natural_append, one, length_append, length_singleton, Nat.add_sub_cancel_left]
    calc 10 ^ rest.length = 1 * 10 ^ rest.length := (Nat.one_mul _).symm
      _ ≤ digitValue byte * 10 ^ rest.length := Nat.mul_le_mul_right _ positive
      _ ≤ _ := Nat.le_add_right _ _

theorem not_dvd_natural {front : Bytes} {last : UInt8} (digit : isDigit last = true) (positive : last ≠ digitByte 0) :
    ¬10 ∣ natural (front ++ [last]) := by
  have one : natural [last] = digitValue last := by simp [natural]
  have small := digitValue_lt digit
  have present : digitValue last ≠ 0 := fun zero => positive ((digitValue_eq_zero digit).mp zero)
  rw [natural_append, one, length_singleton]
  omega

/-! Zeros at either end. -/

def trimLeft (digits : Bytes) : Bytes :=
  digits.dropWhile (· == digitByte 0)

def trimRight (digits : Bytes) : Bytes :=
  digits.rdropWhile (· == digitByte 0)

theorem natural_trimLeft (digits : Bytes) : natural (trimLeft digits) = natural digits := by
  have zeros : ∀ byte ∈ digits.takeWhile (· == digitByte 0), byte = digitByte 0 := by
    intro byte mem
    have zero := mem_takeWhile_imp mem
    exact beq_iff_eq.mp zero
  have split : digits = digits.takeWhile (· == digitByte 0) ++ trimLeft digits := takeWhile_append_dropWhile.symm
  conv_rhs => rw [split, natural_append, natural_zeros zeros, Nat.zero_mul, Nat.zero_add]

theorem natural_trimRight (digits : Bytes) :
    natural digits = natural (trimRight digits) * 10 ^ (digits.length - (trimRight digits).length) := by
  obtain ⟨zeros, split⟩ := rdropWhile_prefix (p := (· == digitByte 0)) (l := digits)
  have each : ∀ byte ∈ zeros, byte = digitByte 0 := by
    have back := append_cancel_left (split.trans rdropWhile_append_rtakeWhile.symm)
    intro byte mem
    rw [back] at mem
    have zero := mem_rtakeWhile_imp mem
    exact beq_iff_eq.mp zero
  have size : digits.length - (trimRight digits).length = zeros.length := by
    rw [trimRight]
    have := congrArg List.length split
    rw [length_append] at this
    omega
  rw [size]
  conv_lhs => rw [← split, natural_append, natural_zeros each, Nat.add_zero]
  rfl

theorem trimRight_eq_concat (present : trimRight digits ≠ []) :
    ∃ front last, trimRight digits = front ++ [last] ∧ last ≠ digitByte 0 := by
  have last := rdropWhile_last_not (· == digitByte 0) digits present
  refine ⟨(trimRight digits).dropLast, (trimRight digits).getLast present, (dropLast_append_getLast present).symm, ?_⟩
  intro zero
  exact last (beq_iff_eq.mpr zero)

/-! Integers. -/

/-- An `int64` that holds an integer, or what is left of it. -/
def int64 (value : Int) : Int :=
  value.bmod 18446744073709551616

theorem int64_of_inRange (low : -9223372036854775808 ≤ value) (high : value < 9223372036854775808) : int64 value = value := by
  rw [int64]
  exact Int.bmod_eq_of_le (by omega) (by omega)

theorem int64_below (low : -27670116110564327424 ≤ value) (high : value < -9223372036854775808) :
    int64 value = value + 18446744073709551616 := by
  rw [int64, Int.bmod_def]
  omega

theorem int64_above (low : 9223372036854775808 ≤ value) (high : value < 27670116110564327424) :
    int64 value = value - 18446744073709551616 := by
  rw [int64, Int.bmod_def]
  omega

def signed : Bytes → Bool × Bytes
  | 45 :: digits => (true, digits)
  | 43 :: digits => (false, digits)
  | digits => (false, digits)

/-- A numeral as an integer of 64 bits, if it is one and in range. -/
def parseInt (text : Bytes) : Option Int :=
  let (negative, digits) := signed text
  let value : Int := if negative then -natural digits else natural digits
  if digits ≠ [] ∧ Digits digits ∧ -9223372036854775808 ≤ value ∧ value < 9223372036854775808 then some value else none

def formatInt (value : Int) : Bytes :=
  if value < 0 then 45 :: decimal value.natAbs else decimal value.natAbs

theorem formatInt_injective : Function.Injective formatInt := by
  have plain (value : Nat) (rest : Bytes) : decimal value ≠ 45 :: rest := by
    intro same
    have digit := digits_decimal value 45 (same ▸ mem_cons_self)
    exact absurd digit (by decide)
  intro left right same
  have natAbs_eq (equal : decimal left.natAbs = decimal right.natAbs) : left.natAbs = right.natAbs := by
    rw [← natural_decimal left.natAbs, equal, natural_decimal]
  rw [formatInt, formatInt] at same
  split at same
  · split at same
    · have := natAbs_eq (List.cons.inj same).2
      omega
    · exact absurd same.symm (plain _ _)
  · split at same
    · exact absurd same (plain _ _)
    · have := natAbs_eq same
      omega

end Bytes

end Hopper.Kernel
