import Hopper.Driver.Codec
import Hopper.Kernel.Json

/-! The JSON strings hopper writes are read back. -/

namespace Hopper.Driver

open List Kernel Kernel.Json

theorem hexValue_hexDigit (value : Nat) : hexValue (JobID.hexDigit value) = some (value % 16) := by
  have all : ∀ digit < 16, hexValue (['0', '1', '2', '3', '4', '5', '6', '7', '8', '9', 'a', 'b', 'c', 'd', 'e',
      'f'].getD digit '0') = some digit := by decide
  exact all (value % 16) (Nat.mod_lt value (by decide))

theorem readString_unit (one : Char) (rest : List Char) (small : one.toNat < 0xD800) :
    readString (.plain none) ('\\' :: 'u' :: [JobID.hexDigit (one.toNat / 4096), JobID.hexDigit (one.toNat / 256),
      JobID.hexDigit (one.toNat / 16), JobID.hexDigit one.toNat] ++ rest) = andThen [one] (readString (.plain none) rest) := by
  have value : 16 * (16 * (16 * (one.toNat / 4096 % 16) + one.toNat / 256 % 16) + one.toNat / 16 % 16) +
      one.toNat % 16 = one.toNat := by omega
  have low : isLow one.toNat = false := decide_eq_false (by omega)
  have high : isHigh one.toNat = false := decide_eq_false (by omega)
  simp [readString, hexValue_hexDigit, value, unitChars, low, high, flush]

theorem readString_short {escape one : Char} (rest : List Char) (other : escape ≠ 'u') (short : shortEscape escape = some one) :
    readString (.plain none) ('\\' :: escape :: rest) = andThen [one] (readString (.plain none) rest) := by
  simp [readString, other, short, flush]

theorem jsonChar_escapes : Escapes jsonChar := by
  intro one rest
  have named (code : Nat) (same : one.toNat = code) : Char.ofNat code = one := same ▸ Char.ofNat_toNat one
  unfold jsonChar
  split
  · next special =>
    have plain : one ≠ 'u' := by rcases special with rfl | rfl <;> decide
    exact readString_short rest plain (if_pos (special.imp id Or.inl))
  · next ordinary =>
    rw [not_or] at ordinary
    split
    · next same => exact same ▸ readString_short rest (by decide) rfl
    split
    · next same => exact same ▸ readString_short rest (by decide) rfl
    split
    · next same => exact same ▸ readString_short rest (by decide) rfl
    split
    · next same => exact named 8 same ▸ readString_short rest (by decide) rfl
    split
    · next same => exact named 12 same ▸ readString_short rest (by decide) rfl
    split
    · next unit =>
      refine readString_unit one rest ?_
      rcases unit with control | rfl | rfl | rfl | line | paragraph
      · omega
      · decide
      · decide
      · decide
      · omega
      · omega
    · next printed =>
      have visible : ¬one.toNat < 32 := fun control => printed (.inl control)
      simp [readString, ordinary, visible, flush]

end Hopper.Driver
