import Hopper.Kernel.JsonText
import Hopper.Sqlite.Decimal

/-! What JSON text the driver refuses, as Postgres's `jsonb` input would. The
standard library's checks of UTF-8 and JSON are parameters. -/

namespace Hopper.Sqlite

open List Kernel Kernel.Bytes

/-- `strconv.ParseUint` in base 16, of 16 bits. -/
def parseHex (text : Bytes) : Option Nat :=
  if text ≠ [] ∧ (∀ digit ∈ text, (hexValue? digit).isSome = true) ∧ hexadecimal text < 65536 then some (hexadecimal text)
  else none

def unpairedSurrogate : Bytes := ascii "has an unpaired surrogate escape"

/-- Checks the escape at the start of a text, inside a string of valid JSON, and
returns its length. -/
def checkEscape (b : Bytes) : Except Bytes Nat :=
  if b.getD 1 0 ≠ 117 then .ok 2
  else
    let r := (parseHex ((b.drop 2).take 4)).getD 0
    if r = 0 then .error (ascii "has a \\u0000 escape")
    else if ¬(0xd800 ≤ r ∧ r < 0xe000) then .ok 6
    else if r ≥ 0xdc00 ∨ b.length < 12 ∨ (b.drop 6).take 2 ≠ ascii "\\u" then .error unpairedSurrogate
    else
      match parseHex ((b.drop 8).take 4) with
      | some low => if low < 0xdc00 ∨ low > 0xdfff then .error unpairedSurrogate else .ok 12
      | none => .error unpairedSurrogate

def numberByte (byte : UInt8) : Bool :=
  decide (byte ∈ ascii "+-.eE0123456789")

/-- The pass over a text: the bytes it has read already, and whether it is in a
string. -/
def scan : Nat → Bool → Bytes → Except Bytes Unit
  | _, _, [] => .ok ()
  | skip + 1, inString, _ :: rest => scan skip inString rest
  | 0, true, c :: rest =>
    if c = 34 then scan 0 false rest
    else if c = 92 then (checkEscape (c :: rest)).bind fun n => scan (n - 1) true rest
    else scan 0 true rest
  | 0, false, c :: rest =>
    if c = 34 then scan 0 true rest
    else if c = 45 ∨ isDigit c = true then
      let token := (c :: rest).takeWhile numberByte
      (checkNumber token).bind fun _ => scan (token.length - 1) false rest
    else scan 0 false rest

def checkJSON (utf8Valid jsonValid : Bytes → Bool) (b : Bytes) : Except Bytes Unit :=
  if ¬utf8Valid b then .error (ascii "is not UTF-8")
  else if ¬jsonValid b then .error (ascii "is not JSON")
  else scan 0 false b

/-! How the pass reads the parts of a text. -/

section
variable {c : UInt8} {inString : Bool} {rest : Bytes} {digits : Bytes}

theorem scan_skip (skipped : Bytes) : scan skipped.length inString (skipped ++ rest) = scan 0 inString rest := by
  induction skipped with
  | nil => rfl
  | cons byte skipped ih =>
    rw [length_cons, cons_append, scan, ih]

theorem scan_other (noQuote : c ≠ 34) (noMinus : c ≠ 45) (noDigit : isDigit c = false) :
    scan 0 false (c :: rest) = scan 0 false rest := by
  rw [scan, if_neg noQuote, if_neg (by rw [noDigit]; simp [noMinus])]

theorem scan_others {passed : Bytes} (others : ∀ byte ∈ passed, byte ≠ 34 ∧ byte ≠ 45 ∧ isDigit byte = false) :
    scan 0 false (passed ++ rest) = scan 0 false rest := by
  induction passed with
  | nil => rfl
  | cons byte passed ih =>
    obtain ⟨⟨noQuote, noMinus, noDigit⟩, later⟩ := forall_mem_cons.mp others
    rw [cons_append, scan_other noQuote noMinus noDigit, ih later]

theorem scan_spaces (spaces : Spaces) : scan 0 false (spaces.bytes ++ rest) = scan 0 false rest := by
  refine scan_others fun byte mem => ?_
  have space := spaces.all byte mem
  simp only [isSpace, Bool.or_eq_true, decide_eq_true_eq] at space
  rcases space with ((rfl | rfl) | rfl) | rfl <;> decide

def NumberEnds (rest : Bytes) : Prop :=
  ∀ byte ∈ rest.head?, numberByte byte = false

theorem NumberEnds.spaces (ends : NumberEnds rest) (spaces : Spaces) : NumberEnds (spaces.bytes ++ rest) := by
  obtain ⟨bytes, all⟩ := spaces
  cases bytes with
  | nil => exact ends
  | cons byte =>
    intro first mem
    cases mem
    have space := all byte mem_cons_self
    simp only [isSpace, Bool.or_eq_true, decide_eq_true_eq] at space
    rcases space with ((rfl | rfl) | rfl) | rfl <;> decide

theorem numberEnds_nil : NumberEnds [] :=
  fun _ mem => absurd mem (by simp)

theorem numberEnds_cons (other : numberByte c = false) : NumberEnds (c :: rest) := by
  intro first mem
  cases mem
  exact other

theorem numberByte_of_digit (digit : isDigit c = true) : numberByte c = true := by
  rw [← digitByte_digitValue digit]
  have small := digitValue_lt digit
  interval_cases digitValue c <;> decide

theorem numberByte_text (number : Number) : ∀ byte ∈ number.text, numberByte byte = true := by
  have digits {text : Bytes} (all : Digits text) : ∀ byte ∈ text, numberByte byte = true :=
    fun byte mem => numberByte_of_digit (all byte mem)
  have fraction : ∀ byte ∈ number.fraction.elim [] (46 :: ·), numberByte byte = true := by
    cases held : number.fraction with
    | none => exact nofun
    | some places => exact forall_mem_cons.mpr ⟨by decide, digits (number.fractionAll places held)⟩
  have exponent : ∀ byte ∈ number.exponent.elim [] Exponent.text, numberByte byte = true := by
    cases number.exponent with
    | none => exact nofun
    | some exponent =>
      refine forall_mem_cons.mpr ⟨by cases exponent.upper <;> decide, ?_⟩
      refine List.forall_mem_append.mpr ⟨?_, digits exponent.all⟩
      cases exponent.sign <;> decide
  rw [Number.text]
  refine List.forall_mem_append.mpr ⟨?_, List.forall_mem_append.mpr
    ⟨List.forall_mem_append.mpr ⟨digits number.wholeAll, fraction⟩, exponent⟩⟩
  cases number.negative <;> decide

theorem exists_text (number : Number) :
    ∃ first later, number.text = first :: later ∧ first ≠ 34 ∧ (first = 45 ∨ isDigit first = true) := by
  rw [Number.text]
  cases number.negative with
  | true => exact ⟨45, _, rfl, by decide, .inl rfl⟩
  | false =>
    cases held : number.whole with
    | nil => exact absurd held number.wholeSome
    | cons first =>
      have digit := number.wholeAll first (held ▸ mem_cons_self)
      refine ⟨first, _, rfl, ?_, .inr digit⟩
      rintro rfl
      exact absurd digit (by decide)

theorem bind_eq_ok {Value Result : Type} {read : Except Bytes Value} {next : Value → Except Bytes Result} {result : Result} :
    read.bind next = .ok result ↔ ∃ value, read = .ok value ∧ next value = .ok result := by
  cases read with
  | error => exact ⟨nofun, fun ⟨_, is, _⟩ => nomatch is⟩
  | ok value => exact ⟨fun ends => ⟨value, rfl, ends⟩, fun ⟨_, is, ends⟩ => Except.ok.inj is ▸ ends⟩

theorem scan_number (number : Number) (ends : NumberEnds rest) :
    scan 0 false (number.text ++ rest) = .ok () ↔ checkNumber number.text = .ok () ∧ scan 0 false rest = .ok () := by
  have token : (number.text ++ rest).takeWhile numberByte = number.text := by
    rw [takeWhile_append_of_pos (numberByte_text number)]
    cases rest with
    | nil => exact append_nil _
    | cons byte => rw [takeWhile_cons_of_neg (by rw [ends byte rfl]; exact Bool.false_ne_true), append_nil]
  obtain ⟨first, later, split, noQuote, begins⟩ := exists_text number
  rw [split, cons_append] at token ⊢
  rw [scan, if_neg noQuote, if_pos begins]
  dsimp only
  rw [token, length_cons, Nat.add_sub_cancel, scan_skip, bind_eq_ok]
  exact ⟨fun ⟨_, checked, ends⟩ => ⟨checked, ends⟩, fun ⟨checked, ends⟩ => ⟨(), checked, ends⟩⟩

/-! Escapes. -/

theorem hexValue_le {digit : UInt8} {value : Nat} (held : hexValue? digit = some value) : value ≤ 15 := by
  have small (bound : Nat) (le : digit ≤ UInt8.ofNat bound) (fits : bound < 256) : digit.toNat ≤ bound := by
    have := UInt8.le_iff_toNat_le.mp le
    rwa [UInt8.toNat_ofNat', Nat.mod_eq_of_lt fits] at this
  rw [hexValue?] at held
  split at held
  · next within =>
    have := small 57 within.2 (by decide)
    cases held
    omega
  · split at held
    · next within =>
      have := small 102 within.2 (by decide)
      cases held
      omega
    · split at held
      · next within =>
        have := small 70 within.2 (by decide)
        cases held
        omega
      · cases held

theorem parseHex_four (four : digits.length = 4) (hex : ∀ digit ∈ digits, (hexValue? digit).isSome = true) :
    parseHex digits = some (hexadecimal digits) := by
  have each : ∀ digit, (hexValue? digit).getD 0 ≤ 15 := by
    intro digit
    cases held : hexValue? digit with
    | none => decide
    | some => exact hexValue_le held
  match digits, four with
  | [first, second, third, fourth], _ =>
    have small : hexadecimal [first, second, third, fourth] < 65536 := by
      have := each first
      have := each second
      have := each third
      have := each fourth
      simp only [hexadecimal, foldl_cons, foldl_nil]
      omega
    rw [parseHex, if_pos ⟨cons_ne_nil _ _, hex, small⟩]

theorem checkEscape_short {letter : UInt8} (known : letter ∈ ascii "\"\\/bfnrt") : checkEscape (92 :: letter :: rest) = .ok 2 := by
  have other : letter ≠ 117 := by
    rintro rfl
    exact absurd known (by decide)
  rw [checkEscape, getD_cons_succ, getD_cons_zero, if_pos other]

theorem checkEscape_unit (rest : Bytes) (four : digits.length = 4)
    (hex : ∀ digit ∈ digits, (hexValue? digit).isSome = true) :
    checkEscape (92 :: 117 :: (digits ++ rest)) =
      if hexadecimal digits = 0 then .error (ascii "has a \\u0000 escape")
      else if ¬(0xd800 ≤ hexadecimal digits ∧ hexadecimal digits < 0xe000) then .ok 6
      else if hexadecimal digits ≥ 0xdc00 ∨ rest.length < 6 ∨ rest.take 2 ≠ ascii "\\u" then .error unpairedSurrogate
      else
        match parseHex ((rest.drop 2).take 4) with
        | some low => if low < 0xdc00 ∨ low > 0xdfff then .error unpairedSurrogate else .ok 12
        | none => .error unpairedSurrogate := by
  have read := parseHex_four four hex
  match digits, four with
  | [first, second, third, fourth], _ =>
    have taken : (List.drop 2 (92 :: 117 :: ([first, second, third, fourth] ++ rest))).take 4 =
      [first, second, third, fourth] := rfl
    have long : (92 :: 117 :: ([first, second, third, fourth] ++ rest)).length < 12 ↔ rest.length < 6 := by
      simp only [length_cons, length_append, length_nil]
      omega
    rw [checkEscape, getD_cons_succ, getD_cons_zero, if_neg (not_not.mpr rfl), taken, read]
    simp only [long, Option.getD_some]
    rfl

end

end Hopper.Sqlite
