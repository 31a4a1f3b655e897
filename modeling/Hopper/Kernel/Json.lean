import Mathlib.Data.List.Basic

/-! JSON values, their compact text, and a reader of such text. How a string's
characters are escaped is a parameter; the reader knows every escape. -/

namespace Hopper.Kernel

open List Option

inductive Json (Number : Type) where
  | null
  | bool (value : Bool)
  | number (value : Number)
  | string (text : String)
  | array (items : List (Json Number))
  | object (members : List (String × Json Number))

namespace Json

section
variable {Number : Type}

@[elab_as_elim]
theorem induct {motive : Json Number → Prop} (null : motive null) (bool : ∀ value, motive (bool value))
    (number : ∀ value, motive (number value)) (string : ∀ text, motive (string text))
    (array : ∀ items, (∀ item ∈ items, motive item) → motive (array items))
    (object : ∀ members, (∀ mem ∈ members, motive mem.2) → motive (object members)) (json : Json Number) :
    motive json :=
  @Json.rec Number motive (fun items => ∀ item ∈ items, motive item) (fun members => ∀ mem ∈ members, motive mem.2)
    (fun mem => motive mem.2) null bool number string array object
    (forall_mem_nil _)
    (fun _ _ first rest => forall_mem_cons.mpr ⟨first, rest⟩)
    (forall_mem_nil _)
    (fun _ _ first rest => forall_mem_cons.mpr ⟨first, rest⟩) (fun _ _ value => value) json

end

/-! Strings. -/

def hexValue (digit : Char) : Option Nat :=
  if '0' ≤ digit ∧ digit ≤ '9' then some (digit.toNat - '0'.toNat)
  else if 'a' ≤ digit ∧ digit ≤ 'f' then some (digit.toNat - 'a'.toNat + 10)
  else if 'A' ≤ digit ∧ digit ≤ 'F' then some (digit.toNat - 'A'.toNat + 10)
  else none

/-- The character after a backslash, but `u`. -/
def shortEscape (escape : Char) : Option Char :=
  if escape = '"' ∨ escape = '\\' ∨ escape = '/' then some escape
  else if escape = 'b' then some (Char.ofNat 8)
  else if escape = 'f' then some (Char.ofNat 12)
  else if escape = 'n' then some '\n'
  else if escape = 'r' then some '\r'
  else if escape = 't' then some '\t'
  else none

def replacement : Char := Char.ofNat 0xFFFD

def isHigh (unit : Nat) : Bool := decide (0xD800 ≤ unit ∧ unit < 0xDC00)

def isLow (unit : Nat) : Bool := decide (0xDC00 ≤ unit ∧ unit < 0xE000)

/-- Where in a string the reader is, and the high surrogate it has read. -/
inductive StringMode where
  | plain (high : Option Nat)
  | escape (high : Option Nat)
  | unit (high : Option Nat) (value left : Nat)

def flush : Option Nat → List Char
  | none => []
  | some _ => [replacement]

/-- The characters and the high surrogate after a code unit. -/
def unitChars (high : Option Nat) (unit : Nat) : List Char × Option Nat :=
  if isLow unit then
    match high with
    | some first => ([Char.ofNat (0x10000 + (first - 0xD800) * 0x400 + (unit - 0xDC00))], none)
    | none => ([replacement], none)
  else if isHigh unit then (flush high, some unit)
  else (flush high ++ [Char.ofNat unit], none)

def andThen (chars : List Char) (rest : Option (List Char × List Char)) : Option (List Char × List Char) :=
  rest.map fun (more, text) => (chars ++ more, text)

/-- Reads a string up to its closing quote, and returns the text after it. -/
def readString : StringMode → List Char → Option (List Char × List Char)
  | _, [] => none
  | .plain high, one :: rest =>
    if one = '"' then some (flush high, rest)
    else if one = '\\' then readString (.escape high) rest
    else if one.toNat < 32 then none
    else andThen (flush high ++ [one]) (readString (.plain none) rest)
  | .escape high, one :: rest =>
    if one = 'u' then readString (.unit high 0 3) rest
    else match shortEscape one with
      | none => none
      | some char => andThen (flush high ++ [char]) (readString (.plain none) rest)
  | .unit high value left, one :: rest =>
    match hexValue one with
    | none => none
    | some digit =>
      match left with
      | 0 => andThen (unitChars high (16 * value + digit)).1
          (readString (.plain (unitChars high (16 * value + digit)).2) rest)
      | left + 1 => readString (.unit high (16 * value + digit) left) rest

def Escapes (escape : Char → List Char) : Prop :=
  ∀ one rest, readString (.plain none) (escape one ++ rest) = andThen [one] (readString (.plain none) rest)

def quote (escape : Char → List Char) (text : String) : List Char :=
  '"' :: (text.toList.flatMap escape ++ ['"'])

theorem readString_escaped {escape : Char → List Char} (escapes : Escapes escape) (text rest : List Char) :
    readString (.plain none) (text.flatMap escape ++ '"' :: rest) = some (text, rest) := by
  induction text with
  | nil => rfl
  | cons one text ih =>
    rw [flatMap_cons, append_assoc, escapes, ih]
    rfl

/-! Values, with their numbers as they are written. -/

def numberChar (one : Char) : Bool :=
  one.isDigit || one = '-' || one = '+' || one = '.' || one = 'e' || one = 'E'

mutual

def render (escape : Char → List Char) : Json (List Char) → List Char
  | .null => ['n', 'u', 'l', 'l']
  | .bool true => ['t', 'r', 'u', 'e']
  | .bool false => ['f', 'a', 'l', 's', 'e']
  | .number literal => literal
  | .string text => quote escape text
  | .array [] => ['[', ']']
  | .array (first :: rest) => '[' :: (render escape first ++ renderItems escape rest)
  | .object [] => ['\x7b', '\x7d']
  | .object ((name, value) :: rest) =>
    '\x7b' :: (quote escape name ++ ':' :: (render escape value ++ renderMembers escape rest))

/-- The items after the first, and the end of the array. -/
def renderItems (escape : Char → List Char) : List (Json (List Char)) → List Char
  | [] => [']']
  | item :: rest => ',' :: (render escape item ++ renderItems escape rest)

/-- The members after the first, and the end of the object. -/
def renderMembers (escape : Char → List Char) : List (String × Json (List Char)) → List Char
  | [] => ['\x7d']
  | (name, value) :: rest =>
    ',' :: (quote escape name ++ ':' :: (render escape value ++ renderMembers escape rest))

end

attribute [grind =] render renderItems renderMembers

def readName : List Char → Option (String × List Char)
  | '"' :: rest => (readString (.plain none) rest).map fun (chars, rest) => (String.ofList chars, rest)
  | _ => none

def readPlain (text : List Char) : Option (Json (List Char) × List Char) :=
  match text with
  | 'n' :: 'u' :: 'l' :: 'l' :: rest => some (.null, rest)
  | 't' :: 'r' :: 'u' :: 'e' :: rest => some (.bool true, rest)
  | 'f' :: 'a' :: 'l' :: 's' :: 'e' :: rest => some (.bool false, rest)
  | '"' :: rest => (readString (.plain none) rest).map fun (chars, rest) => (.string (String.ofList chars), rest)
  | _ =>
    match text.takeWhile numberChar with
    | [] => none
    | literal => some (.number literal, text.dropWhile numberChar)

mutual

/-- Reads a value, and returns the text after it. Fuel bounds the depth and
the number of items. -/
def readValue : Nat → List Char → Option (Json (List Char) × List Char)
  | 0, _ => none
  | fuel + 1, text =>
    match text with
    | '[' :: rest =>
      if rest.head? = some ']' then some (.array [], rest.tail)
      else (readItems fuel rest).map fun (items, rest) => (.array items, rest)
    | '\x7b' :: rest =>
      if rest.head? = some '\x7d' then some (.object [], rest.tail)
      else (readMembers fuel rest).map fun (members, rest) => (.object members, rest)
    | _ => readPlain text

def readItems : Nat → List Char → Option (List (Json (List Char)) × List Char)
  | 0, _ => none
  | fuel + 1, text =>
    match readValue fuel text with
    | some (item, ',' :: rest) => (readItems fuel rest).map fun (items, rest) => (item :: items, rest)
    | some (item, ']' :: rest) => some ([item], rest)
    | _ => none

def readMembers : Nat → List Char → Option (List (String × Json (List Char)) × List Char)
  | 0, _ => none
  | fuel + 1, text =>
    match readName text with
    | some (name, ':' :: rest) =>
      match readValue fuel rest with
      | some (value, ',' :: rest) => (readMembers fuel rest).map fun (members, rest) => ((name, value) :: members, rest)
      | some (value, '\x7d' :: rest) => some ([(name, value)], rest)
      | _ => none
    | _ => none

end

def parse (text : List Char) : Option (Json (List Char)) :=
  match readValue (2 * text.length + 1) text with
  | some (json, []) => some json
  | _ => none

/-! What is rendered is read back. -/

/-- Every number is written with the characters of numbers. -/
inductive Written : Json (List Char) → Prop where
  | null : Written .null
  | bool (value : Bool) : Written (.bool value)
  | number (literal : List Char) (nonempty : literal ≠ []) (digits : ∀ one ∈ literal, numberChar one = true) :
      Written (.number literal)
  | string (text : String) : Written (.string text)
  | array (items : List (Json (List Char))) (written : ∀ item ∈ items, Written item) : Written (.array items)
  | object (members : List (String × Json (List Char))) (written : ∀ member ∈ members, Written member.2) :
      Written (.object members)

mutual

def weight : Json (List Char) → Nat
  | .array items => 1 + weights items
  | .object members => 1 + memberWeights members
  | _ => 1

def weights : List (Json (List Char)) → Nat
  | [] => 0
  | item :: rest => 1 + weight item + weights rest

def memberWeights : List (String × Json (List Char)) → Nat
  | [] => 0
  | (_, value) :: rest => 1 + weight value + memberWeights rest

end

attribute [grind =] weight weights memberWeights

def Ends (rest : List Char) : Prop :=
  ∀ one ∈ rest.head?, numberChar one = false

theorem ends_nil : Ends [] :=
  fun _ mem => absurd mem (by simp)

theorem ends_cons {one : Char} {rest : List Char} (other : numberChar one = false) : Ends (one :: rest) := by
  intro first mem
  cases mem
  exact other

section
variable {escape : Char → List Char}
variable {json : Json (List Char)} {items : List (Json (List Char))} {members : List (String × Json (List Char))}
variable {literal rest : List Char} {text : List Char}

theorem render_head (escape : Char → List Char) (written : Written json) :
    ∃ first rest, render escape json = first :: rest ∧ first ≠ ']' := by
  cases written with
  | null => exact ⟨'n', _, rfl, by decide⟩
  | bool value => cases value <;> exact ⟨_, _, rfl, by decide⟩
  | number literal nonempty digits =>
    cases literal with
    | nil => exact absurd rfl nonempty
    | cons first rest =>
      refine ⟨first, rest, rfl, fun bracket => ?_⟩
      have digit := digits first mem_cons_self
      rw [bracket] at digit
      exact absurd digit (by decide)
  | string => exact ⟨'"', _, rfl, by decide⟩
  | array items => cases items <;> exact ⟨'[', _, rfl, by decide⟩
  | object members => cases members <;> exact ⟨_, _, rfl, by decide⟩

theorem readName_quote (escapes : Escapes escape) (text : String) (rest : List Char) :
    readName (quote escape text ++ rest) = some (text, rest) := by
  have body := readString_escaped escapes text.toList rest
  simp only [quote, cons_append, append_assoc, nil_append, readName, body, map_some, String.ofList_toList]

theorem readPlain_number (nonempty : literal ≠ [])
    (digits : ∀ one ∈ literal, numberChar one = true) (ends : Ends rest) :
    readPlain (literal ++ rest) = some (.number literal, rest) := by
  have taken : (literal ++ rest).takeWhile numberChar = literal := by
    rw [takeWhile_append_of_pos digits]
    cases rest with
    | nil => simp
    | cons one => simp [ends one rfl]
  have dropped : (literal ++ rest).dropWhile numberChar = rest := by
    rw [dropWhile_append_of_pos digits]
    cases rest with
    | nil => simp
    | cons one => simp [ends one rfl]
  cases literal with
  | nil => exact absurd rfl nonempty
  | cons first =>
    have digit := digits first mem_cons_self
    unfold readPlain
    rw [taken, dropped]
    split
    case h_5 => rfl
    all_goals
      next same =>
        rw [cons_append, List.cons.injEq] at same
        rw [same.1] at digit
        exact absurd digit (by decide)

/-- The reader reads a value back from its text, with enough fuel. -/
def ReadsBack (escape : Char → List Char) (json : Json (List Char)) : Prop :=
  ∀ fuel rest, weight json ≤ fuel → Ends rest → readValue fuel (render escape json ++ rest) = some (json, rest)

theorem readItems_back {first : Json (List Char)} (back : ∀ item ∈ first :: items, ReadsBack escape item) (fuel : Nat)
    (enough : weights (first :: items) ≤ fuel) (rest : List Char) :
    readItems fuel (render escape first ++ (renderItems escape items ++ rest)) = some (first :: items, rest) := by
  induction items generalizing first fuel with
  | nil =>
    obtain ⟨head, _⟩ := forall_mem_cons.mp back
    cases fuel with
    | zero => simp [weights] at enough
    | succ fuel =>
      have one := head fuel (']' :: rest) (by simp only [weights] at enough; omega) (ends_cons rfl)
      simp only [readItems, renderItems, cons_append, nil_append, one]
  | cons second items ih =>
    obtain ⟨head, tail⟩ := forall_mem_cons.mp back
    cases fuel with
    | zero => simp [weights] at enough
    | succ fuel =>
      rw [weights] at enough
      have one := head fuel (',' :: (render escape second ++ (renderItems escape items ++ rest))) (by omega) (ends_cons rfl)
      have more := ih tail fuel (by omega)
      simp only [readItems, renderItems, cons_append, append_assoc, one, more, map_some]

theorem readMembers_back (escapes : Escapes escape) {name : String} {value : Json (List Char)}
    (back : ∀ mem ∈ (name, value) :: members, ReadsBack escape mem.2) (fuel : Nat)
    (enough : memberWeights ((name, value) :: members) ≤ fuel) (rest : List Char) :
    readMembers fuel (quote escape name ++ (':' :: (render escape value ++ (renderMembers escape members ++ rest)))) =
      some ((name, value) :: members, rest) := by
  induction members generalizing name value fuel with
  | nil =>
    have head : ReadsBack escape value := (forall_mem_cons.mp back).1
    cases fuel with
    | zero => simp [memberWeights] at enough
    | succ fuel =>
      have one := head fuel ('\x7d' :: rest) (by simp only [memberWeights] at enough; omega) (ends_cons rfl)
      simp only [readMembers, readName_quote escapes, renderMembers, cons_append, nil_append, one]
  | cons second members ih =>
    have head : ReadsBack escape value := (forall_mem_cons.mp back).1
    have tail := (forall_mem_cons.mp back).2
    obtain ⟨secondName, secondValue⟩ := second
    cases fuel with
    | zero => simp [memberWeights] at enough
    | succ fuel =>
      rw [memberWeights] at enough
      have one := head fuel (',' :: (quote escape secondName ++
        (':' :: (render escape secondValue ++ (renderMembers escape members ++ rest))))) (by omega) (ends_cons rfl)
      have more := ih tail fuel (by omega)
      simp only [readMembers, readName_quote escapes, renderMembers, cons_append, append_assoc, one, more,
        map_some]

theorem readValue_plain {first : Char} (rest : List Char) (array : first ≠ '[') (object : first ≠ '\x7b') (fuel : Nat) :
    readValue (fuel + 1) (first :: rest) = readPlain (first :: rest) := by
  rw [readValue]
  · exact fun _ same => array (List.cons.inj same).1
  · exact fun _ same => object (List.cons.inj same).1

theorem readValue_number (nonempty : literal ≠ [])
    (digits : ∀ one ∈ literal, numberChar one = true) (ends : Ends rest) (fuel : Nat) :
    readValue (fuel + 1) (literal ++ rest) = some (.number literal, rest) := by
  have read := readPlain_number nonempty digits ends
  cases literal with
  | nil => exact absurd rfl nonempty
  | cons first =>
    have digit := digits first mem_cons_self
    rw [cons_append, readValue_plain] at *
    · exact read
    · rintro rfl
      exact absurd digit (by decide)
    · rintro rfl
      exact absurd digit (by decide)

theorem readValue_array (some : text.head? ≠ some ']') (fuel : Nat) :
    readValue (fuel + 1) ('[' :: text) = (readItems fuel text).map fun (items, rest) => (.array items, rest) :=
  if_neg some

theorem readValue_object (some : text.head? ≠ some '\x7d') (fuel : Nat) :
    readValue (fuel + 1) ('\x7b' :: text) = (readMembers fuel text).map fun (members, rest) => (.object members, rest) :=
  if_neg some

theorem render_back (escapes : Escapes escape) (json : Json (List Char)) (written : Written json) : ReadsBack escape json := by
  induction json using Json.induct with
  | null =>
    intro fuel rest enough _
    cases fuel with
    | zero => simp [weight] at enough
    | succ => rfl
  | bool value =>
    intro fuel rest enough _
    cases fuel with
    | zero => simp [weight] at enough
    | succ => cases value <;> rfl
  | number =>
    intro fuel rest enough ends
    cases fuel with
    | zero => simp [weight] at enough
    | succ fuel =>
      cases written with
      | number _ nonempty digits => exact readValue_number nonempty digits ends fuel
  | string text =>
    intro fuel rest enough _
    cases fuel with
    | zero => simp [weight] at enough
    | succ =>
      have body := readString_escaped escapes text.toList rest
      rw [render, quote, cons_append, readValue_plain _ (by decide) (by decide)]
      simp only [append_assoc, cons_append, nil_append, readPlain, body, map_some, String.ofList_toList]
  | array items ih =>
    intro fuel rest enough _
    cases written with
    | array _ written =>
      cases fuel with
      | zero => simp [weight] at enough
      | succ fuel =>
        cases items with
        | nil => rfl
        | cons first items =>
          obtain ⟨head, more, rendered, unclosed⟩ := render_head escape (written first mem_cons_self)
          rw [weight] at enough
          have read := readItems_back (fun item mem => ih item mem (written item mem)) fuel (by omega) rest
          have opened : (render escape first ++ (renderItems escape items ++ rest)).head? ≠ some ']' := by
            rw [rendered]
            exact fun same => unclosed (some.inj same)
          rw [render, cons_append, append_assoc, readValue_array opened, read]
          rfl
  | object members ih =>
    intro fuel rest enough _
    cases written with
    | object _ written =>
      cases fuel with
      | zero => simp [weight] at enough
      | succ fuel =>
        cases members with
        | nil => rfl
        | cons mem members =>
          obtain ⟨name, value⟩ := mem
          rw [weight] at enough
          have read := readMembers_back escapes (fun mem inside => ih mem inside (written mem inside)) fuel (by omega) rest
          have opened : (quote escape name ++ (':' :: (render escape value ++
              (renderMembers escape members ++ rest)))).head? ≠ some '\x7d' := by
            simp [quote]
          rw [render, cons_append, append_assoc, cons_append, append_assoc, readValue_object opened, read]
          rfl

theorem weights_le (bounds : ∀ item ∈ items, weight item ≤ 2 * (render escape item).length) :
    weights items + 2 ≤ 2 * (renderItems escape items).length := by
  induction items with
  | nil => simp [weights, renderItems]
  | cons item items ih =>
    obtain ⟨head, tail⟩ := forall_mem_cons.mp bounds
    have more := ih tail
    rw [weights, renderItems, length_cons, length_append]
    omega

theorem memberWeights_le (bounds : ∀ mem ∈ members, weight mem.2 ≤ 2 * (render escape mem.2).length) :
    memberWeights members + 2 ≤ 2 * (renderMembers escape members).length := by
  induction members with
  | nil => simp [memberWeights, renderMembers]
  | cons mem members ih =>
    obtain ⟨head, tail⟩ := forall_mem_cons.mp bounds
    have more := ih tail
    obtain ⟨name, value⟩ := mem
    simp only [memberWeights, renderMembers, length_cons, length_append] at head more ⊢
    omega

theorem weight_le (json : Json (List Char)) (written : Written json) : weight json ≤ 2 * (render escape json).length := by
  induction json using Json.induct with
  | null => simp [weight, render]
  | bool value => cases value <;> simp [weight, render]
  | number =>
    cases written with
    | number _ nonempty =>
      have positive := length_pos_iff.mpr nonempty
      simp only [weight, render]
      omega
  | string =>
    simp only [render, quote, weight, length_cons]
    omega
  | array items ih =>
    cases written with
    | array _ written =>
      cases items with
      | nil => simp [weight, weights, render]
      | cons first items =>
        have bounds (item : Json (List Char)) (mem : item ∈ first :: items) :=
          ih item mem (written item mem)
        obtain ⟨head, tail⟩ := forall_mem_cons.mp bounds
        have more := weights_le tail
        simp only [weight, weights, render, length_cons, length_append]
        omega
  | object members ih =>
    cases written with
    | object _ written =>
      cases members with
      | nil => simp [weight, memberWeights, render]
      | cons mem members =>
        have bounds (other : String × Json (List Char)) (inside : other ∈ mem :: members) :=
          ih other inside (written other inside)
        obtain ⟨head, tail⟩ := forall_mem_cons.mp bounds
        have more := memberWeights_le tail
        obtain ⟨name, value⟩ := mem
        simp only [weight, memberWeights, render, length_cons, length_append] at head ⊢
        omega

theorem parse_render (escapes : Escapes escape) (written : Written json) : parse (render escape json) = some json := by
  have enough : weight json ≤ 2 * (render escape json).length + 1 := Nat.le_succ_of_le (weight_le json written)
  have read := render_back escapes json written _ [] enough ends_nil
  rw [append_nil] at read
  rw [parse, read]

theorem render_injective (escapes : Escapes escape) {first second : Json (List Char)} (firstWritten : Written first)
    (secondWritten : Written second) (same : render escape first = render escape second) : first = second := by
  have back := parse_render escapes firstWritten
  rw [same, parse_render escapes secondWritten] at back
  exact (some.inj back).symm

/-! What is rendered is one line. -/

theorem newline_not_mem_quote (oneLine : ∀ one, '\n' ∉ escape one) (text : String) : '\n' ∉ quote escape text := by
  intro mem
  rw [quote, mem_cons, List.mem_append] at mem
  rcases mem with opening | inside | closing
  · exact absurd opening (by decide)
  · obtain ⟨one, _, escaped⟩ := mem_flatMap.mp inside
    exact oneLine one escaped
  · exact absurd closing (by decide)

theorem newline_not_mem_renderItems (each : ∀ item ∈ items, '\n' ∉ render escape item) : '\n' ∉ renderItems escape items := by
  induction items with
  | nil =>
    rw [renderItems]
    decide
  | cons item items ih =>
    obtain ⟨head, tail⟩ := forall_mem_cons.mp each
    rw [renderItems, mem_cons, List.mem_append]
    exact not_or.mpr ⟨by decide, not_or.mpr ⟨head, ih tail⟩⟩

theorem newline_not_mem_renderMembers (oneLine : ∀ one, '\n' ∉ escape one)
    (each : ∀ mem ∈ members, '\n' ∉ render escape mem.2) : '\n' ∉ renderMembers escape members := by
  induction members with
  | nil =>
    rw [renderMembers]
    decide
  | cons mem members ih =>
    obtain ⟨head, tail⟩ := forall_mem_cons.mp each
    obtain ⟨name, value⟩ := mem
    rw [renderMembers, mem_cons, List.mem_append, mem_cons, List.mem_append]
    exact not_or.mpr ⟨by decide, not_or.mpr ⟨newline_not_mem_quote oneLine name,
      not_or.mpr ⟨by decide, not_or.mpr ⟨head, ih tail⟩⟩⟩⟩

theorem newline_not_mem_render (oneLine : ∀ one, '\n' ∉ escape one) (written : Written json) : '\n' ∉ render escape json := by
  induction written with
  | null =>
    rw [render]
    decide
  | bool value =>
    cases value <;>
    · rw [render]
      decide
  | number literal _ digits =>
    rw [render]
    exact fun mem => absurd (digits _ mem) (by decide)
  | string text =>
    rw [render]
    exact newline_not_mem_quote oneLine text
  | array items _ ih =>
    cases items with
    | nil =>
      rw [render]
      decide
    | cons =>
      obtain ⟨head, tail⟩ := forall_mem_cons.mp ih
      rw [render, mem_cons, List.mem_append]
      exact not_or.mpr ⟨by decide, not_or.mpr ⟨head, newline_not_mem_renderItems tail⟩⟩
  | object members _ ih =>
    cases members with
    | nil =>
      rw [render]
      decide
    | cons first =>
      obtain ⟨head, tail⟩ := forall_mem_cons.mp ih
      obtain ⟨name, value⟩ := first
      rw [render, mem_cons, List.mem_append, mem_cons, List.mem_append]
      exact not_or.mpr ⟨by decide, not_or.mpr ⟨newline_not_mem_quote oneLine name,
        not_or.mpr ⟨by decide, not_or.mpr ⟨head, newline_not_mem_renderMembers oneLine tail⟩⟩⟩⟩

end

end Json

end Hopper.Kernel
