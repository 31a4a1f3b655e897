import Mathlib.Data.List.TakeWhile

/-! Slice parameters as Postgres array literals, and how Postgres reads one back. Texts are valid UTF-8, by their characters. -/

namespace Hopper.Postgres

open List

/-- The elements of a slice, `none` an absent one. -/
abbrev Elements := List (Option (List Char))

/-- The slices of strings: `[]string`, `[]*string` and `[][]byte`, whose nil pointers and slices are `none`. Byte slices
are of valid UTF-8 too. -/
inductive StringSlice where
  | strings (list : List (List Char))
  | pointers (list : Elements)
  | byteSlices (list : Elements)

def StringSlice.elements : StringSlice → Elements
  | .strings list => list.map some
  | .pointers list => list
  | .byteSlices list => list

def quoted (s : List Char) : List Char :=
  s.flatMap fun r => if r = '"' ∨ r = '\\' then ['\\', r] else [r]

/-- What `write` appends for element `i`. -/
def write (i : Nat) (s : List Char) (null : Bool) : List Char :=
  (if i > 0 then [','] else []) ++ if null then ['N', 'U', 'L', 'L'] else '"' :: quoted s ++ ['"']

/-- The loop over the elements, from the one of index `i` on. -/
def writeFrom (i : Nat) : Elements → List Char
  | [] => []
  | e :: list => write i (e.getD []) e.isNone ++ writeFrom (i + 1) list

def arrayLiteral (v : StringSlice) : List Char :=
  '{' :: (writeFrom 0 v.elements ++ ['}'])

/-! Postgres's reader of one-dimensional arrays: `array_in`, a character at a time, up to the texts of the elements. How an
element's type reads its text, as `bytea` does escapes, is not part of it. -/

def isSpace (char : Char) : Bool :=
  char ∈ [' ', '\t', '\n', '\r', '\x0b', '\x0c']

/-- Where the reader is. An unquoted element ends with its last character that is no space (`kept`), and is
not NULL if a backslash was in it. -/
inductive Reading where
  | start
  | element (expectDelim : Bool)
  | quoted (buffer : List Char)
  | quotedEscape (buffer : List Char)
  | unquoted (buffer : List Char) (kept : Nat) (escapes : Bool)
  | unquotedEscape (buffer : List Char)
  | done

def readArray : Reading → Elements → List Char → Option (Elements)
  | .done, items, [] => some items
  | _, _, [] => none
  | .start, items, char :: rest =>
    if char = '{' then readArray (.element false) items rest else if isSpace char then readArray .start items rest else none
  | .element expectDelim, items, char :: rest =>
    if isSpace char then readArray (.element expectDelim) items rest
    -- Only an empty array closes where an element could stand.
    else if char = '}' then if expectDelim ∨ items = [] then readArray .done items rest else none
    else if expectDelim then if char = ',' then readArray (.element false) items rest else none
    -- A brace would open a second dimension.
    else if char = ',' ∨ char = '{' then none
    else if char = '"' then readArray (.quoted []) items rest
    else if char = '\\' then readArray (.unquotedEscape []) items rest
    else readArray (.unquoted [char] 1 false) items rest
  | .quoted buffer, items, char :: rest =>
    if char = '"' then readArray (.element true) (items ++ [some buffer]) rest
    else if char = '\\' then readArray (.quotedEscape buffer) items rest
    else readArray (.quoted (buffer ++ [char])) items rest
  | .quotedEscape buffer, items, char :: rest => readArray (.quoted (buffer ++ [char])) items rest
  | .unquoted buffer kept escapes, items, char :: rest =>
    if char = '{' ∨ char = '"' then none
    else if char = '\\' then readArray (.unquotedEscape buffer) items rest
    else if char = ',' ∨ char = '}' then
      let text := buffer.take kept
      let item := if !escapes && text.map Char.toLower = ['n', 'u', 'l', 'l'] then none else some text
      readArray (if char = ',' then .element false else .done) (items ++ [item]) rest
    else readArray (.unquoted (buffer ++ [char]) (if isSpace char then kept else buffer.length + 1) escapes) items rest
  | .unquotedEscape buffer, items, char :: rest => readArray (.unquoted (buffer ++ [char]) (buffer.length + 1) true) items rest
  | .done, items, char :: rest => if isSpace char then readArray .done items rest else none

/-- `array_in` of a parameter, which ends at its first NUL. -/
def arrayIn (literal : List Char) : Option (Elements) :=
  readArray .start [] (literal.takeWhile (· ≠ '\x00'))

theorem readArray_quoted (s buffer rest : List Char) (items : Elements) :
    readArray (.quoted buffer) items (quoted s ++ '"' :: rest) = readArray (.element true) (items ++ [some (buffer ++ s)]) rest := by
  induction s generalizing buffer with
  | nil => simp [quoted, readArray]
  | cons r s ih =>
    have next := ih (buffer ++ [r])
    rw [append_assoc, singleton_append] at next
    rw [← next, quoted, flatMap_cons, append_assoc]
    by_cases special : r = '"' ∨ r = '\\'
    · rw [if_pos special]
      rfl
    · rw [if_neg special]
      rw [not_or] at special
      simp only [singleton_append, readArray, if_neg special.1, if_neg special.2]
      rfl

theorem readArray_write (e : Option (List Char)) {close : Char} (closes : close = ',' ∨ close = '}') (rest : List Char)
    (items : Elements) :
    readArray (.element false) items (write 0 (e.getD []) e.isNone ++ close :: rest) =
      readArray (.element true) (items ++ [e]) (close :: rest) := by
  cases e with
  | none => rcases closes with rfl | rfl <;> simp [write, readArray, isSpace]
  | some s =>
    have quotes := readArray_quoted s [] (close :: rest) items
    rw [nil_append] at quotes
    rw [Option.getD_some, Option.isNone_some, ← quotes]
    simp [write, readArray, isSpace]

theorem readArray_writeFrom (list items : Elements) {i : Nat} (first : 0 < i ∨ items = []) :
    readArray (.element (0 < i)) items (writeFrom i list ++ ['}']) = some (items ++ list) := by
  induction list generalizing i items with
  | nil => simp [writeFrom, readArray, isSpace, first]
  | cons e list ih =>
    obtain ⟨close, rest, closes, split⟩ : ∃ close rest, (close = ',' ∨ close = '}') ∧ writeFrom (i + 1) list ++ ['}'] = close :: rest := by
      cases list with
      | nil => exact ⟨_, _, .inr rfl, rfl⟩
      | cons next list => exact ⟨_, _, .inl rfl, rfl⟩
    have comma : readArray (.element (0 < i)) items (writeFrom i (e :: list) ++ ['}']) =
        readArray (.element false) items (write 0 (e.getD []) e.isNone ++ (writeFrom (i + 1) list ++ ['}'])) := by
      rw [writeFrom, append_assoc]
      cases i <;> rfl
    have next := ih (items ++ [e]) (i := i + 1) (.inl i.succ_pos)
    rw [decide_eq_true i.succ_pos, append_assoc, singleton_append, split] at next
    rw [comma, split, readArray_write e closes, next]

theorem nul_writeFrom {list : Elements} (texts : ∀ e ∈ list, '\x00' ∉ e.getD []) (i : Nat) :
    '\x00' ∉ writeFrom i list := by
  induction list generalizing i with
  | nil => exact not_mem_nil
  | cons e list ih =>
    have rest := ih (fun e mem => texts e (mem_cons_of_mem _ mem)) (i + 1)
    have element : '\x00' ∉ quoted (e.getD []) := by
      intro mem
      obtain ⟨r, among, char⟩ := mem_flatMap.mp mem
      have plain := texts e mem_cons_self
      grind
    grind [writeFrom, write]

/-- Postgres reads an array literal as the list it was made from. -/
theorem arrayIn_arrayLiteral (v : StringSlice) (texts : ∀ e ∈ v.elements, '\x00' ∉ e.getD []) :
    arrayIn (arrayLiteral v) = some v.elements := by
  have whole : (arrayLiteral v).takeWhile (· ≠ '\x00') = arrayLiteral v := by
    rw [takeWhile_eq_self_iff]
    have plain := nul_writeFrom texts 0
    intro char mem
    grind [arrayLiteral]
  rw [arrayIn, whole, arrayLiteral]
  exact readArray_writeFrom v.elements [] (i := 0) (.inr rfl)

theorem arrayIn_absent_beside_its_name :
    arrayIn (arrayLiteral (.pointers [none, some ['N', 'U', 'L', 'L'], some [], some ['"', '\\', ',', '}', ' ']])) =
      some [none, some ['N', 'U', 'L', 'L'], some [], some ['"', '\\', ',', '}', ' ']] :=
  arrayIn_arrayLiteral _ (by decide)

end Hopper.Postgres
