import Hopper.Kernel.Regexp
import Hopper.Kernel.Replace

/-! Topic patterns as regular expressions: the text that is built from a
pattern, and the part of the regular expression syntax such texts use. -/

namespace Hopper.Sqlite

open Kernel

/-- The characters that are escaped before the wildcards are turned into
regular expressions. -/
def topicSpecial : List Char :=
  ['.', '+', '?', '^', '$', '{', '}', '(', ')', '|', '[', ']', '\\']

def escapeSpecial (text : List Char) : List Char :=
  text.flatMap fun char => if char ∈ topicSpecial then ['\\', char] else [char]

/-- One word, before the rules of `#` bring in `.*`. -/
def oneWord : List Char := ['[', '^', '.', ']', '+']

def under : List Char := ['(', '\\', '.', '.', '*', ')', '?']

def above : List Char := ['(', '.', '*', '\\', '.', ')', '?']

def anything : List Char := ['.', '*']

def separator : List Char := ['\\', '.']

/-- The expression a topic pattern means, between its anchors. -/
def topicExpr (pattern : List Char) : List Char :=
  let expr := escapeSpecial pattern
  let expr := replaceAll ['*'] oneWord expr
  let expr := replaceAll ['\\', '.', '#', '\\', '.'] (under ++ separator) expr
  let expr := replaceAll ['\\', '.', '#'] under expr
  let expr := replaceAll ['#', '\\', '.'] above expr
  replaceAll ['#'] anything expr

namespace Expression

def char (one : Char) : Regexp Char :=
  .symbol fun other => decide (other = one)

/-- `.` under the flag `s`. -/
def any : Regexp Char :=
  .symbol fun _ => true

def notDot : Regexp Char :=
  .symbol fun other => decide (other ≠ '.')

/-- An escape of what is neither a letter nor a digit stands for itself. -/
def escapes (one : Char) : Bool :=
  decide (one.val < 128) && !one.isAlphanum

inductive Mode where
  | plain | escape | bracket | negated | dotted
  deriving DecidableEq

/-- The sequences around the open groups, and the sequence being read. -/
structure Reading where
  mode : Mode := .plain
  groups : List (List (Regexp Char)) := []
  items : List (Regexp Char) := []

namespace Reading

def push (reading : Reading) (item : Regexp Char) : Reading :=
  { reading with mode := .plain, items := reading.items ++ [item] }

def again (reading : Reading) (repetition : Regexp Char → Regexp Char) : Option Reading :=
  match reading.items.reverse with
  | [] => none
  | last :: front => some { reading with items := front.reverse ++ [repetition last] }

def close (reading : Reading) : Option Reading :=
  match reading.groups with
  | [] => none
  | outer :: groups => some { groups := groups, items := outer ++ [.sequenceAll reading.items] }

def step (reading : Reading) (one : Char) : Option Reading :=
  match reading.mode with
  | .escape => if escapes one then some (reading.push (char one)) else none
  | .bracket => if one = '^' then some { reading with mode := .negated } else none
  | .negated => if one = '.' then some { reading with mode := .dotted } else none
  | .dotted => if one = ']' then some (reading.push notDot) else none
  | .plain =>
    match one with
    | '\\' => some { reading with mode := .escape }
    | '[' => some { reading with mode := .bracket }
    | '.' => some (reading.push any)
    | '(' => some { groups := reading.items :: reading.groups }
    | ')' => reading.close
    | '*' => reading.again .many
    | '+' => reading.again .some
    | '?' => reading.again .optional
    | _ => if one ∈ topicSpecial then none else some (reading.push (char one))

attribute [grind =] push again close step

end Reading

end Expression

/-- Compiles an expression of escapes, `.`, `[^.]`, groups and repetitions, to
match from the start of a text to its end. -/
def compile (expr : List Char) : Option (Regexp Char) :=
  match expr.foldlM Expression.Reading.step {} with
  | some ⟨.plain, [], items⟩ => some (.sequenceAll items)
  | _ => none

def topicRegexp (pattern : List Char) : Option (Regexp Char) :=
  compile (topicExpr pattern)

/-- `hopper_topic_matches`, which fails on a pattern that does not compile. -/
def topicMatches (pattern topic : List Char) : Option Bool :=
  (topicRegexp pattern).map fun expression => expression.accepts topic

example : topicMatches ['a', '.', '#'] ['a', '.', 'b'] = some true := by decide +kernel

end Hopper.Sqlite
