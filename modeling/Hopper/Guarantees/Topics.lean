import Hopper.Sqlite.Topic

/-! Topic patterns: what the expression built from a pattern matches, against
the matching of words. -/

namespace Hopper.Guarantees

open List Kernel Sqlite

structure Literal where
  text : List Char
  nonempty : text ≠ []
  plain : ∀ char ∈ text, char ≠ '.' ∧ char ≠ '*' ∧ char ≠ '#'

inductive Word where
  | star
  | hash
  | literal (word : Literal)

structure TopicWord where
  text : List Char
  nonempty : text ≠ []
  undotted : '.' ∉ text

namespace Word

def text : Word → List Char
  | star => ['*']
  | hash => ['#']
  | literal word => word.text

def isHash : Word → Bool
  | hash => true
  | _ => false

variable {word : Word}

theorem eq_hash (hash : word.isHash = true) : word = .hash := by
  cases word with
  | hash => rfl
  | star | literal => cases hash

theorem named {words : List Word} (notLast : word = .hash → words = [] → False)
    (notFirst : ∀ next rest, word = .hash → words = next :: rest → False) : word.isHash = false := by
  refine Bool.eq_false_iff.mpr fun hash => ?_
  cases words with
  | nil => exact notLast (eq_hash hash) rfl
  | cons next rest => exact notFirst next rest (eq_hash hash) rfl

end Word

/-- Whether the words of a pattern match those of a topic: a star one word, a
hash any number of them, a literal itself. -/
def matchesWords : List Word → List (List Char) → Bool
  | [], topic => topic.isEmpty
  | .hash :: words, topic => topic.tails.any (matchesWords words)
  | .star :: _, [] => false
  | .star :: words, _ :: topic => matchesWords words topic
  | .literal _ :: _, [] => false
  | .literal word :: words, first :: topic => decide (word.text = first) && matchesWords words topic

def dotted (words : List (List Char)) : List Char :=
  List.intercalate ['.'] words

def dottedTail (words : List (List Char)) : List Char :=
  words.flatMap fun word => '.' :: word

theorem dotted_cons (first : List Char) (rest : List (List Char)) : dotted (first :: rest) = first ++ dottedTail rest := by
  induction rest generalizing first with
  | nil => simp [dotted, dottedTail, List.intercalate]
  | cons second rest ih =>
    have more : dotted (first :: second :: rest) = first ++ '.' :: dotted (second :: rest) := by
      simp [dotted, List.intercalate]
    rw [more, ih]
    rfl

/-! The text of the expression. -/

namespace Word

/-- The word in the expression, once words are escaped and stars replaced. -/
def expr : Word → List Char
  | star => oneWord
  | hash => ['#']
  | literal word => escapeSpecial word.text

/-- The word and what separates it from the one before, once the hashes below
another word are replaced. -/
def piece : Word → List Char
  | hash => under
  | word => separator ++ word.expr

end Word

theorem escapeSpecial_append (first second : List Char) :
    escapeSpecial (first ++ second) = escapeSpecial first ++ escapeSpecial second :=
  flatMap_append

theorem mem_escapeSpecial {one : Char} {text : List Char} (mem : one ∈ escapeSpecial text) : one = '\\' ∨ one ∈ text := by
  obtain ⟨char, charMember, escaped⟩ := mem_flatMap.mp mem
  split at escaped
  · rcases mem_cons.mp escaped with slash | same
    · exact .inl slash
    · exact .inr (mem_singleton.mp same ▸ charMember)
  · exact .inr (mem_singleton.mp escaped ▸ charMember)

theorem Word.not_mem_expr (word : Word) (named : word.isHash = false) : '#' ∉ word.expr := by
  cases word with
  | star => decide
  | hash => cases named
  | literal word =>
    intro mem
    rcases mem_escapeSpecial mem with slash | inside
    · exact absurd slash (by decide)
    · exact (word.plain '#' inside).2.2 rfl

def tailExpr (words : List Word) : List Char :=
  words.flatMap fun word => separator ++ word.expr

theorem tailExpr_cons (word : Word) (words : List Word) : tailExpr (word :: words) = separator ++ word.expr ++ tailExpr words :=
  rfl

def pieces (words : List Word) : List Char :=
  words.flatMap Word.piece

theorem escapeSpecial_tail (words : List Word) :
    escapeSpecial (dottedTail (words.map Word.text)) = words.flatMap fun word => separator ++ escapeSpecial word.text := by
  induction words with
  | nil => rfl
  | cons word words ih =>
    rw [map_cons, flatMap_cons, ← ih]
    change escapeSpecial (('.' :: word.text) ++ dottedTail (words.map Word.text)) = _
    rw [escapeSpecial_append]
    rfl

theorem replaceStar_word (word : Word) (rest : List Char) :
    replaceAll ['*'] oneWord (escapeSpecial word.text ++ rest) = word.expr ++ replaceAll ['*'] oneWord rest := by
  cases word with
  | star => exact replaceAll_occurrence '*' [] rest
  | hash => exact replaceAll_append_of_not_mem (by decide)
  | literal word =>
    refine replaceAll_append_of_not_mem fun mem => ?_
    rcases mem_escapeSpecial mem with slash | inside
    · exact absurd slash (by decide)
    · exact (word.plain '*' inside).2.1 rfl

theorem replaceStar_tail (words : List Word) :
    replaceAll ['*'] oneWord (words.flatMap fun word => separator ++ escapeSpecial word.text) = tailExpr words := by
  induction words with
  | nil => rfl
  | cons word words ih =>
    rw [flatMap_cons, append_assoc, replaceAll_append_of_not_mem (by decide), replaceStar_word, ih]
    simp [tailExpr]

def Quiet (text : List Char) : Prop :=
  text[0]? ≠ some '#' ∧ text[1]? ≠ some '#'

theorem quiet_separator (rest : List Char) : Quiet (separator ++ rest) :=
  ⟨by simp [separator], by simp [separator]⟩

theorem quiet_under (rest : List Char) : Quiet (under ++ rest) :=
  ⟨by simp [under], by simp [under]⟩

theorem quiet_tailExpr (words : List Word) : Quiet (tailExpr words) := by
  cases words with
  | nil => exact ⟨by simp [tailExpr], by simp [tailExpr]⟩
  | cons =>
    rw [tailExpr, flatMap_cons, append_assoc]
    exact quiet_separator _

section
variable {more new : List Char}

theorem replaceHash_append {block rest : List Char} (absent : '#' ∉ block) (quiet : Quiet rest) :
    replaceAll ('\\' :: '.' :: '#' :: more) new (block ++ rest) = block ++ replaceAll ('\\' :: '.' :: '#' :: more) new rest := by
  refine replaceAll_append fun front back same nonempty occurs => ?_
  obtain ⟨post, split⟩ := occurs
  rcases back with _ | ⟨first, _ | ⟨second, _ | ⟨third, back⟩⟩⟩
  · exact nonempty rfl
  · refine quiet.2 ?_
    have equal := congrArg (fun text : List Char => text[2]?) split
    simpa using equal.symm
  · refine quiet.1 ?_
    have equal := congrArg (fun text : List Char => text[2]?) split
    simpa using equal.symm
  · refine absent ?_
    have equal := congrArg (fun text : List Char => text[2]?) split
    have hash : '#' = third := by simpa using equal
    rw [same, hash]
    simp

theorem replaceHash_word (word : Word) {rest : List Char} (quiet : Quiet rest) :
    replaceAll ('\\' :: '.' :: '#' :: more) new (word.expr ++ rest) =
      word.expr ++ replaceAll ('\\' :: '.' :: '#' :: more) new rest := by
  cases named : word.isHash with
  | false => exact replaceHash_append (word.not_mem_expr named) quiet
  | true =>
    cases Word.eq_hash named
    exact replaceAll_append_of_not_mem (by decide)

end

/-- The text of words from the second on, once the hashes between two others
are replaced, without overlap. -/
def secondExpr : List Word → List Char
  | [] => []
  | [.hash] => separator ++ ['#']
  | .hash :: word :: words => under ++ separator ++ word.expr ++ secondExpr words
  | word :: words => separator ++ word.expr ++ secondExpr words

theorem quiet_secondExpr (words : List Word) : Quiet (secondExpr words) := by
  fun_cases secondExpr words with
  | case1 => exact ⟨by simp, by simp⟩
  | case2 => exact quiet_separator _
  | case3 word words =>
    rw [append_assoc, append_assoc]
    exact quiet_under _
  | case4 word words =>
    rw [append_assoc]
    exact quiet_separator _

theorem replaceBetween_tail (words : List Word) :
    replaceAll ['\\', '.', '#', '\\', '.'] (under ++ separator) (tailExpr words) = secondExpr words := by
  fun_induction secondExpr words with
  | case1 => rfl
  | case2 => decide
  | case3 word words ih =>
    change replaceAll ('\\' :: ['.', '#', '\\', '.']) _ ('\\' :: ['.', '#', '\\', '.'] ++ (word.expr ++ tailExpr words)) = _
    rw [replaceAll_occurrence, replaceHash_word word (quiet_tailExpr words), ih]
    simp only [append_assoc]
  | case4 word words notLast notHash ih =>
    have named := Word.named notLast notHash
    have absent : '#' ∉ separator ++ word.expr := by
      rw [List.mem_append, not_or]
      exact ⟨by decide, word.not_mem_expr named⟩
    rw [tailExpr_cons, replaceHash_append absent (quiet_tailExpr words), ih]

theorem replaceBelow_word (word : Word) {rest : List Char} (quiet : Quiet rest) :
    replaceAll ['\\', '.', '#'] under (separator ++ word.expr ++ rest) = word.piece ++ replaceAll ['\\', '.', '#'] under rest := by
  cases named : word.isHash with
  | false =>
    have absent : '#' ∉ separator ++ word.expr := by
      rw [List.mem_append, not_or]
      exact ⟨by decide, word.not_mem_expr named⟩
    rw [replaceHash_append absent quiet]
    cases word with
    | star | literal => rfl
    | hash => cases named
  | true =>
    cases Word.eq_hash named
    exact replaceAll_occurrence '\\' ['.', '#'] rest

theorem replaceBelow_tail (words : List Word) : replaceAll ['\\', '.', '#'] under (secondExpr words) = pieces words := by
  fun_induction secondExpr words with
  | case1 => rfl
  | case2 => decide
  | case3 word words ih =>
    rw [append_assoc, append_assoc, replaceHash_append (by decide) (quiet_separator _),
      ← append_assoc, replaceBelow_word word (quiet_secondExpr words), ih]
    rfl
  | case4 word words _ _ ih =>
    rw [replaceBelow_word word (quiet_secondExpr words), ih]
    rfl

theorem not_mem_pieces (words : List Word) : '#' ∉ pieces words := by
  intro mem
  obtain ⟨word, _, inside⟩ := mem_flatMap.mp mem
  cases word with
  | hash | star => exact absurd inside (by decide)
  | literal word =>
    rcases List.mem_append.mp inside with outside | inside
    · exact absurd outside (by decide)
    · exact Word.not_mem_expr (.literal word) rfl inside

def patternExpr : List Word → List Char
  | [] => []
  | [.hash] => anything
  | .hash :: .hash :: words => anything ++ pieces (.hash :: words)
  | .hash :: word :: words => above ++ word.expr ++ pieces words
  | word :: words => word.expr ++ pieces words

theorem patternExpr_named {word : Word} (named : word.isHash = false) (words : List Word) :
    patternExpr (word :: words) = word.expr ++ pieces words ∧
      patternExpr (.hash :: word :: words) = above ++ word.expr ++ pieces words ∧
      pieces (word :: words) = separator ++ (word.expr ++ pieces words) := by
  cases word with
  | star | literal => simp [patternExpr, pieces, Word.piece]
  | hash => cases named

theorem replaceFirst (first : Word) (words : List Word) :
    replaceAll ['#'] anything (replaceAll ['#', '\\', '.'] above (first.expr ++ pieces words)) = patternExpr (first :: words) := by
  have absent {word : Word} (named : word.isHash = false) (words : List Word) : '#' ∉ word.expr ++ pieces words := by
    rw [List.mem_append, not_or]
    exact ⟨word.not_mem_expr named, not_mem_pieces words⟩
  cases named : first.isHash with
  | false =>
    rw [(patternExpr_named named words).1, replaceAll_of_not_mem (absent named words), replaceAll_of_not_mem (absent named words)]
  | true =>
    cases Word.eq_hash named
    cases words with
    | nil => decide
    | cons word words =>
      cases next : word.isHash with
      | false =>
        obtain ⟨_, pattern, separated⟩ := patternExpr_named next words
        rw [separated, pattern]
        change replaceAll ['#'] anything (replaceAll ('#' :: ['\\', '.']) above ('#' :: ['\\', '.'] ++ (word.expr ++ pieces words))) = _
        rw [replaceAll_occurrence, replaceAll_of_not_mem (absent next words),
          replaceAll_append_of_not_mem (by decide), replaceAll_of_not_mem (absent next words), append_assoc]
      | true =>
        cases Word.eq_hash next
        have follows : ¬['#', '\\', '.'] <+: '#' :: pieces (.hash :: words) := by
          intro occurs
          obtain ⟨rest, equal⟩ := (cons_prefix_cons.mp occurs).2
          simp [pieces, Word.piece, under] at equal
        change replaceAll ['#'] anything (replaceAll ['#', '\\', '.'] above ('#' :: pieces (.hash :: words))) = _
        rw [replaceAll_cons follows, replaceAll_of_not_mem (not_mem_pieces _)]
        refine (replaceAll_occurrence '#' [] (pieces (.hash :: words))).trans ?_
        rw [replaceAll_of_not_mem (not_mem_pieces _)]
        rfl

theorem topicExpr_words (first : Word) (words : List Word) :
    topicExpr (dotted ((first :: words).map Word.text)) = patternExpr (first :: words) := by
  unfold topicExpr
  dsimp only
  rw [map_cons, dotted_cons, escapeSpecial_append, escapeSpecial_tail, replaceStar_word, replaceStar_tail,
    replaceHash_word first (quiet_tailExpr words), replaceBetween_tail,
    replaceHash_word first (quiet_secondExpr words), replaceBelow_tail, replaceFirst]

/-! The expression as it is read. -/

section
open Expression

def Reads (text : List Char) (items : List (Regexp Char)) : Prop :=
  ∀ groups before, text.foldlM Reading.step ⟨.plain, groups, before⟩ = some ⟨.plain, groups, before ++ items⟩

theorem Reads.nil : Reads [] [] :=
  fun _ pre => by simp

theorem Reads.append {first second : List Char} {firstItems secondItems : List (Regexp Char)}
    (reads : Reads first firstItems) (later : Reads second secondItems) :
    Reads (first ++ second) (firstItems ++ secondItems) := by
  intro groups pre
  rw [foldlM_append, reads]
  refine (later groups (pre ++ firstItems)).trans ?_
  rw [append_assoc]

theorem reads_oneWord : Reads oneWord [.some notDot] := by
  intro groups pre
  simp [oneWord, Reading.step, Reading.push, Reading.again]

theorem reads_anything : Reads anything [.many any] := by
  intro groups pre
  simp [anything, Reading.step, Reading.push, Reading.again]

def underItem : Regexp Char :=
  .optional (.sequenceAll [char '.', .many any])

def aboveItem : Regexp Char :=
  .optional (.sequenceAll [.many any, char '.'])

theorem reads_under : Reads under [underItem] := by
  intro groups pre
  simp [under, underItem, Reading.step, Reading.push, Reading.again, Reading.close, escapes]

theorem reads_above : Reads above [aboveItem] := by
  intro groups pre
  simp [above, aboveItem, Reading.step, Reading.push, Reading.again, Reading.close, escapes]

theorem reads_separator : Reads separator [char '.'] := by
  intro groups pre
  simp [separator, Reading.step, Reading.push, escapes]

variable {one : Char}

theorem reads_special (special : one ∈ topicSpecial) : Reads ['\\', one] [char one] := by
  have escaped := all_eq_true.mp (by decide : topicSpecial.all escapes = true) one special
  intro groups pre
  simp [Reading.step, Reading.push, escaped]

theorem reads_plain (plain : one ∉ topicSpecial) (unstarred : one ≠ '*') : Reads [one] [char one] := by
  intro groups pre
  have stepped : Reading.step ⟨.plain, groups, pre⟩ one = some (Reading.push ⟨.plain, groups, pre⟩ (char one)) := by
    unfold Reading.step
    dsimp only
    split
    case h_6 => exact absurd rfl unstarred
    case h_9 => exact if_neg plain
    all_goals exact absurd (by decide) plain
  simp [stepped, Reading.push]

theorem reads_escapeSpecial {text : List Char} (unstarred : '*' ∉ text) : Reads (escapeSpecial text) (text.map char) := by
  induction text with
  | nil => exact .nil
  | cons one text ih =>
    rw [mem_cons, not_or] at unstarred
    have first : Reads (if one ∈ topicSpecial then ['\\', one] else [one]) [char one] := by
      split
      · next special => exact reads_special special
      · next plain => exact reads_plain plain (Ne.symm unstarred.1)
    exact first.append (ih unstarred.2)

end

namespace Word

open Expression

def items : Word → List (Regexp Char)
  | star => [.some notDot]
  | hash => []
  | literal word => word.text.map char

def pieceItems : Word → List (Regexp Char)
  | hash => [underItem]
  | word => char '.' :: word.items

theorem reads_expr (word : Word) (named : word.isHash = false) : Reads word.expr word.items := by
  cases word with
  | star => exact reads_oneWord
  | hash => cases named
  | literal word => exact reads_escapeSpecial fun mem => (word.plain '*' mem).2.1 rfl

theorem reads_piece (word : Word) : Reads word.piece word.pieceItems := by
  cases word with
  | hash => exact reads_under
  | star => exact reads_separator.append (reads_expr star rfl)
  | literal word => exact reads_separator.append (reads_expr (literal word) rfl)

end Word

theorem reads_pieces (words : List Word) : Reads (pieces words) (words.flatMap Word.pieceItems) := by
  induction words with
  | nil => exact .nil
  | cons word words ih => exact word.reads_piece.append ih

open Expression in
def patternItems : List Word → List (Regexp Char)
  | [] => []
  | [.hash] => [.many any]
  | .hash :: .hash :: words => .many any :: (Word.hash :: words).flatMap Word.pieceItems
  | .hash :: word :: words => aboveItem :: (word.items ++ words.flatMap Word.pieceItems)
  | word :: words => word.items ++ words.flatMap Word.pieceItems

theorem reads_pattern (words : List Word) : Reads (patternExpr words) (patternItems words) := by
  fun_cases patternItems words with
  | case1 => exact .nil
  | case2 => exact reads_anything
  | case3 words => exact reads_anything.append (reads_pieces (.hash :: words))
  | case4 word words notHash =>
    have named := Bool.eq_false_iff.mpr fun hash => notHash (Word.eq_hash hash)
    rw [(patternExpr_named named words).2.1, append_assoc]
    exact reads_above.append ((word.reads_expr named).append (reads_pieces words))
  | case5 word words notLast notTwice notFirst =>
    have named := Word.named notLast notFirst
    rw [(patternExpr_named named words).1]
    exact (word.reads_expr named).append (reads_pieces words)

theorem topicRegexp_words (first : Word) (words : List Word) :
    topicRegexp (dotted ((first :: words).map Word.text)) = some (.sequenceAll (patternItems (first :: words))) := by
  rw [topicRegexp, topicExpr_words, compile, reads_pattern (first :: words) [] []]
  rfl

/-! What the expression matches. -/

section
variable {text : List Char}

open Expression

theorem mem_nil : text ∈ (Regexp.sequenceAll ([] : List (Regexp Char))).language ↔ text = [] :=
  Iff.rfl

theorem mem_char {one : Char} : text ∈ (char one).language ↔ text = [one] := by
  rw [char, Regexp.mem_symbol]
  simp

theorem mem_chars (chars : List Char) : text ∈ (Regexp.sequenceAll (chars.map char)).language ↔ text = chars := by
  induction chars generalizing text with
  | nil => exact Iff.rfl
  | cons one chars ih =>
    rw [map_cons, Regexp.mem_sequenceAll_cons]
    constructor
    · rintro ⟨front, back, rfl, first, rest⟩
      rw [mem_char.mp first, ih.mp rest]
      rfl
    · rintro rfl
      exact ⟨[one], chars, rfl, mem_char.mpr rfl, ih.mpr rfl⟩

theorem mem_manyAny (text : List Char) : text ∈ (Regexp.many any).language :=
  Regexp.mem_many_symbol.mpr fun _ _ => rfl

def DotFirst (text : List Char) : Prop :=
  text = [] ∨ ∃ rest, text = '.' :: rest

theorem mem_underItem : text ∈ underItem.language ↔ DotFirst text := by
  rw [underItem, Regexp.mem_optional, or_comm]
  refine or_congr Iff.rfl ?_
  rw [Regexp.mem_sequenceAll_cons]
  constructor
  · rintro ⟨front, back, rfl, first, _⟩
    exact ⟨back, by rw [mem_char.mp first]; rfl⟩
  · rintro ⟨rest, rfl⟩
    refine ⟨['.'], rest, rfl, mem_char.mpr rfl, ?_⟩
    exact Regexp.mem_sequenceAll_cons.mpr ⟨rest, [], (append_nil rest).symm, mem_manyAny rest, rfl⟩

theorem mem_aboveItem : text ∈ aboveItem.language ↔ text = [] ∨ ∃ front, text = front ++ ['.'] := by
  rw [aboveItem, Regexp.mem_optional, or_comm]
  refine or_congr Iff.rfl ?_
  rw [Regexp.mem_sequenceAll_cons]
  constructor
  · rintro ⟨front, back, rfl, _, last⟩
    have dot := (mem_chars ['.']).mp last
    exact ⟨front, by rw [dot]⟩
  · rintro ⟨front, rfl⟩
    exact ⟨front, ['.'], rfl, mem_manyAny front, (mem_chars ['.']).mpr rfl⟩

end

def Word.Covers (text : List Char) : Word → Prop
  | .star => text ≠ [] ∧ '.' ∉ text
  | .hash => False
  | .literal word => text = word.text

variable {word : Word} {text : List Char} {words : List Word} {topic : List (List Char)} {front back : List Char}

theorem Word.Covers.undotted (covers : word.Covers text) : '.' ∉ text := by
  cases word with
  | star => exact covers.2
  | hash => exact covers.elim
  | literal word =>
    cases covers
    exact fun mem => (word.plain '.' mem).1 rfl

theorem Word.mem_items (named : word.isHash = false) : text ∈ (Regexp.sequenceAll word.items).language ↔ word.Covers text := by
  cases word with
  | star =>
    rw [items, Regexp.mem_sequenceAll_cons]
    constructor
    · rintro ⟨front, back, rfl, first, rest⟩
      obtain ⟨nonempty, all⟩ := Regexp.mem_some_symbol.mp first
      rw [mem_nil.mp rest, append_nil]
      exact ⟨nonempty, fun mem => of_decide_eq_true (all '.' mem) rfl⟩
    · rintro ⟨nonempty, undotted⟩
      refine ⟨text, [], (append_nil text).symm, Regexp.mem_some_symbol.mpr ⟨nonempty, fun one mem => ?_⟩, rfl⟩
      exact decide_eq_true fun dot => undotted (dot ▸ mem)
  | hash => cases named
  | literal word => exact mem_chars word.text

def pieceLanguage (words : List Word) : Language Char :=
  (Regexp.sequenceAll (words.flatMap Word.pieceItems)).language

theorem mem_pieces_hash : text ∈ pieceLanguage (.hash :: words) ↔
      ∃ front back, text = front ++ back ∧ DotFirst front ∧ back ∈ pieceLanguage words := by
  rw [pieceLanguage, flatMap_cons]
  change text ∈ (Regexp.sequenceAll (underItem :: words.flatMap Word.pieceItems)).language ↔ _
  rw [Regexp.mem_sequenceAll_cons]
  simp only [mem_underItem]
  rfl

theorem mem_pieces_named (named : word.isHash = false) : text ∈ pieceLanguage (word :: words) ↔
      ∃ front back, text = '.' :: (front ++ back) ∧ word.Covers front ∧ back ∈ pieceLanguage words := by
  have items : word.pieceItems = Expression.char '.' :: word.items := by
    cases word with
    | star | literal => rfl
    | hash => cases named
  rw [pieceLanguage, flatMap_cons, items, cons_append, Regexp.mem_sequenceAll_cons]
  constructor
  · rintro ⟨dot, rest, rfl, first, mem⟩
    obtain ⟨front, back, rfl, covers, mem⟩ := Regexp.mem_sequenceAll_append.mp mem
    exact ⟨front, back, by rw [mem_char.mp first]; rfl, (Word.mem_items named).mp covers, mem⟩
  · rintro ⟨front, back, rfl, covers, mem⟩
    exact ⟨['.'], front ++ back, rfl, mem_char.mpr rfl,
      Regexp.mem_sequenceAll_append.mpr ⟨front, back, rfl, (Word.mem_items named).mpr covers, mem⟩⟩

theorem dotFirst_of_pieces (mem : text ∈ pieceLanguage words) : DotFirst text := by
  induction words generalizing text with
  | nil => exact .inl mem
  | cons word words ih =>
    cases named : word.isHash with
    | false =>
      obtain ⟨front, back, rfl, _, _⟩ := (mem_pieces_named named).mp mem
      exact .inr ⟨_, rfl⟩
    | true =>
      cases Word.eq_hash named
      obtain ⟨front, back, rfl, first, rest⟩ := mem_pieces_hash.mp mem
      rcases first with rfl | ⟨more, rfl⟩
      · exact ih rest
      · exact .inr ⟨more ++ back, rfl⟩

/-! Words between dots. -/

theorem dotFirst_tail (words : List (List Char)) : DotFirst (dottedTail words) := by
  cases words with
  | nil => exact .inl rfl
  | cons => exact .inr ⟨_, rfl⟩

theorem nil_of_dotFirst (undotted : '.' ∉ front) (dot : DotFirst (front ++ back)) : front = [] := by
  cases front with
  | nil => rfl
  | cons =>
    rcases dot with nil | ⟨rest, same⟩
    · cases nil
    · cases same
      exact absurd mem_cons_self undotted

theorem word_unique {first second rest more : List Char} (firstUndotted : '.' ∉ first) (secondUndotted : '.' ∉ second)
    (restDot : DotFirst rest) (moreDot : DotFirst more) (same : first ++ rest = second ++ more) :
    first = second ∧ rest = more := by
  rcases append_eq_append_iff.mp same with ⟨post, rfl, rfl⟩ | ⟨post, rfl, rfl⟩
  · rw [List.mem_append, not_or] at secondUndotted
    cases nil_of_dotFirst secondUndotted.2 restDot
    exact ⟨(append_nil first).symm, rfl⟩
  · rw [List.mem_append, not_or] at firstUndotted
    cases nil_of_dotFirst firstUndotted.2 moreDot
    exact ⟨append_nil second, rfl⟩

theorem suffix_words {words : List (List Char)} (undotted : ∀ word ∈ words, '.' ∉ word)
    (dot : DotFirst back) (same : front ++ back = dottedTail words) : ∃ tail ∈ words.tails, back = dottedTail tail := by
  induction words generalizing front with
  | nil => exact ⟨[], by simp, (append_eq_nil_iff.mp same).2⟩
  | cons word words ih =>
    cases front with
    | nil => exact ⟨word :: words, by simp, same⟩
    | cons =>
      obtain ⟨_, inner⟩ := cons_eq_cons.mp same
      have left := undotted word mem_cons_self
      rcases append_eq_append_iff.mp inner with ⟨post, split, rest⟩ | ⟨post, split, rest⟩
      · rw [split, List.mem_append, not_or] at left
        cases nil_of_dotFirst left.2 (rest ▸ dot)
        exact ⟨words, by simp, rest⟩
      · obtain ⟨tail, mem, found⟩ := ih (fun word mem => undotted word (mem_cons_of_mem _ mem)) rest.symm
        exact ⟨tail, by rw [mem_tails] at mem ⊢; exact mem.trans (suffix_cons word words), found⟩

theorem covers_word {first : List Char} (nonempty : first ≠ []) (undotted : '.' ∉ first) (named : word.isHash = false) :
    matchesWords (word :: words) (first :: topic) = true ↔ word.Covers first ∧ matchesWords words topic = true := by
  cases word with
  | star => exact ⟨fun rest => ⟨⟨nonempty, undotted⟩, rest⟩, And.right⟩
  | hash => cases named
  | literal =>
    rw [matchesWords, Bool.and_eq_true, decide_eq_true_eq]
    exact and_congr_left fun _ => eq_comm

theorem tail_matches (words : List Word) (topic : List (List Char)) (nonempty : ∀ word ∈ topic, word ≠ [])
    (undotted : ∀ word ∈ topic, '.' ∉ word) :
    dottedTail topic ∈ pieceLanguage words ↔ matchesWords words topic = true := by
  induction words generalizing topic with
  | nil =>
    rw [matchesWords, List.isEmpty_iff]
    cases topic with
    | nil => exact iff_of_true rfl rfl
    | cons => exact iff_of_false (cons_ne_nil _ _) (cons_ne_nil _ _)
  | cons word words ih =>
    cases named : word.isHash with
    | false =>
      rw [mem_pieces_named named]
      cases topic with
      | nil =>
        refine iff_of_false (fun ⟨_, _, same, _⟩ => cons_ne_nil _ _ same.symm) ?_
        cases word with
        | star | literal => exact Bool.false_ne_true
        | hash => cases named
      | cons first topic =>
        obtain ⟨firstNonempty, restNonempty⟩ := forall_mem_cons.mp nonempty
        obtain ⟨firstUndotted, restUndotted⟩ := forall_mem_cons.mp undotted
        rw [covers_word firstNonempty firstUndotted named, ← ih topic restNonempty restUndotted]
        constructor
        · rintro ⟨front, back, same, covers, mem⟩
          obtain ⟨rfl, rfl⟩ := word_unique firstUndotted covers.undotted (dotFirst_tail topic)
            (dotFirst_of_pieces mem) (cons_eq_cons.mp same).2
          exact ⟨covers, mem⟩
        · rintro ⟨covers, mem⟩
          exact ⟨first, dottedTail topic, rfl, covers, mem⟩
    | true =>
      cases Word.eq_hash named
      have below {tail : List (List Char)} (mem : tail ∈ topic.tails) :
          dottedTail tail ∈ pieceLanguage words ↔ matchesWords words tail = true := by
        have sub := ((mem_tails _ _).mp mem).subset
        exact ih tail (fun word inside => nonempty word (sub inside)) fun word inside => undotted word (sub inside)
      rw [mem_pieces_hash, matchesWords, any_eq_true]
      constructor
      · rintro ⟨front, back, same, _, mem⟩
        obtain ⟨tail, tailMember, rfl⟩ := suffix_words undotted (dotFirst_of_pieces mem) same.symm
        exact ⟨tail, tailMember, (below tailMember).mp mem⟩
      · rintro ⟨tail, tailMember, matched⟩
        obtain ⟨front, rfl⟩ := (mem_tails _ _).mp tailMember
        refine ⟨dottedTail front, dottedTail tail, flatMap_append, dotFirst_tail front, (below tailMember).mpr matched⟩

theorem pattern_pieces (some : words ≠ []) (once : ∀ rest, words ≠ .hash :: .hash :: rest) :
    text ∈ (Regexp.sequenceAll (patternItems words)).language ↔ '.' :: text ∈ pieceLanguage words := by
  have named_iff {word : Word} (named : word.isHash = false) {words : List Word} {text : List Char} :
      text ∈ (Regexp.sequenceAll (word.items ++ words.flatMap Word.pieceItems)).language ↔
        '.' :: text ∈ pieceLanguage (word :: words) := by
    rw [Regexp.mem_sequenceAll_append, mem_pieces_named named]
    simp only [List.cons.injEq, true_and, Word.mem_items named]
    rfl
  fun_cases patternItems words with
  | case1 => exact absurd rfl some
  | case2 =>
    refine iff_of_true ?_ (mem_pieces_hash.mpr ⟨'.' :: text, [], (append_nil _).symm, .inr ⟨text, rfl⟩, rfl⟩)
    exact Regexp.mem_sequenceAll_cons.mpr ⟨text, [], (append_nil text).symm, mem_manyAny text, rfl⟩
  | case3 words => exact absurd rfl (once words)
  | case4 word words notHash =>
    have named := Bool.eq_false_iff.mpr fun hash => notHash (Word.eq_hash hash)
    rw [Regexp.mem_sequenceAll_cons, mem_pieces_hash]
    constructor
    · rintro ⟨front, back, rfl, first, mem⟩
      rcases mem_aboveItem.mp first with rfl | ⟨above, rfl⟩
      · exact ⟨[], '.' :: back, rfl, .inl rfl, (named_iff named).mp mem⟩
      · exact ⟨'.' :: above, '.' :: back, by simp, .inr ⟨above, rfl⟩, (named_iff named).mp mem⟩
    · rintro ⟨front, back, same, first, mem⟩
      obtain ⟨rest, rfl⟩ : ∃ rest, back = '.' :: rest := by
        obtain ⟨_, _, rfl, _⟩ := (mem_pieces_named named).mp mem
        exact ⟨_, rfl⟩
      rcases first with rfl | ⟨above, rfl⟩
      · obtain ⟨_, rfl⟩ := cons_eq_cons.mp same
        exact ⟨[], text, rfl, mem_aboveItem.mpr (.inl rfl), (named_iff named).mpr mem⟩
      · obtain ⟨_, rfl⟩ := cons_eq_cons.mp same
        exact ⟨above ++ ['.'], rest, by simp, mem_aboveItem.mpr (.inr ⟨above, rfl⟩), (named_iff named).mpr mem⟩
  | case5 word words notLast notTwice notFirst =>
    have named := Word.named notLast notFirst
    exact named_iff named

theorem twice_matches (words : List Word) (some : topic ≠ []) (nonempty : ∀ word ∈ topic, word ≠ [])
    (undotted : ∀ word ∈ topic, '.' ∉ word) :
    dotted topic ∈ (Regexp.sequenceAll (patternItems (.hash :: .hash :: words))).language ↔
      ∃ tail ∈ topic.tail.tails, matchesWords words tail = true := by
  have below {tail : List (List Char)} (mem : tail ∈ topic.tail.tails) :
      dottedTail tail ∈ pieceLanguage words ↔ matchesWords words tail = true := by
    have sub := (((mem_tails _ _).mp mem).trans (tail_suffix topic)).subset
    exact tail_matches words tail (fun word inside => nonempty word (sub inside)) fun word inside => undotted word (sub inside)
  obtain ⟨first, rest, rfl⟩ := exists_cons_of_ne_nil some
  rw [dotted_cons, patternItems, Regexp.mem_sequenceAll_cons]
  constructor
  · rintro ⟨front, back, same, _, mem⟩
    obtain ⟨inner, last, rfl, _, mem⟩ := mem_pieces_hash.mp mem
    have whole : '.' :: (front ++ inner) ++ last = dottedTail (first :: rest) := by
      rw [cons_append, append_assoc, ← same]
      rfl
    obtain ⟨tail, tailMember, rfl⟩ := suffix_words undotted (dotFirst_of_pieces mem) whole
    rcases mem_cons.mp (tails_cons first rest ▸ tailMember) with rfl | inside
    · have lengths := congrArg List.length whole
      simp only [length_append, length_cons] at lengths
      omega
    · exact ⟨tail, inside, (below inside).mp mem⟩
  · rintro ⟨tail, mem, matched⟩
    obtain ⟨front, rfl⟩ := (mem_tails _ _).mp mem
    refine ⟨first ++ dottedTail front, dottedTail tail, ?_, mem_manyAny _, ?_⟩
    · rw [append_assoc]
      exact congrArg (first ++ ·) flatMap_append
    · exact mem_pieces_hash.mpr ⟨[], dottedTail tail, rfl, .inl rfl, (below mem).mpr matched⟩

/-- The pattern begins with two hashes, and what is below them matches the
topic, but no shorter tail of it. -/
def NeedsWord : List Word → List (List Char) → Prop
  | .hash :: .hash :: words, topic =>
    matchesWords words topic = true ∧ ∀ tail ∈ topic.tail.tails, matchesWords words tail = false
  | _, _ => False

theorem matches_twice (words : List Word) (some : topic ≠ []) : matchesWords (.hash :: .hash :: words) topic = true ↔
      matchesWords words topic = true ∨ ∃ tail ∈ topic.tail.tails, matchesWords words tail = true := by
  have one : matchesWords (.hash :: .hash :: words) topic = true ↔ ∃ tail ∈ topic.tails, matchesWords words tail = true := by
    rw [matchesWords, any_eq_true]
    constructor
    · rintro ⟨outer, outerMember, matched⟩
      rw [matchesWords, any_eq_true] at matched
      obtain ⟨tail, mem, matched⟩ := matched
      rw [mem_tails] at outerMember mem
      exact ⟨tail, (mem_tails _ _).mpr (mem.trans outerMember), matched⟩
    · rintro ⟨tail, mem, matched⟩
      refine ⟨topic, (mem_tails _ _).mpr suffix_rfl, ?_⟩
      rw [matchesWords, any_eq_true]
      exact ⟨tail, mem, matched⟩
  obtain ⟨first, rest, rfl⟩ := exists_cons_of_ne_nil some
  rw [one, tails_cons]
  simp only [mem_cons, exists_eq_or_imp]
  rfl

/-- The expression built from a pattern matches a topic as the words of the
pattern match those of the topic, unless two hashes at its start need a word. -/
theorem topic_pattern_matches (pattern : List Word) (topic : List TopicWord) (words : pattern ≠ []) (some : topic ≠ []) :
    topicMatches (dotted (pattern.map Word.text)) (dotted (topic.map TopicWord.text)) =
      .some (matchesWords pattern (topic.map TopicWord.text)) ↔ ¬NeedsWord pattern (topic.map TopicWord.text) := by
  have nonempty : ∀ word ∈ topic.map TopicWord.text, word ≠ [] := by
    intro word member
    obtain ⟨given, _, rfl⟩ := mem_map.mp member
    exact given.nonempty
  have undotted : ∀ word ∈ topic.map TopicWord.text, '.' ∉ word := by
    intro word member
    obtain ⟨given, _, rfl⟩ := mem_map.mp member
    exact given.undotted
  have given : topic.map TopicWord.text ≠ [] := fun none => some (map_eq_nil_iff.mp none)
  generalize topic.map TopicWord.text = topic at nonempty undotted given ⊢
  cases pattern with
  | nil => exact absurd rfl words
  | cons first rest =>
    rw [topicMatches, topicRegexp_words, Option.map_some, Option.some.injEq, Bool.eq_iff_iff, Regexp.accepts_iff]
    by_cases twice : ∃ below, first :: rest = .hash :: .hash :: below
    · obtain ⟨below, same⟩ := twice
      rw [same, twice_matches below given nonempty undotted, matches_twice below given, NeedsWord]
      rw [iff_comm.trans or_iff_right_iff_imp, not_and]
      refine imp_congr_right fun _ => ?_
      simp
    · have once : ∀ below, first :: rest ≠ .hash :: .hash :: below := fun below same => twice ⟨below, same⟩
      have after : '.' :: dotted topic = dottedTail topic := by
        obtain ⟨one, more, rfl⟩ := exists_cons_of_ne_nil given
        rw [dotted_cons]
        rfl
      have needs : ¬NeedsWord (first :: rest) topic := by
        rw [NeedsWord.eq_2 _ _ fun below same => once below same]
        exact not_false
      refine iff_of_true ?_ needs
      rw [pattern_pieces words once, after, tail_matches _ _ nonempty undotted]

def letter : Literal :=
  ⟨['a'], List.cons_ne_nil _ _, by simp⟩

theorem topic_pattern_matches_above :
    topicMatches ['#', '.', 'a'] ['a'] = some true ∧ topicMatches ['#', '.', '#', '.', 'a'] ['b', '.', 'a'] = some true := by
  have alone := topic_pattern_matches [.hash, .literal letter] [⟨['a'], cons_ne_nil _ _, by decide⟩]
    (cons_ne_nil _ _) (cons_ne_nil _ _)
  have below := topic_pattern_matches [.hash, .hash, .literal letter]
    [⟨['b'], cons_ne_nil _ _, by decide⟩, ⟨['a'], cons_ne_nil _ _, by decide⟩]
    (cons_ne_nil _ _) (cons_ne_nil _ _)
  exact ⟨alone.mpr id, below.mpr fun needs => absurd needs.1 (by decide)⟩

/-- Two hashes before a word do not match the word alone. -/
theorem two_hashes_need_a_word : topicMatches (dotted ([.hash, .hash, .literal letter].map Word.text)) (dotted [['a']]) = some false ∧
      matchesWords [.hash, .hash, .literal letter] [['a']] = true := by
  decide +kernel

end Hopper.Guarantees
