import Hopper.Sqlite.CheckJson

/-! The JSON text that is accepted: the pass over it reads its strings and its
numbers as the grammar does. -/

namespace Hopper.Guarantees

open List Kernel Kernel.Bytes Sqlite

/-- The escapes of a string: none is of code unit zero, and surrogates are in
pairs. -/
structure EscapesPaired (pieces : List Piece) : Prop where
  nonzero : ∀ piece ∈ pieces, piece.unit? ≠ some 0
  high : ∀ i piece, pieces[i]? = some piece → piece.isHigh → ∃ next, pieces[i + 1]? = some next ∧ next.isLow
  low : ∀ i piece, pieces[i]? = some piece → piece.isLow →
    ∃ j previous, i = j + 1 ∧ pieces[j]? = some previous ∧ previous.isHigh

variable {piece : Piece} {rest : List Piece}

theorem not_high_and_low (high : piece.isHigh) : ¬piece.isLow := by
  rintro ⟨unit, held, low, _⟩
  obtain ⟨other, same, _, below⟩ := high
  rw [held] at same
  cases same
  omega

theorem unit_ne_zero_of_high (high : piece.isHigh) : piece.unit? ≠ some 0 := by
  obtain ⟨unit, held, above, _⟩ := high
  intro zero
  rw [zero] at held
  cases held
  omega

theorem unit_ne_zero_of_low (low : piece.isLow) : piece.unit? ≠ some 0 := by
  obtain ⟨unit, held, above, _⟩ := low
  intro zero
  rw [zero] at held
  cases held
  omega

theorem escapesPaired_nil : EscapesPaired [] :=
  ⟨nofun, fun _ _ held => by simp at held, fun _ _ held => by simp at held⟩

theorem escapesPaired_cons (single : ¬piece.isHigh) :
    EscapesPaired (piece :: rest) ↔ piece.unit? ≠ some 0 ∧ ¬piece.isLow ∧ EscapesPaired rest := by
  constructor
  · intro paired
    refine ⟨paired.nonzero piece mem_cons_self, fun low => ?_, ?_⟩
    · obtain ⟨j, _, index, _⟩ := paired.low 0 piece rfl low
      omega
    · refine ⟨fun other mem => paired.nonzero other (mem_cons_of_mem _ mem), ?_, ?_⟩
      · intro i other held high
        exact paired.high (i + 1) other held high
      · intro i other held low
        obtain ⟨j, previous, index, found, high⟩ := paired.low (i + 1) other held low
        cases j with
        | zero =>
          cases found
          exact absurd high single
        | succ j => exact ⟨j, previous, by omega, found, high⟩
  · rintro ⟨nonzero, alone, paired⟩
    refine ⟨forall_mem_cons.mpr ⟨nonzero, paired.nonzero⟩, ?_, ?_⟩
    · intro i other held high
      cases i with
      | zero =>
        cases held
        exact absurd high single
      | succ i => exact paired.high i other held high
    · intro i other held low
      cases i with
      | zero =>
        cases held
        exact absurd low alone
      | succ i =>
        obtain ⟨j, previous, index, found, high⟩ := paired.low i other held low
        exact ⟨j + 1, previous, by omega, found, high⟩

theorem escapesPaired_pair (first : piece.isHigh) :
    EscapesPaired (piece :: rest) ↔ ∃ next later, rest = next :: later ∧ next.isLow ∧ EscapesPaired later := by
  constructor
  · intro paired
    obtain ⟨next, held, low⟩ := paired.high 0 piece rfl first
    cases rest with
    | nil => cases held
    | cons other later =>
      cases held
      refine ⟨next, later, rfl, low, ?_, ?_, ?_⟩
      · exact fun other mem => paired.nonzero other (mem_cons_of_mem _ (mem_cons_of_mem _ mem))
      · intro i other held high
        exact paired.high (i + 2) other held high
      · intro i other held isLow
        obtain ⟨j, previous, index, found, high⟩ := paired.low (i + 2) other held isLow
        obtain rfl : j = i + 1 := by omega
        cases i with
        | zero =>
          cases found
          exact absurd low (not_high_and_low high)
        | succ i => exact ⟨i, previous, rfl, found, high⟩
  · rintro ⟨next, later, rfl, low, paired⟩
    refine ⟨?_, ?_, ?_⟩
    · exact forall_mem_cons.mpr ⟨unit_ne_zero_of_high first, forall_mem_cons.mpr ⟨unit_ne_zero_of_low low, paired.nonzero⟩⟩
    · intro i other held high
      match i with
      | 0 => exact ⟨next, rfl, low⟩
      | 1 =>
        cases held
        exact absurd low (not_high_and_low high)
      | i + 2 => exact paired.high i other held high
    · intro i other held isLow
      match i with
      | 0 =>
        cases held
        exact absurd isLow (not_high_and_low first)
      | 1 => exact ⟨0, piece, rfl, rfl, first⟩
      | i + 2 =>
        obtain ⟨j, previous, index, found, high⟩ := paired.low i other held isLow
        exact ⟨j + 2, previous, by omega, found, high⟩

section
variable {rest : Bytes}

theorem scan_plain {byte : UInt8} (noQuote : byte ≠ 34) (noBackslash : byte ≠ 92) : scan 0 true (byte :: rest) = scan 0 true rest := by
  rw [scan, if_neg noQuote, if_neg noBackslash]

theorem scan_escape (body : Bytes) {count : Nat} (checked : checkEscape (92 :: (body ++ rest)) = .ok (count + 1))
    (length : body.length = count) : scan 0 true (92 :: (body ++ rest)) = scan 0 true rest := by
  rw [scan, if_neg (by decide), if_pos rfl, checked, ← length]
  exact scan_skip body

theorem scan_refused {body : Bytes} {message : Bytes} (refused : checkEscape (92 :: body) = .error message) :
    scan 0 true (92 :: body) ≠ .ok () := by
  rw [scan, if_neg (by decide), if_pos rfl, refused]
  rintro ⟨⟩

theorem checkEscape_high {digits : Bytes} (rest : Bytes) (four : digits.length = 4)
    (hex : ∀ digit ∈ digits, (hexValue? digit).isSome = true)
    (high : 0xd800 ≤ hexadecimal digits ∧ hexadecimal digits < 0xdc00) (later : List Piece) :
    (∃ next more, later = next :: more ∧ next.isLow ∧
        checkEscape (92 :: 117 :: (digits ++ (piecesText later ++ 34 :: rest))) = .ok 12) ∨
      (¬∃ next more, later = next :: more ∧ next.isLow) ∧
        checkEscape (92 :: 117 :: (digits ++ (piecesText later ++ 34 :: rest))) = .error unpairedSurrogate := by
  rw [checkEscape_unit _ four hex, if_neg (by omega), if_neg (by omega)]
  have refuse {text : Bytes} (other : text.take 2 ≠ ascii "\\u") :
      hexadecimal digits ≥ 0xdc00 ∨ text.length < 6 ∨ text.take 2 ≠ ascii "\\u" := .inr (.inr other)
  cases later with
  | nil =>
    refine .inr ⟨nofun, if_pos (refuse ?_)⟩
    intro same
    cases rest <;> cases same
  | cons next more =>
    cases next with
    | plain byte printable noQuote noBackslash =>
      refine .inr ⟨fun ⟨_, _, same, _, held, _⟩ => ?_, if_pos (refuse fun same => noBackslash ?_)⟩
      · cases same
        cases held
      · exact (List.cons.inj same).1
    | short letter known =>
      refine .inr ⟨fun ⟨_, _, same, _, held, _⟩ => ?_, if_pos (refuse fun same => ?_)⟩
      · cases same
        cases held
      · obtain rfl : letter = 117 := (List.cons.inj (List.cons.inj same).2).1
        exact absurd known (by decide)
    | unit others count hexes =>
      have read := parseHex_four count hexes
      have text : piecesText (.unit others count hexes :: more) ++ 34 :: rest =
          92 :: 117 :: (others ++ (piecesText more ++ 34 :: rest)) := by
        simp [piecesText, Piece.text]
      have taken : ((92 :: 117 :: (others ++ (piecesText more ++ 34 :: rest))).drop 2).take 4 = others := by
        rw [drop_succ_cons, drop_succ_cons, drop_zero, ← count, take_left]
      have long : ¬(92 :: 117 :: (others ++ (piecesText more ++ 34 :: rest))).length < 6 := by
        simp only [length_cons, length_append]
        omega
      rw [text, if_neg (by rw [not_or, not_or]; exact ⟨by omega, long, not_not.mpr rfl⟩), taken, read]
      dsimp only
      by_cases low : 0xdc00 ≤ hexadecimal others ∧ hexadecimal others < 0xe000
      · exact .inl ⟨_, _, rfl, ⟨_, rfl, low⟩, if_neg (by omega)⟩
      · refine .inr ⟨fun ⟨_, _, same, unit, held, within⟩ => ?_, if_pos (by omega)⟩
        cases same
        cases held
        exact low within

theorem not_high_of_none (piece : Piece) (none : piece.unit? = none) : ¬piece.isHigh ∧ ¬piece.isLow := by
  constructor
  · rintro ⟨unit, held, _⟩
    rw [none] at held
    cases held
  · rintro ⟨unit, held, _⟩
    rw [none] at held
    cases held

theorem length_text_of_low {piece : Piece} (low : piece.isLow) : piece.text.length = 6 := by
  obtain ⟨unit, held, _⟩ := low
  cases piece with
  | plain | short => cases held
  | unit digits four => rw [Piece.text, length_cons, length_cons, four]

theorem scan_pieces (pieces : List Piece) :
    scan 0 true (piecesText pieces ++ 34 :: rest) = .ok () ↔ EscapesPaired pieces ∧ scan 0 false rest = .ok () := by
  -- A pair of surrogates takes two pieces at once.
  generalize size : pieces.length = count
  induction count using Nat.strongRecOn generalizing pieces with
  | _ count ih =>
    cases pieces with
    | nil => exact ⟨fun passes => ⟨escapesPaired_nil, passes⟩, And.right⟩
    | cons piece later =>
      have shorter : later.length < count := size ▸ Nat.lt_succ_self _
      cases piece with
      | plain byte printable noQuote noBackslash =>
        obtain ⟨notHigh, notLow⟩ := not_high_of_none (.plain byte printable noQuote noBackslash) rfl
        have text : piecesText (.plain byte printable noQuote noBackslash :: later) ++ 34 :: rest =
          byte :: (piecesText later ++ 34 :: rest) := rfl
        rw [text, scan_plain noQuote noBackslash, ih _ shorter later rfl, escapesPaired_cons notHigh]
        exact and_congr_left fun _ => ⟨fun paired => ⟨nofun, notLow, paired⟩, fun all => all.2.2⟩
      | short letter known =>
        obtain ⟨notHigh, notLow⟩ := not_high_of_none (.short letter known) rfl
        have text : piecesText (.short letter known :: later) ++ 34 :: rest =
          92 :: ([letter] ++ (piecesText later ++ 34 :: rest)) := rfl
        rw [text, scan_escape [letter] (checkEscape_short known) rfl, ih _ shorter later rfl, escapesPaired_cons notHigh]
        exact and_congr_left fun _ => ⟨fun paired => ⟨nofun, notLow, paired⟩, fun all => all.2.2⟩
      | unit digits four hex =>
        have text : piecesText (.unit digits four hex :: later) ++ 34 :: rest =
            92 :: 117 :: (digits ++ (piecesText later ++ 34 :: rest)) := by
          simp [piecesText, Piece.text]
        have held : (Piece.unit digits four hex).unit? = some (hexadecimal digits) := rfl
        have checked := checkEscape_unit (piecesText later ++ 34 :: rest) four hex
        rw [text]
        by_cases zero : hexadecimal digits = 0
        · rw [if_pos zero] at checked
          refine iff_of_false (scan_refused checked) fun both => ?_
          exact both.1.nonzero _ mem_cons_self (by rw [held, zero])
        · rw [if_neg zero] at checked
          by_cases surrogate : 0xd800 ≤ hexadecimal digits ∧ hexadecimal digits < 0xe000
          · by_cases second : 0xdc00 ≤ hexadecimal digits
            · rw [if_neg (not_not.mpr surrogate), if_pos (.inl second)] at checked
              refine iff_of_false (scan_refused checked) fun both => ?_
              obtain ⟨j, _, index, _⟩ := both.1.low 0 _ rfl ⟨_, held, second, surrogate.2⟩
              omega
            · have high : (Piece.unit digits four hex).isHigh := ⟨_, held, surrogate.1, by omega⟩
              rw [escapesPaired_pair high]
              rcases checkEscape_high rest four hex ⟨surrogate.1, by omega⟩ later with
                ⟨next, more, rfl, low, pair⟩ | ⟨none, refused⟩
              · have body : 92 :: 117 :: (digits ++ (piecesText (next :: more) ++ 34 :: rest)) =
                    92 :: (117 :: (digits ++ next.text) ++ (piecesText more ++ 34 :: rest)) := by
                  simp [piecesText]
                have length : (117 :: (digits ++ next.text)).length = 11 := by
                  rw [length_cons, length_append, four, length_text_of_low low]
                rw [body] at pair ⊢
                rw [scan_escape _ pair length, ih more.length (Nat.lt_of_succ_lt shorter) more rfl]
                refine and_congr_left fun _ => ⟨fun paired => ⟨next, more, rfl, low, paired⟩, ?_⟩
                rintro ⟨_, _, same, _, paired⟩
                cases same
                exact paired
              · exact iff_of_false (scan_refused refused) fun ⟨⟨next, more, same, low, _⟩, _⟩ =>
                  none ⟨next, more, same, low⟩
          · rw [if_pos surrogate] at checked
            have notHigh : ¬(Piece.unit digits four hex).isHigh := by
              rintro ⟨unit, same, within⟩
              cases same
              omega
            have notLow : ¬(Piece.unit digits four hex).isLow := by
              rintro ⟨unit, same, within⟩
              cases same
              omega
            have passed := scan_escape (117 :: digits) checked (by rw [length_cons, four])
            rw [cons_append] at passed
            rw [passed, ih _ shorter later rfl, escapesPaired_cons notHigh]
            exact and_congr_left fun _ => ⟨fun paired => ⟨by rw [held]; simpa using zero, notLow, paired⟩, fun all => all.2.2⟩

theorem scan_string (pieces : List Piece) :
    scan 0 false (stringText pieces ++ rest) = .ok () ↔ EscapesPaired pieces ∧ scan 0 false rest = .ok () := by
  have text : stringText pieces ++ rest = 34 :: (piecesText pieces ++ 34 :: rest) := by
    simp [stringText]
  rw [text, ← scan_pieces, scan, if_pos rfl]

end

/-- The strings and the numbers of a text are accepted. -/
def Accepted (strings : List (List Piece)) (numbers : List Number) : Prop :=
  (∀ pieces ∈ strings, EscapesPaired pieces) ∧ ∀ number ∈ numbers, checkNumber number.text = .ok ()

theorem accepted_append {strings others : List (List Piece)} {numbers more : List Number} :
    Accepted (strings ++ others) (numbers ++ more) ↔ Accepted strings numbers ∧ Accepted others more := by
  rw [Accepted, List.forall_mem_append, List.forall_mem_append]
  exact and_and_and_comm

theorem accepted_nil : Accepted [] [] :=
  ⟨nofun, nofun⟩

mutual

theorem scan_tree (tree : JsonTree) {rest : Bytes} (ends : NumberEnds rest) :
    scan 0 false (tree.text ++ rest) = .ok () ↔ Accepted tree.strings tree.numbers ∧ scan 0 false rest = .ok () := by
  cases tree with
  | null =>
    rw [JsonTree.text, scan_others (by decide)]
    exact ⟨fun passes => ⟨accepted_nil, passes⟩, And.right⟩
  | bool value =>
    cases value with
    | true | false =>
      rw [JsonTree.text, scan_others (by decide)]
      exact ⟨fun passes => ⟨accepted_nil, passes⟩, And.right⟩
  | number number =>
    rw [JsonTree.text, scan_number number ends]
    simp [Accepted, JsonTree.strings, JsonTree.numbers]
  | string =>
    rw [JsonTree.text, scan_string]
    simp [Accepted, JsonTree.strings, JsonTree.numbers]
  | array space items =>
    have text : (JsonTree.array space items).text ++ rest = 91 :: (space.bytes ++ (items.text ++ 93 :: rest)) := by
      simp [JsonTree.text]
    rw [text, scan_other (by decide) (by decide) (by decide), scan_spaces, scan_items items (numberEnds_cons rfl),
      scan_other (by decide) (by decide) (by decide), JsonTree.strings, JsonTree.numbers]
  | object space members =>
    have text : (JsonTree.object space members).text ++ rest = 123 :: (space.bytes ++ (members.text ++ 125 :: rest)) := by
      simp [JsonTree.text]
    rw [text, scan_other (by decide) (by decide) (by decide), scan_spaces, scan_members members (numberEnds_cons rfl),
      scan_other (by decide) (by decide) (by decide), JsonTree.strings, JsonTree.numbers]

theorem scan_items (items : JsonItems) {rest : Bytes} (ends : NumberEnds rest) :
    scan 0 false (items.text ++ rest) = .ok () ↔ Accepted items.strings items.numbers ∧ scan 0 false rest = .ok () := by
  cases items with
  | nil => exact ⟨fun passes => ⟨accepted_nil, passes⟩, And.right⟩
  | cons pre item post more =>
    have last := scan_items more ends
    rw [JsonItems.strings, JsonItems.numbers, accepted_append, and_assoc, ← last]
    cases more with
    | nil =>
      have text : (JsonItems.cons pre item post .nil).text ++ rest = pre.bytes ++ (item.text ++ (post.bytes ++ rest)) := by
        simp [JsonItems.text]
      rw [text, scan_spaces, scan_tree item (ends.spaces post), scan_spaces, JsonItems.text, nil_append]
    | cons next other beyond more =>
      have text : (JsonItems.cons pre item post (.cons next other beyond more)).text ++ rest =
          pre.bytes ++ (item.text ++ (post.bytes ++ 44 :: ((JsonItems.cons next other beyond more).text ++ rest))) := by
        rw [JsonItems.text]
        · simp only [append_assoc, cons_append]
        · exact nofun
      rw [text, scan_spaces, scan_tree item ((numberEnds_cons rfl).spaces post), scan_spaces,
        scan_other (by decide) (by decide) (by decide)]

theorem scan_members (members : JsonMembers) {rest : Bytes} (ends : NumberEnds rest) :
    scan 0 false (members.text ++ rest) = .ok () ↔ Accepted members.strings members.numbers ∧ scan 0 false rest = .ok () := by
  cases members with
  | nil => exact ⟨fun passes => ⟨accepted_nil, passes⟩, And.right⟩
  | cons pre name between beyond value post more =>
    have others := scan_members more ends
    have mem (tail : Bytes) (ends : NumberEnds tail) :
        scan 0 false (pre.bytes ++ (stringText name ++ (between.bytes ++ 58 :: (beyond.bytes ++ (value.text ++ tail))))) = .ok () ↔
          EscapesPaired name ∧ Accepted value.strings value.numbers ∧ scan 0 false tail = .ok () := by
      rw [scan_spaces, scan_string, scan_spaces, scan_other (by decide) (by decide) (by decide), scan_spaces, scan_tree value ends]
    have split : Accepted (name :: (value.strings ++ more.strings)) (value.numbers ++ more.numbers) ↔
        EscapesPaired name ∧ Accepted value.strings value.numbers ∧ Accepted more.strings more.numbers := by
      rw [← accepted_append, Accepted, forall_mem_cons, and_assoc, Accepted]
    rw [JsonMembers.strings, JsonMembers.numbers, split, and_assoc, and_assoc, ← others]
    cases more with
    | nil =>
      have text : (JsonMembers.cons pre name between beyond value post .nil).text ++ rest = pre.bytes ++ (stringText name ++
            (between.bytes ++ 58 :: (beyond.bytes ++ (value.text ++ (post.bytes ++ rest))))) := by
        simp [JsonMembers.text]
      rw [text, mem _ (ends.spaces post), scan_spaces, JsonMembers.text, nil_append]
    | cons next other mid far last tail more =>
      have text : (JsonMembers.cons pre name between beyond value post (.cons next other mid far last tail more)).text ++
          rest = pre.bytes ++ (stringText name ++ (between.bytes ++ 58 :: (beyond.bytes ++ (value.text ++
            (post.bytes ++ 44 :: ((JsonMembers.cons next other mid far last tail more).text ++ rest)))))) := by
        rw [JsonMembers.text]
        · simp only [append_assoc, cons_append]
        · exact nofun
      rw [text, mem _ ((numberEnds_cons rfl).spaces post), scan_spaces, scan_other (by decide) (by decide) (by decide)]

end

def IsUtf8 (b : Bytes) : Prop :=
  ∃ chars : List Char, b = chars.flatMap String.utf8EncodeChar

/-- A text is accepted if and only if it is UTF-8 and JSON, its strings escape no
zero and no surrogate alone, and its numbers are accepted. -/
theorem checkJSON_iff (utf8Valid jsonValid : Bytes → Bool) (utf8 : ∀ b, utf8Valid b = true ↔ IsUtf8 b)
    (json : ∀ b, jsonValid b = true ↔ ∃ text : JsonText, text.bytes = b) (b : Bytes) :
    checkJSON utf8Valid jsonValid b = .ok () ↔ IsUtf8 b ∧ (∃ text : JsonText, text.bytes = b) ∧
        ∀ text : JsonText, text.bytes = b → (∀ pieces ∈ text.tree.strings, EscapesPaired pieces) ∧
            ∀ number ∈ text.tree.numbers, checkNumber number.text = .ok () := by
  have pass (text : JsonText) : scan 0 false text.bytes = .ok () ↔ Accepted text.tree.strings text.tree.numbers := by
    have ends := numberEnds_nil.spaces text.after
    have last : scan 0 false (text.after.bytes ++ []) = .ok () := scan_spaces text.after
    rw [append_nil] at ends last
    rw [JsonText.bytes, scan_spaces, scan_tree text.tree ends]
    exact and_iff_left last
  rw [← utf8 b, ← json b, checkJSON]
  by_cases isUtf8 : utf8Valid b = true
  · rw [if_neg (not_not.mpr isUtf8)]
    by_cases isJson : jsonValid b = true
    · rw [if_neg (not_not.mpr isJson)]
      obtain ⟨text, rfl⟩ := (json b).mp isJson
      refine ⟨fun passes => ⟨isUtf8, isJson, fun other same => ?_⟩, fun all => (pass text).mpr (all.2.2 text rfl)⟩
      exact (pass other).mp (same ▸ passes)
    · rw [if_pos isJson]
      exact ⟨nofun, fun all => absurd all.2.1 isJson⟩
  · rw [if_pos isUtf8]
    exact ⟨nofun, fun all => absurd all.1 isUtf8⟩

/-- `"\u0000"`. -/
def zeroEscape : JsonText where
  before := ⟨[], nofun⟩
  tree := .string [.unit (ascii "0000") (by decide) (by decide)]
  after := ⟨[], nofun⟩

open Classical in
theorem checkJSON_iff_zero : zeroEscape.bytes = ascii "\"\\u0000\"" ∧
      checkJSON (fun b => decide (IsUtf8 b)) (fun b => decide (∃ text : JsonText, text.bytes = b)) zeroEscape.bytes ≠ .ok () := by
  refine ⟨by decide, fun accepted => ?_⟩
  have parts := (checkJSON_iff (fun b => decide (IsUtf8 b)) (fun b => decide (∃ text : JsonText, text.bytes = b))
    (fun b => decide_eq_true_iff) (fun b => decide_eq_true_iff) zeroEscape.bytes).mp accepted
  have escapes := (parts.2.2 zeroEscape rfl).1 _ mem_cons_self
  exact escapes.nonzero _ mem_cons_self rfl

end Hopper.Guarantees
