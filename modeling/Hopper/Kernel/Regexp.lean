import Mathlib.Computability.Language

/-! Regular expressions over symbol classes: their languages, and a matcher by
derivatives. -/

namespace Hopper.Kernel

open List Computability

inductive Regexp (Symbol : Type) where
  | fail
  | empty
  | symbol (accepts : Symbol → Bool)
  | sequence (first second : Regexp Symbol)
  | either (left right : Regexp Symbol)
  | many (repeated : Regexp Symbol)

namespace Regexp

section
variable {Symbol : Type}
variable {text : List Symbol} {first second : Language Symbol}

def optional (expression : Regexp Symbol) : Regexp Symbol :=
  either expression empty

def some (expression : Regexp Symbol) : Regexp Symbol :=
  sequence expression (many expression)

def sequenceAll : List (Regexp Symbol) → Regexp Symbol
  | [] => empty
  | first :: rest => sequence first (sequenceAll rest)

def nullable : Regexp Symbol → Bool
  | fail => false
  | empty => true
  | symbol _ => false
  | sequence first second => first.nullable && second.nullable
  | either left right => left.nullable || right.nullable
  | many _ => true

def derive (next : Symbol) : Regexp Symbol → Regexp Symbol
  | fail => fail
  | empty => fail
  | symbol accepts => if accepts next then empty else fail
  | sequence first second =>
    if first.nullable then either (sequence (first.derive next) second) (second.derive next)
    else sequence (first.derive next) second
  | either left right => either (left.derive next) (right.derive next)
  | many repeated => sequence (repeated.derive next) (many repeated)

def accepts (expression : Regexp Symbol) : List Symbol → Bool
  | [] => expression.nullable
  | next :: rest => (expression.derive next).accepts rest

def language : Regexp Symbol → Language Symbol
  | fail => 0
  | empty => 1
  | symbol accepts => { text | ∃ one, accepts one = true ∧ text = [one] }
  | sequence first second => first.language * second.language
  | either left right => left.language + right.language
  | many repeated => repeated.language∗

theorem mem_symbol {accepts : Symbol → Bool} : text ∈ (symbol accepts).language ↔ ∃ one, accepts one = true ∧ text = [one] :=
  Iff.rfl

theorem mem_optional {expression : Regexp Symbol} : text ∈ expression.optional.language ↔ text ∈ expression.language ∨ text = [] :=
  Iff.rfl

theorem language_sequenceAll_append (first second : List (Regexp Symbol)) :
    (sequenceAll (first ++ second)).language = (sequenceAll first).language * (sequenceAll second).language := by
  induction first with
  | nil => exact (one_mul _).symm
  | cons expression rest ih =>
    change expression.language * (sequenceAll (rest ++ second)).language = _
    rw [ih, ← mul_assoc]
    rfl

theorem nullable_iff (expression : Regexp Symbol) : expression.nullable = true ↔ [] ∈ expression.language := by
  induction expression with
  | fail => exact iff_of_false Bool.false_ne_true id
  | empty => exact iff_of_true rfl rfl
  | symbol => simp [nullable, mem_symbol]
  | sequence first second firstIh secondIh =>
    rw [nullable, Bool.and_eq_true, firstIh, secondIh, language, Language.mem_mul]
    simp
  | either left right leftIh rightIh =>
    rw [nullable, Bool.or_eq_true, leftIh, rightIh]
    rfl
  | many => exact iff_of_true rfl (Language.nil_mem_kstar _)

theorem cons_mem_mul {next : Symbol} {rest : List Symbol} :
    next :: rest ∈ first * second ↔ (∃ front back, next :: front ∈ first ∧ back ∈ second ∧ rest = front ++ back) ∨
        ([] ∈ first ∧ next :: rest ∈ second) := by
  rw [Language.mem_mul]
  constructor
  · rintro ⟨front, frontMember, back, backMember, same⟩
    cases front with
    | nil =>
      rw [nil_append] at same
      exact .inr ⟨frontMember, same ▸ backMember⟩
    | cons head front =>
      obtain ⟨rfl, rfl⟩ := cons_eq_cons.mp same
      exact .inl ⟨front, back, frontMember, backMember, rfl⟩
  · rintro (⟨front, back, frontMember, backMember, rfl⟩ | ⟨frontMember, backMember⟩)
    · exact ⟨_, frontMember, _, backMember, rfl⟩
    · exact ⟨_, frontMember, _, backMember, rfl⟩

theorem cons_mem_kstar {repeated : Language Symbol} {next : Symbol} {rest : List Symbol} :
    next :: rest ∈ repeated∗ ↔ ∃ front back, next :: front ∈ repeated ∧ back ∈ repeated∗ ∧ rest = front ++ back := by
  constructor
  · intro mem
    rw [Language.kstar_def_nonempty] at mem
    obtain ⟨parts, same, all⟩ := mem
    cases parts with
    | nil => cases same
    | cons part parts =>
      obtain ⟨partMember, nonempty⟩ := all part mem_cons_self
      cases part with
      | nil => exact absurd rfl nonempty
      | cons head front =>
        obtain ⟨rfl, rfl⟩ := cons_eq_cons.mp same
        refine ⟨front, parts.flatten, partMember, ?_, rfl⟩
        exact Language.join_mem_kstar fun part mem => (all part (mem_cons_of_mem _ mem)).1
  · rintro ⟨front, back, frontMember, backMember, rfl⟩
    rw [← Language.one_add_self_mul_kstar_eq_kstar]
    exact .inr (Language.mem_mul.mpr ⟨_, frontMember, _, backMember, rfl⟩)

theorem mem_derive (expression : Regexp Symbol) (next : Symbol) (rest : List Symbol) :
    rest ∈ (expression.derive next).language ↔ next :: rest ∈ expression.language := by
  induction expression generalizing rest with
  | fail => exact Iff.rfl
  | empty => exact iff_of_false id (cons_ne_nil _ _)
  | symbol =>
    rw [derive, mem_symbol]
    split
    · next accepted => exact ⟨fun done => ⟨next, accepted, by rw [show rest = [] from done]⟩,
        fun ⟨_, _, same⟩ => (cons_eq_cons.mp same).2⟩
    · next refused =>
      refine iff_of_false id fun ⟨one, accepted, same⟩ => refused ?_
      rw [(cons_eq_cons.mp same).1]
      exact accepted
  | sequence first second firstIh secondIh =>
    have parts : rest ∈ (sequence (first.derive next) second).language ↔
        ∃ front back, next :: front ∈ first.language ∧ back ∈ second.language ∧ rest = front ++ back := by
      rw [language, Language.mem_mul]
      constructor
      · rintro ⟨front, frontMember, back, backMember, rfl⟩
        exact ⟨front, back, (firstIh front).mp frontMember, backMember, rfl⟩
      · rintro ⟨front, back, frontMember, backMember, rfl⟩
        exact ⟨front, (firstIh front).mpr frontMember, back, backMember, rfl⟩
    rw [derive, language, cons_mem_mul, ← parts, ← nullable_iff, ← secondIh rest]
    split
    · next nullable => exact or_congr Iff.rfl ⟨fun mem => ⟨nullable, mem⟩, And.right⟩
    · next refused => exact ⟨Or.inl, Or.rec id fun both => absurd both.1 refused⟩
  | either left right leftIh rightIh => exact or_congr (leftIh rest) (rightIh rest)
  | many repeated ih =>
    rw [derive, language, language, cons_mem_kstar, Language.mem_mul]
    constructor
    · rintro ⟨front, frontMember, back, backMember, rfl⟩
      exact ⟨front, back, (ih front).mp frontMember, backMember, rfl⟩
    · rintro ⟨front, back, frontMember, backMember, rfl⟩
      exact ⟨front, (ih front).mpr frontMember, back, backMember, rfl⟩

theorem accepts_iff (expression : Regexp Symbol) (text : List Symbol) :
    expression.accepts text = true ↔ text ∈ expression.language := by
  induction text generalizing expression with
  | nil => exact nullable_iff expression
  | cons next rest ih =>
    rw [accepts, ih, mem_derive]

theorem mem_many_symbol {accepts : Symbol → Bool} : text ∈ (many (symbol accepts)).language ↔ ∀ one ∈ text, accepts one = true := by
  induction text with
  | nil => exact iff_of_true (Language.nil_mem_kstar _) (forall_mem_nil _)
  | cons first rest ih =>
    rw [language, cons_mem_kstar, forall_mem_cons]
    constructor
    · rintro ⟨front, back, ⟨one, accepted, same⟩, mem, rfl⟩
      obtain ⟨rfl, rfl⟩ := cons_eq_cons.mp same
      exact ⟨accepted, ih.mp mem⟩
    · rintro ⟨accepted, all⟩
      exact ⟨[], rest, ⟨first, accepted, rfl⟩, ih.mpr all, rfl⟩

theorem mem_some_symbol {accepts : Symbol → Bool} :
    text ∈ (some (symbol accepts)).language ↔ text ≠ [] ∧ ∀ one ∈ text, accepts one = true := by
  rw [some, language, Language.mem_mul]
  constructor
  · rintro ⟨_, ⟨one, accepted, rfl⟩, rest, mem, rfl⟩
    exact ⟨cons_ne_nil _ _, forall_mem_cons.mpr ⟨accepted, mem_many_symbol.mp mem⟩⟩
  · rintro ⟨nonempty, all⟩
    cases text with
    | nil => exact absurd rfl nonempty
    | cons first rest =>
      obtain ⟨accepted, all⟩ := forall_mem_cons.mp all
      exact ⟨[first], ⟨first, accepted, rfl⟩, rest, mem_many_symbol.mpr all, rfl⟩

private theorem mem_product :
    text ∈ first * second ↔ ∃ front back, text = front ++ back ∧ front ∈ first ∧ back ∈ second := by
  rw [Language.mem_mul]
  constructor
  · rintro ⟨front, frontMember, back, backMember, rfl⟩
    exact ⟨front, back, rfl, frontMember, backMember⟩
  · rintro ⟨front, back, rfl, frontMember, backMember⟩
    exact ⟨front, frontMember, back, backMember, rfl⟩

theorem mem_sequenceAll_cons {first : Regexp Symbol} {rest : List (Regexp Symbol)} : text ∈ (sequenceAll (first :: rest)).language ↔
      ∃ front back, text = front ++ back ∧ front ∈ first.language ∧ back ∈ (sequenceAll rest).language := by
  exact mem_product

theorem mem_sequenceAll_append {first second : List (Regexp Symbol)} :
    text ∈ (sequenceAll (first ++ second)).language ↔ ∃ front back, text = front ++ back ∧
      front ∈ (sequenceAll first).language ∧ back ∈ (sequenceAll second).language := by
  rw [language_sequenceAll_append]
  exact mem_product

end

end Regexp

end Hopper.Kernel
