import Mathlib.Data.List.Basic

/-! Replacing every occurrence of one text in another, left to right and
without overlap. -/

namespace Hopper.Kernel

open List

section
variable {Symbol : Type} [DecidableEq Symbol]

/-- Replaces what is left of a text after some of its symbols, which an
occurrence has used up. -/
def replaceAfter (old new : List Symbol) : Nat → List Symbol → List Symbol
  | _, [] => []
  | used + 1, _ :: rest => replaceAfter old new used rest
  | 0, first :: rest =>
    if old.isPrefixOf (first :: rest) then new ++ replaceAfter old new (old.length - 1) rest
    else first :: replaceAfter old new 0 rest

/-- Replaces every occurrence of a text that is not empty. -/
def replaceAll (old new text : List Symbol) : List Symbol :=
  replaceAfter old new 0 text

variable {old new : List Symbol}
variable {first : Symbol} {rest : List Symbol}

@[simp] theorem replaceAll_nil : replaceAll old new [] = [] :=
  rfl

theorem replaceAfter_length (front rest : List Symbol) :
    replaceAfter old new front.length (front ++ rest) = replaceAll old new rest := by
  induction front with
  | nil => rfl
  | cons first front ih => exact ih

theorem replaceAll_occurrence (first : Symbol) (more rest : List Symbol) :
    replaceAll (first :: more) new (first :: more ++ rest) = new ++ replaceAll (first :: more) new rest := by
  have occurs : (first :: more).isPrefixOf (first :: (more ++ rest)) = true :=
    isPrefixOf_iff_prefix.mpr (prefix_append (first :: more) rest)
  rw [replaceAll, cons_append, replaceAfter, if_pos occurs, length_cons, Nat.add_sub_cancel, replaceAfter_length]

theorem replaceAll_cons (absent : ¬old <+: first :: rest) :
    replaceAll old new (first :: rest) = first :: replaceAll old new rest := by
  rw [replaceAll, replaceAfter, if_neg fun occurs => absent (List.isPrefixOf_iff_prefix.mp occurs)]
  rfl

theorem replaceAll_append {block : List Symbol} (absent : ∀ front back, block = front ++ back → back ≠ [] → ¬old <+: back ++ rest) :
    replaceAll old new (block ++ rest) = block ++ replaceAll old new rest := by
  induction block with
  | nil => rfl
  | cons first block ih =>
    have here : ¬old <+: first :: (block ++ rest) := absent [] (first :: block) rfl (cons_ne_nil _ _)
    rw [cons_append, replaceAll_cons here, ih]
    · rfl
    · intro front back same nonempty
      exact absent (first :: front) back (by rw [same]; rfl) nonempty

theorem replaceAll_append_of_not_mem {more block : List Symbol} (absent : first ∉ block) :
    replaceAll (first :: more) new (block ++ rest) = block ++ replaceAll (first :: more) new rest := by
  refine replaceAll_append fun front back same nonempty occurs => ?_
  cases back with
  | nil => exact nonempty rfl
  | cons =>
    obtain ⟨rfl, _⟩ := cons_prefix_cons.mp occurs
    exact absent (by rw [same]; simp)

theorem replaceAll_of_not_mem {more text : List Symbol} (absent : first ∉ text) : replaceAll (first :: more) new text = text := by
  have whole : replaceAll (first :: more) new (text ++ []) = text ++ replaceAll (first :: more) new [] :=
    replaceAll_append_of_not_mem absent
  simpa using whole

end

end Hopper.Kernel
