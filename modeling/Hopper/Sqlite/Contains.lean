import Hopper.Kernel.Containment
import Hopper.Kernel.Members
import Hopper.Sqlite.Decimal
import Mathlib.Data.String.Basic

/-! Whether a JSON document contains a filter. -/

namespace Hopper.Sqlite

open Kernel

def jsonScalarEqual : Json Number → Json Number → Bool
  | .number a, .number b =>
    match canonicalNumber a.text, canonicalNumber b.text with
    | .ok ca, .ok cb => decide (ca = cb)
    | _, _ => false
  | .string a, .string b => decide (a = b)
  | .bool a, .bool b => decide (a = b)
  | .null, .null => true
  | _, _ => false

mutual

/-- Whether a value contains another. At the top level, an array also contains a
scalar that it has as an item. -/
def jsonContains (has : Json Number) : Json Number → Bool → Bool
  | .object w, _ =>
    match has with
    | .object h => containsMembers h w
    | _ => false
  | .array w, _ =>
    match has with
    | .array h => containsItems h w
    | _ => false
  | want, top =>
    match has with
    | .array h => if top then h.any fun hv => jsonScalarEqual hv want else jsonScalarEqual has want
    | _ => jsonScalarEqual has want

/-- Whether each of the members wanted is in one of its name. -/
def containsMembers (h : List (String × Json Number)) : List (String × Json Number) → Bool
  | [] => true
  | (k, wv) :: rest =>
    match Members.last? k h with
    | some hv => jsonContains hv wv false && containsMembers h rest
    | none => false

def containsItems (h : List (Json Number)) : List (Json Number) → Bool
  | [] => true
  | wv :: rest => (h.any fun hv => jsonContains hv wv false) && containsItems h rest

end

theorem containsMembers_iff {h w : List (String × Json Number)} : containsMembers h w = true ↔
      ∀ mem ∈ w, ∃ hv, Members.last? mem.1 h = some hv ∧ jsonContains hv mem.2 false = true := by
  induction w with
  | nil => simp [containsMembers]
  | cons mem rest ih =>
    rw [containsMembers, List.forall_mem_cons, ← ih]
    cases Members.last? mem.1 h <;> simp

theorem containsItems_iff {h w : List (Json Number)} :
    containsItems h w = true ↔ ∀ wv ∈ w, ∃ hv ∈ h, jsonContains hv wv false = true := by
  induction w with
  | nil => simp [containsItems]
  | cons wv rest ih => rw [containsItems, List.forall_mem_cons, ← ih, Bool.and_eq_true, List.any_eq_true]

def IsScalar : Json Number → Prop
  | .array _ | .object _ => False
  | _ => True

theorem jsonContains_scalar (has want : Json Number) (scalar : IsScalar want) :
    jsonContains has want false = jsonScalarEqual has want := by
  cases want with
  | array | object => exact scalar.elim
  | _ => cases has <;> simp [jsonContains]

variable {has want : Json Number}

theorem jsonContains_top (compound : ¬IsScalar want) :
    jsonContains has want true = jsonContains has want false := by
  cases want with
  | array | object => cases has <;> simp [jsonContains]
  | _ => exact absurd trivial compound

theorem jsonContains_top_scalar (scalar : IsScalar want) :
    jsonContains has want true = true ↔ jsonContains has want false = true ∨
        ∃ items, has = .array items ∧ ∃ item ∈ items, jsonContains item want false = true := by
  rw [jsonContains_scalar has want scalar]
  simp only [jsonContains_scalar _ want scalar]
  cases want with
  | array | object => exact scalar.elim
  | _ => cases has <;> simp [jsonContains, jsonScalarEqual]

end Hopper.Sqlite
