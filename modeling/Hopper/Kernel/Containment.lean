import Hopper.Kernel.Json

/-! One JSON value in another: an object with members that are in those of the
same names, an array with items each in some item. Which numbers are the same is
a parameter. -/

namespace Hopper.Kernel.Json

variable {Number : Type} (same : Number → Number → Prop)

mutual

def Contains : Json Number → Json Number → Prop
  | .null, .null => True
  | .bool held, .bool wanted => held = wanted
  | .number held, .number wanted => same held wanted
  | .string held, .string wanted => held = wanted
  | .array held, .array wanted => ContainsItems held wanted
  | .object held, .object wanted => ContainsMembers held wanted
  | _, _ => False

def ContainsItems (held : List (Json Number)) : List (Json Number) → Prop
  | [] => True
  | wanted :: rest => (∃ item ∈ held, Contains item wanted) ∧ ContainsItems held rest

def ContainsMembers (held : List (String × Json Number)) : List (String × Json Number) → Prop
  | [] => True
  | (name, wanted) :: rest => (∃ value, (name, value) ∈ held ∧ Contains value wanted) ∧ ContainsMembers held rest

end

variable {same}

theorem contains_array {held wanted : List (Json Number)} :
    Contains same (.array held) (.array wanted) ↔ ∀ want ∈ wanted, ∃ item ∈ held, Contains same item want := by
  change ContainsItems same held wanted ↔ _
  induction wanted with
  | nil => exact iff_of_true trivial (List.forall_mem_nil _)
  | cons want rest ih =>
    change _ ∧ ContainsItems same held rest ↔ _
    rw [ih, List.forall_mem_cons]

theorem contains_object {held wanted : List (String × Json Number)} : Contains same (.object held) (.object wanted) ↔
      ∀ mem ∈ wanted, ∃ value, (mem.1, value) ∈ held ∧ Contains same value mem.2 := by
  change ContainsMembers same held wanted ↔ _
  induction wanted with
  | nil => exact iff_of_true trivial (List.forall_mem_nil _)
  | cons mem rest ih =>
    cases mem
    change _ ∧ ContainsMembers same held rest ↔ _
    rw [ih, List.forall_mem_cons]

theorem contains_refl (reflexive : ∀ number, same number number) (json : Json Number) : Contains same json json := by
  induction json using induct with
  | null => trivial
  | bool | string => exact rfl
  | number value => exact reflexive value
  | array items each => exact contains_array.mpr fun item mem => ⟨item, mem, each item mem⟩
  | object members each => exact contains_object.mpr fun mem inside => ⟨mem.2, inside, each mem inside⟩

/-! What contains a value is of its kind. -/

section
variable {held : Json Number}

theorem contains_null_iff : Contains same held .null ↔ held = .null := by
  cases held with
  | null => exact iff_of_true trivial rfl
  | _ => exact iff_of_false id nofun

theorem contains_bool_iff {value : Bool} : Contains same held (.bool value) ↔ held = .bool value := by
  cases held with
  | bool held => exact ⟨congrArg _, bool.inj⟩
  | _ => exact iff_of_false id nofun

theorem contains_string_iff {text : String} : Contains same held (.string text) ↔ held = .string text := by
  cases held with
  | string held => exact ⟨congrArg _, string.inj⟩
  | _ => exact iff_of_false id nofun

theorem contains_number_iff {value : Number} :
    Contains same held (.number value) ↔ ∃ other, held = .number other ∧ same other value := by
  cases held with
  | number held => exact ⟨fun same => ⟨held, rfl, same⟩, fun ⟨_, rfl, same⟩ => same⟩
  | _ => exact iff_of_false id nofun

theorem array_of_contains {wanted : List (Json Number)} (contains : Contains same held (.array wanted)) :
    ∃ items, held = .array items := by
  cases held with
  | array items => exact ⟨items, rfl⟩
  | _ => exact False.elim contains

theorem object_of_contains {wanted : List (String × Json Number)} (contains : Contains same held (.object wanted)) :
    ∃ members, held = .object members := by
  cases held with
  | object members => exact ⟨members, rfl⟩
  | _ => exact False.elim contains

end

theorem contains_trans (transitive : ∀ one other third, same one other → same other third → same one third)
    {held middle wanted : Json Number} (outer : Contains same held middle) (inner : Contains same middle wanted) :
    Contains same held wanted := by
  induction wanted using induct generalizing held middle with
  | null => exact contains_null_iff.mp inner ▸ outer
  | bool => exact contains_bool_iff.mp inner ▸ outer
  | string => exact contains_string_iff.mp inner ▸ outer
  | number value =>
    obtain ⟨between, rfl, right⟩ := contains_number_iff.mp inner
    obtain ⟨first, rfl, left⟩ := contains_number_iff.mp outer
    exact contains_number_iff.mpr ⟨first, rfl, transitive first between value left right⟩
  | array items each =>
    obtain ⟨between, rfl⟩ := array_of_contains inner
    obtain ⟨first, rfl⟩ := array_of_contains outer
    refine contains_array.mpr fun item mem => ?_
    obtain ⟨mid, midMember, midContains⟩ := contains_array.mp inner item mem
    obtain ⟨top, topMember, topContains⟩ := contains_array.mp outer mid midMember
    exact ⟨top, topMember, each item mem topContains midContains⟩
  | object members each =>
    obtain ⟨between, rfl⟩ := object_of_contains inner
    obtain ⟨first, rfl⟩ := object_of_contains outer
    refine contains_object.mpr fun mem inside => ?_
    obtain ⟨mid, midMember, midContains⟩ := contains_object.mp inner mem inside
    obtain ⟨top, topMember, topContains⟩ := contains_object.mp outer _ midMember
    exact ⟨top, topMember, each mem inside topContains midContains⟩

end Hopper.Kernel.Json
