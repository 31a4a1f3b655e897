import Hopper.Guarantees.Numbers
import Hopper.Sqlite.Contains

/-! Nested containment is a preorder, and a filter at the top level follows it. -/

namespace Hopper.Guarantees

open List Kernel Kernel.Bytes Sqlite

/-- A number that is read without its exponent leaving an `int64`. -/
def Unwrapped (number : Number) : Prop :=
  number.text.length < 9223372036854775808 ∧ Fits number ∧ number.power < 9223372036854775808

/-- A value as it is decoded: the names of an object are different. -/
inductive Decoded : Json Number → Prop where
  | null : Decoded .null
  | bool (value : Bool) : Decoded (.bool value)
  | number (value : Number) (unwrapped : Unwrapped value) : Decoded (.number value)
  | string (text : String) : Decoded (.string text)
  | array (items : List (Json Number)) (each : ∀ item ∈ items, Decoded item) : Decoded (.array items)
  | object (members : List (String × Json Number)) (distinct : (members.map Prod.fst).Nodup)
      (each : ∀ member ∈ members, Decoded member.2) : Decoded (.object members)

structure Document where
  json : Json Number
  decoded : Decoded json

def SameValue (one other : Number) : Prop :=
  one.value = other.value

theorem jsonScalarEqual_number {one other : Number} (oneUnwrapped : Unwrapped one) (otherUnwrapped : Unwrapped other) :
    jsonScalarEqual (.number one) (.number other) = true ↔ SameValue one other := by
  obtain ⟨oneShort, oneFits, oneSmall⟩ := oneUnwrapped
  obtain ⟨otherShort, otherFits, otherSmall⟩ := otherUnwrapped
  have oneLow := (power_bounds oneShort oneFits).1
  have otherLow := (power_bounds otherShort otherFits).1
  rw [jsonScalarEqual, (canonicalNumber_ok_iff oneShort).mpr ⟨oneFits, rfl⟩,
    (canonicalNumber_ok_iff otherShort).mpr ⟨otherFits, rfl⟩, decide_eq_true_eq, string_eq_iff, SameValue,
    Number.value_eq_iff, int64_of_inRange oneLow oneSmall, int64_of_inRange otherLow otherSmall]

variable {has want : Json Number}

theorem jsonContains_iff (haveDecoded : Decoded has) (wantDecoded : Decoded want) :
    jsonContains has want false = true ↔ Json.Contains SameValue has want := by
  induction want using Json.induct generalizing has with
  | null =>
    rw [jsonContains_scalar has .null trivial]
    cases has <;> simp [jsonScalarEqual, Json.Contains]
  | bool value =>
    rw [jsonContains_scalar has (.bool value) trivial]
    cases has <;> simp [jsonScalarEqual, Json.Contains]
  | string text =>
    rw [jsonContains_scalar has (.string text) trivial]
    cases has <;> simp [jsonScalarEqual, Json.Contains]
  | number value =>
    rw [jsonContains_scalar has (.number value) trivial]
    cases haveDecoded with
    | number other otherUnwrapped =>
      cases wantDecoded with
      | number _ unwrapped => exact (jsonScalarEqual_number otherUnwrapped unwrapped).trans (by rw [Json.Contains])
    | _ => simp [jsonScalarEqual, Json.Contains]
  | array items each =>
    cases wantDecoded with
    | array _ wantEach =>
      cases haveDecoded with
      | array held heldEach =>
        rw [jsonContains, Json.contains_array, containsItems_iff]
        refine forall₂_congr fun item mem => exists_congr fun hv => and_congr_right fun inside => ?_
        exact each item mem (heldEach hv inside) (wantEach item mem)
      | _ => simp [jsonContains, Json.Contains]
  | object members each =>
    cases wantDecoded with
    | object _ _ wantEach =>
      cases haveDecoded with
      | object held distinct heldEach =>
        rw [jsonContains, Json.contains_object, containsMembers_iff]
        refine forall₂_congr fun mem inside => exists_congr fun hv => ?_
        rw [Members.last?_eq_some_iff distinct]
        exact and_congr_right fun found => each mem inside (heldEach _ found) (wantEach mem inside)
      | _ => simp [jsonContains, Json.Contains]

theorem jsonContains_trans {middle : Json Number} (haveDecoded : Decoded has) (middleDecoded : Decoded middle)
    (wantDecoded : Decoded want) (outer : jsonContains has middle false = true)
    (inner : jsonContains middle want false = true) : jsonContains has want false = true := by
  rw [jsonContains_iff haveDecoded middleDecoded] at outer
  rw [jsonContains_iff middleDecoded wantDecoded] at inner
  rw [jsonContains_iff haveDecoded wantDecoded]
  have transitive : ∀ one other third, SameValue one other → SameValue other third → SameValue one third :=
    fun _ _ _ => Eq.trans
  exact Json.contains_trans transitive outer inner

theorem isScalar_of_contains (contains : jsonContains has want false = true) : IsScalar has ↔ IsScalar want := by
  cases want <;> cases has <;> simp_all [jsonContains, jsonScalarEqual, IsScalar]

theorem jsonContains_monotone {doc filter second : Json Number} (docDecoded : Decoded doc) (filterDecoded : Decoded filter)
    (secondDecoded : Decoded second) (matched : jsonContains doc filter true = true)
    (inner : jsonContains filter second false = true) : jsonContains doc second true = true := by
  have kind := isScalar_of_contains inner
  by_cases scalar : IsScalar second
  · rw [jsonContains_top_scalar scalar]
    rcases (jsonContains_top_scalar (kind.mpr scalar)).mp matched with plain | ⟨items, rfl, item, mem, contains⟩
    · exact .inl (jsonContains_trans docDecoded filterDecoded secondDecoded plain inner)
    · cases docDecoded with
      | array _ each =>
        exact .inr ⟨items, rfl, item, mem, jsonContains_trans (each item mem) filterDecoded secondDecoded contains inner⟩
  · rw [jsonContains_top scalar]
    rw [jsonContains_top fun is => scalar (kind.mp is)] at matched
    exact jsonContains_trans docDecoded filterDecoded secondDecoded matched inner

/-- Nested containment is the documented preorder, and a filter is monotone in
it. -/
theorem containment_preorder (has middle want : Document) : jsonContains has.json has.json false = true ∧
      (jsonContains has.json middle.json false = true → jsonContains middle.json want.json false = true →
        jsonContains has.json want.json false = true) ∧
      (jsonContains has.json want.json false = true ↔ Json.Contains SameValue has.json want.json) ∧
      (jsonContains has.json middle.json true = true → jsonContains middle.json want.json false = true →
        jsonContains has.json want.json true = true) := by
  refine ⟨?_, jsonContains_trans has.decoded middle.decoded want.decoded, jsonContains_iff has.decoded want.decoded,
    jsonContains_monotone has.decoded middle.decoded want.decoded⟩
  have reflexive : ∀ number, SameValue number number := fun _ => rfl
  rw [jsonContains_iff has.decoded has.decoded]
  exact Json.contains_refl reflexive has.json

/-- An object of an array of objects of a number each. -/
def weighed (weights : List { number : Number // Unwrapped number }) : Document where
  json := .object [("lines", .array (weights.map fun weight => .object [("weight", .number weight.val)]))]
  decoded := by
    refine .object _ (nodup_singleton _) (forall_mem_singleton.mpr (.array _ (forall_mem_map.mpr fun weight _ => ?_)))
    exact .object _ (nodup_singleton _) (forall_mem_singleton.mpr (.number weight.val weight.property))

def plainWeight : { number : Number // Unwrapped number } :=
  ⟨plainNumber, by unfold Unwrapped; decide⟩

def roundWeight : { number : Number // Unwrapped number } :=
  ⟨roundNumber, by unfold Unwrapped; decide⟩

/-- Numbers of one value in different texts, and an item wanted twice. -/
theorem containment_preorder_nested :
    jsonContains (weighed [plainWeight]).json (weighed [plainWeight]).json false = true ∧
      jsonContains (weighed [plainWeight]).json (weighed [roundWeight, roundWeight]).json false = true ∧
      Json.Contains SameValue (weighed [plainWeight]).json (weighed [roundWeight, roundWeight]).json ∧
      jsonContains (weighed [plainWeight]).json (weighed [roundWeight, roundWeight]).json true = true := by
  obtain ⟨reflexive, transitive, means, monotone⟩ :=
    containment_preorder (weighed [plainWeight]) (weighed [roundWeight]) (weighed [roundWeight, roundWeight])
  have twice : jsonContains (weighed [roundWeight]).json (weighed [roundWeight, roundWeight]).json false = true := by decide
  have contains := transitive (by decide) twice
  exact ⟨reflexive, contains, means.mp contains, monotone (by decide) twice⟩

end Hopper.Guarantees
