import Hopper.Kernel.Json
import Hopper.Kernel.Members
import Mathlib.Data.String.Basic

/-! JSON values up to the order of members, and the form that tells them
apart: members in the order of their names, the last of a name standing. -/

namespace Hopper.Kernel.Json

open List

variable {Number Other Third : Type} {one other : Json Number}

inductive Same : Json Number → Json Number → Prop where
  | null : Same null null
  | bool (value : Bool) : Same (bool value) (bool value)
  | number (value : Number) : Same (number value) (number value)
  | string (text : String) : Same (string text) (string text)
  | array {items others : List (Json Number)} (length : items.length = others.length)
      (each : ∀ (index : Nat) one other, items[index]? = some one → others[index]? = some other → Same one other) :
      Same (array items) (array others)
  | object {members others : List (String × Json Number)}
      (names : ∀ name, (Members.last? name members).isSome = (Members.last? name others).isSome)
      (each : ∀ name one other, Members.last? name members = some one → Members.last? name others = some other →
        Same one other) :
      Same (object members) (object others)

mutual

def canonical : Json Number → Json Number
  | null => null
  | bool value => bool value
  | number value => number value
  | string text => string text
  | array items => array (canonicalItems items)
  | object members => object (Members.ofList (canonicalMembers members))

def canonicalItems : List (Json Number) → List (Json Number)
  | [] => []
  | item :: rest => canonical item :: canonicalItems rest

def canonicalMembers : List (String × Json Number) → List (String × Json Number)
  | [] => []
  | (name, value) :: rest => (name, canonical value) :: canonicalMembers rest

end

mutual

def mapNumber (change : Number → Other) : Json Number → Json Other
  | null => null
  | bool value => bool value
  | number value => number (change value)
  | string text => string text
  | array items => array (mapItems change items)
  | object members => object (mapMembers change members)

def mapItems (change : Number → Other) : List (Json Number) → List (Json Other)
  | [] => []
  | item :: rest => mapNumber change item :: mapItems change rest

def mapMembers (change : Number → Other) : List (String × Json Number) → List (String × Json Other)
  | [] => []
  | (name, value) :: rest => (name, mapNumber change value) :: mapMembers change rest

end

mutual

def numbers : Json Number → List Number
  | number value => [value]
  | array items => itemNumbers items
  | object members => memberNumbers members
  | _ => []

def itemNumbers : List (Json Number) → List Number
  | [] => []
  | item :: rest => numbers item ++ itemNumbers rest

def memberNumbers : List (String × Json Number) → List Number
  | [] => []
  | (_, value) :: rest => numbers value ++ memberNumbers rest

end

/-! The same functions over lists. -/

theorem canonicalItems_eq (items : List (Json Number)) : canonicalItems items = items.map canonical := by
  induction items with
  | nil => rfl
  | cons item items ih => exact congrArg _ ih

theorem canonicalMembers_eq (members : List (String × Json Number)) :
    canonicalMembers members = Members.mapValues canonical members := by
  induction members with
  | nil => rfl
  | cons mem members ih => exact congrArg _ ih

theorem mapItems_eq (change : Number → Other) (items : List (Json Number)) :
    mapItems change items = items.map (mapNumber change) := by
  induction items with
  | nil => rfl
  | cons item items ih => exact congrArg _ ih

theorem mapMembers_eq (change : Number → Other) (members : List (String × Json Number)) :
    mapMembers change members = Members.mapValues (mapNumber change) members := by
  induction members with
  | nil => rfl
  | cons mem members ih => exact congrArg _ ih

theorem itemNumbers_eq (items : List (Json Number)) : itemNumbers items = items.flatMap numbers := by
  induction items with
  | nil => rfl
  | cons item items ih => exact congrArg (numbers item ++ ·) ih

theorem memberNumbers_eq (members : List (String × Json Number)) :
    memberNumbers members = members.flatMap fun mem => numbers mem.2 := by
  induction members with
  | nil => rfl
  | cons mem members ih => exact congrArg (numbers mem.2 ++ ·) ih

theorem canonical_array (items : List (Json Number)) : canonical (array items) = array (items.map canonical) :=
  congrArg array (canonicalItems_eq items)

theorem canonical_object (members : List (String × Json Number)) :
    canonical (object members) = object (Members.ofList (Members.mapValues canonical members)) :=
  congrArg (object <| Members.ofList ·) (canonicalMembers_eq members)

theorem mapNumber_array (change : Number → Other) (items : List (Json Number)) :
    mapNumber change (array items) = array (items.map (mapNumber change)) :=
  congrArg array (mapItems_eq change items)

theorem mapNumber_object (change : Number → Other) (members : List (String × Json Number)) :
    mapNumber change (object members) = object (Members.mapValues (mapNumber change) members) :=
  congrArg object (mapMembers_eq change members)

/-! Changing the numbers. -/

theorem mapNumber_congr {change change' : Number → Other} (json : Json Number)
    (agree : ∀ value ∈ numbers json, change value = change' value) :
    mapNumber change json = mapNumber change' json := by
  induction json using Json.induct with
  | null | bool | string => rfl
  | number value => exact congrArg number (agree value mem_cons_self)
  | array items ih =>
    rw [mapNumber_array, mapNumber_array]
    refine congrArg _ (map_congr_left fun item inside => ih item inside fun value found => agree value ?_)
    change value ∈ itemNumbers items
    exact itemNumbers_eq items ▸ mem_flatMap_of_mem inside found
  | object members ih =>
    rw [mapNumber_object, mapNumber_object]
    refine congrArg _ (map_congr_left fun mem inside => ?_)
    refine congrArg _ (ih mem inside fun value found => agree value ?_)
    change value ∈ memberNumbers members
    exact memberNumbers_eq members ▸ mem_flatMap_of_mem inside found

theorem mapNumber_mapNumber (change : Number → Other) (again : Other → Third) (json : Json Number) :
    mapNumber again (mapNumber change json) = mapNumber (again ∘ change) json := by
  induction json using Json.induct with
  | null | bool | string | number => rfl
  | array items ih =>
    rw [mapNumber_array, mapNumber_array, mapNumber_array, map_map]
    exact congrArg _ (map_congr_left ih)
  | object members ih =>
    rw [mapNumber_object, mapNumber_object, mapNumber_object, Members.mapValues, Members.mapValues, map_map]
    exact congrArg _ (map_congr_left fun mem inside => congrArg _ (ih mem inside))

theorem mapNumber_id (json : Json Number) : mapNumber id json = json := by
  induction json using Json.induct with
  | null | bool | string | number => rfl
  | array items ih =>
    rw [mapNumber_array]
    exact congrArg _ ((map_congr_left ih).trans (map_id items))
  | object members ih =>
    rw [mapNumber_object]
    refine congrArg _ ((map_congr_left fun mem inside => ?_).trans (map_id members))
    rw [ih mem inside, id]

theorem mapNumber_injective [Nonempty Number] {change : Number → Other} (injective : Function.Injective change) :
    Function.Injective (mapNumber change) := by
  intro one other same
  obtain ⟨back, inverse⟩ := injective.hasLeftInverse
  have returned := congrArg (mapNumber back) same
  have identity : back ∘ change = id := funext inverse
  rwa [mapNumber_mapNumber, mapNumber_mapNumber, identity, mapNumber_id, mapNumber_id] at returned

theorem canonical_mapNumber (change : Number → Other) (json : Json Number) :
    canonical (mapNumber change json) = mapNumber change (canonical json) := by
  induction json using Json.induct with
  | null | bool | number | string => rfl
  | array items ih =>
    rw [mapNumber_array, canonical_array, canonical_array, mapNumber_array, map_map, map_map]
    exact congrArg _ (map_congr_left ih)
  | object members ih =>
    rw [mapNumber_object, canonical_object, canonical_object, mapNumber_object, ← Members.ofList_mapValues,
      Members.mapValues, Members.mapValues, Members.mapValues, Members.mapValues, map_map, map_map]
    refine congrArg _ (congrArg _ (map_congr_left fun mem inside => ?_))
    exact congrArg _ (ih mem inside)

/-! The canonical form tells values apart. -/

private theorem map_eq_map_iff {Value Result : Type} {read : Value → Result} {one other : Option Value} :
    one.map read = other.map read ↔
      one.isSome = other.isSome ∧ ∀ first second, one = some first → other = some second → read first = read second := by
  cases one <;> cases other <;> simp

theorem canonical_items_iff {items others : List (Json Number)} :
    items.map canonical = others.map canonical ↔ items.length = others.length ∧
      ∀ (index : Nat) one other, items[index]? = some one → others[index]? = some other → canonical one = canonical other := by
  constructor
  · intro same
    refine ⟨by simpa using congrArg List.length same, fun index => ?_⟩
    have given := congrArg (fun list : List (Json Number) => list[index]?) same
    simp only [getElem?_map] at given
    exact (map_eq_map_iff.mp given).2
  · rintro ⟨length, each⟩
    refine ext_getElem? fun index => ?_
    rw [getElem?_map, getElem?_map, map_eq_map_iff]
    exact ⟨by rw [Bool.eq_iff_iff, isSome_getElem?, isSome_getElem?, length], each index⟩

theorem canonical_members_iff {members others : List (String × Json Number)} :
    Members.ofList (Members.mapValues canonical members) = Members.ofList (Members.mapValues canonical others) ↔
      (∀ name, (Members.last? name members).isSome = (Members.last? name others).isSome) ∧
      ∀ name one other, Members.last? name members = some one → Members.last? name others = some other →
        canonical one = canonical other := by
  simp only [Members.ofList_eq_iff, Members.last?_mapValues, map_eq_map_iff, forall_and]

theorem Same.canonical_eq (same : Same one other) : canonical one = canonical other := by
  induction same with
  | null | bool | number | string => rfl
  | array length _ ih =>
    rw [canonical_array, canonical_array, canonical_items_iff.mpr ⟨length, ih⟩]
  | object names _ ih =>
    rw [canonical_object, canonical_object, canonical_members_iff.mpr ⟨names, ih⟩]

theorem canonical_eq_iff : canonical one = canonical other ↔ Same one other := by
  refine ⟨fun same => ?_, Same.canonical_eq⟩
  induction one using Json.induct generalizing other with
  | null =>
    cases other with
    | null => exact .null
    | _ => cases same
  | bool value =>
    cases other with
    | bool => exact bool.inj same ▸ .bool value
    | _ => cases same
  | number value =>
    cases other with
    | number => exact number.inj same ▸ .number value
    | _ => cases same
  | string text =>
    cases other with
    | string => exact string.inj same ▸ .string text
    | _ => cases same
  | array items ih =>
    cases other with
    | array =>
      rw [canonical_array, canonical_array, array.injEq] at same
      obtain ⟨length, each⟩ := canonical_items_iff.mp same
      refine .array length fun index one other first second => ?_
      exact ih one (mem_of_getElem? first) (each index one other first second)
    | _ => cases same
  | object members ih =>
    cases other with
    | object =>
      rw [canonical_object, canonical_object, object.injEq] at same
      obtain ⟨names, each⟩ := canonical_members_iff.mp same
      refine .object names fun name one other first second => ?_
      exact ih (name, one) (Members.mem_of_last? first) (each name one other first second)
    | _ => cases same

end Hopper.Kernel.Json
