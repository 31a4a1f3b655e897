import Mathlib.Data.List.Sort
import Mathlib.Order.Basic

/-! Maps as lists of their members, in the order of the names. -/

namespace Hopper.Kernel.Members

open List

variable {Name Value Other : Type}

def mapValues (change : Value → Other) (members : List (Name × Value)) : List (Name × Other) :=
  members.map fun member => (member.1, change member.2)

variable [LinearOrder Name]
variable {members : List (Name × Value)} {name : Name} {value : Value} {member : Name × Value}
variable {rest : List (Name × Value)}

/-- The members with one set, over any member of its name. -/
def set (members : List (Name × Value)) (name : Name) (value : Value) : List (Name × Value) :=
  (members.filter fun member => member.1 ≠ name).orderedInsert (fun left right => left.1 ≤ right.1) (name, value)

/-- The map of members as they are written, the last of a name standing. -/
def ofList (members : List (Name × Value)) : List (Name × Value) :=
  members.foldl (fun out member => set out member.1 member.2) []

def last? (name : Name) : List (Name × Value) → Option Value
  | [] => none
  | member :: rest =>
    match last? name rest with
    | some value => some value
    | none => if member.1 = name then some member.2 else none

attribute [grind =] mapValues set ofList last?

def Sorted (members : List (Name × Value)) : Prop :=
  members.Pairwise fun left right => left.1 < right.1

theorem mem_set : member ∈ set members name value ↔ member = (name, value) ∨ member ∈ members ∧ member.1 ≠ name := by
  rw [set, mem_orderedInsert, mem_filter, decide_eq_true_eq]

theorem sorted_set (sorted : Sorted members) (name : Name) (value : Value) : Sorted (set members name value) := by
  have rest : Sorted (members.filter fun member => member.1 ≠ name) := sorted.filter _
  have other : ∀ member ∈ members.filter (fun member => member.1 ≠ name), member.1 ≠ name :=
    fun member inside => of_decide_eq_true (mem_filter.mp inside).2
  unfold set
  generalize members.filter (fun member => member.1 ≠ name) = kept at rest other
  induction kept with
  | nil => exact pairwise_singleton _ _
  | cons first kept ih =>
    obtain ⟨ahead, later⟩ := pairwise_cons.mp rest
    obtain ⟨firstOther, keptOther⟩ := forall_mem_cons.mp other
    rw [orderedInsert_cons]
    split
    · next pre =>
      have less : name < first.1 := lt_of_le_of_ne pre (Ne.symm firstOther)
      refine pairwise_cons.mpr ⟨forall_mem_cons.mpr ⟨less, fun member inside => ?_⟩, rest⟩
      exact less.trans (ahead member inside)
    · next post =>
      refine pairwise_cons.mpr ⟨fun member inside => ?_, ih later keptOther⟩
      rcases (mem_orderedInsert _).mp inside with rfl | old
      · exact lt_of_not_ge post
      · exact ahead member old

theorem sorted_ofList (members : List (Name × Value)) : Sorted (ofList members) := by
  have start (pre : List (Name × Value)) (sorted : Sorted pre) :
      Sorted (members.foldl (fun out member => set out member.1 member.2) pre) := by
    induction members generalizing pre with
    | nil => exact sorted
    | cons member members ih => exact ih _ (sorted_set sorted member.1 member.2)
  exact start [] List.Pairwise.nil

/-! Values changed alike. -/

theorem set_mapValues (change : Value → Other) (members : List (Name × Value)) (name : Name) (value : Value) :
    set (mapValues change members) name (change value) = mapValues change (set members name value) := by
  have filtered : (mapValues change members).filter (fun member => member.1 ≠ name) =
      mapValues change (members.filter fun member => member.1 ≠ name) := by
    rw [mapValues, mapValues, filter_map]
    rfl
  rw [set, set, filtered, mapValues, mapValues]
  exact (map_orderedInsert (fun left right : Name × Value => left.1 ≤ right.1)
    (fun left right : Name × Other => left.1 ≤ right.1) (fun member => (member.1, change member.2)) _ (name, value)
    (fun _ _ => Iff.rfl) fun _ _ => Iff.rfl).symm

theorem ofList_mapValues (change : Value → Other) (members : List (Name × Value)) :
    ofList (mapValues change members) = mapValues change (ofList members) := by
  have start (pre : List (Name × Value)) :
      (mapValues change members).foldl (fun out member => set out member.1 member.2) (mapValues change pre) =
        mapValues change (members.foldl (fun out member => set out member.1 member.2) pre) := by
    induction members generalizing pre with
    | nil => rfl
    | cons member members ih =>
      have next := ih (set pre member.1 member.2)
      rw [← set_mapValues] at next
      exact next
  exact start []

/-! A map by what it has under each name. -/

theorem last?_mapValues (change : Value → Other) (name : Name) (members : List (Name × Value)) :
    last? name (mapValues change members) = (last? name members).map change := by
  induction members with
  | nil => rfl
  | cons member members ih =>
    rw [mapValues, map_cons, last?, ← mapValues, ih, last?]
    cases last? name members with
    | some => rfl
    | none =>
      by_cases same : member.1 = name
      · simp [same]
      · simp [same]

theorem last?_cons_of_some (later : last? name rest = some value) :
    last? name (member :: rest) = some value := by
  rw [last?, later]

theorem last?_cons_of_none (none : last? name rest = none) :
    last? name (member :: rest) = if member.1 = name then some member.2 else .none := by
  rw [last?, none]

theorem mem_of_last? (found : last? name members = some value) : (name, value) ∈ members := by
  induction members with
  | nil => cases found
  | cons member members ih =>
    cases later : last? name members with
    | some =>
      rw [last?_cons_of_some later] at found
      exact mem_cons_of_mem member (ih (later.trans found))
    | none =>
      rw [last?_cons_of_none later] at found
      split at found
      · next same =>
        cases found
        cases same
        exact mem_cons_self
      · cases found

theorem last?_eq_some_iff (distinct : (members.map Prod.fst).Nodup) :
    last? name members = some value ↔ (name, value) ∈ members := by
  refine ⟨mem_of_last?, fun member => ?_⟩
  induction members with
  | nil => cases member
  | cons first rest ih =>
    obtain ⟨fresh, distinct⟩ := nodup_cons.mp distinct
    rcases mem_cons.mp member with rfl | later
    · have none : last? name rest = none := by
        cases found : last? name rest with
        | none => rfl
        | some => exact absurd (mem_map_of_mem (mem_of_last? found)) fresh
      rw [last?_cons_of_none none, if_pos rfl]
    · exact last?_cons_of_some (ih distinct later)

theorem mem_ofList : (name, value) ∈ ofList members ↔ last? name members = some value := by
  have start (pre : List (Name × Value)) : (name, value) ∈ members.foldl (fun out member => set out member.1 member.2) pre ↔
        last? name members = some value ∨ last? name members = none ∧ (name, value) ∈ pre := by
    induction members generalizing pre with
    | nil => simp [last?]
    | cons member members ih =>
      rw [foldl_cons, ih, mem_set]
      cases later : last? name members with
      | some => simp [last?_cons_of_some later]
      | none =>
        rw [last?_cons_of_none later]
        by_cases same : member.1 = name
        · subst same
          simp [Prod.ext_iff, eq_comm]
        · simp [same, Prod.ext_iff, Ne.symm same]
  simpa [ofList] using start []

theorem ofList_eq_iff {others : List (Name × Value)} :
    ofList members = ofList others ↔ ∀ name, last? name members = last? name others := by
  constructor
  · intro same name
    refine Option.ext fun value => ?_
    rw [← mem_ofList, ← mem_ofList, same]
  · intro agree
    have nodup (list : List (Name × Value)) : (ofList list).Nodup :=
      (sorted_ofList list).imp fun less same => less.ne (congrArg Prod.fst same)
    have perm : (ofList members).Perm (ofList others) := by
      refine (perm_ext_iff_of_nodup (nodup members) (nodup others)).mpr fun (name, value) => ?_
      rw [mem_ofList, mem_ofList, agree]
    refine perm.eq_of_pairwise (fun _ _ _ _ less greater => ?_) (sorted_ofList members) (sorted_ofList others)
    exact absurd less greater.asymm

end Hopper.Kernel.Members
