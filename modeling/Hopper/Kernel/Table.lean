import Mathlib.Data.List.Nodup
import Mathlib.Data.List.Perm.Basic

/-! Tables with a primary key. A table is the list of its rows in the order
they were added, and carries the proof that no two of them share a key, so a
look-up by key has at most one answer whatever statements ran before it. -/

namespace Hopper.Kernel

open List Option

/-- The primary key of a row. -/
class Keyed (Row : Type) (Key : outParam Type) where
  key : Row → Key

structure Table (Row : Type) {Key : Type} [Keyed Row Key] where
  rows : List Row
  distinct : (rows.map Keyed.key).Nodup

namespace Table

section
variable {Row Key : Type} [Keyed Row Key]
variable {table : Table Row} {row : Row} {holds : Row → Prop} {change : Row → Row}

instance : Membership Row (Table Row) where
  mem table row := row ∈ table.rows

theorem mem_def : row ∈ table ↔ row ∈ table.rows :=
  Iff.rfl

instance : EmptyCollection (Table Row) where
  emptyCollection := ⟨[], List.nodup_nil⟩

theorem forall_mem_empty : ∀ row ∈ (∅ : Table Row), holds row :=
  forall_mem_nil holds

@[ext] theorem ext {left right : Table Row} (same : left.rows = right.rows) : left = right := by
  cases left
  cases right
  cases same
  rfl

instance [DecidableEq Row] : DecidableEq (Table Row) :=
  fun left right => decidable_of_iff (left.rows = right.rows) ⟨ext, congrArg rows⟩

theorem eq_of_key {first second : Row} (firstMem : first ∈ table) (secondMem : second ∈ table)
    (same : Keyed.key first = Keyed.key second) : first = second :=
  inj_on_of_nodup_map table.distinct firstMem secondMem same

/-- `UPDATE`: every row rewritten, under the key it had. -/
def update (table : Table Row) (change : Row → Row)
    (same : ∀ row, Keyed.key (change row) = Keyed.key row) : Table Row where
  rows := table.rows.map change
  distinct := by
    have keys : (table.rows.map change).map Keyed.key = table.rows.map Keyed.key := by
      simp [same]
    rw [keys]
    exact table.distinct

/-- `DELETE`: the rows that satisfy the condition go. -/
def delete (table : Table Row) (condition : Row → Bool) : Table Row where
  rows := table.rows.filter fun row => !condition row
  distinct := table.distinct.sublist (List.filter_sublist.map Keyed.key)

@[simp] theorem rows_update (table : Table Row) (change : Row → Row) (same : ∀ row, Keyed.key (change row) = Keyed.key row) :
    (table.update change same).rows = table.rows.map change :=
  rfl

@[simp] theorem rows_delete (table : Table Row) (condition : Row → Bool) :
    (table.delete condition).rows = table.rows.filter fun row => !condition row :=
  rfl

@[simp] theorem mem_update (same : ∀ row, Keyed.key (change row) = Keyed.key row) :
    row ∈ table.update change same ↔ ∃ old ∈ table, change old = row := by
  simp [mem_def]

theorem forall_mem_update (same : ∀ row, Keyed.key (change row) = Keyed.key row) :
    (∀ row ∈ table.update change same, holds row) ↔ ∀ row ∈ table, holds (change row) :=
  forall_mem_map

@[simp] theorem mem_delete {condition : Row → Bool} :
    row ∈ table.delete condition ↔ row ∈ table ∧ condition row = false := by
  simp [mem_def]

section
variable [DecidableEq Key]
variable {table : Table Row} {key : Key} {row : Row} {change : Row → Row} {other : Row}

/-- `SELECT … WHERE key = ?`. -/
def find? (table : Table Row) (key : Key) : Option Row :=
  table.rows.find? fun row => decide (Keyed.key row = key)

def has (table : Table Row) (key : Key) : Bool :=
  (table.find? key).isSome

theorem find?_eq_some : table.find? key = some row ↔ row ∈ table ∧ Keyed.key row = key := by
  constructor
  · intro found
    exact ⟨mem_of_find?_eq_some found, by simpa using find?_some found⟩
  · rintro ⟨mem, rfl⟩
    cases found : table.find? (Keyed.key row) with
    | none =>
      have absent := List.find?_eq_none.mp found row mem
      simp at absent
    | some other =>
      have otherMem : other ∈ table := mem_of_find?_eq_some found
      have sameKey : Keyed.key other = Keyed.key row := by
        simpa using find?_some found
      rw [eq_of_key otherMem mem sameKey]

theorem find?_eq_none : table.find? key = none ↔ ∀ row ∈ table, Keyed.key row ≠ key := by
  simp [find?, mem_def]

theorem find?_key (mem : row ∈ table) : table.find? (Keyed.key row) = some row :=
  find?_eq_some.mpr ⟨mem, rfl⟩

theorem mem_of_find? (found : table.find? key = some row) : row ∈ table :=
  (find?_eq_some.mp found).1

theorem key_of_find? (found : table.find? key = some row) : Keyed.key row = key :=
  (find?_eq_some.mp found).2

theorem has_eq_true : table.has key = true ↔ ∃ row ∈ table, Keyed.key row = key := by
  rw [has, isSome_iff_exists]
  exact exists_congr fun row => find?_eq_some

theorem has_eq_false : table.has key = false ↔ ∀ row ∈ table, Keyed.key row ≠ key := by
  rw [has, isSome_eq_false_iff, isNone_iff_eq_none, find?_eq_none]

theorem find?_update {same : ∀ row, Keyed.key (change row) = Keyed.key row} :
    (table.update change same).find? key = (table.find? key).map change := by
  cases found : table.find? key with
  | none =>
    rw [map_none, find?_eq_none]
    intro row mem
    obtain ⟨old, oldMem, rfl⟩ := (mem_update same).mp mem
    rw [same]
    exact find?_eq_none.mp found old oldMem
  | some row =>
    obtain ⟨mem, keyed⟩ := find?_eq_some.mp found
    rw [map_some, find?_eq_some]
    exact ⟨(mem_update same).mpr ⟨row, mem, rfl⟩, by rw [same, keyed]⟩

theorem has_update (same : ∀ row, Keyed.key (change row) = Keyed.key row) : (table.update change same).has key = table.has key := by
  rw [has, has, find?_update, isSome_map]

/-- `INSERT` of a row whose key is free. -/
def append (table : Table Row) (row : Row) (free : table.has (Keyed.key row) = false) :
    Table Row where
  rows := table.rows ++ [row]
  distinct := by
    rw [List.map_append, List.map_singleton, List.nodup_append]
    refine ⟨table.distinct, List.nodup_singleton _, ?_⟩
    intro key member other same
    obtain ⟨held, heldMember, rfl⟩ := List.mem_map.mp member
    rw [List.mem_singleton] at same
    rw [same]
    exact has_eq_false.mp free held heldMember

@[simp] theorem rows_append (table : Table Row) (row : Row) (free : table.has (Keyed.key row) = false) :
    (table.append row free).rows = table.rows ++ [row] :=
  rfl

@[simp] theorem mem_append (free : table.has (Keyed.key row) = false) :
    other ∈ table.append row free ↔ other ∈ table ∨ other = row := by
  simp [mem_def]

theorem forall_mem_append (free : table.has (Keyed.key row) = false) {holds : Row → Prop} :
    (∀ other ∈ table.append row free, holds other) ↔ (∀ other ∈ table, holds other) ∧ holds row := by
  simp only [mem_append, or_imp, forall_and, forall_eq]

theorem find?_append {free : table.has (Keyed.key row) = false} : (table.append row free).find? key =
      if Keyed.key row = key then some row else table.find? key := by
  by_cases same : Keyed.key row = key
  · rw [if_pos same, find?_eq_some]
    exact ⟨(mem_append free).mpr (.inr rfl), same⟩
  · rw [if_neg same]
    cases found : table.find? key with
    | none =>
      rw [find?_eq_none]
      intro other mem
      rcases (mem_append free).mp mem with old | rfl
      · exact find?_eq_none.mp found other old
      · exact same
    | some =>
      obtain ⟨mem, keyed⟩ := find?_eq_some.mp found
      exact find?_eq_some.mpr ⟨(mem_append free).mpr (.inl mem), keyed⟩

/-- `UPDATE … WHERE key = ?`. -/
def modify (table : Table Row) (key : Key) (change : Row → Row)
    (same : ∀ row, Keyed.key (change row) = Keyed.key row) : Table Row :=
  table.update (fun row => if Keyed.key row = key then change row else row) fun row => by
    split
    · exact same row
    · rfl

theorem mem_modify (same : ∀ row, Keyed.key (change row) = Keyed.key row) : row ∈ table.modify key change same ↔
      (row ∈ table ∧ Keyed.key row ≠ key) ∨ ∃ old ∈ table, Keyed.key old = key ∧ row = change old := by
  rw [modify, mem_update]
  constructor
  · rintro ⟨old, mem, rfl⟩
    by_cases keyed : Keyed.key old = key
    · exact .inr ⟨old, mem, keyed, if_pos keyed⟩
    · rw [if_neg keyed]
      exact .inl ⟨mem, keyed⟩
  · rintro (⟨mem, other⟩ | ⟨old, mem, keyed, rfl⟩)
    · exact ⟨row, mem, if_neg other⟩
    · exact ⟨old, mem, if_pos keyed⟩

theorem find?_modify {other : Key} {same : ∀ row, Keyed.key (change row) = Keyed.key row} :
    (table.modify key change same).find? other =
      if other = key then (table.find? other).map change else table.find? other := by
  rw [modify, find?_update]
  cases found : table.find? other with
  | none => simp
  | some =>
    have keyed := key_of_find? found
    by_cases equal : other = key
    · simp [equal, keyed]
    · simp [equal, keyed]

theorem has_modify {table : Table Row} {key other : Key} {change : Row → Row}
    (same : ∀ row, Keyed.key (change row) = Keyed.key row) :
    (table.modify key change same).has other = table.has other :=
  has_update _

/-- `INSERT … ON CONFLICT (key) DO UPDATE`. -/
def upsert (table : Table Row) (row : Row) (change : Row → Row)
    (same : ∀ old, Keyed.key (change old) = Keyed.key old) : Table Row :=
  match free : table.has (Keyed.key row) with
  | true => table.modify (Keyed.key row) change same
  | false => table.append row free

theorem mem_upsert (same : ∀ old, Keyed.key (change old) = Keyed.key old) :
    other ∈ table.upsert row change same ↔ (other ∈ table ∧ Keyed.key other ≠ Keyed.key row) ∨
        (∃ old ∈ table, Keyed.key old = Keyed.key row ∧ other = change old) ∨
        ((∀ old ∈ table, Keyed.key old ≠ Keyed.key row) ∧ other = row) := by
  unfold upsert
  split
  · next held =>
    obtain ⟨old, oldMem, keyed⟩ := has_eq_true.mp held
    rw [mem_modify same]
    constructor
    · rintro (kept | changed)
      · exact .inl kept
      · exact .inr (.inl changed)
    · rintro (kept | changed | ⟨absent, _⟩)
      · exact .inl kept
      · exact .inr changed
      · exact absurd keyed (absent old oldMem)
  · next free =>
    rw [mem_append free]
    have absent := has_eq_false.mp free
    constructor
    · rintro (mem | rfl)
      · exact .inl ⟨mem, absent other mem⟩
      · exact .inr (.inr ⟨absent, rfl⟩)
    · rintro (⟨mem, _⟩ | ⟨old, oldMem, keyed, _⟩ | ⟨_, rfl⟩)
      · exact .inl mem
      · exact absurd keyed (absent old oldMem)
      · exact .inr rfl

theorem find?_upsert {same : ∀ old, Keyed.key (change old) = Keyed.key old} : (table.upsert row change same).find? key =
      if Keyed.key row = key then some (((table.find? key).map change).getD row)
      else table.find? key := by
  unfold upsert
  split
  · next held =>
    obtain ⟨old, found⟩ := isSome_iff_exists.mp held
    rw [find?_modify]
    by_cases keyed : Keyed.key row = key
    · subst keyed
      simp [found]
    · rw [if_neg keyed, if_neg fun equal => keyed equal.symm]
  · next free =>
    rw [find?_append]
    by_cases keyed : Keyed.key row = key
    · subst keyed
      have absent : table.find? (Keyed.key row) = none := by simpa [has] using free
      simp [absent]
    · rw [if_neg keyed, if_neg keyed]

end

end

end Table

end Hopper.Kernel
