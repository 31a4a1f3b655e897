import Mathlib.Data.List.Basic

/-! Admission by rank: of rows in an order, those whose rank is within a number
of slots. No more are admitted than there are slots, and none is refused while
a slot is left. -/

namespace Hopper.Kernel

open List

section
variable {Row : Type} {pre : Row → Row → Bool} {rows : List Row} {slots : Nat}

/-- How many rows stand before a row, itself among them. -/
def rank (before : Row → Row → Bool) (rows : List Row) (row : Row) : Nat :=
  rows.countP fun other => before other row

theorem length_le_of_rank_le {admitted : List Row} (sublist : admitted.Sublist rows)
    (sorted : rows.Pairwise fun left right => pre left right = true)
    (reflexive : ∀ row, pre row row = true)
    (within : ∀ row ∈ admitted, rank pre rows row ≤ slots) : admitted.length ≤ slots := by
  cases shape : admitted.reverse with
  | nil => simp [reverse_eq_nil_iff.mp shape]
  | cons last front =>
    have split : admitted = front.reverse ++ [last] := by
      rw [← reverse_reverse admitted, shape, reverse_cons]
    -- Every admitted row stands before the last of them.
    have all : admitted.countP (fun other => pre other last) = admitted.length := by
      have pairs := sorted.sublist sublist
      rw [split, pairwise_append] at pairs
      rw [countP_eq_length, split]
      intro other mem
      rcases List.mem_append.mp mem with earlier | same
      · exact pairs.2.2 other earlier last (mem_singleton_self last)
      · rw [mem_singleton.mp same]
        exact reflexive last
    have mem : last ∈ admitted := split ▸ mem_append_right _ (mem_singleton_self last)
    calc admitted.length = admitted.countP (fun other => pre other last) := all.symm
      _ ≤ rank pre rows last := sublist.countP_le
      _ ≤ slots := within last mem

theorem le_length_of_refused (nodup : rows.Nodup) (sorted : rows.Pairwise fun left right => pre left right = true)
    (antisymmetric : ∀ left ∈ rows, ∀ right ∈ rows, pre left right = true → pre right left = true → left = right)
    {row : Row} (mem : row ∈ rows) (refused : slots < rank pre rows row) :
    slots ≤ (rows.filter fun row => decide (rank pre rows row ≤ slots)).length := by
  obtain ⟨front, first, back, split, admitted, exceeds⟩ : ∃ front first back, rows = front ++ first :: back ∧
        (∀ row ∈ front, rank pre rows row ≤ slots) ∧ slots < rank pre rows first := by
    have found := find?_isSome (p := fun row => decide (slots < rank pre rows row)).mpr
      ⟨row, mem, decide_eq_true refused⟩
    obtain ⟨first, found⟩ := Option.isSome_iff_exists.mp found
    obtain ⟨exceeds, front, back, split, earlier⟩ := find?_eq_some_iff_append.mp found
    refine ⟨front, first, back, split, fun row mem => ?_, of_decide_eq_true exceeds⟩
    simpa using earlier row mem
  have few : rank pre rows first ≤ front.length + 1 := by
    have none : back.countP (fun other => pre other first) = 0 := by
      rw [countP_eq_zero]
      intro other otherMem stands
      rw [split, pairwise_append, pairwise_cons] at sorted
      rw [split, nodup_append, nodup_cons] at nodup
      have same := antisymmetric other (by simp [split, otherMem]) first (by simp [split]) stands
        (sorted.2.1.1 other otherMem)
      exact nodup.2.1.1 (same ▸ otherMem)
    have front_le := countP_le_length (p := fun other => pre other first) (l := front)
    have eq := congrArg (rank pre · first) split
    rw [eq, rank, countP_append, countP_cons, none]
    split <;> omega
  have kept : front.length ≤ (rows.filter fun row => decide (rank pre rows row ≤ slots)).length := by
    have all := filter_eq_self.mpr fun row mem => decide_eq_true (admitted row mem)
    have sub := List.Sublist.filter (fun row => decide (rank pre rows row ≤ slots))
      (sublist_append_left front (first :: back))
    rw [all, ← split] at sub
    exact sub.length_le
  omega

theorem mem_take_of_before {row earlier : Row} (sorted : rows.Pairwise fun left right => pre left right = true)
    (antisymmetric : ∀ left ∈ rows, ∀ right ∈ rows, pre left right = true → pre right left = true → left = right)
    (picked : row ∈ rows.take slots) (mem : earlier ∈ rows) (stands : pre earlier row = true) : earlier ∈ rows.take slots := by
  have split := mem
  rw [← take_append_drop slots rows] at sorted split
  refine (List.mem_append.mp split).elim id fun left => ?_
  have later := (pairwise_append.mp sorted).2.2 row picked earlier left
  exact antisymmetric earlier mem row (mem_of_mem_take picked) stands later ▸ picked

end

end Hopper.Kernel
