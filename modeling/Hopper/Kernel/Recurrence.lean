import Mathlib.Tactic.Common

/-! Things that come about in infinite runs, said of the number of a step. -/

namespace Hopper.Kernel

theorem kept_until {Kept Happens : Nat → Prop} (recurs : ∀ n, ∃ m, n ≤ m ∧ Happens m)
    (keeps : ∀ n, Kept n → ¬Happens n → Kept (n + 1)) {n : Nat} (start : Kept n) :
    ∃ m, n ≤ m ∧ Kept m ∧ Happens m := by
  obtain ⟨m, later, happens⟩ := recurs n
  obtain ⟨steps, rfl⟩ := Nat.exists_eq_add_of_le later
  clear later
  induction steps generalizing n with
  | zero => exact ⟨n, Nat.le_refl n, start, happens⟩
  | succ steps ih =>
    by_cases now : Happens n
    · exact ⟨n, Nat.le_refl n, start, now⟩
    · obtain ⟨m, later, rest⟩ := ih (keeps n start now) (by rwa [Nat.add_right_comm, Nat.add_assoc])
      exact ⟨m, Nat.le_trans (Nat.le_succ n) later, rest⟩

theorem kept_from {Kept : Nat → Prop} (keeps : ∀ n, Kept n → Kept (n + 1)) {n m : Nat} (start : Kept n)
    (later : n ≤ m) : Kept m := by
  induction later with
  | refl => exact start
  | step _ ih => exact keeps _ ih

end Hopper.Kernel
