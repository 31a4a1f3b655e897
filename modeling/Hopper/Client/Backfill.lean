import Hopper.Client.PeriodicSteps

/-! The search for missed slots as it calls a schedule, whose zero time says that
there is no slot. -/

namespace Hopper.Client

open Kernel

structure Schedule where
  next : Int → Int

namespace Schedule

def interval (interval : Int) : Schedule where
  next := intervalNext interval

def slot (s : Schedule) (time : Int) : Option Int :=
  if s.next time = zeroTime then none else some (s.next time)

def recentSlots (s : Schedule) (last now : Int) (n rounds : Nat) : Option (List Int) :=
  Client.recentSlots s.slot last now n rounds

/-- Each call finds the least of the slots after a time, or none. -/
def Finds (s : Schedule) (Slot : Int → Prop) : Prop :=
  ∀ time, (Slot (s.next time) ∧ time < s.next time ∧ ∀ other, Slot other → time < other → s.next time ≤ other) ∨
    s.next time = zeroTime ∧ ∀ other, Slot other → other ≤ time

/-! The slots between two times as ticks. -/

section
variable (s : Schedule) (last now : Int)

/-- What is found of the slots after one time and not after another. -/
def ticks : Ticks where
  next time :=
    let slot := s.next (max time last)
    if slot = zeroTime ∨ now < slot ∨ slot ≤ time then none else some slot
  later time tick found := by
    dsimp only at found
    split at found
    · cases found
    · cases found
      omega

variable {s last now} {Slot : Int → Prop} {time : Int}

theorem collectSlots_ticks (finds : s.Finds Slot) (n fuel : Nat) (post : last ≤ time) (slots : List Int) :
    collectSlots s.slot now n fuel (s.slot time) slots =
      collectSlots (s.ticks last now).next now n fuel ((s.ticks last now).next time) slots := by
  induction fuel generalizing time slots with
  | zero => rfl
  | succ fuel ih =>
    have here : max time last = time := by omega
    simp only [slot, ticks, here]
    rcases finds time with ⟨_, later, _⟩ | ⟨zero, _⟩
    · by_cases zero : s.next time = zeroTime
      · rw [if_pos zero, if_pos (.inl zero)]
        rfl
      · rw [if_neg zero]
        by_cases far : now < s.next time
        · rw [if_pos (.inr (.inl far))]
          exact if_pos far
        · rw [if_neg (by omega), collectSlots, collectSlots, if_neg far, if_neg far]
          exact ih (by omega) _
    · rw [if_pos zero, if_pos (.inl zero)]
      rfl

theorem ticks_enumerates (finds : s.Finds Slot) (proper : ¬(Slot zeroTime ∧ last < zeroTime ∧ zeroTime ≤ now)) :
    (s.ticks last now).Enumerates fun slot => Slot slot ∧ last < slot ∧ slot ≤ now := by
  refine ⟨fun time tick found => ?_, fun time none other isSlot => ?_⟩
  · simp only [ticks] at found
    split at found
    · cases found
    · next kept =>
      cases found
      rcases finds (max time last) with ⟨isSlot, later, least⟩ | ⟨zero, _⟩
      · exact ⟨⟨isSlot, by omega, by omega⟩, fun other isOther post => least other isOther.1 (by omega)⟩
      · exact absurd (.inl zero) kept
  · by_contra post
    simp only [ticks, ite_eq_left_iff, reduceCtorEq, imp_false, not_not] at none
    rcases finds (max time last) with ⟨isNext, later, least⟩ | ⟨_, past⟩
    · have first := least other isSlot.1 (by omega)
      rcases none with zero | far
      · exact proper ⟨zero ▸ isNext, by omega, by omega⟩
      · omega
    · have := past other isSlot.1
      omega

end

end Schedule

end Hopper.Client
