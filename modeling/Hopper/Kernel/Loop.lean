import Mathlib.Logic.Basic

/-! A loop as a step function, run for a number of steps. -/

namespace Hopper.Kernel

inductive Outcome (State Result : Type) where
  | next (state : State)
  | done (result : Result)
  deriving DecidableEq

namespace Outcome

variable {State Result : Type} {step : State → Outcome State Result}
variable {state : State} {invariant : State → Prop}

/-- The loop's result, if it returns within so many steps. -/
def runFor (step : State → Outcome State Result) : Nat → State → Option Result
  | 0, _ => none
  | fuel + 1, state =>
    match step state with
    | next later => runFor step fuel later
    | done result => some result

theorem runFor_next {later : State} (stepped : step state = next later) (fuel : Nat) :
    runFor step (fuel + 1) state = runFor step fuel later := by
  rw [runFor, stepped]

section
variable (keeps : ∀ state later, invariant state → step state = next later → invariant later)
include keeps

theorem runFor_invariant {post : Result → Prop}
    (ends : ∀ state result, invariant state → step state = done result → post result) {fuel : Nat}
    (holds : invariant state) {result : Result} (returned : runFor step fuel state = some result) : post result := by
  induction fuel generalizing state with
  | zero => cases returned
  | succ fuel ih =>
    cases stepped : step state with
    | next later =>
      rw [runFor_next stepped] at returned
      exact ih (keeps state later holds stepped) returned
    | done =>
      rw [runFor, stepped] at returned
      cases returned
      exact ends state result holds stepped

theorem runFor_returns {measure : State → Nat}
    (falls : ∀ state later, invariant state → step state = next later → measure later < measure state)
    (holds : invariant state) : ∃ fuel result, runFor step fuel state = some result := by
  generalize bound : measure state = size
  induction size using Nat.strongRecOn generalizing state with
  | _ size ih =>
    cases stepped : step state with
    | next later =>
      have less := falls state later holds stepped
      obtain ⟨fuel, result, returned⟩ := ih _ (bound ▸ less) (keeps state later holds stepped) rfl
      exact ⟨fuel + 1, result, (runFor_next stepped fuel).trans returned⟩
    | done result => exact ⟨1, result, by rw [runFor, stepped]⟩

end

theorem runFor_stuck (stuck : step state = next state) (fuel : Nat) : runFor step fuel state = none := by
  induction fuel with
  | zero => rfl
  | succ fuel ih => rw [runFor_next stuck, ih]

theorem runFor_never (later : State) (stepped : step state = next later)
    (never : ∀ fuel, runFor step fuel later = none) (fuel : Nat) : runFor step fuel state = none := by
  cases fuel with
  | zero => rfl
  | succ => rw [runFor_next stepped, never]

end Outcome

end Hopper.Kernel
