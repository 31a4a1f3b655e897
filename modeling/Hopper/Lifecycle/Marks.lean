import Hopper.Lifecycle.Runs

/-! The marks that wakes of ordering keys leave on running jobs. Only a wake
makes one, and no job that waits has one. -/

namespace Hopper.Lifecycle

open Kernel Driver Sqlite

structure Unmarked (row : LiveJob) : Prop where
  idle : row.state ≠ .running
  mark : row.wakeRequestedAt = none

/-- The rows are of one job, in one claim if it runs, with the same mark. -/
structure SameMark (old new : LiveJob) : Prop where
  id : new.id = old.id
  running : new.state = .running ↔ old.state = .running
  mark : new.wakeRequestedAt = old.wakeRequestedAt
  claim : new.state = .running → new.fence = old.fence ∧ new.attemptedAt = old.attemptedAt ∧
    new.snoozeReason = old.snoozeReason

theorem SameMark.refl (row : LiveJob) : SameMark row row :=
  ⟨rfl, Iff.rfl, rfl, fun _ => ⟨rfl, rfl, rfl⟩⟩

theorem SameMark.trans {first second third : LiveJob} (one : SameMark first second)
    (other : SameMark second third) : SameMark first third where
  id := other.id.trans one.id
  running := other.running.trans one.running
  mark := other.mark.trans one.mark
  claim := by
    intro running
    obtain ⟨fence, attempted, reason⟩ := other.claim running
    obtain ⟨oldFence, oldAttempted, oldReason⟩ := one.claim (other.running.mp running)
    exact ⟨fence.trans oldFence, attempted.trans oldAttempted, reason.trans oldReason⟩

theorem SameMark.unmarked {old new : LiveJob} (same : SameMark old new) (unmarked : Unmarked old) : Unmarked new :=
  ⟨fun running => unmarked.idle (same.running.mp running), same.mark.trans unmarked.mark⟩

/-- Every job waits without a mark, or was there with the mark it has. -/
def KeepsMarks (before after : Roster) : Prop :=
  ∀ new ∈ after.jobs, Unmarked new ∨ ∃ old ∈ before.jobs, SameMark old new

/-- No claim starts a job, and no wake marks one. -/
def Rules.quiet : Rules :=
  .limiting (fun _ => False) False fun _ => True

variable {pre post : Roster} {engine : Engine} {store : Store} {operation : Operation} {now : Int}

theorem Touched.marks {old new : LiveJob} (touched : Touched .quiet old new) : Unmarked new ∨ SameMark old new := by
  rcases touched.mark with same | unmarked | wakes
  · exact .inr ⟨touched.id, touched.running, same, fun running => ⟨touched.fence, touched.claim running⟩⟩
  · exact .inl ⟨unmarked.1, unmarked.2⟩
  · exact wakes.elim

theorem Change.marks (change : Change .quiet pre post) : KeepsMarks pre post := by
  intro new mem
  rcases change.origin mem with ⟨old, held, goes⟩ | arrives
  · cases goes with
    | touched touched => exact touched.marks.imp_right fun same => ⟨old, held, same⟩
    | started starts => exact starts.allowed.elim
    | resumed _ resumed => exact .inl ⟨JobState.waiting_ne_running resumed.waits, resumed.mark⟩
  · exact .inl ⟨arrives.unmarked.1, arrives.unmarked.2⟩

theorem Changes.marks (changes : Changes .quiet pre post) : KeepsMarks pre post := by
  induction changes with
  | refl => exact fun row mem => .inr ⟨row, mem, .refl row⟩
  | tail _ change ih =>
    intro new mem
    rcases change.marks new mem with unmarked | ⟨middle, held, same⟩
    · exact .inl unmarked
    · rcases ih middle held with unmarked | ⟨old, there, earlier⟩
      · exact .inl (same.unmarked unmarked)
      · exact .inr ⟨old, there, earlier.trans same⟩

theorem apply_marks (sound : Sound engine store) (positive : operation.PositiveClient) (idle : ¬Claiming operation)
    (silent : ¬Waking operation) : KeepsMarks (roster store) (roster (operation.apply engine now store)) :=
  ((apply_performs (obeys_limiting positive idle silent fun _ _ _ _ _ _ => trivial) sound).moves sound).1.marks

end Hopper.Lifecycle
