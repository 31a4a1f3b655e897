import Hopper.Driver.Job

/-! How a client ends an attempt: the result of a worker's return, of a claim
in flight as the client stops, of a leased attempt, and of a rescue. -/

namespace Hopper.Client

open Driver

/-- Why a context was canceled; a fence cancels the lease generation with no
cause of its own. -/
inductive Cause where
  | jobCanceled | jobFenced | clientStopped | jobTimeout | plain
deriving DecidableEq

/-- A worker's error, by what the client looks for in it. -/
structure WorkError where
  text : String
  /-- The duration and reason of a `SnoozeError`. -/
  snooze : Option (Int × String) := none
  stack : String := ""
  cancel : Bool := false
  tooLarge : Bool := false

/-- What `Config.OnError` decides; `retryAt` is the time until its `RetryAt`,
if that is set. -/
structure ErrorOutcome where
  retryAt : Option Int := none
  snooze : Int := 0
  discard : Bool := false

/-- What the client knows of an attempt once its worker has returned. -/
structure Attempt where
  err : Option WorkError
  /-- The cause the job's context was canceled with. -/
  jobCause : Option Cause := none
  /-- That cause once `Config.OnError` has returned. -/
  causeAfterHook : Option Cause := none
  /-- The cause the lease generation was canceled with. -/
  generation : Option Cause := none
  /-- The attempt cannot have succeeded after all. -/
  known : Bool := true
  /-- The client's stop canceled the attempt before the worker returned. -/
  stopped : Bool := false
  onError : ErrorOutcome := {}
  retryDelay : Int := 0
  deleteCompleted : Bool := false

def completedResult (row : JobRow) (deleteCompleted : Bool) : JobFinalize :=
  { id := row.id, attemptedBy := row.attemptedBy.getD 0, fence := row.fence, state := .completed,
    archive := !deleteCompleted }

/-- The result of an attempt snoozed for a duration, which gives the attempt
back. -/
def snoozed (row : JobRow) (duration : Int) (reason : String) : JobFinalize :=
  { id := row.id, attemptedBy := row.attemptedBy.getD 0, fence := row.fence, state := .scheduled,
    delay := duration, snooze := true, snoozeReason := reason }

def failedResult (row : JobRow) (err : WorkError) (state : JobState) : JobFinalize :=
  { id := row.id, attemptedBy := row.attemptedBy.getD 0, fence := row.fence, state := state, archive := true,
    error := some { attempt := row.attempt, fence := row.fence, error := err.text, trace := err.stack } }

/-- A later claim of the job on this client replaced the attempt. -/
def Attempt.replaced (attempt : Attempt) : Bool :=
  decide (attempt.jobCause = some .jobFenced)

def Attempt.fenced (attempt : Attempt) : Bool :=
  attempt.generation.isSome && decide (attempt.generation ≠ some .clientStopped)

/-- What the hook decides of a failed attempt, if it decides anything. -/
def hookOutcome (row : JobRow) (attempt : Attempt) (err : WorkError) : Option JobFinalize :=
  if attempt.causeAfterHook = some .jobCanceled then
    some (failedResult row err (if err.cancel then .discarded else .canceled))
  else if attempt.onError.discard then
    some (failedResult row err .discarded)
  else if attempt.onError.snooze > 0 then
    some (snoozed row attempt.onError.snooze err.text)
  else
    match attempt.onError.retryAt with
    | some delay =>
      if row.attempt < row.maxAttempts then
        some { failedResult row err .retryable with delay := max delay 0 }
      else
        none
    | none => none

/-- The outcome of an attempt that failed and did not snooze. -/
def failureOutcome (row : JobRow) (attempt : Attempt) (err : WorkError) : JobFinalize :=
  if attempt.replaced then
    failedResult row err .retryable
  else
    let canceled := decide (attempt.jobCause = some .jobCanceled)
    let giveBack := attempt.stopped && !err.cancel && !err.tooLarge
    if !err.cancel && canceled then
      failedResult row err .canceled
    else if !err.cancel && !err.tooLarge && attempt.fenced && decide (row.attempt < row.maxAttempts) then
      failedResult row err .retryable
    else
      match
        if attempt.known && !canceled && !giveBack && !attempt.fenced then hookOutcome row attempt err
        else none
      with
      | some decided => decided
      | none =>
        if giveBack then
          { failedResult row err .retryable with giveBack := true }
        else if err.cancel || err.tooLarge || decide (row.attempt ≥ row.maxAttempts) then
          failedResult row err .discarded
        else
          { failedResult row err .retryable with delay := attempt.retryDelay }

def outcome (row : JobRow) (attempt : Attempt) : JobFinalize :=
  match attempt.err with
  | none => completedResult row attempt.deleteCompleted
  | some err =>
    match err.snooze with
    | some (duration, reason) => snoozed row duration reason
    | none => failureOutcome row attempt err

/-- The result with the output and the log the attempt leaves. -/
def withOutput (result : JobFinalize) (output : String) (log : Option AttemptLog) : JobFinalize :=
  { result with
    output := if result.state.terminal then output else result.output
    log := if result.keepsLog then log else result.log }

/-- The result of a job claimed as the client's stop canceled its jobs: it
never runs and gets its attempt back. -/
def interruptedResult (row : JobRow) : JobFinalize :=
  { id := row.id, attemptedBy := row.attemptedBy.getD 0, fence := row.fence, state := .scheduled,
    giveBack := true }

/-- The result of a leased attempt, fenced by its lease. -/
def leasedResult (result : JobFinalize) (lease : LeaseFence) : JobFinalize :=
  { result with attemptedBy := 0, lease := some lease }

/-- The result of a job whose client is lost, or that ran too long: it is
retried, or discarded when it is out of attempts. -/
def rescueResult (candidate : RescueCandidate) : JobFinalize :=
  let row := candidate.job
  { id := row.id, attemptedBy := row.attemptedBy.getD 0, fence := row.fence,
    state := if row.attempt ≥ row.maxAttempts then .discarded else .retryable
    error := some {
      attempt := row.attempt, fence := row.fence
      error := if candidate.stuck then "hopper: job ran longer than RescueStuckAfter" else "hopper: client lost"
      rescue := some (if candidate.stuck then .stuck else .clientLost) }
    archive := true }

section
variable {row : JobRow} {attempt : Attempt}
variable {err : WorkError} {result : JobFinalize}

/-- A result of the claim a row was read in, that no lease fences. -/
structure OfClaim (row : JobRow) (result : JobFinalize) : Prop where
  id : result.id = row.id
  fence : result.fence = row.fence
  lease : result.lease = none

theorem hookOutcome_ofClaim (decided : hookOutcome row attempt err = some result) : OfClaim row result := by
  unfold hookOutcome at decided
  split at decided
  · cases decided
    exact ⟨rfl, rfl, rfl⟩
  · split at decided
    · cases decided
      exact ⟨rfl, rfl, rfl⟩
    · split at decided
      · cases decided
        exact ⟨rfl, rfl, rfl⟩
      · split at decided
        · split at decided
          · cases decided
            exact ⟨rfl, rfl, rfl⟩
          · cases decided
        · cases decided

theorem failureOutcome_ofClaim : OfClaim row (failureOutcome row attempt err) := by
  unfold failureOutcome
  split
  · exact ⟨rfl, rfl, rfl⟩
  · dsimp only
    split
    · exact ⟨rfl, rfl, rfl⟩
    · split
      · exact ⟨rfl, rfl, rfl⟩
      · split
        · next decided hooked =>
          split at hooked
          · exact hookOutcome_ofClaim hooked
          · cases hooked
        · split
          · exact ⟨rfl, rfl, rfl⟩
          · split <;> exact ⟨rfl, rfl, rfl⟩

theorem outcome_ofClaim : OfClaim row (outcome row attempt) := by
  unfold outcome
  split
  · exact ⟨rfl, rfl, rfl⟩
  · split
    · exact ⟨rfl, rfl, rfl⟩
    · exact failureOutcome_ofClaim

/-- A result that leaves its job waiting gives the attempt back, or the job
has attempts left. -/
def Affords (row : JobRow) (result : JobFinalize) : Prop :=
  result.state.waiting = true → result.snooze = true ∨ result.giveBack = true ∨ row.attempt < row.maxAttempts

theorem affords_terminal (terminal : result.state.terminal = true) : Affords row result := by
  intro waits
  rw [JobState.waiting_not_terminal waits] at terminal
  cases terminal

theorem affords_left (left : row.attempt < row.maxAttempts) : Affords row result :=
  fun _ => .inr (.inr left)

theorem hookOutcome_affords (decided : hookOutcome row attempt err = some result) : Affords row result := by
  unfold hookOutcome at decided
  split at decided
  · cases decided
    refine affords_terminal ?_
    dsimp only [failedResult]
    split <;> rfl
  · split at decided
    · cases decided
      exact affords_terminal rfl
    · split at decided
      · cases decided
        exact fun _ => .inl rfl
      · split at decided
        · split at decided
          · next left =>
            cases decided
            exact affords_left left
          · cases decided
        · cases decided

theorem failureOutcome_affords (current : attempt.replaced = false) : Affords row (failureOutcome row attempt err) := by
  unfold failureOutcome
  rw [if_neg (by simp [current])]
  dsimp only
  split
  · exact affords_terminal rfl
  · split
    · next fenced =>
      simp only [Bool.and_eq_true, decide_eq_true_eq] at fenced
      exact affords_left fenced.2
    · split
      · next decided hooked =>
        split at hooked
        · exact hookOutcome_affords hooked
        · cases hooked
      · split
        · exact fun _ => .inr (.inl rfl)
        · split
          · exact affords_terminal rfl
          · next left =>
            simp only [Bool.or_eq_true, decide_eq_true_eq, not_or, ge_iff_le, not_le] at left
            exact affords_left left.2

theorem outcome_affords (current : attempt.replaced = false) : Affords row (outcome row attempt) := by
  unfold outcome
  split
  · exact affords_terminal rfl
  · split
    · exact fun _ => .inl rfl
    · exact failureOutcome_affords current

theorem rescueResult_affords (candidate : RescueCandidate) : Affords candidate.job (rescueResult candidate) := by
  by_cases left : candidate.job.attempt < candidate.job.maxAttempts
  · exact affords_left left
  · refine affords_terminal ?_
    dsimp only [rescueResult]
    rw [if_pos (by omega)]
    rfl

end

end Hopper.Client
