import Hopper.Driver.Job
import Mathlib.Logic.Relation

/-! A client process and its lease: producers claim jobs and start them while
the lease loop or the rescuer fences the client's ID. Each step is one access
to what they share, or one statement of the database. -/

namespace Hopper.Client

open Driver

/-- What a job runs under: the work context, or a lease generation's context
below it. -/
inductive Context where
  | work
  | generation (number : Nat)
  deriving DecidableEq

/-- A job a claim returned, with the client ID of the claim. -/
structure ClaimedJob where
  clientID : Int
  row : JobRow

def ClaimedJob.attemptsLeft (job : ClaimedJob) : Bool :=
  decide (job.row.attempt < job.row.maxAttempts)

/-- How far the call of `fence` that holds `genMu` has come. -/
inductive Fencing where
  | entered (id : Int)
  | canceled (id : Int)
  | registered (id newID : Int)
  | stored (id newID : Int)
  deriving DecidableEq

structure Process where
  clientID : Int
  /-- The last ID of `hopper_clients`, which numbers its rows upward. -/
  issued : Int
  genCtx : Nat := 0
  /-- The generations whose contexts are canceled. -/
  canceled : List Nat := []
  stopped : Bool := false
  fencing : Option Fencing := none
  /-- The calls of `JobClaim` in flight, each by the client ID it has read. -/
  claims : List Int := []
  /-- Jobs returned whose goroutines have yet to read their context. -/
  returned : List ClaimedJob := []
  running : List (ClaimedJob × Context) := []

namespace Process

def start (id : Int) : Process :=
  { clientID := id, issued := id }

def isCanceled (process : Process) : Context → Bool
  | .work => process.stopped
  | .generation number => process.stopped || decide (number ∈ process.canceled)

def jobContext (process : Process) (row : JobRow) : Context :=
  if row.attempt ≥ row.maxAttempts then .work else .generation process.genCtx

inductive Event where
  /-- A producer reads the client ID and calls `JobClaim`. -/
  | claim
  /-- A call of `JobClaim` returns the jobs it claimed, or none on an error. -/
  | returns (call : Nat) (rows : List JobRow)
  /-- A job's goroutine reads its context and runs. -/
  | start (job : Nat)
  | finish (job : Nat)
  /-- The lease loop or the rescuer calls `fence`, which takes `genMu`. -/
  | fence (id : Int)
  | genCancel
  | register
  | registerFails
  | storeID
  | newGeneration
  /-- Another client registers. -/
  | issue
  | stop

/-- The process after an event, if the event can happen. -/
def step (process : Process) : Event → Option Process
  | .claim => some { process with claims := process.claims ++ [process.clientID] }
  | .returns call rows =>
    (process.claims[call]?).map fun id => { process with
      claims := process.claims.eraseIdx call
      returned := process.returned ++ rows.map fun row => ⟨id, row⟩ }
  | .start job =>
    match process.returned[job]? with
    | none => none
    | some claimed =>
      -- `generation` waits for `genMu`; a job on its last attempt does not call it.
      if claimed.attemptsLeft && process.fencing.isSome then none
      else some { process with
        returned := process.returned.eraseIdx job
        running := process.running ++ [(claimed, process.jobContext claimed.row)] }
  | .finish job => some { process with running := process.running.eraseIdx job }
  | .fence id =>
    if process.fencing.isSome then none
    else if process.clientID ≠ id then some process
    else some { process with fencing := some (.entered id) }
  | .genCancel =>
    match process.fencing with
    | some (.entered id) => some { process with
        canceled := process.genCtx :: process.canceled, fencing := some (.canceled id) }
    | _ => none
  | .register =>
    match process.fencing with
    | some (.canceled id) => some { process with
        issued := process.issued + 1, fencing := some (.registered id (process.issued + 1)) }
    | _ => none
  | .registerFails =>
    match process.fencing with
    | some (.canceled _) => some { process with fencing := none }
    | _ => none
  | .storeID =>
    match process.fencing with
    | some (.registered id newID) => some { process with
        clientID := newID, fencing := some (.stored id newID) }
    | _ => none
  | .newGeneration =>
    match process.fencing with
    | some (.stored _ _) => some { process with genCtx := process.genCtx + 1, fencing := none }
    | _ => none
  | .issue => some { process with issued := process.issued + 1 }
  | .stop => some { process with stopped := true }

/-- Events that may happen lead from one process to the other. -/
abbrev Steps (Allowed : Process → Event → Prop) : Process → Process → Prop :=
  Relation.ReflTransGen fun before after => ∃ event, Allowed before event ∧ before.step event = some after

/-- The process after the events, if they can happen in this order. -/
def after (process : Process) : List Event → Option Process
  | [] => some process
  | event :: events => (process.step event).bind fun next => next.after events

theorem after_steps {Allowed : Process → Event → Prop} {events : List Event} {first last : Process}
    (allowed : ∀ event ∈ events, ∀ process, Allowed process event) (reached : first.after events = some last) :
    Steps Allowed first last := by
  induction events generalizing first with
  | nil =>
    cases reached
    exact .refl
  | cons event events ih =>
    obtain ⟨next, stepped, rest⟩ := Option.bind_eq_some_iff.mp reached
    exact .head ⟨event, allowed event List.mem_cons_self first, stepped⟩
      (ih (fun later mem => allowed later (List.mem_cons_of_mem _ mem)) rest)

end Process

end Hopper.Client
