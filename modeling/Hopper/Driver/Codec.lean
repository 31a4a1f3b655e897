import Hopper.Driver.Job

/-! What every engine checks and encodes alike: the results a finalize
writes, the edges of a workflow, tags and logs. -/

namespace Hopper.Driver

/-- What an error wraps; callers tell failures apart by it. -/
inductive Cause where
  | notFound | jobRunning | uniqueConflict | jobFenced | jobNotClaimable
  | refused | invalidFilter
  | constraint (index : String)
deriving DecidableEq

structure Failure where
  cause : Cause
  text : String
deriving DecidableEq

namespace Failure

def notFound : Failure := ⟨.notFound, "hopper: not found"⟩

def jobRunning : Failure := ⟨.jobRunning, "hopper: job is running"⟩

def uniqueConflict : Failure :=
  ⟨.uniqueConflict, "hopper: a live job with the same unique key exists"⟩

def jobFenced : Failure :=
  ⟨.jobFenced, "hopper: job is no longer running in this attempt"⟩

def jobFencedBy (detail : String) : Failure :=
  ⟨.jobFenced, jobFenced.text ++ ": " ++ detail⟩

def jobNotClaimable (detail : String) : Failure :=
  ⟨.jobNotClaimable, "hopper: job is not claimable: " ++ detail⟩

def refused (text : String) : Failure := ⟨.refused, text⟩

def invalidFilter (detail : String) : Failure :=
  ⟨.invalidFilter, "hopper: invalid job filter: " ++ detail⟩

/-- A statement that would break an index, by the columns of the index. -/
def constraint (index : String) : Failure :=
  ⟨.constraint index, "UNIQUE constraint failed: " ++ index⟩

def inOperation (operation : String) (failure : Failure) : Failure :=
  { failure with text := operation ++ failure.text }

/-- The sentinel errors an operation returns as they are; it describes any
other failure by its own name. -/
def inOperationUnless (plain : List Cause) (operation : String) (failure : Failure) : Failure :=
  if failure.cause ∈ plain then failure else failure.inOperation operation

@[simp] theorem inOperationUnless_cause (plain : List Cause) (operation : String)
    (failure : Failure) : (failure.inOperationUnless plain operation).cause = failure.cause := by
  unfold inOperationUnless
  split <;> rfl

end Failure

/-- NUL, which a database may refuse in text, replaced. -/
def storableText (text : String) : String :=
  String.ofList (text.toList.map fun char => if char = '\x00' then '�' else char)

/-- A character of a JSON string as Go's encoder writes it. -/
def jsonChar (char : Char) : List Char :=
  if char = '"' ∨ char = '\\' then ['\\', char]
  else if char = '\n' then ['\\', 'n']
  else if char = '\r' then ['\\', 'r']
  else if char = '\t' then ['\\', 't']
  else if char.toNat = 8 then ['\\', 'b']
  else if char.toNat = 12 then ['\\', 'f']
  else if char.toNat < 32 ∨ char = '<' ∨ char = '>' ∨ char = '&' ∨
      char.toNat = 0x2028 ∨ char.toNat = 0x2029 then
    '\\' :: 'u' :: [JobID.hexDigit (char.toNat / 4096), JobID.hexDigit (char.toNat / 256),
      JobID.hexDigit (char.toNat / 16), JobID.hexDigit char.toNat]
  else [char]

def jsonString (text : String) : String :=
  String.ofList ('"' :: text.toList.flatMap jsonChar ++ ['"'])

def objectText (members : List (String × String)) : String :=
  "\x7b" ++ String.intercalate "," (members.map fun member => jsonString member.1 ++ ":" ++ member.2) ++
    "\x7d"

/-- The object of a map's members, in the order of their names. -/
def marshalMap (members : List (String × String)) : List (String × String) :=
  members.foldl (fun out member => Document.setMember out member.1 member.2) []

def headersText (headers : Option (List (String × String))) : String :=
  objectText (marshalMap ((headers.getD []).map fun header => (header.1, jsonString header.2)))

/-- The members of two objects, the second's over the first's. -/
def mergeObjects (base extra : Document) : Document :=
  .object (extra.members.foldl (fun out member => Document.setMember out member.1 member.2) base.members)

/-- An error record as stored: its text storable, its time the engine's. -/
def AttemptError.storedAt (error : AttemptError) (now : Int) : AttemptError :=
  { error with recordedAt := now, error := storableText error.error, trace := storableText error.trace }

def checkFinalize (result : JobFinalize) : Except Failure Unit :=
  match result.state with
  | .pending | .available | .running =>
    .error (.refused ("hopper: finalize jobs: " ++ result.state.name ++ " is not a finalize state"))
  | .completed | .canceled | .discarded | .retryable | .scheduled =>
    if result.giveBack && result.snooze then
      .error (.refused "hopper: finalize jobs: a result both snoozes and gives its attempt back")
    else if result.giveBack && result.state.terminal then
      .error (.refused ("hopper: finalize jobs: a " ++ result.state.name ++
        " result gives its attempt back"))
    else
      .ok ()

/-- The log a finalize appends for a result, if there is one to keep. -/
def marshalAttemptLog (result : JobFinalize) : Option AttemptLog :=
  match result.log with
  | none => none
  | some log =>
    if result.keepsLog then
      some { attempt := log.attempt, snoozed := result.snooze, interrupted := result.giveBack,
             log := storableText log.log }
    else
      none

def distinctTags (tags : List String) : List String :=
  tags.foldl (fun out tag => if tag ∈ out then out else out ++ [tag]) []

def decodeTags (stored : List String) : List String :=
  distinctTags (stored.filter fun tag => tag ≠ "")

/-- What an edge stores as its `on_failure`. -/
inductive EdgePolicy where
  | cancel | ignore | anyCancel | anyIgnore
deriving DecidableEq

def edgePolicy (edge : JobDependency) : EdgePolicy :=
  match edge.onFailure.getD .cancel, decide (edge.anyOf ≠ 0) with
  | .cancel, true => .anyCancel
  | .ignore, true => .anyIgnore
  | .cancel, false => .cancel
  | .ignore, false => .ignore

def edgeText (edge : JobDependency) : String :=
  "dependency " ++ toString edge.job ++ " -> " ++ toString edge.dependsOn

def maxAnyOf : Int := 32767

def checkRange (count : Nat) (edge : JobDependency) : Except Failure Unit :=
  if edge.job < 0 ∨ edge.job ≥ count ∨ edge.dependsOn < 0 ∨ edge.dependsOn ≥ count ∨
      edge.job = edge.dependsOn then
    .error (.refused (edgeText edge ++ " is out of range"))
  else if edge.anyOf < 0 ∨ edge.anyOf > maxAnyOf then
    .error (.refused (edgeText edge ++ " has any-of group " ++ toString edge.anyOf ++ ", out of range"))
  else
    .ok ()

/-- The groups of the edges given so far, checked edge by edge. -/
def checkGroups (seen : List JobDependency) : List JobDependency → Except Failure Unit
  | [] => .ok ()
  | edge :: rest =>
    if seen.any fun other =>
        other.job = edge.job ∧ other.dependsOn = edge.dependsOn ∧ other.anyOf ≠ edge.anyOf then
      .error (.refused (edgeText edge ++
        " is given in two any-of groups, or in one and as an ordinary edge"))
    else if edge.anyOf ≠ 0 ∧ seen.any fun other =>
        other.job = edge.job ∧ other.anyOf = edge.anyOf ∧ edgePolicy other ≠ edgePolicy edge then
      .error (.refused ("any-of group " ++ toString edge.anyOf ++ " of job " ++ toString edge.job ++
        " has edges with different OnFailure"))
    else
      checkGroups (edge :: seen) rest

/-- A workflow's edges checked against its jobs, and which jobs have
dependencies, to insert pending. -/
def checkDependencies (deps : List JobDependency) (count : Nat) : Except Failure (List Bool) := do
  deps.forM (checkRange count)
  if deps.any fun edge => edge.anyOf ≠ 0 then
    checkGroups [] deps
  pure ((List.range count).map fun position => deps.any fun edge => edge.job = position)

def edgesJSON (deps : List JobDependency) (ids : List JobID) : List JobEdge :=
  deps.map fun edge =>
    { job := ids.getD edge.job.toNat 0, dependsOn := ids.getD edge.dependsOn.toNat 0,
      anyOf := edge.anyOf }

def repeatedStep (seen : List String) : List String → Option String
  | [] => none
  | step :: rest =>
    if step = "" then repeatedStep seen rest
    else if step ∈ seen then some step
    else repeatedStep (step :: seen) rest

/-- A workflow's step names by job ID, checked against its jobs. -/
def stepsJSON (steps : List String) (ids : List JobID) : Except Failure (List (JobID × String)) :=
  if steps = [] then
    .ok []
  else if steps.length ≠ ids.length then
    .error (.refused (toString steps.length ++ " step names for " ++ toString ids.length ++ " jobs"))
  else
    match repeatedStep [] steps with
    | some step => .error (.refused ("step name \"" ++ step ++ "\" is used twice"))
    | none => .ok ((ids.zip steps).filter fun named => named.2 ≠ "")

end Hopper.Driver
