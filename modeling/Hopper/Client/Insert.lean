import Hopper.Kernel.Program
import Hopper.Sqlite.Operation

/-! How a client inserts jobs: repeats of a unique key within one call fold
onto the input before them, the rest goes to the store in rounds, one statement
for each conflict action of a round. A batch's insert is one of its callers. -/

namespace Hopper.Client

open Kernel Driver Sqlite

inductive Call : Type → Type where
  | batchInsert (params : BatchInsertParams) : Call JobID
  | jobInsertMany (params : List JobInsertParams) (opts : JobInsertOpts) : Call (List JobInsertResult)
  | batchSettle (params : BatchSettleParams) : Call Unit

namespace Call

def operation {Reply : Type} : Call Reply → Operation
  | batchInsert params => .batchInsert params
  | jobInsertMany params opts => .jobInsertMany params opts
  | batchSettle params => .batchSettle params

def run (x : W) {Reply : Type} : Call Reply → Tx Reply
  | batchInsert params => x.batchInsert params
  | jobInsertMany params opts => x.jobInsertMany params opts
  | batchSettle params => W.batchSettle params

/-- What the call returns at a time, and the store after it. -/
def reply (engine : Engine) (now : Int) {Reply : Type} (call : Call Reply) (store : Store) :
    Except Failure Reply × Store :=
  match call.run ⟨engine, now⟩ store with
  | .ok (value, after) => (.ok value, after)
  | .error failure => (.error failure, store)

theorem reply_ok {engine : Engine} {now : Int} {Reply : Type} {call : Call Reply} {pre post : Store}
    {value : Reply} (replied : call.reply engine now pre = (.ok value, post)) :
    Yields (call.run ⟨engine, now⟩) pre value post := by
  unfold reply at replied
  unfold Yields
  split at replied
  · next run =>
    cases replied
    exact run
  · cases replied

theorem reply_store (engine : Engine) (now : Int) {Reply : Type} (call : Call Reply) (store : Store) :
    (call.reply engine now store).2 = call.operation.apply engine now store := by
  have kept {Value : Type} (program : Tx Value) : (match program store with
        | .ok (value, post) => ((.ok value : Except Failure Value), post)
        | .error failure => (.error failure, store)).2 = committed program store := by
    unfold committed
    cases program store <;> rfl
  have dropped {Value : Type} (program : Tx Value) : committed program store = committed ((fun _ => ()) <$> program) store := by
    rcases outcome : program store with failure | pair
    · simp [committed, Functor.map, StateT.map, bind, Except.bind, outcome]
    · have yields : Yields program store pair.1 pair.2 := outcome
      rw [yields.committed_eq, (yields_map.mpr ⟨pair.1, yields, rfl⟩).committed_eq]
  cases call with
  | batchInsert | jobInsertMany => exact (kept _).trans (dropped _)
  | batchSettle => exact kept _

end Call

abbrev Code := Program Call Failure

/-- What other users of the store do to it: an operation they may make there. -/
def Others (engine : Engine) (Allowed : Store → Operation → Prop) (before after : Store) : Prop :=
  ∃ now operation, Allowed before operation ∧ after = operation.apply engine now before

/-- How the store answers a call, at some time, where the call meets a
condition. -/
def StoreAnswers (engine : Engine) (Meets : Store → Operation → Prop) (Reply : Type) (call : Call Reply)
    (before : Store) (reply : Except Failure Reply) (after : Store) : Prop :=
  Meets before call.operation ∧ ∃ now, call.reply engine now before = (reply, after)

theorem StoreAnswers.apply {engine : Engine} {Meets : Store → Operation → Prop} {Reply : Type} {call : Call Reply}
    {pre post : Store} {reply : Except Failure Reply} (answers : StoreAnswers engine Meets Reply call pre reply post) :
    ∃ now, post = call.operation.apply engine now pre := by
  obtain ⟨_, now, replied⟩ := answers
  exact ⟨now, by rw [← Call.reply_store, replied]⟩

/-- An input as `buildInsertParams` makes it. -/
structure Input where
  params : JobInsertParams
  onConflict : ConflictAction := .skip

structure UniqueRef where
  kind : String
  key : String
deriving DecidableEq

def Input.ref (input : Input) : UniqueRef := ⟨input.params.kind, input.params.uniqueKey⟩

def sameStates (left right : List JobState) : Bool :=
  decide (left.length = right.length) && left.all fun state => decide (state ∈ right)

/-- The latest input of a unique key and the round it is in. -/
structure KeyState where
  last : Nat
  round : Nat

structure Round where
  skip : List Nat := []
  replace : List Nat := []

def Round.add (round : Round) (index : Nat) : ConflictAction → Round
  | .skip => { round with skip := round.skip ++ [index] }
  | .replace => { round with replace := round.replace ++ [index] }

def Round.of (round : Round) : ConflictAction → List Nat
  | .skip => round.skip
  | .replace => round.replace

/-- Where the inputs go: into rounds, or onto the input before them. -/
structure Plan where
  seen : List (UniqueRef × KeyState) := []
  rounds : List Round := []
  dupOf : List (Option Nat) := []

inductive Place where
  | onto (last round : Nat)
  | round (number : Nat)

namespace Plan

def place (plan : Plan) (inputs : List Input) (input : Input) : Place :=
  if input.params.uniqueKey = "" then
    .round 0
  else
    match plan.seen.lookup input.ref with
    | none => .round 0
    | some state =>
      -- one that counts other finished states than the one before may not
      -- resolve to the same job, so a later round inserts it
      if inputs[state.last]?.any fun earlier =>
          sameStates earlier.params.uniqueFinished input.params.uniqueFinished then
        .onto state.last state.round
      else
        .round (state.round + 1)

/-- The rounds with an input added to one of them, or to one after the last. -/
def enter (rounds : List Round) (number index : Nat) (action : ConflictAction) : List Round :=
  (if number = rounds.length then rounds ++ [Round.mk [] []] else rounds).modify number fun round => round.add index action

def step (inputs : List Input) (plan : Plan) (entry : Input × Nat) : Plan :=
  match plan.place inputs entry.1 with
  | .onto last round =>
    { plan with
      seen := (entry.1.ref, ⟨entry.2, round⟩) :: plan.seen
      dupOf := plan.dupOf ++ [some last] }
  | .round number =>
    { seen :=
        if entry.1.params.uniqueKey = "" then plan.seen
        else (entry.1.ref, ⟨entry.2, number⟩) :: plan.seen
      rounds := enter plan.rounds number entry.2 entry.1.onConflict
      dupOf := plan.dupOf ++ [none] }

def of (inputs : List Input) : Plan :=
  inputs.zipIdx.foldl (step inputs) {}

end Plan

/-- The statements of a round, for the actions it has inputs of, in the order
that the map of them is iterated in. -/
def Round.statements (round : Round) (replaceFirst : Bool) : List (ConflictAction × List Nat) :=
  (if replaceFirst then [(.replace, round.replace), (.skip, round.skip)]
    else [(.skip, round.skip), (.replace, round.replace)]).filter fun entry => !entry.2.isEmpty

/-- The statements of a plan, given the order of iteration in each round. -/
def Plan.statements (plan : Plan) (order : Nat → Bool) : List (ConflictAction × List Nat) :=
  plan.rounds.zipIdx.flatMap fun entry => entry.1.statements (order entry.2)

abbrev InsertResult := JobInsertResult

/-- The results of a statement's inputs written at their indexes. -/
def writeResults (results : List (Option InsertResult)) (indexes : List Nat) (rows : List JobInsertResult) :
    List (Option InsertResult) :=
  (indexes.zip rows).foldl (fun results entry => results.set entry.1 (some entry.2)) results

/-- The inputs at some indexes, as their statement takes them. -/
def subParams (inputs : List Input) (indexes : List Nat) : List JobInsertParams :=
  indexes.filterMap fun index => inputs[index]?.map Input.params

def insertStatements (inputs : List Input) (inTx : Bool) :
    List (ConflictAction × List Nat) → List (Option InsertResult) → Code (List (Option InsertResult))
  | [], results => pure results
  | (action, indexes) :: rest, results => do
      let rows ← Program.request (.jobInsertMany (subParams inputs indexes)
        { notify := inTx, onConflict := action })
      insertStatements inputs inTx rest (writeResults results indexes rows)

/-- The results with those of folded inputs, each that of the input before it. -/
def fillFolded (dupOf : List (Option Nat)) (results : List (Option InsertResult)) : List (Option InsertResult) :=
  dupOf.zipIdx.foldl (fun results entry =>
    match entry.1 with
    | none => results
    | some onto => results.set entry.2 ((results.getD onto none).map fun result =>
      { job := result.job, duplicate := true })) results

/-- What the caller of an insert gives of a job: its args and options, and the
batch it is in. -/
structure InsertParams (Args : Type) where
  args : Args
  batchID : JobID := 0

/-- A client, as far as an insert depends on it: how it encodes a job's args
and options, which its worker registry and its clock have a part in. -/
structure Config (Args : Type) where
  encode : Args → Except Failure Input

section
variable {Args : Type}

def Config.buildInsertParams (client : Config Args) (given : InsertParams Args) : Except Failure Input :=
  (client.encode given.args).map fun input =>
    { input with params := { input.params with batchID := given.batchID } }

/-- All of the inputs built; the error of one of several names it. -/
def Config.buildAll (client : Config Args) (params : List (InsertParams Args)) : Except Failure (List Input) :=
  params.zipIdx.mapM fun entry =>
    (client.buildInsertParams entry.1).mapError
      (if 1 < params.length then .inOperation ("job " ++ toString entry.2 ++ ": ") else id)

def Config.insertDirect (client : Config Args) (order : Nat → Bool) (params : List (InsertParams Args))
    (inTx : Bool) : Code (List (Option InsertResult)) :=
  if params = [] then
    pure []
  else do
    let inputs ← Program.ensure (client.buildAll params)
    let results ← insertStatements inputs inTx ((Plan.of inputs).statements order)
      (List.replicate inputs.length none)
    pure (fillFolded (Plan.of inputs).dupOf results)

def firstReplaces (inputs : List Input) : Bool :=
  inputs.head?.any fun first => decide (first.onConflict = .replace)

/-- The queues that `insertDirect` wakes and marks outside a transaction. It
tests `actions[0]`, the action of the first input. -/
def wokenQueues (inputs : List Input) (results : List (Option InsertResult)) : List String :=
  (results.filterMap (Option.filter fun result =>
    !result.duplicate || (firstReplaces inputs && result.job.finalizedAt.isNone))).map fun result => result.job.queue

/-- Without middleware an insert goes straight to the store. -/
def Config.insertMany (client : Config Args) (order : Nat → Bool) (params : List (InsertParams Args))
    (inTx : Bool) : Code (List (Option InsertResult)) :=
  if params = [] then pure [] else client.insertDirect order params inTx

structure BatchOpts (Args : Type) where
  onSuccess : Option Args := none
  onFailure : Option Args := none
  onComplete : Option Args := none
  metadata : Option Document := none

structure Batch (Args : Type) where
  opts : BatchOpts Args
  params : List Args

structure BatchResult where
  id : JobID
  jobs : List (Option InsertResult)

def Config.buildCallback (client : Config Args) : Option Args → Except Failure (Option JobInsertParams)
  | none => .ok none
  | some args =>
    ((client.buildInsertParams { args := args }).mapError (.inOperation "hopper: batch callback: ")).map
      fun input => some input.params

def Config.batchParams (client : Config Args) (batch : Batch Args) : Except Failure BatchInsertParams := do
  let onSuccess ← client.buildCallback batch.opts.onSuccess
  let onFailure ← client.buildCallback batch.opts.onFailure
  let onComplete ← client.buildCallback batch.opts.onComplete
  pure { total := batch.params.length, onSuccess := onSuccess, onFailure := onFailure, onComplete := onComplete,
         metadata := batch.opts.metadata }

/-- Some result of the insert is of a job found finished. -/
def foundFinished (results : List (Option InsertResult)) : Bool :=
  results.any fun result => result.any fun result => result.duplicate && result.job.state.terminal

def Batch.insert (client : Config Args) (order : Nat → Bool) (batch : Batch Args) (inTx : Bool) :
    Code BatchResult :=
  if batch.params = [] then
    .fail (.refused "hopper: batch has no jobs")
  else if batch.opts.onSuccess.isNone ∧ batch.opts.onFailure.isNone ∧ batch.opts.onComplete.isNone then
    .fail (.refused "hopper: batch has no callbacks; use InsertMany for plain jobs")
  else do
    let bp ← Program.ensure (client.batchParams batch)
    let id ← Program.request (.batchInsert bp)
    let results ← client.insertMany order (batch.params.map fun args => { args := args, batchID := id }) inTx
    if !inTx && foundFinished results then do
      -- a failure to settle is logged, and the leader settles the batch later
      let _ ← Program.attempt (.batchSettle { ids := some [id] })
      pure ⟨id, results⟩
    else
      pure ⟨id, results⟩

end

def builtClient : Config Input := ⟨.ok⟩

/-- The answers of a store that nobody else uses, at one time. -/
def alone (now : Int) (Reply : Type) (call : Call Reply) (store : Store) : Except Failure Reply × Store :=
  call.reply .counting now store

theorem alone_runs {Result : Type} {others : Store → Store → Prop} {Meets : Store → Operation → Prop} (now : Int)
    {program : Code Result} {store : Store}
    (met : program.Meets (alone now) (fun _ call store => Meets store call.operation) store) :
    Runs others (StoreAnswers .counting Meets) store program
      (program.exec (alone now) store).1 (program.exec (alone now) store).2 :=
  Program.exec_runs (fun _ _ _ meets => ⟨meets, now, rfl⟩) met

end Hopper.Client
