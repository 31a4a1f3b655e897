import Hopper.Sqlite.Store
import Hopper.Sqlite.CheckJson
import Hopper.Kernel.Json
import Hopper.Kernel.Page
import Mathlib.Algebra.Order.Ring.Int

/-! Listing jobs: a page of the live table and of history together, and the iteration
that reads page after page. -/

namespace Hopper.Client

open Kernel Driver Sqlite

/-- A filter without tags. -/
structure JobFilter where
  queue : String := ""
  kinds : List String := []
  states : List JobState := []
  orderingKey : String := ""
  newestFirst : Bool := false
  after : JobID := 0
  ids : List JobID := []
  priorities : List Int := []
  metadata : String := ""

/-- A row of either table. -/
abbrev JobEntry := LiveJob ⊕ HistoryJob

def JobEntry.job : JobEntry → Job :=
  Sum.elim (·.toJob) (·.toJob)

def jobsPageSize : Nat := 100

namespace JobFilter

/-- The conditions of `WHERE` but that on the cursor. `contains` is
`hopper_json_contains`. -/
def selects (f : JobFilter) (contains : Document → String → Bool) (row : Job) : Bool :=
  (f.queue = "" || row.queue = f.queue) && (f.kinds = [] || row.kind ∈ f.kinds) && (f.states = [] || row.state ∈ f.states) &&
    (f.orderingKey = "" || row.orderingKey = some f.orderingKey) && (f.ids = [] || row.id ∈ f.ids) &&
    (f.priorities = [] || row.priority ∈ f.priorities) && (f.metadata = "" || contains row.metadata f.metadata)

def past (f : JobFilter) (after id : JobID) : Bool :=
  if f.newestFirst then after = 0 || id < after else after < id

/-- `ORDER BY id`, or `id DESC`. -/
def key (f : JobFilter) (entry : JobEntry) : Int :=
  if f.newestFirst then -entry.job.id else entry.job.id

def live (f : JobFilter) : Bool :=
  f.states = [] || f.states.any fun s => !s.terminal

def history (f : JobFilter) : Bool :=
  f.states = [] || f.states.any JobState.terminal

def arm (f : JobFilter) (contains : Document → String → Bool) (after : JobID) (limit : Nat) (rows : List JobEntry) : List JobEntry :=
  page f.key (max limit 1) (rows.filter fun entry => f.selects contains entry.job && f.past after entry.job.id)

/-- A page of each table, and of both together. -/
def rows (f : JobFilter) (contains : Document → String → Bool) (after : JobID) (limit : Nat) (store : Store) : List JobEntry :=
  page f.key (max limit 1) ((if f.live then f.arm contains after limit (store.jobs.rows.map .inl) else []) ++
    if f.history then f.arm contains after limit (store.history.map .inr) else [])

/-- What a client refuses to list by. -/
def checkJobFilter (f : JobFilter) : Except Failure Unit := do
  f.priorities.forM fun p =>
    if 1 ≤ p ∧ p ≤ 4 then .ok ()
    else .error (.invalidFilter ("priority " ++ toString p ++ " is out of range 1..4"))
  if f.metadata ≠ "" then
    match Json.parse f.metadata.toList with
    | some (.object _) => .ok ()
    | _ => .error (.invalidFilter "Metadata must be a JSON object")

def checkFilterText (texts : List String) : Except Failure Unit :=
  texts.forM fun s =>
    if '\x00' ∈ s.toList then .error (.invalidFilter (s.quote ++ " is not UTF-8 text without NUL")) else .ok ()

def checkJSONFilter (s : String) : Except Failure Unit :=
  (checkJSON (fun _ => true) (fun _ => (Json.parse s.toList).isSome) s.toUTF8.toList).mapError fun err =>
    .invalidFilter ("the metadata filter " ++ String.ofList (err.map fun byte => Char.ofNat byte.toNat))

/-- What the listing refuses, as Postgres would. The states' texts are their
names. -/
def checkParams (f : JobFilter) : Except Failure Unit := do
  if f.orderingKey ≠ "" ∧ f.queue = "" then
    throw (.invalidFilter "an ordering key is listed within a queue; set the queue")
  f.priorities.forM fun p =>
    ((smallint p "Priorities").mapError fun err => .invalidFilter err.text).map fun _ => ()
  checkFilterText [f.queue, f.orderingKey]
  checkFilterText f.kinds
  if f.metadata ≠ "" then
    checkJSONFilter f.metadata

def jobList (f : JobFilter) (contains : Document → String → Bool) (after : JobID) (limit : Nat) (store : Store) :
    Except Failure (List JobEntry) := do
  f.checkParams
  pure (f.rows contains after limit store)

end JobFilter

/-- The iteration between two pages: the cursor, the rows yielded, whether it has
ended, and the error it has ended with. -/
structure JobsIteration where
  after : JobID
  yielded : List JobEntry := []
  done : Bool := false
  failure : Option Failure := none

namespace JobsIteration

def start (f : JobFilter) : JobsIteration :=
  match f.checkJobFilter with
  | .error failure => { after := f.after, done := true, failure := some failure }
  | .ok () => { after := f.after }

def read (f : JobFilter) (contains : Document → String → Bool) (s : JobsIteration) (store : Store) : JobsIteration :=
  match f.jobList contains s.after jobsPageSize store with
  | .error failure => { s with done := true, failure := some failure }
  | .ok rows =>
    { after := (rows.getLast?.map fun entry => entry.job.id).getD s.after
      yielded := s.yielded ++ rows
      done := rows.length < jobsPageSize }

end JobsIteration

/-- An iteration that has read a page of each of the stores, in order, any that
operations bring about. -/
inductive JobsRead (f : JobFilter) (contains : Document → String → Bool) (Reads : Store → Prop) : List Store → JobsIteration → Prop where
  | start : JobsRead f contains Reads [] (.start f)
  | page {stores : List Store} {s : JobsIteration} {store : Store} (read : JobsRead f contains Reads stores s)
      (goes : s.done = false) (reads : Reads store) : JobsRead f contains Reads (stores ++ [store]) (s.read f contains store)

end Hopper.Client
