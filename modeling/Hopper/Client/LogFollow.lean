import Hopper.Driver.Job
import Mathlib.Data.List.Chain

/-! Listing and reading a job's log in a store, and following it: the store's answers
are the client's input. -/

namespace Hopper.Client

open Driver

/-- An error, and whether it is one of `ErrNotFound`. -/
structure LogError where
  notFound : Bool := false
  text : String
deriving DecidableEq

def LogError.wrap (text : String) (err : LogError) : LogError :=
  { err with text := text ++ err.text }

structure LogRun where
  jobID : JobID := 0
  fence : Int := 0
  attempt : Int := 0
  size : Int := 0
  updatedAt : Int := 0
  version : String := ""
deriving DecidableEq

structure LogListParams where
  jobID : JobID := 0
  fence : Int := 0
  after : String := ""
  limit : Int

structure LogRunPage where
  runs : List LogRun
  next : String := ""

structure LogReadParams where
  jobID : JobID
  fence : Int
  offset : Int
  limit : Int

structure LogChunk where
  log : List UInt8 := []
  offset : Int := 0
  nextOffset : Int := 0
  size : Int := 0

structure LogCursor where
  fence : Int := 0
  offset : Int := 0
deriving DecidableEq

structure LogReadOpts where
  fence : Int := 0
  cursor : LogCursor := {}
  limit : Int := 0

structure LogReadResult extends LogChunk where
  run : LogRun
  cursor : LogCursor := {}

/-- `compareLogRuns(a, b) < 0`. -/
def LogRun.before (a b : LogRun) : Bool :=
  a.jobID < b.jobID || a.jobID = b.jobID && b.fence < a.fence

def LogRun.invalid (params : LogListParams) (run : LogRun) : Bool :=
  run.jobID = 0 || run.fence < 1 || run.attempt < 1 || run.size < 0 || params.jobID ≠ 0 && run.jobID ≠ params.jobID ||
    0 < params.fence && run.fence ≠ params.fence

def listLogRuns (list : LogListParams → Except LogError LogRunPage) (params : LogListParams) : Except LogError LogRunPage :=
  let params := if params.limit = 0 then { params with limit := 100 } else params
  if params.limit < 1 ∨ 1000 < params.limit then
    .error { text := "hopper: log listing limit must be between 1 and 1000" }
  else if params.fence < 0 ∨ 0 < params.fence ∧ params.jobID = 0 then
    .error { text := "hopper: an execution filter requires a job ID and positive fence" }
  else match list params with
  | .error err => .error (err.wrap "hopper: list log executions: ")
  | .ok page =>
    if params.limit < page.runs.length ∨ page.next ≠ "" ∧ (page.next = params.after ∨ page.runs = []) then
      .error { text := "hopper: store returned an invalid log page" }
    else if page.runs.any (LogRun.invalid params) ∨ ¬page.runs.IsChain (fun a b => a.before b = true) then
      .error { text := "hopper: store returned an invalid log execution" }
    else .ok page

def withLogReadOpts (id : JobID) (opts : Option LogReadOpts) : Except LogError LogReadOpts :=
  let p := opts.getD { cursor := { offset := -1 } }
  if id = 0 ∨ p.fence < 0 ∨ p.cursor.fence < 0 ∨ p.cursor.offset < -1 then
    .error { text := "hopper: invalid log read cursor" }
  else
    let limit := if p.limit = 0 then 65536 else p.limit
    if limit < 1 ∨ 1048576 < limit then .error { text := "hopper: log read limit must be between 1 and 1048576" }
    else .ok { p with limit := limit }

/-- What a read of the listed run asks for: the tail where the run is not the cursor's. -/
def readParams (id : JobID) (p : LogReadOpts) (run : LogRun) : LogReadParams :=
  let offset := if p.cursor.fence ≠ 0 ∧ p.cursor.fence ≠ run.fence then -1 else p.cursor.offset
  { jobID := id, fence := run.fence, offset := offset, limit := p.limit }

def LogChunk.invalid (p : LogReadOpts) (chunk : LogChunk) : Prop :=
  chunk.offset < 0 ∨ chunk.nextOffset < chunk.offset ∨ chunk.size < chunk.nextOffset ∨
    chunk.log.length ≠ chunk.nextOffset - chunk.offset ∨ p.limit < chunk.log.length

instance (p : LogReadOpts) (chunk : LogChunk) : Decidable (chunk.invalid p) :=
  inferInstanceAs (Decidable (_ ∨ _))

/-- The store's answers to a listing and to a read, in one turn of the loop. -/
structure LogStoreTurn where
  list : LogListParams → Except LogError LogRunPage
  read : LogReadParams → Except LogError LogChunk

def readJobLog (store : LogStoreTurn) (id : JobID) (p : LogReadOpts) : Except LogError LogReadResult :=
  match listLogRuns store.list { jobID := id, fence := p.fence, limit := 1 } with
  | .error err => .error err
  | .ok page =>
    match page.runs with
    | [] => .error { notFound := true, text := "hopper: not found" }
    | run :: _ =>
      match store.read (readParams id p run) with
      | .error err => .error (err.wrap "hopper: read log execution: ")
      | .ok chunk =>
        if chunk.invalid p then .error { text := "hopper: store returned an invalid log chunk" }
        else .ok { chunk with
          run := { run with size := chunk.size }, cursor := { fence := run.fence, offset := chunk.nextOffset } }

structure LogUpdate extends LogReadResult where
  reset : Bool := false
  missing : Bool := false

/-- The variables of the loop of `JobLogFollow`. -/
structure LogFollow where
  p : LogReadOpts
  previous : LogRun := {}
  seen : Bool := false
  missing : Bool := false

namespace LogFollow

/-- A turn of the loop: what it yields, if anything, and its variables after it. It
yields any other error and ends. -/
def turn (s : LogFollow) (store : LogStoreTurn) (id : JobID) : Except LogError (LogFollow × Option LogUpdate) :=
  match readJobLog store id s.p with
  | .error err =>
    if err.notFound then
      let previous := if s.previous.jobID = 0 then { jobID := id, fence := s.p.fence } else s.previous
      if !s.seen || !s.missing then
        .ok ({ s with previous, seen := true, missing := true }, some { run := previous, missing := true, reset := true })
      else .ok ({ s with seen := true, missing := true }, none)
    else .error err
  | .ok chunk =>
    let reset := s.missing || chunk.run.fence ≠ s.p.cursor.fence || chunk.offset ≠ s.p.cursor.offset
    let next := { p := { s.p with cursor := chunk.cursor }, previous := chunk.run, seen := true }
    .ok (next, if reset || chunk.log ≠ [] then some { chunk with reset } else none)

end LogFollow

/-- A consumer: its view, the offset of its last `Reset` update or the given cursor's,
and the last update. -/
structure LogView where
  view : List UInt8 := []
  start : Int
  last : Option LogUpdate := none

/-- Replaces the view on `Reset`, clears it on `Missing` and appends otherwise. -/
def LogView.consume (v : LogView) : Option LogUpdate → LogView
  | none => v
  | some update =>
    { view := if update.missing then [] else if update.reset then update.log else v.view ++ update.log
      start := if update.reset then update.offset else v.start
      last := some update }

/-- Following a job's log, with what its runs hold, by their fences: before each read
they may have grown, and a read returns the bytes of the run from the offset it
reports. -/
inductive LogFollowed (id : JobID) (opts : Option LogReadOpts) : (Int → List UInt8) → LogFollow → LogView → Prop where
  | start {logs : Int → List UInt8} {p : LogReadOpts} (accepted : withLogReadOpts id opts = .ok p) :
      LogFollowed id opts logs { p } { start := p.cursor.offset }
  | turn {before logs : Int → List UInt8} {s next : LogFollow} {v : LogView} {yielded : Option LogUpdate}
      (followed : LogFollowed id opts before s v) (grown : ∀ fence, before fence <+: logs fence) (store : LogStoreTurn)
      (reads : ∀ params chunk, store.read params = .ok chunk → chunk.log <+: (logs params.fence).drop chunk.offset.toNat)
      (turned : s.turn store id = .ok (next, yielded)) : LogFollowed id opts logs next (v.consume yielded)

end Hopper.Client
