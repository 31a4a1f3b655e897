import Mathlib.Data.List.Basic
import Mathlib.Tactic.Common
import Mathlib.Algebra.GroupWithZero.Nat

/-! The finalizer: results of jobs are submitted from their goroutines, taken
from a channel by one loop and flushed in batches. Every step that another
goroutine can see is one action; what a flush writes is left open but for the
results it finds held, which are submitted again. -/

namespace Hopper.Client

/-- A result on its way: the number of its submit, the size of its log, whether
its completion was seen to commit, the flushes that found its row held, and when
it was handed in, if that was during the final drain. -/
structure Pending where
  ticket : Nat
  logBytes : Nat
  committed : Bool
  waits : Nat
  handedIn : Option Nat
deriving DecidableEq

structure FinalizerTuning where
  interval : Nat
  maxBatch : Nat
  flushLogBytes : Nat
  bufferedLogBytes : Nat
  buffer : Nat
  drainTimeout : Nat
  maxBatch_pos : 0 < maxBatch
  flushLogBytes_pos : 0 < flushLogBytes

def FinalizerTuning.capacity (tuning : FinalizerTuning) : Nat :=
  max tuning.buffer (2 * tuning.maxBatch)

/-- Where a submit has got to: `startSubmit` counted it or found the drain
ended; it waits for room in the log budget, and what it waits on is closed by
the next release; it has room; it was stamped and is at the channel; it handed
its result in or dropped it; `submitted` counts it. -/
inductive Stage where
  | accepted
  | waiting (freed : Nat)
  | taken
  | stamped
  | refused
  | handed
  | ended
deriving DecidableEq

structure Submit where
  pending : Pending
  stage : Stage
deriving DecidableEq

/-- Where the loop has got to: its select; a flush, with the results of it that
may still be found held; and, in the drain, the receives that do not wait, the
flushes, the parts of `stopIfIdle`, and the select at the end of a round. -/
inductive Loop where
  | running
  | flushing (late : Bool) (batch untried : List Pending)
  | collecting
  | writing (late : Bool)
  | loading (late : Bool)
  | loaded (late : Bool) (n : Nat)
  | compared (late : Bool) (n : Nat) (same : Bool)
  | swapping (late : Bool) (n : Nat) (idle : Bool)
  | waiting
  | returned
deriving DecidableEq

/-- `submits` counts the submits that started, times two, plus one once the
drain takes no more; `inbox` is the channel `in`, and `freed` counts the
releases of the log budget. `flushed` and `dropped` are a log. -/
structure Finalizer where
  now : Nat := 0
  canceled : Bool := false
  crashed : Bool := false
  draining : Bool := false
  done : Bool := false
  left : Bool := false
  submits : Nat := 0
  submitted : Nat := 0
  goroutines : List Submit := []
  inbox : List Pending := []
  used : Int := 0
  freed : Nat := 0
  loop : Loop := .running
  batch : List Pending := []
  logBytes : Nat := 0
  timer : Option Nat := none
  deadline : Option Nat := none
  expiry : Option Nat := none
  flushed : List Pending := []
  dropped : List Pending := []
deriving DecidableEq

def bytes (results : List Pending) : Nat :=
  (results.map Pending.logBytes).sum

namespace Finalizer

variable (f : Finalizer)

def setSubmit (index : Nat) (submit : Submit) : Finalizer :=
  { f with goroutines := f.goroutines.set index submit }

/-- A submit starts, of a result whose number it gives. -/
def startSubmit (result : Pending) : Finalizer :=
  { f with
    submits := f.submits + 2
    goroutines := f.goroutines ++
      [⟨{ result with ticket := f.submits / 2 }, if f.submits % 2 = 0 then .accepted else .refused⟩] }

def release (n : Nat) : Finalizer :=
  if n = 0 then f else { f with used := f.used - n, freed := f.freed + 1 }

def drop (results : List Pending) : Finalizer :=
  { f with dropped := f.dropped ++ results }

def signalLeft : Finalizer :=
  { f with left := f.left || f.draining }

/-- Passes results to `flush`. -/
def startFlush (late : Bool) (results rest : List Pending) : Finalizer :=
  { f with
    loop := .flushing late results results
    flushed := f.flushed ++ results
    batch := rest
    logBytes := 0
    timer := none }

end Finalizer

/-- How many of the results one flush of the drain takes. -/
def pieceFrom (tuning : FinalizerTuning) : List Pending → Nat → Nat → Nat
  | [], n, _ => n
  | result :: rest, n, size =>
    if n < tuning.maxBatch ∧ size < tuning.flushLogBytes then
      pieceFrom tuning rest (n + 1) (size + result.logBytes)
    else n

/-- Whether a drain past its deadline drops the result. -/
def dropsLate (deadline : Nat) (result : Pending) : Bool :=
  (result.handedIn.any fun handedIn => decide (deadline < handedIn)) && !result.committed

namespace Finalizer

variable (tuning : FinalizerTuning) (f : Finalizer)

def deliver (index : Nat) (submit : Submit) : Option Finalizer :=
  let result := submit.pending
  match submit.stage with
  | .accepted =>
    if result.logBytes = 0 then some (f.setSubmit index ⟨result, .taken⟩)
    else if f.used = 0 ∨ f.used + result.logBytes ≤ tuning.bufferedLogBytes ∨ f.draining then
      some { f.setSubmit index ⟨result, .taken⟩ with used := f.used + result.logBytes }
    else some (f.setSubmit index ⟨result, .waiting f.freed⟩)
  | .waiting freed =>
    if freed ≠ f.freed ∨ f.draining then some (f.setSubmit index ⟨result, .accepted⟩) else none
  | .taken =>
    some (f.setSubmit index
      ⟨{ result with handedIn := if f.draining then some f.now else result.handedIn }, .stamped⟩)
  | .stamped =>
    if f.inbox.length < tuning.capacity then
      some { f.setSubmit index ⟨result, .handed⟩ with inbox := f.inbox ++ [result] }
    else none
  | .refused => some ((f.setSubmit index ⟨result, .handed⟩).drop [result])
  | .handed => some { f.setSubmit index ⟨result, .ended⟩ with submitted := f.submitted + 1 }
  | .ended => some { f with goroutines := f.goroutines.eraseIdx index }.signalLeft

/-- A submit that finds `done` closed where it waits drops its result. -/
def giveUp (index : Nat) (submit : Submit) : Option Finalizer :=
  match submit.stage with
  | .waiting _ | .stamped =>
    if f.done then some ((f.setSubmit index ⟨submit.pending, .handed⟩).drop [submit.pending]) else none
  | _ => none

def receive (result : Pending) (rest : List Pending) : Option Finalizer :=
  match f.loop with
  | .running =>
    let batch := f.batch ++ [result]
    let logBytes := f.logBytes + result.logBytes
    let f := { f with inbox := rest, batch := batch, logBytes := logBytes }
    if tuning.maxBatch ≤ batch.length ∨ tuning.flushLogBytes ≤ logBytes then
      some (f.startFlush false batch [])
    else some { f with timer := f.timer.orElse fun _ => some (f.now + tuning.interval) }
  | .waiting => some { f with inbox := rest, batch := f.batch ++ [result], loop := .collecting }
  | _ => none

/-- `notWritten` finds a result's row held: it is to be submitted again, and
counts as a submit in flight from now, unless the drain has ended. -/
def holdAgain (result : Pending) : Finalizer :=
  let result := { result with waits := result.waits + 1 }
  if f.submits % 2 = 0 then f.startSubmit result
  else
    { f.drop [{ result with ticket := f.submits / 2 }] with
      submits := f.submits + 2
      submitted := f.submitted + 1 }.signalLeft

/-- What `stopIfIdle` reports ends the loop, or has it wait. -/
def report (idle : Bool) : Finalizer :=
  { f with loop := if idle then .returned else .waiting }

def stepLoop : Option Finalizer :=
  match f.loop with
  | .flushing late batch _ =>
    some { f.release (bytes batch) with loop := if f.draining then .writing late else .running }
  | .collecting =>
    match f.inbox with
    | result :: rest => some { f with inbox := rest, batch := f.batch ++ [result] }
    | [] =>
      match f.deadline with
      | none => some { f with loop := .writing false }
      | some deadline =>
        if deadline < f.now then
          let late := f.batch.filter (dropsLate deadline)
          some { (f.drop late).release (bytes late) with
            batch := f.batch.filter fun result => !dropsLate deadline result
            loop := .writing true }
        else some { f with loop := .writing false }
  | .writing late =>
    if f.batch = [] then
      some { f with
        deadline := f.deadline.orElse fun _ => some (f.now + tuning.drainTimeout)
        expiry := if f.deadline.isSome then f.expiry else some (f.now + tuning.drainTimeout)
        loop := .loading late }
    else
      let n := pieceFrom tuning f.batch 0 0
      some (f.startFlush late (f.batch.take n) (f.batch.drop n))
  | .loading late => some { f with loop := .loaded late f.submits }
  | .loaded late n => some { f with loop := .compared late n (decide (f.submitted = n / 2)) }
  | .compared late n same =>
    let idle := same && f.inbox.isEmpty
    if n % 2 = 1 ∨ (idle = false ∧ late = false) then some (f.report idle)
    else some { f with loop := .swapping late n idle }
  | .swapping late n idle =>
    if f.submits = n then some ({ f with submits := n + 1 }.report idle)
    else some { f with loop := .loading late }
  | .running | .waiting | .returned => none

end Finalizer

inductive Action where
  | tick
  | cancel
  | crash
  | submit (logBytes : Nat) (committed : Bool)
  | deliver (index : Nat)
  | giveUp (index : Nat)
  | receive
  | fire
  | drain
  | held (index : Nat)
  | loop
  | wake
  | expire
  | close
deriving DecidableEq

/-- One step of the clock, the client, a submit or the loop; none where it
would wait. -/
def Finalizer.perform (tuning : FinalizerTuning) (f : Finalizer) : Action → Option Finalizer
  | .tick => some { f with now := f.now + 1 }
  | .cancel => some { f with canceled := true }
  | .crash => some { f with crashed := true }
  | .submit logBytes committed => some (f.startSubmit ⟨0, logBytes, committed, 0, none⟩)
  | .deliver index => f.goroutines[index]?.bind (f.deliver tuning index)
  | .giveUp index => f.goroutines[index]?.bind (f.giveUp index)
  | .receive =>
    match f.inbox with
    | [] => none
    | result :: rest => f.receive tuning result rest
  | .fire =>
    match f.loop, f.timer with
    | .running, some time => if time ≤ f.now then some (f.startFlush false f.batch []) else none
    | _, _ => none
  | .drain =>
    match f.loop with
    | .running =>
      if f.canceled then
        if f.crashed then some { f with loop := .returned }
        else some { f with draining := true, loop := .collecting }
      else none
    | _ => none
  | .held index =>
    match f.loop with
    | .flushing late batch untried =>
      match untried[index]? with
      | some result =>
        if result.committed then none
        else some { f.holdAgain result with loop := .flushing late batch (untried.eraseIdx index) }
      | none => none
    | _ => none
  | .loop => f.stepLoop tuning
  | .wake =>
    match f.loop with
    | .waiting => if f.left then some { f with left := false, loop := .collecting } else none
    | _ => none
  | .expire =>
    match f.loop, f.expiry with
    | .waiting, some time => if time ≤ f.now then some { f with expiry := none, loop := .collecting } else none
    | _, _ => none
  | .close => if f.loop = .returned ∧ f.done = false then some { f with done := true } else none

/-- The states that runs go through whose steps are all allowed, from the one
that a new finalizer is in. -/
inductive FinalizerRun (tuning : FinalizerTuning) (allowed : Finalizer → Action → Prop) : Finalizer → Prop
  | start (now : Nat) : FinalizerRun tuning allowed { now := now }
  | step {f next : Finalizer} (action : Action) (run : FinalizerRun tuning allowed f) (allows : allowed f action)
      (performed : f.perform tuning action = some next) : FinalizerRun tuning allowed next

end Hopper.Client
