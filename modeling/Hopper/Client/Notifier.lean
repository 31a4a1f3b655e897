import Mathlib.Data.List.Basic

/-! The notifier: marks are pending until a flush takes them, a timer's or that of a
call of `flushNow`, and sends them outside the lock. A timer is a thread from when it
is armed, so that its firing, what its flush holds and its end are one thread's. -/

namespace Hopper.Client

/-- A queue in `pending`, or a topic in `streams`. -/
inductive Mark where
  | queue (name : String)
  | topic (name : String)
deriving DecidableEq

/-- Where a timer or a call of `flushNow` is. A call is `looping` when it is about to
take the lock, at first or woken; a timer that was stopped has `ended`. -/
inductive FlushPoint where
  | armed
  | expired
  | looping
  | waiting
  | flushing
  | sending (held : List Mark)
  | ended
deriving DecidableEq

/-- A call of `flushNow`: the threads there were when it began, and whether its
context was live when it returned. -/
structure FlushCall where
  began : Nat
  ctxEnded : Bool := false
  live : Bool := false
deriving DecidableEq

/-- A timer's thread has no call. -/
structure FlushThread where
  point : FlushPoint
  call : Option FlushCall := none
deriving DecidableEq

structure Notifier where
  pending : List Mark := []
  timer : Option Nat := none
  timers : Int := 0
  threads : List FlushThread := []
  /-- The marks that were not handed to `Notify` since. -/
  owed : List Mark := []

inductive NotifierAct where
  | mark (mark : Mark)
  | expire (timer : Nat)
  | fire (timer : Nat)
  | flushNow
  | endCtx (call : Nat)
  | loop (call : Nat)
  | flush (thread : Nat)
  | notify (thread : Nat)
  | finish (thread : Nat)

def Mark.isQueue : Mark → Bool
  | .queue _ => true
  | .topic _ => false

/-- What the next `Notify` of a flush sends: the queues, and then the topics. -/
def handed (held : List Mark) : List Mark :=
  if held.any Mark.isQueue then held.filter Mark.isQueue else held

def FlushThread.woken (thread : FlushThread) : FlushThread :=
  if thread.point = .waiting then { thread with point := .looping } else thread

namespace Notifier

def arm (n : Notifier) : Notifier :=
  if n.timer = none then
    { n with timers := n.timers + 1, timer := some n.threads.length, threads := n.threads ++ [⟨.armed, none⟩] }
  else n

def broadcast (n : Notifier) : Notifier :=
  { n with threads := n.threads.map FlushThread.woken }

/-- `n.timer.Stop()` of a timer that has not fired, in the loop of `flushNow`. -/
def stopTimer (n : Notifier) : Notifier :=
  match n.timer with
  | some id =>
    if 0 < n.timers ∧ n.threads[id]? = some ⟨.armed, none⟩ then
      { n with timer := none, timers := n.timers - 1, threads := n.threads.set id ⟨.ended, none⟩ }
    else n
  | none => n

def step (n : Notifier) : NotifierAct → Option Notifier
  | .mark mark => some { n with pending := n.pending.insert mark, owed := n.owed.insert mark }.arm
  | .expire id =>
    match n.threads[id]? with
    | some ⟨.armed, call⟩ => some { n with threads := n.threads.set id ⟨.expired, call⟩ }
    | _ => none
  | .fire id =>
    match n.threads[id]? with
    | some ⟨.expired, call⟩ => some { n with timer := none, threads := n.threads.set id ⟨.flushing, call⟩ }
    | _ => none
  | .flushNow => some { n with threads := n.threads ++ [⟨.looping, some { began := n.threads.length }⟩] }
  | .endCtx id =>
    match n.threads[id]? with
    | some ⟨point, some call⟩ =>
      some { n with threads := n.threads.set id ⟨point, some { call with ctxEnded := true }⟩ }.broadcast
    | _ => none
  | .loop id =>
    match n.threads[id]? with
    | some ⟨.looping, some call⟩ =>
      -- there is no timer to stop after a `Stop`, so one more turn ends the loop or waits
      let stopped := n.stopTimer
      let point := if 0 < stopped.timers ∧ !call.ctxEnded then .waiting else .flushing
      some { stopped with threads := stopped.threads.set id ⟨point, some call⟩ }
    | _ => none
  | .flush id =>
    match n.threads[id]? with
    | some ⟨.flushing, call⟩ =>
      some { n with pending := [], threads := n.threads.set id ⟨.sending n.pending, call⟩ }
    | _ => none
  | .notify id =>
    match n.threads[id]? with
    | some ⟨.sending held, call⟩ =>
      if held = [] then none
      else some { n with
        owed := n.owed.filter (· ∉ handed held)
        threads := n.threads.set id ⟨.sending (held.filter (· ∉ handed held)), call⟩ }
    | _ => none
  | .finish id =>
    match n.threads[id]? with
    | some ⟨.sending [], none⟩ =>
      some { n with timers := n.timers - 1, threads := n.threads.set id ⟨.ended, none⟩ }.broadcast
    | some ⟨.sending [], some call⟩ =>
      some { n with threads := n.threads.set id ⟨.ended, some { call with live := !call.ctxEnded }⟩ }
    | _ => none

end Notifier

inductive NotifierReached : Notifier → Prop where
  | start : NotifierReached {}
  | step {n next : Notifier} (reached : NotifierReached n) (act : NotifierAct) (stepped : n.step act = some next) :
      NotifierReached next

end Hopper.Client
