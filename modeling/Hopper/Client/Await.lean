import Mathlib.Data.List.Range
import Mathlib.Tactic.Common

/-! Callers that await a job, and the calls that wake them. The slice of their
channels is an array and a length, and a call that signals keeps the slice it
read while others write to its array. A job shares neither with another. -/

namespace Hopper.Client

/-- A `signalDone` that has read the waiters: its slice, and the next index of its
loop. The channels before `before` were made before it read. -/
structure SignalDone where
  array : Nat
  len : Nat
  next : Nat
  before : Nat
deriving DecidableEq

/-- The waiters of a job. A channel is a number, and holds a signal or not. -/
structure DoneWaiters where
  array : Nat := 0
  len : Nat := 0
  cap : Nat := 0
  /-- What arrays hold, index by index. -/
  arrays : Nat → Nat → Nat := fun _ _ => 0
  nextArray : Nat := 0
  nextChan : Nat := 0
  canceled : List Nat := []
  full : List Nat := []
  received : List Nat := []
  signals : List SignalDone := []

/-- `awaitDone` is told the capacity of the array that `append` makes, if it makes
one. -/
inductive AwaitAct where
  | awaitDone (cap : Nat)
  | awaitCancel (ch : Nat)
  | readWaiters
  | signal (call : Nat)
  | receive (ch : Nat)
deriving DecidableEq

namespace DoneWaiters

/-- `append(waiters, ch)`: in place while the array has room. -/
def append (s : DoneWaiters) (ch cap : Nat) : DoneWaiters :=
  if s.len < s.cap then
    { s with
      arrays := fun array i => if array = s.array ∧ i = s.len then ch else s.arrays array i
      len := s.len + 1 }
  else
    { s with
      array := s.nextArray
      len := s.len + 1
      cap := cap
      arrays := fun array i =>
        if array = s.nextArray then (if i < s.len then s.arrays s.array i else ch) else s.arrays array i
      nextArray := s.nextArray + 1 }

/-- `append(waiters[:i], waiters[i+1:]...)`, and no entry for an empty slice. -/
def remove (s : DoneWaiters) (i : Nat) : DoneWaiters :=
  { s with
    arrays := fun array j =>
      if array = s.array ∧ i ≤ j ∧ j + 1 < s.len then s.arrays array (j + 1) else s.arrays array j
    len := s.len - 1
    cap := if s.len - 1 = 0 then 0 else s.cap }

def index? (s : DoneWaiters) (ch : Nat) : Option Nat :=
  (List.range s.len).find? fun i => s.arrays s.array i = ch

def step (s : DoneWaiters) : AwaitAct → Option DoneWaiters
  | .awaitDone cap =>
    if s.len < s.cap ∨ s.len < cap then some { s.append s.nextChan cap with nextChan := s.nextChan + 1 } else none
  | .awaitCancel ch =>
    if ch < s.nextChan ∧ ch ∉ s.canceled then
      let left := match s.index? ch with
        | some i => s.remove i
        | none => s
      some { left with canceled := ch :: s.canceled }
    else none
  | .readWaiters => some { s with signals := s.signals ++ [⟨s.array, s.len, 0, s.nextChan⟩] }
  | .signal call =>
    match s.signals[call]? with
    | some walk =>
      if walk.next < walk.len then
        some { s with
          full := s.arrays walk.array walk.next :: s.full
          signals := s.signals.set call { walk with next := walk.next + 1 } }
      else none
    | none => none
  | .receive ch =>
    if ch ∈ s.full then some { s with full := s.full.filter (· ≠ ch), received := ch :: s.received } else none

/-- A signal is in the channel, or was received. -/
def Signaled (s : DoneWaiters) (ch : Nat) : Prop :=
  ch ∈ s.full ∨ ch ∈ s.received

end DoneWaiters

/-- The states of runs whose acts are allowed. -/
inductive AwaitReached (allowed : DoneWaiters → AwaitAct → Prop) : DoneWaiters → Prop where
  | start : AwaitReached allowed {}
  | step {s next : DoneWaiters} (reached : AwaitReached allowed s) (act : AwaitAct) (allows : allowed s act)
      (stepped : s.step act = some next) : AwaitReached allowed next

end Hopper.Client
