import Hopper.Sqlite.Operation
import Mathlib.Logic.Relation

/-! The life of jobs, apart from the statements that bring it about. A roster
is what a store holds of jobs: the live ones, the finished ones, the leases and
what happened. A change is one thing that can happen to it. -/

namespace Hopper.Lifecycle

open Kernel Driver Sqlite

def birth? : Event → Option LiveJob
  | .inserted row => some row
  | .callback _ row => some row
  | _ => none

def claim? : Event → Option (JobID × Int)
  | .claimed row => some (row.id, row.fence)
  | _ => none

def ending? : Event → Option (JobID × Int)
  | .ended id fence => some (id, fence)
  | _ => none

def book : Event → Bool
  | .cascaded _ | .found _ _ | .completed _ _ => true
  | _ => false

structure Roster where
  jobs : Table LiveJob
  history : List HistoryJob
  leases : Table LeaseRow
  seq : Nat
  journal : List Event

def roster (store : Store) : Roster :=
  { jobs := store.jobs, history := store.history, leases := store.leases, seq := store.seq,
    journal := store.journal }

namespace Roster

def Known (roster : Roster) (id : JobID) : Prop :=
  ∃ event ∈ roster.journal, ∃ row, birth? event = some row ∧ row.id = id

def Claimed (roster : Roster) (id : JobID) (fence : Int) : Prop :=
  (id, fence) ∈ roster.journal.filterMap claim?

def Ended (roster : Roster) (id : JobID) (fence : Int) : Prop :=
  (id, fence) ∈ roster.journal.filterMap ending?

/-- A claim may start the job: it waits, none of its ordering key runs, and
none of the key that waits is older. -/
structure Startable (roster : Roster) (row : LiveJob) : Prop where
  waits : row.state.waiting = true
  idle : ∀ other ∈ roster.jobs, row.orderingKey ≠ none → other.queue = row.queue →
    other.orderingKey = row.orderingKey → other.state ≠ .running
  oldest : ∀ other ∈ roster.jobs, row.orderingKey ≠ none → other.queue = row.queue →
    other.orderingKey = row.orderingKey → other.state.waiting = true → row.seq ≤ other.seq

def KeyFree (roster : Roster) (row : LiveJob) : Prop :=
  ∀ other ∈ roster.jobs, other.kind = row.kind → other.uniqueKey = row.uniqueKey → row.uniqueKey = none

end Roster

structure Kept (old new : LiveJob) : Prop where
  id : new.id = old.id
  seq : new.seq = old.seq
  kind : new.kind = old.kind
  queue : new.queue = old.queue
  uniqueKey : new.uniqueKey = old.uniqueKey
  orderingKey : new.orderingKey = old.orderingKey
  partitionKey : new.partitionKey = old.partitionKey
  batchID : new.batchID = old.batchID

structure Rules where
  /-- A job may be inserted with so many attempts allowed. -/
  attempts : Int → Prop
  attempts_pos : ∀ count, 0 < count → attempts count
  /-- A claim may start jobs of a roster. -/
  starts : Roster → Prop
  /-- A wake may mark running jobs. -/
  wakes : Prop
  /-- A job may be changed in place, but for a promotion, or brought back. -/
  edits : Prop
  /-- A replacing insert may leave a row of other attempts allowed. -/
  replaces : LiveJob → LiveJob → Prop
  /-- The end of an attempt may leave the job waiting again. -/
  resumes : LiveJob → LiveJob → Prop
  /-- A job may be inserted into a batch. -/
  joins : Store → JobID → Prop
  /-- A job may finish without a look at its batch and its dependents. -/
  drops : LiveJob → Prop
  /-- A finished job may be brought back. -/
  revives : Store → HistoryJob → Prop

def Rules.none : Rules where
  attempts := fun _ => True
  attempts_pos := fun _ _ => trivial
  starts := fun _ => True
  wakes := True
  edits := True
  replaces := fun _ _ => True
  resumes := fun _ _ => True
  joins := fun _ _ => True
  drops := fun _ => True
  revives := fun _ _ => True

/-- A row changed in place, without its claim starting or ending. -/
structure Touched (rules : Rules) (old new : LiveJob) : Prop extends Kept old new where
  fence : new.fence = old.fence
  attempt : new.attempt = old.attempt
  owner : new.attemptedBy = old.attemptedBy
  running : new.state = .running ↔ old.state = .running
  live : old.state.terminal = false → new.state.terminal = false
  budget : new.maxAttempts = old.maxAttempts ∨ rules.replaces old new
  settled : old.state = .pending ∨ new = old ∨ rules.edits ∨ rules.replaces old new
  mark : new.wakeRequestedAt = old.wakeRequestedAt ∨ new.state ≠ .running ∧ new.wakeRequestedAt = none ∨ rules.wakes
  claim : new.state = .running → new.attemptedAt = old.attemptedAt ∧ new.snoozeReason = old.snoozeReason

theorem Touched.refl (rules : Rules) (row : LiveJob) : Touched rules row row where
  toKept := ⟨rfl, rfl, rfl, rfl, rfl, rfl, rfl, rfl⟩
  fence := rfl
  attempt := rfl
  owner := rfl
  running := Iff.rfl
  live := fun lives => lives
  budget := .inl rfl
  settled := .inr (.inl rfl)
  mark := .inl rfl
  claim := fun _ => ⟨rfl, rfl⟩

/-- A running row left waiting by the end of its attempt. -/
structure Resumed (rules : Rules) (old new : LiveJob) : Prop extends Kept old new where
  fence : new.fence = old.fence
  owner : new.attemptedBy = none
  waits : new.state.waiting = true
  mark : new.wakeRequestedAt = none
  resumes : rules.resumes old new

structure Fresh (row : LiveJob) : Prop where
  attempt : row.attempt = 0
  owner : row.attemptedBy = none
  mark : row.wakeRequestedAt = none
  state : row.state = .pending ∨ row.state.waiting = true

structure Revived (old : HistoryJob) (row : LiveJob) : Prop where
  id : row.id = old.id
  batchID : row.batchID = old.batchID
  fence : row.fence = old.fence
  state : row.state = .available
  mark : row.wakeRequestedAt = none
  budget : row.attempt < row.maxAttempts

/-- The leases once the claim of a row has ended: its own, if a lease owned
it, is gone. -/
def Released (row : LiveJob) (before after : Table LeaseRow) : Prop :=
  ∀ lease, lease ∈ after ↔ lease ∈ before ∧ (row.attemptedBy = none → lease.id ≠ row.id)

inductive Change (rules : Rules) : Roster → Roster → Prop where
  | book (before : Roster) (event : Event) (books : book event = true) :
      Change rules before { before with journal := event :: before.journal }
  | insert (before : Roster) (row : LiveJob) (event : Event)
      (free : before.jobs.has row.id = false) (birth : birth? event = some row)
      (unknown : ¬before.Known row.id) (fresh : Fresh row) (next : row.seq = before.seq + 1)
      (keyFree : before.KeyFree row) (attempts : rules.attempts row.maxAttempts)
      (calls : ∀ batch, event = .callback batch row → row.batchID = none) :
      Change rules before { before with
        jobs := before.jobs.append row free, seq := before.seq + 1
        journal := event :: before.journal }
  | touch (before : Roster) (change : LiveJob → LiveJob)
      (same : ∀ row, Keyed.key (change row) = Keyed.key row)
      (touched : ∀ row ∈ before.jobs, Touched rules row (change row)) :
      Change rules before { before with jobs := before.jobs.update change same }
  | start (before : Roster) (x : W) (client : Int) (condition : LiveJob → Bool)
      (same : ∀ row, Keyed.key (if condition row then x.started (some client) row else row) = Keyed.key row)
      (positive : 0 < client)
      (startable : ∀ row ∈ before.jobs, condition row = true → before.Startable row)
      (starts : rules.starts before) :
      Change rules before { before with
        jobs := before.jobs.update (fun row => if condition row then x.started (some client) row else row) same
        journal := ((before.jobs.rows.filter condition).map fun row =>
          Event.claimed (x.started (some client) row)).reverse ++ before.journal }
  | lease (before : Roster) (x : W) (row : LiveJob) (condition : LiveJob → Bool)
      (same : ∀ row, Keyed.key (if condition row then x.started none row else row) = Keyed.key row)
      (lease : LeaseRow) (leases : Table LeaseRow)
      (only : ∀ other ∈ before.jobs, condition other = true ↔ other = row)
      (member : row ∈ before.jobs) (startable : before.Startable row)
      (id : lease.id = row.id) (fence : lease.fence = row.fence + 1)
      (upserted : ∀ other, other ∈ leases ↔ other = lease ∨ (other ∈ before.leases ∧ other.id ≠ lease.id))
      (starts : rules.starts before) :
      Change rules before { before with
        jobs := before.jobs.update (fun row => if condition row then x.started none row else row) same
        leases := leases
        journal := ((before.jobs.rows.filter condition).map fun row =>
          Event.claimed (x.started none row)).reverse ++ before.journal }
  | resume (before : Roster) (row : LiveJob) (change : LiveJob → LiveJob)
      (same : ∀ row, Keyed.key (change row) = Keyed.key row) (leases : Table LeaseRow)
      (member : row ∈ before.jobs) (running : row.state = .running)
      (resumed : Resumed rules row (change row)) (released : Released row before.leases leases) :
      Change rules before { before with
        jobs := before.jobs.modify row.id change same, leases := leases
        journal := .ended row.id row.fence :: before.journal }
  | finish (before : Roster) (x : W) (finished : Finished) (member : finished.row ∈ before.jobs)
      (waits : finished.row.state ≠ .running) (terminal : finished.state.terminal = true) :
      Change rules before { before with
        jobs := before.jobs.delete fun row => decide (row.id = finished.row.id)
        history :=
          if finished.archive then before.history ++ [finished.archivedAt x.now] else before.history
        journal := .finished finished.row finished.state finished.output :: before.journal }
  | conclude (before : Roster) (x : W) (finished : Finished) (leases : Table LeaseRow)
      (member : finished.row ∈ before.jobs) (running : finished.row.state = .running)
      (terminal : finished.state.terminal = true)
      (released : Released finished.row before.leases leases) :
      Change rules before { before with
        jobs := before.jobs.delete fun row => decide (row.id = finished.row.id)
        history :=
          if finished.archive then before.history ++ [finished.archivedAt x.now] else before.history
        leases := leases
        journal := .finished finished.row finished.state finished.output ::
          .ended finished.row.id finished.row.fence :: before.journal }
  | retry (before : Roster) (old : HistoryJob) (row : LiveJob)
      (free : before.jobs.has row.id = false) (member : old ∈ before.history)
      (revived : Revived old row) (next : row.seq = before.seq + 1) (keyFree : before.KeyFree row)
      (edits : rules.edits) :
      Change rules before { before with
        jobs := before.jobs.append row free, history := before.history.erase old
        seq := before.seq + 1, journal := .retried row :: before.journal }
  | forget (before : Roster) (history : List HistoryJob) (sublist : history.Sublist before.history) :
      Change rules before { before with history := history }
  | renew (before : Roster) (change : LeaseRow → LeaseRow)
      (same : ∀ lease, Keyed.key (change lease) = Keyed.key lease)
      (fence : ∀ lease, (change lease).fence = lease.fence) :
      Change rules before { before with leases := before.leases.update change same }

abbrev Changes (rules : Rules) : Roster → Roster → Prop :=
  Relation.ReflTransGen (Change rules)

end Hopper.Lifecycle
