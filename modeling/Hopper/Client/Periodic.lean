import Hopper.Kernel.Ticks
import Hopper.Sqlite.Cluster
import Mathlib.Logic.Function.Basic

/-! The periodic loop: the slots each pass inserts, over the leaders that run it.
Times are in nanoseconds; a schedule's zero time is none. -/

namespace Hopper.Client

open Kernel Driver Sqlite

structure PeriodicOpts where
  runOnStart : Bool := false
  catchUp : Int := 0

/-- A periodic job: its schedule's `Next`, and the job that is built for a slot. -/
structure PeriodicJob where
  name : String
  schedule : Ticks
  opts : Option PeriodicOpts := none
  params : Int → JobInsertParams

def zeroTime : Int := -62135596800000000000

/-- `Time.Truncate`: the last multiple of a period since the zero time. -/
def truncate (time period : Int) : Int :=
  time - (time - zeroTime) % period

/-- `IntervalSchedule.Next`. A time is not cut to an interval that is not positive. -/
def intervalNext (interval time : Int) : Int :=
  (if interval ≤ 0 then time else truncate time interval) + interval

def intervalSchedule (interval : Int) (positive : 0 < interval) : Ticks where
  next time := some (intervalNext interval time)
  later time tick found := by
    have := Int.emod_lt_of_pos (time - zeroTime) positive
    have := Option.some.inj found
    unfold intervalNext truncate at this
    omega

def maxCatchUp : Nat := 10000

/-- A slot is added to a search for so many, which lets the oldest go. -/
def keepRecent (n : Nat) (slots : List Int) (slot : Int) : List Int :=
  (if slots.length = 2 * n then slots.drop n else slots) ++ [slot]

/-- `Time.Sub`: a duration is kept within 64 bits. -/
def subTime (time other : Int) : Int :=
  max (-9223372036854775808) (min 9223372036854775807 (time - other))

section
variable (next : Int → Option Int) (last now : Int) (n : Nat)

/-- The inner loop of `recentSlots`, unless so many rounds are too few. -/
def collectSlots : Nat → Option Int → List Int → Option (List Int)
  | 0, _, _ => none
  | _ + 1, none, slots => some slots
  | fuel + 1, some slot, slots =>
    if now < slot then some slots else collectSlots fuel (next slot) (keepRecent n slots slot)

/-- Its outer loop, over a window that doubles. -/
def lookBack (span : Int) : Nat → Int → Option (List Int)
  | 0, _ => none
  | fuel + 1, w => do
      let start := if span ≤ w then last else now - w
      let slots ← collectSlots next now n fuel (next start) []
      if n ≤ slots.length ∨ start ≤ last then some (slots.drop (slots.length - n))
      else lookBack span fuel (if span.tdiv 2 < w then span else w * 2)

/-- The most recent slots after one time and not after another, unless so many
rounds of the loops are too few. -/
def recentSlots (rounds : Nat) : Option (List Int) :=
  let span := subTime now last
  lookBack next last now n span rounds (min 1000000 span)

/-- Rounds enough for ticks, each of which is later than the one before it. -/
def slotRounds : Nat :=
  (subTime now last - min 1000000 (subTime now last)).toNat + 1 + (now - last).toNat + 1

end

def PeriodicJob.recentSlots (job : PeriodicJob) (last now : Int) (n : Nat) : List Int :=
  (Client.recentSlots job.schedule.next last now n (slotRounds last now)).getD []

/-- What comes of an insert: the job or its owner is removed, or the job cannot be
built; the database refuses it; or its write runs at a time, and its reply may
be lost. -/
inductive InsertFate where
  | removed
  | ownerRemoved
  | unbuilt
  | refused
  | sent (now : Int) (lost : Bool)
deriving DecidableEq

/-- The store, with a log of the slots whose jobs were inserted. -/
structure PeriodicStore where
  store : Store
  inserted : List (String × Int) := []

def PeriodicStore.slots (s : PeriodicStore) (name : String) : List Int :=
  (s.inserted.filter fun entry => decide (entry.1 = name)).map Prod.snd

/-- Whether a slot is done with, rather than to be tried again. -/
def insertPeriodic (engine : Engine) (job : PeriodicJob) (slot : Int) (s : PeriodicStore) :
    InsertFate → Bool × PeriodicStore
  | .removed | .unbuilt => (true, s)
  | .ownerRemoved | .refused => (false, s)
  | .sent now lost =>
    match W.periodicInsert ⟨engine, now⟩ ⟨job.name, slot, job.params slot⟩ s.store with
    | .error _ => (false, s)
    | .ok (reply, after) =>
      (!lost,
        { store := after
          inserted :=
            if reply.any fun result => !result.duplicate then s.inserted ++ [(job.name, slot)] else s.inserted })

/-- A loop over slots: the slot it has come to, whether all before were done
with, and how many inserts it made. -/
structure Walk where
  next : Option Int
  inserted : Bool := true
  calls : Nat := 0
  store : PeriodicStore

def insertSlots (engine : Engine) (job : PeriodicJob) (fate : Nat → InsertFate) : List Int → Walk → Walk
  | [], walk => walk
  | slot :: rest, walk =>
    match insertPeriodic engine job slot walk.store (fate walk.calls) with
    | (false, store) => { next := some slot, inserted := false, calls := walk.calls + 1, store := store }
    | (true, store) =>
      insertSlots engine job fate rest
        { next := job.schedule.next slot, inserted := true, calls := walk.calls + 1, store := store }

structure PeriodicTuning where
  leaderTTL : Int
  leaderInterval : Int

/-- A leader's client: the registrations there ever are, by reference. -/
structure PeriodicClient (Ref : Type) where
  engine : Engine
  tuning : PeriodicTuning
  jobs : Ref → PeriodicJob

/-- What the periodic loop keeps between the passes of a term. -/
structure PeriodicState (Ref : Type) where
  next : Ref → Option (Option Int) := fun _ => none
  retryAt : Ref → Option Int := fun _ => none
  clockFailed : Bool := false
  wakeAt : Option Int := none

/-- What a pass meets: the registrations in effect, those removed since, the
clock and the read of the slots, which may fail, what comes of each insert, and
its readings of the local clock. -/
structure PeriodicInput (Ref : Type) where
  regs : List Ref
  removed : Ref → Bool := fun _ => false
  clock : Option Int
  read : Int := 0
  slotsRead : Bool := true
  fate : Ref → Nat → InsertFate
  ownerRemoved : Ref → Bool := fun _ => false
  failedAt : Ref → Int := fun _ => 0
  slept : Int := 0
  untilAt : Ref → Int := fun _ => 0
  woke : Int := 0

/-- A pass in progress. `done` is a log of the jobs for which nothing failed. -/
structure PeriodicPass (Ref : Type) where
  state : PeriodicState Ref
  store : PeriodicStore
  soonest : Option Int := none
  done : List Ref := []

namespace PeriodicClient

variable {Ref : Type} [DecidableEq Ref] (c : PeriodicClient Ref)

/-- The slots of a job after one time and not after another that it inserts
when it starts. -/
def missedSlots (job : PeriodicJob) (last now : Int) : List Int :=
  let window := job.recentSlots (max last (now - c.tuning.leaderTTL)) now maxCatchUp
  match job.opts with
  | none => window
  | some opts =>
    if opts.catchUp ≤ window.length then window
    else job.recentSlots last now (min opts.catchUp maxCatchUp).toNat

/-- A job that has been started, held up by a failure or not. -/
def goOn (job : PeriodicJob) (fate : Nat → InsertFate) (now : Int) (heldUp : Bool) (next : Option Int)
    (store : PeriodicStore) : Walk :=
  let floor := now - c.tuning.leaderTTL
  let walk : Walk :=
    match next with
    | none => { next := none, store := store }
    | some n =>
      if heldUp ∧ n < floor then
        insertSlots c.engine job fate (c.missedSlots job (n - 1) now)
          { next := job.schedule.next floor, store := store }
      else { next := some n, store := store }
  if walk.inserted then insertSlots c.engine job fate (job.schedule.listed walk.next now) walk else walk

def startPeriodic (job : PeriodicJob) (fate : Nat → InsertFate) (now : Int) (last : Option Int) (store : PeriodicStore) :
    Option (Option Int) × PeriodicStore :=
  let start : Walk := { next := none, store := store }
  let walk := last.elim start fun last => insertSlots c.engine job fate (c.missedSlots job last now) start
  if walk.inserted then
    if job.opts.any PeriodicOpts.runOnStart then
      match insertPeriodic c.engine job now walk.store (fate walk.calls) with
      | (false, store) => (none, store)
      | (true, store) => (some (job.schedule.next now), store)
    else (some (job.schedule.next now), walk.store)
  else (none, walk.store)

section
variable (input : PeriodicInput Ref)

/-- A job that failed is not yet due to be tried again. -/
def waiting (state : PeriodicState Ref) (ref : Ref) : Bool :=
  (state.retryAt ref).any fun given => decide (input.read < given)

def retry (pass : PeriodicPass Ref) (ref : Ref) : PeriodicPass Ref :=
  if input.ownerRemoved ref then pass
  else
    { pass with
      state := { pass.state with
        retryAt := Function.update pass.state.retryAt ref (some (input.failedAt ref + c.tuning.leaderInterval)) } }

end

/-- Nothing failed for a job, which has come to a slot. -/
def succeed (now : Int) (next : Option Int) (pass : PeriodicPass Ref) (ref : Ref) : PeriodicPass Ref :=
  { pass with
    state := { pass.state with
      next := Function.update pass.state.next ref (some next)
      retryAt := Function.update pass.state.retryAt ref none }
    soonest :=
      match next with
      | none => pass.soonest
      | some n => if now < n ∧ pass.soonest.all (fun soonest => decide (n < soonest)) then some n else pass.soonest
    done := ref :: pass.done }

variable (input : PeriodicInput Ref)

def goOnWith (now : Int) (stale : Bool) (pass : PeriodicPass Ref) (ref : Ref) : PeriodicPass Ref :=
  match pass.state.next ref with
  | none => pass
  | some next =>
    if waiting input pass.state ref then pass
    else
      let walk := c.goOn (c.jobs ref) (input.fate ref) now (stale || (pass.state.retryAt ref).isSome) next pass.store
      let pass := { pass with store := walk.store }
      if walk.inserted then succeed now walk.next pass ref
      else
        c.retry input
          { pass with state := { pass.state with next := Function.update pass.state.next ref (some walk.next) } } ref

def startWith (now : Int) (lastSlots : String → Option Int) (pass : PeriodicPass Ref) (ref : Ref) : PeriodicPass Ref :=
  match c.startPeriodic (c.jobs ref) (input.fate ref) now (lastSlots (c.jobs ref).name) pass.store with
  | (none, store) => c.retry input { pass with store := store } ref
  | (some next, store) => succeed now next { pass with store := store } ref

def wakeAt (now : Int) (pass : PeriodicPass Ref) : Option Int :=
  let sleep := pass.soonest.map fun soonest => soonest - now - input.slept
  let sleep := input.regs.foldl (fun sleep ref =>
    match pass.state.retryAt ref with
    | none => sleep
    | some given =>
      let left := given - input.untilAt ref
      some (sleep.elim left fun sleep => min sleep left)) sleep
  sleep.map fun sleep => now + input.woke + max sleep 0

/-- The jobs added start, unless they wait, from the slots then recorded. -/
def startAll (now : Int) (added : List Ref) (pass : PeriodicPass Ref) : PeriodicPass Ref :=
  let starting := added.filter fun ref => !waiting input pass.state ref
  if starting = [] then pass
  else if input.slotsRead then
    let periodic := pass.store.store.periodic
    starting.foldl (c.startWith input now fun name => (periodic.find? name).map fun row => row.lastSlot * 1000) pass
  else starting.foldl (c.retry input) pass

def passAt (now : Int) (added : List Ref) (state : PeriodicState Ref) (store : PeriodicStore) : PeriodicPass Ref :=
  let stale := state.clockFailed || state.wakeAt.any fun given => decide (c.tuning.leaderTTL < now - given)
  let pass : PeriodicPass Ref := { state := { state with clockFailed := false }, store := store }
  let pass := c.startAll input now added (input.regs.foldl (c.goOnWith input now stale) pass)
  { pass with state := { pass.state with wakeAt := wakeAt input now pass } }

def periodicPass (state : PeriodicState Ref) (store : PeriodicStore) : PeriodicPass Ref :=
  let added := input.regs.filter fun ref => (state.next ref).isNone
  let keeps := fun ref => !input.removed ref && decide (ref ∈ input.regs)
  let state := { state with
    next := fun ref => if keeps ref then state.next ref else none
    retryAt := fun ref => if keeps ref then state.retryAt ref else none }
  if input.regs = [] then { state := { state with wakeAt := none }, store := store }
  else
    match input.clock with
    | none => { state := { state with clockFailed := true }, store := store }
    | some now => c.passAt input now added state store

end PeriodicClient

/-- The leader's loop and the store, with the latest time a pass read. -/
structure PeriodicSystem (Ref : Type) where
  store : PeriodicStore
  state : PeriodicState Ref := {}
  clock : Option Int := none

section
variable {Ref : Type} [DecidableEq Ref]

def PeriodicSystem.pass (c : PeriodicClient Ref) (input : PeriodicInput Ref) (s : PeriodicSystem Ref) :
    PeriodicPass Ref :=
  c.periodicPass input s.state s.store

/-- The clock of a pass that processed a job, in which nothing failed for it. -/
def PeriodicSystem.good (c : PeriodicClient Ref) (input : PeriodicInput Ref) (name : String) (s : PeriodicSystem Ref) :
    Option Int :=
  if (s.pass c input).done.any fun ref => decide ((c.jobs ref).name = name) then input.clock else none

/-- The times a job's slots are followed from: its first slot, or the good pass
that recorded it, and each good pass since, latest first. -/
def followed (before after : List Int) (good : Option Int) (times : List Int) : List Int :=
  match before, after with
  | [], [] => []
  | [], first :: _ => [good.getD first]
  | _ :: _, _ => good.toList ++ times

/-- Runs of a job's passes, by successive leaders, with the times it is followed
from. No two registrations in effect share a name; the job is not removed in the
middle of a pass, and can be built. -/
inductive PeriodicRun (c : PeriodicClient Ref) (name : String) : PeriodicSystem Ref → List Int → Prop
  | start (store : Store) (fresh : store.periodic.find? name = none) : PeriodicRun c name ⟨⟨store, []⟩, {}, none⟩ []
  /-- Another leader takes over. -/
  | term {s : PeriodicSystem Ref} {times : List Int} (run : PeriodicRun c name s times) :
      PeriodicRun c name { s with state := {} } times
  | other {s : PeriodicSystem Ref} {times : List Int} (run : PeriodicRun c name s times) (store : Store)
      (kept : store.periodic = s.store.store.periodic) :
      PeriodicRun c name { s with store := { s.store with store := store } } times
  | pass {s : PeriodicSystem Ref} {times : List Int} (run : PeriodicRun c name s times) (input : PeriodicInput Ref)
      (distinct : (input.regs.map fun ref => (c.jobs ref).name).Nodup)
      (later : ∀ now, input.clock = some now → ∀ clock, s.clock = some clock → clock ≤ now)
      (stays : ∀ ref, (c.jobs ref).name = name → ∀ call, input.fate ref call ≠ .removed ∧ input.fate ref call ≠ .unbuilt) :
      PeriodicRun c name
        { store := (s.pass c input).store, state := (s.pass c input).state, clock := input.clock <|> s.clock }
        (followed (s.store.slots name) ((s.pass c input).store.slots name) (s.good c input name) times)

end

end Hopper.Client
