import Hopper.Kernel.Calendar
import Hopper.Kernel.Loop

/-! Cron schedules. Times are whole seconds since the epoch; a location turns
them into wall clocks, and wall clocks into times as Go's `time.Date` does. -/

namespace Hopper.Client

open Kernel Kernel.Calendar

/-- A time zone: the offset before the first transition, and each
transition's time with the offset from then on. -/
structure Location where
  first : Int := 0
  transitions : List (Int × Int) := []
  ordered : transitions.Pairwise fun left right => left.1 < right.1

structure Span where
  offset : Int
  start : Option Int
  stop : Option Int

def Span.has (span : Span) (time : Int) : Bool :=
  decide ((∀ start ∈ span.start, start ≤ time) ∧ ∀ stop ∈ span.stop, time < stop)

namespace Location

def fixed (offset : Int) : Location where
  first := offset
  ordered := .nil

/-- The span of a time, among the transitions that follow an offset's start. -/
def lookupFrom (time : Int) : Int → Option Int → List (Int × Int) → Span
  | offset, start, [] => ⟨offset, start, none⟩
  | offset, start, (when, next) :: rest =>
    if time < when then ⟨offset, start, some when⟩
    else lookupFrom time next (some when) rest

def lookup (loc : Location) (time : Int) : Span :=
  lookupFrom time loc.first none loc.transitions

def offset (loc : Location) (time : Int) : Int :=
  (loc.lookup time).offset

/-- The time of a wall clock. It is looked up as if it were a time; if the
offset found there is not in force at the time it leads to, the one that is
decides. -/
def date (loc : Location) (wall : Int) : Int :=
  if loc.offset wall = 0 then wall
  else if (loc.lookup wall).has (wall - loc.offset wall) then wall - loc.offset wall
  else wall - loc.offset (wall - loc.offset wall)

variable {transitions : List (Int × Int)}

theorem exists_start (time offset : Int) {since : Int}
    (ordered : transitions.Pairwise fun left right => left.1 < right.1)
    (post : ∀ transition ∈ transitions, since < transition.1) :
    ∃ start, (lookupFrom time offset (some since) transitions).start = some start ∧ since ≤ start := by
  induction transitions generalizing offset since with
  | nil => exact ⟨since, rfl, Int.le_refl _⟩
  | cons transition rest ih =>
    obtain ⟨ahead, ordered⟩ := List.pairwise_cons.mp ordered
    rw [lookupFrom]
    split
    · exact ⟨since, rfl, Int.le_refl _⟩
    · obtain ⟨start, found, later⟩ := ih transition.2 ordered ahead
      exact ⟨start, found, (post transition List.mem_cons_self).le.trans later⟩

theorem offset_of_has {time other offset : Int} {since : Option Int}
    (ordered : transitions.Pairwise fun left right => left.1 < right.1)
    (inside : (lookupFrom time offset since transitions).has other = true) :
    (lookupFrom other offset since transitions).offset = (lookupFrom time offset since transitions).offset := by
  induction transitions generalizing offset since with
  | nil => rfl
  | cons transition rest ih =>
    obtain ⟨ahead, ordered⟩ := List.pairwise_cons.mp ordered
    rw [lookupFrom] at inside ⊢
    rw [lookupFrom]
    split at inside
    · next pre =>
      have early := (of_decide_eq_true inside).2 transition.1 rfl
      rw [if_pos early, if_pos pre]
    · next post =>
      obtain ⟨start, found, later⟩ := exists_start time transition.2 ordered ahead
      have late := later.trans ((of_decide_eq_true inside).1 start found)
      rw [if_neg (not_lt_of_ge late), if_neg post]
      exact ih ordered inside

theorem date_eq (loc : Location) (wall : Int) : loc.date wall = wall - loc.offset (wall - loc.offset wall) := by
  unfold date
  split
  · next zero => rw [zero, Int.sub_zero, zero, Int.sub_zero]
  · split
    · next inside =>
      have same : loc.offset (wall - loc.offset wall) = loc.offset wall := offset_of_has loc.ordered inside
      rw [same]
    · rfl

def wall (loc : Location) (time : Int) : Int :=
  time + loc.offset time

def day (loc : Location) (time : Int) : Int := loc.wall time / 86400

def clock (loc : Location) (time : Int) : Int := loc.wall time % 86400

def month (loc : Location) (time : Int) : Int := monthOf (loc.day time)

def hour (loc : Location) (time : Int) : Int := loc.clock time / 3600

def minute (loc : Location) (time : Int) : Int := loc.clock time % 3600 / 60

def second (loc : Location) (time : Int) : Int := loc.clock time % 60

def midnight (loc : Location) (day : Int) : Int := loc.date (day * 86400)

def addDate (loc : Location) (time months days : Int) : Int :=
  let ofMonth := loc.day time - monthStart (loc.month time)
  loc.date ((monthStart (loc.month time + months) + ofMonth + days) * 86400 + loc.clock time)

end Location

/-- A parsed cron expression: the values of each field as bits. -/
structure CronSchedule where
  second : Nat
  minute : Nat
  hour : Nat
  dom : Nat
  month : Nat
  dow : Nat
  domStar : Bool
  dowStar : Bool
  loc : Location

/-- The loops of `Next`, and the label they go back to. -/
inductive Phase where
  | wrap | month | day | hour | minute | second
  deriving DecidableEq

structure Search where
  phase : Phase
  reset : Bool
  time : Int
  deriving DecidableEq

namespace CronSchedule

def inLocation (schedule : CronSchedule) (loc : Location) : CronSchedule :=
  { schedule with loc := loc }

def dayMatches (schedule : CronSchedule) (time : Int) : Bool :=
  let dom := schedule.dom.testBit (dayOfMonth (schedule.loc.day time)).toNat
  let dow := schedule.dow.testBit (weekday (schedule.loc.day time)).toNat
  if schedule.domStar || schedule.dowStar then dom && dow else dom || dow

def fits (schedule : CronSchedule) (time : Int) : Phase → Bool
  | .wrap => true
  | .month => schedule.month.testBit (monthNumber (schedule.loc.month time)).toNat
  | .day => schedule.dayMatches time
  | .hour => schedule.hour.testBit (schedule.loc.hour time).toNat
  | .minute => schedule.minute.testBit (schedule.loc.minute time).toNat
  | .second => schedule.second.testBit (schedule.loc.second time).toNat

/-- The body of a loop: unless they are reset already, the lower fields start
from zero. Below the day this subtracts from the time rather than rebuilding
the wall clock. -/
def advance (loc : Location) (reset : Bool) (time : Int) : Phase → Int
  | .wrap => time
  | .month => loc.addDate (if reset then time else loc.midnight (monthStart (loc.month time))) 1 0
  | .day =>
    let next := loc.addDate (if reset then time else loc.midnight (loc.day time)) 0 1
    -- A change of offset can leave the wall clock off midnight.
    if loc.hour next ≠ 0 then loc.midnight (loc.day next) else next
  | .hour => (if reset then time else time - (loc.minute time * 60 + loc.second time)) + 3600
  | .minute => (if reset then time else time - loc.second time) + 60
  | .second => time + 1

/-- Whether a loop goes back to `wrap` from where its body leads. -/
def wraps (loc : Location) (time : Int) : Phase → Bool
  | .wrap => false
  | .month => decide (monthNumber (loc.month time) = 1)
  | .day => decide (dayOfMonth (loc.day time) = 1)
  | .hour => decide (loc.hour time = 0)
  | .minute => decide (loc.minute time = 0)
  | .second => decide (loc.second time = 0)

def following : Phase → Option Phase
  | .wrap => some .month
  | .month => some .day
  | .day => some .hour
  | .hour => some .minute
  | .minute => some .second
  | .second => none

/-- The zero `time.Time`: January 1 of year 1, in UTC. -/
def zeroSecond : Int := -62135596800

/-- One test of a loop, and its body if the test fails. The result is the time
found, or the zero time past the last year. -/
def step (schedule : CronSchedule) (yearLimit : Int) (search : Search) : Outcome Search Int :=
  if search.phase = .wrap then
    if year (schedule.loc.month search.time) > yearLimit then .done zeroSecond
    else .next ⟨.month, false, search.time⟩
  else if schedule.fits search.time search.phase then
    match following search.phase with
    | some phase => .next { search with phase := phase }
    | none => .done search.time
  else
    let time := advance schedule.loc search.reset search.time search.phase
    .next ⟨if wraps schedule.loc time search.phase then .wrap else search.phase, true, time⟩

/-- The next whole second after a time in nanoseconds, the first candidate. -/
def candidate (nanos : Int) : Int := nanos / 1000000000 + 1

def yearLimit (schedule : CronSchedule) (nanos : Int) : Int :=
  year (schedule.loc.month (candidate nanos)) + 5

/-- What `Next` returns, if it does within so many steps. -/
def next (schedule : CronSchedule) (fuel : Nat) (nanos : Int) : Option Int :=
  Outcome.runFor (schedule.step (schedule.yearLimit nanos)) fuel ⟨.wrap, false, candidate nanos⟩

end CronSchedule

end Hopper.Client
