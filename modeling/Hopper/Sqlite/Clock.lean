import Mathlib.Data.Int.Order.Basic
import Mathlib.Logic.Function.Basic

/-! The database's clock: any number of concurrent calls of `clock`, each a reading of the host's clock and then
loads and swaps of the last time given. The host's clock is in nanoseconds and does not go back. -/

namespace Hopper.Sqlite

open List

/-- In microseconds. -/
def maxClockLead : Int := 500000

inductive ClockCall where
  | idle
  | read (now : Int)
  | loaded (now last : Int)

/-- The calls give times newest first, each with the host's time at its return. -/
structure Clock where
  host : Int
  last : Int
  calls : Nat → ClockCall
  returned : List (Int × Int)

inductive ClockAction where
  | tick (elapsed : Nat)
  | read (call : Nat)
  | load (call : Nat)
  | swap (call : Nat)

namespace Clock

def start (host : Int) : Clock := ⟨host, 0, fun _ => .idle, []⟩

def moved (s : Clock) (call : Nat) (phase : ClockCall) : Clock :=
  { s with calls := Function.update s.calls call phase }

def returns (s : Clock) (call : Nat) (time : Int) : Clock :=
  { s.moved call .idle with last := time, returned := (time, s.host) :: s.returned }

def step (s : Clock) : ClockAction → Option Clock
  | .tick elapsed => some { s with host := s.host + elapsed }
  | .read call =>
    match s.calls call with
    | .idle => some (s.moved call (.read (s.host / 1000)))
    | _ => none
  | .load call =>
    match s.calls call with
    | .read now =>
      let back := s.last - now
      some (if back ≥ 0 ∧ back ≤ maxClockLead then s.returns call s.last else s.moved call (.loaded now s.last))
    | _ => none
  | .swap call =>
    match s.calls call with
    | .loaded now last => some (if s.last = last then s.returns call now else s.moved call (.read now))
    | _ => none

/-- A load comes so many microseconds after its call read the host's clock, at most. -/
def Prompt (delay : Int) (s : Clock) : ClockAction → Prop
  | .load call => ∀ now, s.calls call = .read now → s.host / 1000 - now ≤ delay
  | _ => True

/-- The states of runs from 1970 on whose loads are prompt. -/
inductive Reached (delay : Int) : Clock → Prop where
  | start {host : Int} : 0 ≤ host → Reached delay (start host)
  | step {s later : Clock} (action : ClockAction) :
    Reached delay s → s.step action = some later → s.Prompt delay action → Reached delay later

/-- No call returned an earlier time than one that had returned before it. -/
def NeverBack (s : Clock) : Prop :=
  s.returned.Pairwise fun later earlier => earlier.1 ≤ later.1

/-- No call returned a time ahead of the host's clock by more than the lead. -/
def NeverAhead (s : Clock) : Prop :=
  ∀ given ∈ s.returned, given.1 * 1000 ≤ given.2 + maxClockLead * 1000

/-- What a call knows: a reading of the past, and while loads are prompt, a last time before it. -/
def Knows (delay host : Int) : ClockCall → Prop
  | .idle => True
  | .read now => now ≤ host / 1000
  | .loaded now last => now ≤ host / 1000 ∧ (delay ≤ maxClockLead → last < now)

structure Holds (delay : Int) (s : Clock) : Prop where
  last : s.last ≤ s.host / 1000
  calls : ∀ call, Knows delay s.host (s.calls call)
  ahead : s.NeverAhead
  given : delay ≤ maxClockLead → s.NeverBack ∧ ∀ given ∈ s.returned, given.1 ≤ s.last

namespace Holds

variable {delay : Int} {s : Clock} (holds : s.Holds delay) (call : Nat)
include holds

theorem moved (phase : ClockCall) (knows : Knows delay s.host phase) : (s.moved call phase).Holds delay where
  last := holds.last
  calls other := by
    change Knows delay s.host (Function.update s.calls call phase other)
    rcases eq_or_ne other call with rfl | ne
    · rwa [Function.update_self]
    · rw [Function.update_of_ne ne]
      exact holds.calls other
  ahead := holds.ahead
  given := holds.given

theorem returns {time : Int} (past : time ≤ s.host / 1000) (later : delay ≤ maxClockLead → s.last ≤ time) :
    (s.returns call time).Holds delay where
  last := past
  calls := (holds.moved call .idle trivial).calls
  ahead := by
    refine forall_mem_cons.mpr ⟨?_, holds.ahead⟩
    rw [maxClockLead]
    omega
  given prompt := by
    obtain ⟨ordered, below⟩ := holds.given prompt
    have latest : ∀ given ∈ s.returned, given.1 ≤ time := fun given mem => Int.le_trans (below given mem) (later prompt)
    exact ⟨pairwise_cons.mpr ⟨latest, ordered⟩, forall_mem_cons.mpr ⟨le_rfl, latest⟩⟩

theorem step {later : Clock} {action : ClockAction} (stepped : s.step action = some later) (prompt : s.Prompt delay action) :
    later.Holds delay := by
  cases action with
  | tick elapsed =>
    cases stepped
    have passes : s.host / 1000 ≤ (s.host + elapsed) / 1000 := Int.ediv_le_ediv (by decide) (by omega)
    refine ⟨Int.le_trans holds.last passes, fun call => ?_, holds.ahead, holds.given⟩
    have knew := holds.calls call
    change Knows delay (s.host + elapsed) (s.calls call)
    cases phase : s.calls call with
    | idle => trivial
    | read now =>
      rw [phase] at knew
      exact Int.le_trans knew passes
    | loaded now last =>
      rw [phase] at knew
      exact ⟨Int.le_trans knew.1 passes, knew.2⟩
  | read call =>
    rw [Clock.step] at stepped
    split at stepped <;> cases stepped
    exact holds.moved call _ le_rfl
  | load call =>
    rw [Clock.step] at stepped
    split at stepped <;> cases stepped
    next now phase =>
    have past : Knows delay s.host (.read now) := phase ▸ holds.calls call
    have age := prompt now phase
    have last := holds.last
    split
    · exact holds.returns call last fun _ => le_rfl
    · -- A prompt load that finds no time to return finds an earlier one.
      exact holds.moved call _ ⟨past, fun bounded => by omega⟩
  | swap call =>
    rw [Clock.step] at stepped
    split at stepped <;> cases stepped
    next now last phase =>
    have knew : Knows delay s.host (.loaded now last) := phase ▸ holds.calls call
    split
    · next same => exact holds.returns call knew.1 fun bounded => same ▸ Int.le_of_lt (knew.2 bounded)
    · exact holds.moved call _ knew.1

end Holds

variable {delay : Int} {s : Clock}

theorem Reached.holds (reached : s.Reached delay) : s.Holds delay := by
  induction reached with
  | start from1970 =>
    exact ⟨Int.ediv_nonneg from1970 (by decide), fun _ => trivial, forall_mem_nil _, fun _ => ⟨.nil, forall_mem_nil _⟩⟩
  | step action _ stepped prompt ih => exact ih.step stepped prompt

/-- A call reads the host's clock; another reads it, swaps and returns before the first one loads. -/
theorem reached_overtaken (long : maxClockLead < delay) : ∃ s, Reached delay s ∧ ¬ s.NeverBack := by
  have started : Reached delay (start 0) := .start le_rfl
  have passed := (started.step (.read 0) rfl trivial).step (.tick 500001000) rfl trivial
  have second := ((passed.step (.read 1) rfl trivial).step (.load 1) rfl fun now found => ?_).step (.swap 1) rfl trivial
  have first := (second.step (.load 0) rfl fun now found => ?_).step (.swap 0) rfl trivial
  · refine ⟨_, first, ?_⟩
    change ¬ Pairwise (fun later earlier : Int × Int => earlier.1 ≤ later.1) [(0, 500001000), (500001, 500001000)]
    decide
  · have equal : (0 : Int) = now := ClockCall.read.inj found
    change (500001 : Int) - now ≤ delay
    rw [maxClockLead] at long
    omega
  · have equal : (500001 : Int) = now := ClockCall.read.inj found
    change (500001 : Int) - now ≤ delay
    rw [maxClockLead] at long
    omega

/-- Calls that load at most the lead after their reading keep the order of times; with any longer delay, some do not. -/
theorem clock_never_back_iff (delay : Int) :
    (∀ s, Reached delay s → s.NeverBack ∧ s.NeverAhead) ↔ delay ≤ maxClockLead := by
  constructor
  · intro keeps
    by_contra long
    obtain ⟨s, reached, back⟩ := reached_overtaken (not_le.mp long)
    exact back (keeps s reached).1
  · intro prompt s reached
    exact ⟨(reached.holds.given prompt).1, reached.holds.ahead⟩

theorem clock_goes_back :
    ([.read 0, .tick 900000000, .read 1, .load 1, .swap 1, .load 0, .swap 0].foldlM step (start 100000000)).map returned =
      some [(100000, 1000000000), (1000000, 1000000000)] := by
  rfl

end Clock

end Hopper.Sqlite
