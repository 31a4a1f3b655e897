import Hopper.Client.Cron
import Mathlib.Data.Int.SuccPred

/-! The search for a cron schedule's next slot: what one step of it does, and
that a search whose loops go forward in time ends. -/

namespace Hopper.Guarantees

open Kernel Kernel.Calendar Client Client.CronSchedule

structure Slot (cron : CronSchedule) (time : Int) : Prop where
  month : cron.month.testBit (monthNumber (cron.loc.month time)).toNat = true
  day : cron.dayMatches time = true
  hour : cron.hour.testBit (cron.loc.hour time).toNat = true
  minute : cron.minute.testBit (cron.loc.minute time).toNat = true
  second : cron.second.testBit (cron.loc.second time).toNat = true

theorem Slot.fits {cron : CronSchedule} {time : Int} (slot : Slot cron time) (phase : Phase) : cron.fits time phase = true := by
  cases phase with
  | wrap => rfl
  | month => exact slot.month
  | day => exact slot.day
  | hour => exact slot.hour
  | minute => exact slot.minute
  | second => exact slot.second

/-- The loop over months or over days, begun at the midnight that starts the
time's month or date, goes on to the first instant of the next. -/
structure GoesOn (loc : Location) (time : Int) (phase : Phase) (next : Int) : Prop where
  arrives : advance loc false time phase = loc.midnight next
  date : loc.day (loc.midnight next) = next
  ahead : time < loc.midnight next

/-- The loops can leave the time's month or date, if it is not one of the
schedule's. -/
structure Departs (cron : CronSchedule) (time : Int) : Prop where
  month : cron.fits time .month = false → GoesOn cron.loc time .month (monthStart (cron.loc.month time + 1))
  day : cron.fits time .month = true → cron.fits time .day = false → GoesOn cron.loc time .day (cron.loc.day time + 1)

def phaseRank : Phase → Nat
  | .wrap => 6
  | .month => 5
  | .day => 4
  | .hour => 3
  | .minute => 2
  | .second => 1

/-- What the loops over months and days know of the time once the lower fields
are reset. -/
def Levelled (loc : Location) (reset : Bool) (time : Int) : Phase → Prop
  | .month => reset = true → time = loc.midnight (monthStart (loc.month time)) ∧ loc.day time = monthStart (loc.month time)
  | .day => reset = true → time = loc.midnight (loc.day time)
  | _ => True

/-- Where the body of the search's loop leads. -/
def moved (cron : CronSchedule) (search : Search) : Int :=
  advance cron.loc search.reset search.time search.phase

section
variable {cron : CronSchedule} {limit : Int} {search later : Search}

theorem step_next (stepped : cron.step limit search = .next later) :
    (search.phase = .wrap ∧ year (cron.loc.month search.time) ≤ limit ∧ later = ⟨.month, false, search.time⟩) ∨
    (search.phase ≠ .wrap ∧ cron.fits search.time search.phase = true ∧
      ∃ phase, following search.phase = some phase ∧ later = { search with phase := phase }) ∨
    (search.phase ≠ .wrap ∧ cron.fits search.time search.phase = false ∧ later =
      ⟨if wraps cron.loc (moved cron search) search.phase then .wrap else search.phase, true, moved cron search⟩) := by
  unfold step at stepped
  split at stepped
  · next wrap =>
    split at stepped
    · cases stepped
    · next within =>
      cases stepped
      exact .inl ⟨wrap, not_lt.mp within, rfl⟩
  · next looping =>
    split at stepped
    · next fitting =>
      split at stepped
      · next phase followed =>
        cases stepped
        exact .inr (.inl ⟨looping, fitting, phase, followed, rfl⟩)
      · cases stepped
    · next failing =>
      cases stepped
      exact .inr (.inr ⟨looping, Bool.not_eq_true _ ▸ failing, rfl⟩)

theorem step_done {result : Int} (stepped : cron.step limit search = .done result) :
    (search.phase = .wrap ∧ limit < year (cron.loc.month search.time) ∧ result = zeroSecond) ∨
    (search.phase = .second ∧ cron.fits search.time .second = true ∧ result = search.time) := by
  unfold step at stepped
  split at stepped
  · next wrap =>
    split at stepped
    · next past =>
      cases stepped
      exact .inl ⟨wrap, past, rfl⟩
    · cases stepped
  · split at stepped
    · next fitting =>
      split at stepped
      · cases stepped
      · next last =>
        cases stepped
        have second : search.phase = .second := by
          cases same : search.phase with
          | second => rfl
          | _ =>
            rw [same] at last
            cases last
        exact .inr ⟨second, second ▸ fitting, rfl⟩
    · cases stepped

theorem phaseRank_following {phase next : Phase} (followed : following phase = some next) :
    phaseRank next + 1 = phaseRank phase ∧ next ≠ .wrap := by
  cases phase <;> cases followed <;> exact ⟨rfl, by decide⟩

/-- Once reset, the loops over months and days are at the midnight they would
begin from. -/
theorem advance_level {loc : Location} {reset : Bool} {time : Int} {phase : Phase} (above : 3 < phaseRank phase)
    (level : Levelled loc reset time phase) : advance loc reset time phase = advance loc false time phase := by
  cases reset with
  | false => rfl
  | true =>
    cases phase with
    | wrap => rfl
    | month => rw [advance, advance, if_pos rfl, if_neg Bool.false_ne_true, ← (level rfl).1]
    | day => rw [advance, advance, if_pos rfl, if_neg Bool.false_ne_true, ← level rfl]
    | _ => exact absurd above (by decide)

/-- The search is at or after a start and, in the loops over months and days,
level and in a year that is searched. -/
structure OnCourse (cron : CronSchedule) (limit start : Int) (search : Search) : Prop where
  started : start ≤ search.time
  level : Levelled cron.loc search.reset search.time search.phase
  within : search.phase = .month ∨ search.phase = .day → year (cron.loc.month search.time) ≤ limit
  fitted : search.phase = .day → cron.fits search.time .month = true

variable {start : Int}

theorem OnCourse.moved_month (course : OnCourse cron limit start search) (phase : search.phase = .month)
    (goesOn : GoesOn cron.loc search.time .month (monthStart (cron.loc.month search.time + 1))) :
    moved cron search = cron.loc.midnight (monthStart (cron.loc.month search.time + 1)) := by
  have level := course.level
  rw [phase] at level
  rw [moved, phase, advance_level (by decide) level, goesOn.arrives]

theorem OnCourse.moved_day (course : OnCourse cron limit start search) (phase : search.phase = .day)
    (goesOn : GoesOn cron.loc search.time .day (cron.loc.day search.time + 1)) :
    moved cron search = cron.loc.midnight (cron.loc.day search.time + 1) := by
  have level := course.level
  rw [phase] at level
  rw [moved, phase, advance_level (by decide) level, goesOn.arrives]

section
variable (course : OnCourse cron limit start search) (departs : cron.fits search.time search.phase = false →
  search.phase = .month ∨ search.phase = .day → Departs cron search.time)
include course departs

theorem OnCourse.lt_moved (looping : search.phase ≠ .wrap) (failing : cron.fits search.time search.phase = false) :
    search.time < moved cron search := by
  cases phase : search.phase with
  | wrap => exact absurd phase looping
  | month =>
    have goesOn := (departs failing (.inl phase)).month (phase ▸ failing)
    exact course.moved_month phase goesOn ▸ goesOn.ahead
  | day =>
    have goesOn := (departs failing (.inr phase)).day (course.fitted phase) (phase ▸ failing)
    exact course.moved_day phase goesOn ▸ goesOn.ahead
  | hour | minute | second =>
    simp only [moved, phase, advance, Location.minute, Location.second]
    omega

theorem OnCourse.keeps (stepped : cron.step limit search = .next later) : OnCourse cron limit start later := by
  have level := course.level
  rcases step_next stepped with ⟨wrap, within, rfl⟩ | ⟨looping, fits, phase, followed, rfl⟩ | ⟨looping, failing, rfl⟩
  · exact ⟨course.started, (fun reset => by cases reset), fun _ => within, fun day => by cases day⟩
  · cases same : search.phase with
    | wrap => exact absurd same looping
    | month =>
      rw [same] at level followed fits
      cases followed
      refine ⟨course.started, fun reset => ?_, fun _ => course.within (.inl same), fun _ => fits⟩
      rw [(level reset).2]
      exact (level reset).1
    | second => rw [same] at followed; cases followed
    | _ =>
      rw [same] at followed
      cases followed
      exact ⟨course.started, trivial, by simp, fun day => by cases day⟩
  · have started := course.started.trans (course.lt_moved departs looping failing).le
    split
    · exact ⟨started, trivial, by simp, fun day => by cases day⟩
    · next goes =>
      cases same : search.phase with
      | wrap => exact absurd same looping
      | month =>
        have goesOn := (departs failing (.inl same)).month (same ▸ failing)
        have month : cron.loc.month (moved cron search) = cron.loc.month search.time + 1 := by
          rw [course.moved_month same goesOn, Location.month, goesOn.date, monthOf_monthStart]
        have early := course.within (.inl same)
        refine ⟨started, fun _ => ?_, fun _ => ?_, fun day => by cases day⟩
        · dsimp only
          rw [month, course.moved_month same goesOn, goesOn.date]
          exact ⟨rfl, rfl⟩
        · simp only [same, wraps, month, decide_eq_true_eq, monthNumber] at goes
          simp only [month, year] at early ⊢
          omega
      | day =>
        have goesOn := (departs failing (.inr same)).day (course.fitted same) (same ▸ failing)
        have day : cron.loc.day (moved cron search) = cron.loc.day search.time + 1 := by
          rw [course.moved_day same goesOn, goesOn.date]
        have month : cron.loc.month (moved cron search) = cron.loc.month search.time := by
          rw [Location.month, day, monthOf_succ, Location.month]
          simpa [wraps, same, day] using goes
        refine ⟨started, fun _ => ?_, fun _ => ?_, fun _ => ?_⟩
        · dsimp only
          rw [day]
          exact course.moved_day same goesOn
        · exact month ▸ course.within (.inr same)
        · have fitted := course.fitted same
          simp only [fits, month] at fitted ⊢
          exact fitted
      | _ => exact ⟨started, trivial, by simp, fun day => by cases day⟩

end

/-! What is left of a search. Once the offset has settled and the last year is
over, the loops below the day end or go back to `wrap`, where the search ends. -/

def runsLeft (loc : Location) (time : Int) : Phase → Nat
  | .hour => (24 - loc.hour time).toNat
  | .minute => (60 - loc.minute time).toNat
  | .second => (60 - loc.second time).toNat
  | _ => 0

theorem runsLeft_lt (loc : Location) (time : Int) (phase : Phase) : runsLeft loc time phase < 100 := by
  cases phase <;> simp only [runsLeft, Location.hour, Location.minute, Location.second, Location.clock] <;> omega

/-- From a time on the offset stays and the years are past the limit. -/
structure SettledFrom (loc : Location) (limit start : Int) : Prop where
  offset : ∀ time, start ≤ time → loc.offset time = loc.offset start
  past : ∀ time, start ≤ time → limit < year (loc.month time)

theorem lookupFrom_settles (transitions : List (Int × Int)) (offset : Int) :
    ∃ last start, ∀ time, start ≤ time → ∀ since, (Location.lookupFrom time offset since transitions).offset = last := by
  induction transitions generalizing offset with
  | nil => exact ⟨offset, 0, fun _ _ _ => rfl⟩
  | cons transition rest ih =>
    obtain ⟨last, start, settled⟩ := ih transition.2
    refine ⟨last, max start transition.1, fun time post since => ?_⟩
    rw [Location.lookupFrom, if_neg (not_lt_of_ge ((le_max_right _ _).trans post))]
    exact settled time ((le_max_left _ _).trans post) _

theorem exists_settledFrom (loc : Location) (limit : Int) : ∃ start, SettledFrom loc limit start := by
  obtain ⟨last, start, settled⟩ := lookupFrom_settles loc.transitions loc.first
  have offset (time : Int) (post : start ≤ time) : loc.offset time = last := settled time post none
  refine ⟨max start (monthStart (12 * (limit + 1)) * 86400 - last), fun time post => ?_, fun time post => ?_⟩
  · rw [offset time ((le_max_left _ _).trans post), offset _ (le_max_left _ _)]
  · have late : monthStart (12 * (limit + 1)) ≤ loc.day time := by
      rw [Location.day, Location.wall, offset time ((le_max_left _ _).trans post)]
      have := (le_max_right _ _).trans post
      omega
    have order := monthOf_mono late
    rw [monthOf_monthStart] at order
    rw [year, Location.month]
    omega

theorem runsLeft_moved (settled : SettledFrom cron.loc limit start) (post : start ≤ search.time)
    (below : phaseRank search.phase ≤ 3) (forward : search.time < moved cron search)
    (goes : wraps cron.loc (moved cron search) search.phase = false) :
    runsLeft cron.loc (moved cron search) search.phase < runsLeft cron.loc search.time search.phase := by
  have wall : cron.loc.wall (moved cron search) = cron.loc.wall search.time + (moved cron search - search.time) := by
    rw [Location.wall, Location.wall, settled.offset _ post, settled.offset _ (post.trans forward.le)]
    omega
  cases phase : search.phase with
  | hour | minute | second =>
    rw [phase] at goes
    have goes := of_decide_eq_false goes
    simp only [Location.hour, Location.minute, Location.second, Location.clock, wall] at goes
    simp only [runsLeft, Location.hour, Location.minute, Location.second, Location.clock, wall]
    simp only [moved, phase, advance, Location.minute, Location.second, Location.clock] at goes ⊢
    omega
  | _ => rw [phase] at below; exact absurd below (by decide)

/-- The time until the offset is settled, then the loops. -/
def searchLeft (loc : Location) (start : Int) (search : Search) : Nat :=
  1000 * (start - search.time).toNat +
    if search.phase = .wrap ∧ start ≤ search.time then 0 else 100 * phaseRank search.phase + runsLeft loc search.time search.phase

theorem searchLeft_lt (loc : Location) (start : Int) (search : Search) :
    searchLeft loc start search < 1000 * (start - search.time).toNat + 700 := by
  have few := runsLeft_lt loc search.time search.phase
  have top : phaseRank search.phase ≤ 6 := by cases search.phase <;> decide
  unfold searchLeft
  split <;> omega

theorem searchLeft_falls (settled : SettledFrom cron.loc limit start)
    (early : search.phase = .month ∨ search.phase = .day → year (cron.loc.month search.time) ≤ limit)
    (forward : search.phase ≠ .wrap → cron.fits search.time search.phase = false → search.time < moved cron search)
    (stepped : cron.step limit search = .next later) : searchLeft cron.loc start later < searchLeft cron.loc start search := by
  rcases step_next stepped with ⟨wrap, within, rfl⟩ | ⟨looping, _, phase, followed, rfl⟩ | ⟨looping, failing, rfl⟩
  · have early : search.time < start := lt_of_not_ge fun late => absurd (settled.past _ late) (not_lt_of_ge within)
    simp only [searchLeft, wrap, phaseRank, runsLeft, reduceCtorEq, not_le.mpr early, and_false, if_false]
    omega
  · have few := runsLeft_lt cron.loc search.time phase
    obtain ⟨ranks, other⟩ := phaseRank_following followed
    simp only [searchLeft, looping, other, false_and, if_false]
    omega
  · have forward := forward looping failing
    by_cases soon : search.time < start
    · have bound := searchLeft_lt cron.loc start
        ⟨if wraps cron.loc (moved cron search) search.phase then .wrap else search.phase, true, moved cron search⟩
      have floor : 1000 * (start - search.time).toNat ≤ searchLeft cron.loc start search := Nat.le_add_right _ _
      dsimp only at bound
      omega
    · have post := not_lt.mp soon
      have positive : 1 ≤ phaseRank search.phase := by cases search.phase <;> decide
      cases goes : wraps cron.loc (moved cron search) search.phase with
      | true =>
        simp only [searchLeft, looping, post.trans forward.le, if_true, true_and, false_and, if_false]
        omega
      | false =>
        have below : phaseRank search.phase ≤ 3 := by
          have past := settled.past _ post
          cases phase : search.phase with
          | wrap => exact absurd phase looping
          | month => exact absurd (early (.inl phase)) (not_le_of_gt past)
          | day => exact absurd (early (.inr phase)) (not_le_of_gt past)
          | _ => decide
        have fewer := runsLeft_moved settled post below forward goes
        simp only [searchLeft, looping, false_and, Bool.false_eq_true, if_false]
        omega

end

/-- A search whose invariant makes its loops go forward ends. -/
theorem search_returns {cron : CronSchedule} {nanos : Int} {invariant : Search → Prop}
    (keeps : ∀ search later, invariant search → cron.step (cron.yearLimit nanos) search = .next later → invariant later)
    (early : ∀ search, invariant search → search.phase = .month ∨ search.phase = .day →
      year (cron.loc.month search.time) ≤ cron.yearLimit nanos)
    (forward : ∀ search, invariant search → search.phase ≠ .wrap → cron.fits search.time search.phase = false →
      search.time < moved cron search)
    (start : invariant ⟨.wrap, false, candidate nanos⟩) : ∃ fuel result, cron.next fuel nanos = some result := by
  obtain ⟨last, settled⟩ := exists_settledFrom cron.loc (cron.yearLimit nanos)
  exact Outcome.runFor_returns keeps
    (fun search _ holds => searchLeft_falls settled (early search holds) (forward search holds)) start

end Hopper.Guarantees
