import Hopper.Guarantees.CronSearch
import Mathlib.Order.Bounds.Defs

/-! Cron slots: until the first slot after a time, `Next` passes over no date of
the schedule where the location's changes are regular. Without changes of the
offset what it returns is the first slot. -/

namespace Hopper.Guarantees

open Kernel Kernel.Calendar Client Client.CronSchedule

/-- The time's date is one of the schedule's, in a year that is searched. -/
structure Scheduled (cron : CronSchedule) (limit time : Int) : Prop where
  searched : year (cron.loc.month time) ≤ limit
  month : cron.fits time .month = true
  day : cron.fits time .day = true

/-- A month or date lasts until the next, which begins at a whole hour. -/
structure LeavesWhole (loc : Location) (time : Int) (phase : Phase) (next : Int) (place : Int → Int) : Prop
    extends GoesOn loc time phase next where
  stays : ∀ between, time ≤ between → between < loc.midnight next → place between = place time
  whole : loc.wall (loc.midnight next) % 3600 = 0

/-- The local hour of a time lasts until the next, which begins as a whole one,
in the same date, as the first of its date or on one of the schedule's. -/
structure WholeHour (cron : CronSchedule) (limit time stop : Int) : Prop where
  offset : ∀ between, time ≤ between → between < stop → cron.loc.offset between = cron.loc.offset time
  whole : cron.loc.wall stop % 3600 = 0
  date : cron.loc.day stop = cron.loc.day time ∨ cron.loc.hour stop = 0 ∨ Scheduled cron limit stop

/-- A month or date outside the schedule can be left, and the hours of one of
the schedule's are whole. -/
structure Regular (cron : CronSchedule) (limit time : Int) : Prop where
  month : cron.fits time .month = false →
    LeavesWhole cron.loc time .month (monthStart (cron.loc.month time + 1)) cron.loc.month
  day : cron.fits time .month = true → cron.fits time .day = false →
    LeavesWhole cron.loc time .day (cron.loc.day time + 1) cron.loc.day
  hours : Scheduled cron limit time → WholeHour cron limit time (time + (3600 - cron.loc.wall time % 3600))

theorem Regular.departs {cron : CronSchedule} {limit time : Int} (regular : Regular cron limit time) : Departs cron time :=
  ⟨fun failing => (regular.month failing).toGoesOn, fun fits failing => (regular.day fits failing).toGoesOn⟩

theorem phaseRank_injective : Function.Injective phaseRank := by
  intro one other same
  cases one <;> cases other <;> first | rfl | cases same

theorem phaseRank_le_wrap (phase : Phase) : phaseRank phase ≤ phaseRank .wrap := by
  cases phase <;> decide

/-- What a reset leaves the time a multiple of. -/
def grain : Phase → Int
  | .month | .day | .hour => 3600
  | .minute => 60
  | .wrap | .second => 1

/-- A search that has passed over no time that ends it, at one that fits the
fields above its loop. -/
structure Fitting (cron : CronSchedule) (limit start : Int) (ends : Int → Prop) (search : Search) : Prop
    extends OnCourse cron limit start search where
  aligned : search.reset = true → cron.loc.wall search.time % grain search.phase = 0
  clear : ∀ earlier, start ≤ earlier → earlier < search.time → ¬ends earlier
  searched : search.phase ≠ .wrap → year (cron.loc.month search.time) ≤ limit
  above : ∀ earlier, phaseRank search.phase < phaseRank earlier → cron.fits search.time earlier = true

/-- A loop that goes on within a month, or a date, comes past no time that ends
the search. -/
def Seen (cron : CronSchedule) (ends : Int → Prop) : Prop :=
  ∀ time between phase, phase ≠ .wrap → cron.fits between phase = false → cron.loc.month between = cron.loc.month time →
    phase = .month ∨ cron.loc.day between = cron.loc.day time → ends between → ends time

section
variable {cron : CronSchedule} {limit start time other : Int} {ends : Int → Prop} {search later : Search} {phase : Phase}

theorem fits_congr (day : cron.loc.day other = cron.loc.day time) :
    cron.loc.month other = cron.loc.month time ∧ cron.fits other .month = cron.fits time .month ∧
      cron.fits other .day = cron.fits time .day := by
  have same : cron.loc.month other = cron.loc.month time := by rw [Location.month, day, Location.month]
  exact ⟨same, by simp only [fits, same], by simp only [fits, dayMatches, day]⟩

theorem Scheduled.congr (scheduled : Scheduled cron limit time) (day : cron.loc.day other = cron.loc.day time) :
    Scheduled cron limit other := by
  obtain ⟨month, fitsMonth, fitsDay⟩ := fits_congr day
  exact ⟨month ▸ scheduled.searched, fitsMonth ▸ scheduled.month, fitsDay ▸ scheduled.day⟩

theorem fits_above_month (cron : CronSchedule) (time : Int) (above : phaseRank .month < phaseRank phase) :
    cron.fits time phase = true := by
  cases phase <;> first | rfl | exact absurd above (by decide)

theorem fits_of_block (block : cron.loc.wall other / grain phase = cron.loc.wall time / grain phase) :
    cron.loc.day other = cron.loc.day time ∧
      ∀ earlier, phaseRank phase ≤ phaseRank earlier → cron.fits other earlier = cron.fits time earlier := by
  have day : cron.loc.day other = cron.loc.day time := by
    cases phase <;> simp only [grain, Location.day] at block ⊢ <;> omega
  obtain ⟨_, month, date⟩ := fits_congr day
  refine ⟨day, fun earlier above => ?_⟩
  cases earlier with
  | wrap => rfl
  | month => exact month
  | day => exact date
  | hour =>
    have hour : cron.loc.hour other = cron.loc.hour time := by
      cases phase <;> simp only [grain, Location.hour, Location.clock] at block ⊢ <;> omega
    simp only [fits, hour]
  | minute =>
    have minute : cron.loc.minute other = cron.loc.minute time := by
      cases phase <;> first
        | exact absurd above (by decide)
        | simp only [grain, Location.minute, Location.clock] at block ⊢
          omega
    simp only [fits, minute]
  | second =>
    have second : cron.loc.second other = cron.loc.second time := by
      cases phase <;> first
        | exact absurd above (by decide)
        | simp only [grain, Location.second, Location.clock] at block ⊢
          omega
    simp only [fits, second]

theorem below_cases (below : phaseRank phase ≤ 3) :
    phase ≠ .wrap ∧ (grain phase = 3600 ∨ grain phase = 60 ∨ grain phase = 1) := by
  cases phase <;> first | exact absurd below (by decide) | exact ⟨by decide, by decide⟩

section
variable (fitting : Fitting cron limit start ends search) (below : phaseRank search.phase ≤ 3)
include fitting below

theorem Fitting.moved_below : moved cron search = search.time + (grain search.phase - cron.loc.wall search.time % grain search.phase) := by
  have aligned := fitting.aligned
  rw [moved]
  cases phase : search.phase with
  | hour | minute | second =>
    rw [phase] at aligned
    cases reset : search.reset <;>
      simp only [reset, advance, grain, Location.minute, Location.second, Location.clock, forall_const, if_true, if_false,
        Bool.false_eq_true] at aligned ⊢ <;> omega
  | _ => rw [phase] at below; exact absurd below (by decide)

theorem Fitting.scheduled : Scheduled cron limit search.time :=
  ⟨fitting.searched (below_cases below).1, fitting.above .month (below.trans_lt (by decide)),
    fitting.above .day (below.trans_lt (by decide))⟩

variable (here : Regular cron limit search.time)
include here

theorem Fitting.block (post : search.time ≤ time) (pre : time < moved cron search) :
    cron.loc.wall time / grain search.phase = cron.loc.wall search.time / grain search.phase := by
  rw [fitting.moved_below below] at pre
  have within : time < search.time + (3600 - cron.loc.wall search.time % 3600) := by
    rcases (below_cases below).2 with is | is | is <;> rw [is] at pre <;> omega
  rw [Location.wall, (here.hours (fitting.scheduled below)).offset time post within]
  rw [Location.wall] at pre ⊢
  rcases (below_cases below).2 with is | is | is <;> rw [is] at pre ⊢ <;> omega

/-- At the end of the loop's unit the fields above it still fit, or the loop
goes back. -/
theorem Fitting.block_end (goes : wraps cron.loc (moved cron search) search.phase = false) :
    cron.loc.wall (moved cron search) % grain search.phase = 0 ∧ Scheduled cron limit (moved cron search) ∧
      ∀ earlier, phaseRank search.phase < phaseRank earlier → cron.fits (moved cron search) earlier = true := by
  have scheduled := fitting.scheduled below
  obtain ⟨offset, whole, date⟩ := here.hours scheduled
  have is := fitting.moved_below below
  have above := fitting.above
  cases phase : search.phase with
  | hour =>
    rw [phase] at is goes
    simp only [grain] at is ⊢
    rw [← is] at whole date
    have scheduled : Scheduled cron limit (moved cron search) := by
      rcases date with day | hour | there
      · exact scheduled.congr day
      · exact absurd hour (of_decide_eq_false goes)
      · exact there
    refine ⟨whole, scheduled, fun earlier higher => ?_⟩
    cases earlier with
    | wrap => rfl
    | month => exact scheduled.month
    | day => exact scheduled.day
    | _ => exact absurd higher (by decide)
  | minute | second =>
    rw [phase] at is goes above
    have goes := of_decide_eq_false goes
    simp only [grain, Location.minute, Location.second, Location.clock] at is goes ⊢
    have inside : moved cron search < search.time + (3600 - cron.loc.wall search.time % 3600) := by
      by_contra late
      rw [show moved cron search = search.time + (3600 - cron.loc.wall search.time % 3600) by omega] at goes
      omega
    have wall : cron.loc.wall (moved cron search) = cron.loc.wall search.time + (moved cron search - search.time) := by
      rw [Location.wall, offset _ (by omega) inside, Location.wall]
      omega
    obtain ⟨upper, higher, block⟩ : ∃ upper, phaseRank upper = phaseRank search.phase + 1 ∧
        cron.loc.wall (moved cron search) / grain upper = cron.loc.wall search.time / grain upper := by
      rw [phase]
      first | exact ⟨.hour, rfl, by simp only [grain]; omega⟩ | exact ⟨.minute, rfl, by simp only [grain]; omega⟩
    obtain ⟨day, fits⟩ := fits_of_block block
    refine ⟨by omega, scheduled.congr day, fun earlier above' => ?_⟩
    exact (fits earlier (by rw [higher, phase]; exact above')).trans (above earlier above')
  | _ => rw [phase] at below; exact absurd below (by decide)

end

section
variable (fitting : Fitting cron limit start ends search) (seen : Seen cron ends)
  (regular : ∀ time, start ≤ time → (∀ earlier, start ≤ earlier → earlier ≤ time → ¬ends earlier) → Regular cron limit time)
include fitting regular

theorem Fitting.here (ahead : ¬ends search.time) : Regular cron limit search.time :=
  regular search.time fitting.started fun earlier started early => by
    rcases lt_or_eq_of_le early with before | rfl
    · exact fitting.clear earlier started before
    · exact ahead

include seen

/-- A loop's body passes over no time that ends the search. -/
theorem Fitting.clear_moved (ahead : ¬ends search.time) (looping : search.phase ≠ .wrap)
    (failing : cron.fits search.time search.phase = false) (post : search.time ≤ time) (pre : time < moved cron search) :
    ¬ends time := by
  have here := fitting.here regular ahead
  refine fun ended => ahead ?_
  cases phase : search.phase with
  | wrap => exact absurd phase looping
  | month =>
    rw [phase] at failing
    have goesOn := here.month failing
    rw [fitting.moved_month phase goesOn.toGoesOn] at pre
    have same := goesOn.stays time post pre
    refine seen _ _ .month (by decide) ?_ same (.inl rfl) ended
    rw [← failing]
    simp only [fits, same]
  | day =>
    rw [phase] at failing
    have goesOn := here.day (fitting.fitted phase) failing
    rw [fitting.moved_day phase goesOn.toGoesOn] at pre
    have same := goesOn.stays time post pre
    obtain ⟨month, _, date⟩ := fits_congr same
    exact seen _ _ .day (by decide) (date.trans failing) month (.inr same) ended
  | hour | minute | second =>
    have below : phaseRank search.phase ≤ 3 := by rw [phase]; decide
    obtain ⟨day, fits⟩ := fits_of_block (fitting.block below here post pre)
    exact seen _ _ _ looping ((fits _ le_rfl).trans failing) (fits_congr day).1 (.inr day) ended

theorem Fitting.keeps (ahead : cron.fits search.time search.phase = false → ¬ends search.time)
    (stepped : cron.step limit search = .next later) : Fitting cron limit start ends later := by
  have here (failing : cron.fits search.time search.phase = false) := fitting.here regular (ahead failing)
  have course := fitting.toOnCourse.keeps (fun failing _ => (here failing).departs) stepped
  rcases step_next stepped with ⟨wrap, within, rfl⟩ | ⟨looping, fits, phase, followed, rfl⟩ | ⟨looping, failing, rfl⟩
  · exact ⟨course, (fun reset => by cases reset), fitting.clear, fun _ => within, fun _ => fits_above_month cron _⟩
  · refine ⟨course, fun reset => ?_, fitting.clear, fun _ => fitting.searched looping, fun earlier higher => ?_⟩
    · have aligned := fitting.aligned reset
      cases same : search.phase with
      | wrap => exact absurd same looping
      | _ => rw [same] at followed aligned; cases followed <;> simp only [grain] at aligned ⊢ <;> omega
    · have ranks := (phaseRank_following followed).1
      rcases Nat.lt_or_ge (phaseRank search.phase) (phaseRank earlier) with above | level
      · exact fitting.above earlier above
      · dsimp only at higher
        have same : earlier = search.phase := phaseRank_injective (by omega)
        exact same ▸ fits
  · have clear (earlier : Int) (started : start ≤ earlier) (pre : earlier < moved cron search) : ¬ends earlier := by
      rcases lt_or_ge earlier search.time with before | after
      · exact fitting.clear earlier started before
      · exact fitting.clear_moved seen regular (ahead failing) looping failing after pre
    cases goes : wraps cron.loc (moved cron search) search.phase with
    | true =>
      rw [goes] at course
      refine ⟨course, (fun _ => Int.emod_one _), clear, fun other => absurd rfl other, fun earlier higher => ?_⟩
      exact absurd higher (not_lt_of_ge (phaseRank_le_wrap earlier))
    | false =>
      rw [goes] at course
      cases phase : search.phase with
      | wrap => exact absurd phase looping
      | month =>
        have goesOn := (here failing).month (phase ▸ failing)
        rw [phase] at course
        refine ⟨course, fun _ => ?_, clear, fun _ => course.within (.inl rfl), fun _ => fits_above_month cron _⟩
        exact fitting.moved_month phase goesOn.toGoesOn ▸ goesOn.whole
      | day =>
        have goesOn := (here failing).day (fitting.fitted phase) (phase ▸ failing)
        rw [phase] at course
        refine ⟨course, fun _ => ?_, clear, fun _ => course.within (.inr rfl), fun earlier higher => ?_⟩
        · exact fitting.moved_day phase goesOn.toGoesOn ▸ goesOn.whole
        · change phaseRank .day < phaseRank earlier at higher
          cases earlier with
          | wrap => rfl
          | month => exact course.fitted rfl
          | _ => exact absurd higher (by decide)
      | hour | minute | second =>
        have below : phaseRank search.phase ≤ 3 := by rw [phase]; decide
        obtain ⟨even, scheduled, above⟩ := fitting.block_end below (here failing) goes
        exact phase ▸ ⟨course, fun _ => even, clear, fun _ => scheduled.searched, above⟩

end

end

/-- A slot, or a time past the years that are searched. -/
def Ends (cron : CronSchedule) (limit time : Int) : Prop :=
  Slot cron time ∨ limit < year (cron.loc.month time)

/-- The location is regular from the second after a time on, until the first
slot or the end of the years that are searched. -/
def RegularAhead (cron : CronSchedule) (nanos : Int) : Prop :=
  ∀ time, candidate nanos ≤ time →
    (∀ earlier, candidate nanos ≤ earlier → earlier ≤ time → ¬Ends cron (cron.yearLimit nanos) earlier) →
      Regular cron (cron.yearLimit nanos) time

theorem seen_ends (cron : CronSchedule) (limit : Int) : Seen cron (Ends cron limit) := by
  rintro time between phase _ failing month _ (slot | past)
  · cases (slot.fits phase).symm.trans failing
  · exact .inr (month ▸ past)

theorem candidate_le_iff {nanos time : Int} : candidate nanos ≤ time ↔ nanos < time * 1000000000 := by
  rw [candidate]
  omega

section
variable {cron : CronSchedule} {limit start nanos result : Int} {search : Search} {fuel : Nat}

theorem Fitting.first (cron : CronSchedule) (limit start : Int) (ends : Int → Prop) :
    Fitting cron limit start ends ⟨.wrap, false, start⟩ :=
  ⟨⟨le_rfl, trivial, by simp, fun day => by cases day⟩, (fun reset => by cases reset),
    fun _ started pre => absurd started (not_le_of_gt pre), fun other => absurd rfl other,
    fun earlier above => absurd above (not_lt_of_ge (phaseRank_le_wrap earlier))⟩

theorem Fitting.ahead (fitting : Fitting cron limit start (Ends cron limit) search)
    (failing : cron.fits search.time search.phase = false) : ¬Ends cron limit search.time := by
  rintro (slot | past)
  · cases (slot.fits _).symm.trans failing
  · refine absurd (fitting.searched fun wrap => ?_) (not_le_of_gt past)
    rw [wrap] at failing
    cases failing

/-- What a search comes to: the first slot, or the zero time where the years
end before it. -/
def FirstSlot (cron : CronSchedule) (limit start result : Int) : Prop :=
  ∃ last, start ≤ last ∧ (∀ earlier, start ≤ earlier → earlier < last → ¬Ends cron limit earlier) ∧
    (result = last ∧ Slot cron last ∧ year (cron.loc.month last) ≤ limit ∨
      result = zeroSecond ∧ limit < year (cron.loc.month last))

theorem Fitting.slot {ends : Int → Prop} (fitting : Fitting cron limit start ends search) (second : search.phase = .second)
    (fits : cron.fits search.time .second = true) : Slot cron search.time := by
  have above := fitting.above
  rw [second] at above
  exact ⟨above .month (by decide), above .day (by decide), above .hour (by decide), above .minute (by decide), fits⟩

theorem Fitting.finds (fitting : Fitting cron limit start (Ends cron limit) search)
    (stepped : cron.step limit search = .done result) : FirstSlot cron limit start result := by
  refine ⟨search.time, fitting.started, fitting.clear, ?_⟩
  rcases step_done stepped with ⟨_, past, zero⟩ | ⟨second, fits, found⟩
  · exact .inr ⟨zero, past⟩
  · exact .inl ⟨found, fitting.slot second fits, fitting.searched (second ▸ by decide)⟩

theorem regularAhead_result (regular : RegularAhead cron nanos) (returned : cron.next fuel nanos = some result) :
    FirstSlot cron (cron.yearLimit nanos) (candidate nanos) result :=
  Outcome.runFor_invariant (fun _ _ fitting => fitting.keeps (seen_ends cron _) regular fitting.ahead)
    (fun _ _ fitting => fitting.finds) (Fitting.first cron _ _ _) returned

theorem regularAhead_returns (regular : RegularAhead cron nanos) : ∃ fuel result, cron.next fuel nanos = some result :=
  search_returns (fun _ _ fitting => fitting.keeps (seen_ends cron _) regular fitting.ahead)
    (fun _ fitting => fitting.within)
    (fun _ fitting => fitting.lt_moved fun failing _ => (fitting.here regular (fitting.ahead failing)).departs)
    (Fitting.first cron _ _ _)

end

section
variable {loc : Location} {time : Int}

theorem addDate_day (even : loc.clock time = 0) : loc.addDate time 0 1 = loc.midnight (loc.day time + 1) := by
  have sum : (monthStart (loc.month time + 0) + (loc.day time - monthStart (loc.month time)) + 1) * 86400 +
      loc.clock time = (loc.day time + 1) * 86400 := by
    rw [even, Int.add_zero (loc.month time)]
    omega
  rw [Location.addDate, sum, Location.midnight]

theorem addDate_month (even : loc.clock time = 0) (first : loc.day time = monthStart (loc.month time)) :
    loc.addDate time 1 0 = loc.midnight (monthStart (loc.month time + 1)) := by
  have sum : (monthStart (loc.month time + 1) + (loc.day time - monthStart (loc.month time)) + 0) * 86400 +
      loc.clock time = monthStart (loc.month time + 1) * 86400 := by
    rw [even, first]
    omega
  rw [Location.addDate, sum, Location.midnight]

theorem midnight_day {day : Int} (wall : loc.wall (loc.midnight day) = day * 86400) :
    loc.day (loc.midnight day) = day ∧ loc.clock (loc.midnight day) = 0 := by
  rw [Location.day, Location.clock, wall]
  omega

theorem goesOn_month (first : loc.wall (loc.midnight (monthStart (loc.month time))) = monthStart (loc.month time) * 86400)
    (next : loc.wall (loc.midnight (monthStart (loc.month time + 1))) = monthStart (loc.month time + 1) * 86400)
    (ahead : time < loc.midnight (monthStart (loc.month time + 1))) :
    GoesOn loc time .month (monthStart (loc.month time + 1)) := by
  obtain ⟨day, clock⟩ := midnight_day first
  have month : loc.month (loc.midnight (monthStart (loc.month time))) = loc.month time := by
    rw [Location.month, day, monthOf_monthStart]
  have moved := addDate_month clock (by rw [month, day])
  rw [month] at moved
  exact ⟨moved, (midnight_day next).1, ahead⟩

theorem goesOn_day (first : loc.wall (loc.midnight (loc.day time)) = loc.day time * 86400)
    (next : loc.wall (loc.midnight (loc.day time + 1)) = (loc.day time + 1) * 86400)
    (ahead : time < loc.midnight (loc.day time + 1)) : GoesOn loc time .day (loc.day time + 1) := by
  obtain ⟨day, clock⟩ := midnight_day first
  obtain ⟨nextDay, nextClock⟩ := midnight_day next
  have moved := addDate_day clock
  rw [day] at moved
  refine ⟨?_, nextDay, ahead⟩
  rw [advance, if_neg Bool.false_ne_true, moved]
  refine if_neg (not_not.mpr ?_)
  rw [Location.hour, nextClock]
  rfl

end

/-- Where the offset stays from the start of a month to its end, nothing is
irregular. -/
theorem regular_of_steady (cron : CronSchedule) (limit : Int) {time low high offset : Int}
    (steady : ∀ other, low ≤ other → other ≤ high → cron.loc.offset other = offset) (here : low ≤ time ∧ time < high)
    (begins : low ≤ monthStart (cron.loc.month time) * 86400 ∧ low ≤ monthStart (cron.loc.month time) * 86400 - offset)
    (stops : monthStart (cron.loc.month time + 1) * 86400 ≤ high ∧
      monthStart (cron.loc.month time + 1) * 86400 - offset ≤ high) : Regular cron limit time := by
  have wall {other : Int} (post : low ≤ other) (pre : other ≤ high) : cron.loc.wall other = other + offset := by
    rw [Location.wall, steady other post pre]
  have midnight {day : Int} (post : monthStart (cron.loc.month time) ≤ day)
      (pre : day ≤ monthStart (cron.loc.month time + 1)) : cron.loc.midnight day = day * 86400 - offset := by
    rw [Location.midnight, Location.date_eq, steady (day * 86400) (by omega) (by omega), steady _ (by omega) (by omega)]
  have resolved {day : Int} (post : monthStart (cron.loc.month time) ≤ day)
      (pre : day ≤ monthStart (cron.loc.month time + 1)) : cron.loc.wall (cron.loc.midnight day) = day * 86400 := by
    rw [midnight post pre, wall (by omega) (by omega)]
    omega
  have hereWall := wall here.1 here.2.le
  obtain ⟨begun, ending⟩ := monthOf_spec (cron.loc.day time)
  change monthStart (cron.loc.month time) ≤ _ at begun
  change _ < monthStart (cron.loc.month time + 1) at ending
  have order : monthStart (cron.loc.month time) ≤ monthStart (cron.loc.month time + 1) := by omega
  have date : cron.loc.day time = (time + offset) / 86400 := by rw [Location.day, hereWall]
  refine ⟨fun _ => ⟨goesOn_month (resolved le_rfl order) (resolved order le_rfl) ?_, fun between post pre => ?_, ?_⟩,
    fun _ _ => ⟨goesOn_day (resolved begun ending.le) (resolved (by omega) (by omega)) ?_, fun between post pre => ?_, ?_⟩,
    fun _ => ⟨fun between post pre => ?_, ?_, Or.imp_right .inl ?_⟩⟩
  · rw [midnight order le_rfl]
    omega
  · rw [midnight order le_rfl] at pre
    refine monthOf_eq_iff.mpr ?_
    rw [Location.day, wall (by omega) (by omega)]
    omega
  · rw [resolved order le_rfl]
    omega
  · rw [midnight (by omega) (by omega)]
    omega
  · rw [midnight (by omega) (by omega)] at pre
    rw [Location.day, wall (by omega) (by omega)]
    omega
  · rw [resolved (by omega) (by omega)]
    omega
  · rw [steady time here.1 here.2.le, steady between (by omega) (by omega)]
  · rw [wall (by omega) (by omega), hereWall]
    omega
  · simp only [Location.day, Location.hour, Location.clock, hereWall]
    rw [wall (by omega) (by omega)]
    omega

def mondays (loc : Location) : CronSchedule where
  second := 1
  minute := 1
  hour := 2 ^ 12
  dom := 2 ^ 32 - 2
  month := 2 ^ 13 - 2
  dow := 2
  domStar := true
  dowStar := false
  loc := loc

/-- Summer time begins at a midnight in March. -/
def havana : Location where
  first := -18000
  transitions := [(1710046800, -14400)]
  ordered := by decide

/-- From the first of February to the Monday after. -/
theorem havana_regular (limit : Int) {time : Int} (post : 1706788800 < time) (pre : time < 1707152400) :
    Regular (mondays havana) limit time := by
  have steady (other : Int) (_ : 0 ≤ other) (early : other ≤ 1710046799) : (mondays havana).loc.offset other = -18000 := by
    simp only [Location.offset, Location.lookup, mondays, havana, Location.lookupFrom]
    rw [if_pos (by omega)]
  have first : monthStart (12 * 2024 + 1) = 19754 := by decide
  have last : monthStart (12 * 2024 + 1 + 1) = 19783 := by decide
  have month : (mondays havana).loc.month time = 12 * 2024 + 1 := by
    refine monthOf_eq_iff.mpr ?_
    rw [first, last, Location.day, Location.wall, steady time (by omega) (by omega)]
    omega
  exact regular_of_steady _ _ steady (by omega) (by rw [month, first]; omega) (by rw [month, last]; omega)

theorem havana_slot : Slot (mondays havana) 1707152400 := by
  constructor <;> decide +kernel

def beirut : Location where
  first := 7200
  transitions := [(1711836000, 10800)]
  ordered := by decide

def saturdays (loc : Location) : CronSchedule :=
  { mondays loc with hour := 2 ^ 1, dow := 2 ^ 6 }

/-- The slots after a time in the years that are searched. -/
def slotsAfter (cron : CronSchedule) (nanos : Int) : Set Int :=
  {slot | nanos < slot * 1000000000 ∧
    year (cron.loc.month slot) ≤ year (cron.loc.month (candidate nanos)) + 5 ∧ Slot cron slot}

theorem regularAhead_fixed {cron : CronSchedule} {offset : Int} (fixed : cron.loc = .fixed offset) (nanos : Int) :
    RegularAhead cron nanos := by
  intro time _ _
  have steady (other : Int) : cron.loc.offset other = offset := by rw [fixed]; rfl
  refine @regular_of_steady cron _ time
    (min time (min (monthStart (cron.loc.month time) * 86400) (monthStart (cron.loc.month time) * 86400 - offset)))
    (max (time + 1)
      (max (monthStart (cron.loc.month time + 1) * 86400) (monthStart (cron.loc.month time + 1) * 86400 - offset)))
    offset (fun other _ _ => steady other) ?_ ?_ ?_ <;> omega

def yearly : CronSchedule :=
  { mondays (.fixed 0) with hour := 1, dom := 2, month := 2, dow := 127, domStar := false, dowStar := true }

end Hopper.Guarantees
