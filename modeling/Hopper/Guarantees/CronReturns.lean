import Hopper.Guarantees.CronSlots

/-! Cron schedules return where the loops of `Next` can leave each month and
date outside the schedule that they come to, and hang at a date that they
cannot leave. -/

namespace Hopper.Guarantees

open Kernel Kernel.Calendar Client Client.CronSchedule

/-- A slot that is not passed over: until it nothing is irregular. -/
structure SureSlot (cron : CronSchedule) (nanos slot : Int) : Prop where
  started : candidate nanos ≤ slot
  found : Slot cron slot
  regular : ∀ time, candidate nanos ≤ time → time < slot → Regular cron (cron.yearLimit nanos) time

/-- Until a sure slot, and in the years that are searched, each month and date
outside the schedule can be left. -/
def DepartsAhead (cron : CronSchedule) (nanos : Int) : Prop :=
  ∀ time, candidate nanos ≤ time → year (cron.loc.month time) ≤ cron.yearLimit nanos →
    (∀ slot, SureSlot cron nanos slot → time < slot) → Departs cron time

/-- Before a time's date nothing ends the search or is irregular. -/
structure ComesTo (cron : CronSchedule) (nanos time : Int) : Prop where
  started : candidate nanos ≤ time
  clear : ∀ earlier, candidate nanos ≤ earlier → earlier ≤ time → ¬Ends cron (cron.yearLimit nanos) earlier
  regular : ∀ earlier, candidate nanos ≤ earlier → earlier < time → cron.loc.day earlier ≠ cron.loc.day time →
    Regular cron (cron.yearLimit nanos) earlier

/-- The loop over days, from a date outside the schedule, comes back to that
date's midnight. -/
structure Stuck (cron : CronSchedule) (time : Int) : Prop where
  month : cron.fits time .month = true
  day : cron.fits time .day = false
  back : advance cron.loc false time .day = cron.loc.midnight (cron.loc.day time)
  date : cron.loc.day (cron.loc.midnight (cron.loc.day time)) = cron.loc.day time

section
variable {cron : CronSchedule} {nanos : Int}

theorem departsAhead_returns (departs : DepartsAhead cron nanos) : ∃ fuel result, cron.next fuel nanos = some result := by
  by_cases sure : ∃ slot, SureSlot cron nanos slot
  · obtain ⟨slot, sure⟩ := sure
    refine regularAhead_returns fun time started clear => sure.regular time started (lt_of_not_ge fun late => ?_)
    exact clear slot sure.started late (.inl sure.found)
  · have leaves (search : Search) (course : OnCourse cron (cron.yearLimit nanos) (candidate nanos) search)
        (above : search.phase = .month ∨ search.phase = .day) : Departs cron search.time :=
      departs search.time course.started (course.within above) fun slot isSure => absurd ⟨slot, isSure⟩ sure
    have first := (Fitting.first cron (cron.yearLimit nanos) (candidate nanos) fun _ => True).toOnCourse
    exact @search_returns cron nanos (OnCourse cron (cron.yearLimit nanos) (candidate nanos))
      (fun search _ course => course.keeps fun _ => leaves search course) (fun _ course => course.within)
      (fun search course => course.lt_moved fun _ => leaves search course) first

/-- The search at a date that it cannot leave. -/
structure HeldAt (cron : CronSchedule) (day : Int) (search : Search) : Prop where
  date : cron.loc.day search.time = day
  phase : search.phase = .wrap ∨ search.phase = .month ∨ search.phase = .day
  level : search.phase ≠ .wrap → search.reset = true → search.time = cron.loc.midnight day

variable {limit start time : Int} {search later : Search}

theorem HeldAt.keeps (stuck : Stuck cron time) (held : HeldAt cron (cron.loc.day time) search)
    (stepped : cron.step limit search = .next later) : HeldAt cron (cron.loc.day time) later := by
  obtain ⟨_, month, day⟩ := fits_congr held.date
  rcases step_next stepped with ⟨wrap, within, rfl⟩ | ⟨looping, fits, phase, followed, rfl⟩ | ⟨looping, failing, rfl⟩
  · exact ⟨held.date, .inr (.inl rfl), fun _ reset => by cases reset⟩
  · rcases held.phase with same | same | same
    · exact absurd same looping
    · rw [same] at followed
      cases followed
      exact ⟨held.date, .inr (.inr rfl), fun _ => held.level looping⟩
    · rw [same, day, stuck.day] at fits
      cases fits
  · have date : search.phase = .day := by
      rcases held.phase with same | same | same
      · exact absurd same looping
      · rw [same, month, stuck.month] at failing
        cases failing
      · exact same
    have back : moved cron search = cron.loc.midnight (cron.loc.day time) := by
      have level : Levelled cron.loc search.reset search.time .day := fun reset => held.date ▸ held.level looping reset
      rw [moved, date, advance_level (by decide) level, ← stuck.back]
      simp only [advance, held.date, Bool.false_eq_true, if_false]
    rw [date, back]
    refine ⟨stuck.date, ?_, fun _ _ => rfl⟩
    dsimp only
    split
    · exact .inl rfl
    · exact .inr (.inr rfl)

theorem HeldAt.goes (within : year (cron.loc.month time) ≤ limit)
    (held : HeldAt cron (cron.loc.day time) search) {result : Int} : cron.step limit search ≠ .done result := by
  intro stepped
  rcases step_done stepped with ⟨_, past, _⟩ | ⟨second, _, _⟩
  · rw [(fits_congr held.date).1] at past
    exact absurd within (not_le_of_gt past)
  · rcases held.phase with same | same | same <;> cases same.symm.trans second

theorem stuck_hangs (comes : ComesTo cron nanos time) (stuck : Stuck cron time) :
    ¬∃ fuel result, cron.next fuel nanos = some result := by
  obtain ⟨started, clear, regular⟩ := comes
  let ends (other : Int) : Prop := Ends cron (cron.yearLimit nanos) other ∨ cron.loc.day other = cron.loc.day time
  have seen : Seen cron ends := by
    rintro here between phase looping failing month place (ended | date)
    · exact .inl (seen_ends cron _ here between phase looping failing month place ended)
    · rcases place with rfl | same
      · rw [(fits_congr date).2.1, stuck.month] at failing
        cases failing
      · exact .inr (same.symm.trans date)
  have before (other : Int) (post : candidate nanos ≤ other) (all : ∀ earlier, candidate nanos ≤ earlier → earlier ≤ other → ¬ends earlier) :
      Regular cron (cron.yearLimit nanos) other := by
    have pre : other < time := lt_of_not_ge fun late => all time started late (.inr rfl)
    exact regular other post pre fun date => all other post le_rfl (.inr date)
  have arrives (search : Search) (fitting : Fitting cron (cron.yearLimit nanos) (candidate nanos) ends search)
      (ended : ends search.time) : HeldAt cron (cron.loc.day time) search := by
    have early : search.time ≤ time := le_of_not_gt fun late => fitting.clear time started late (.inr rfl)
    have date := ended.resolve_left (clear search.time fitting.started early)
    have level := fitting.level
    have unfit (lower : phaseRank search.phase < phaseRank .day) : False := by
      have fits := fitting.above .day lower
      rw [(fits_congr date).2.2, stuck.day] at fits
      cases fits
    cases same : search.phase with
    | wrap => exact ⟨date, .inl same, fun looping => absurd same looping⟩
    | month =>
      rw [same] at level
      refine ⟨date, .inr (.inl same), fun _ reset => ?_⟩
      rw [← date, (level reset).2]
      exact (level reset).1
    | day =>
      rw [same] at level
      exact ⟨date, .inr (.inr same), fun _ reset => date ▸ level reset⟩
    | _ => exact (unfit (by rw [same]; decide)).elim
  let invariant (search : Search) : Prop :=
    Fitting cron (cron.yearLimit nanos) (candidate nanos) ends search ∧ ¬ends search.time ∨
      HeldAt cron (cron.loc.day time) search
  have either (search : Search) (fitting : Fitting cron (cron.yearLimit nanos) (candidate nanos) ends search) :
      invariant search := by
    by_cases ended : ends search.time
    · exact .inr (arrives search fitting ended)
    · exact .inl ⟨fitting, ended⟩
  have keeps (search later : Search) (holds : invariant search)
      (stepped : cron.step (cron.yearLimit nanos) search = .next later) : invariant later := by
    rcases holds with ⟨fitting, ahead⟩ | held
    · exact either later (fitting.keeps seen before (fun _ => ahead) stepped)
    · exact .inr (held.keeps stuck stepped)
  have goes (search : Search) (result : Int) (holds : invariant search)
      (stepped : cron.step (cron.yearLimit nanos) search = .done result) : False := by
    rcases holds with ⟨fitting, ahead⟩ | held
    · rcases step_done stepped with ⟨_, past, _⟩ | ⟨second, fits, _⟩
      · exact ahead (.inl (.inr past))
      · exact ahead (.inl (.inl (fitting.slot second fits)))
    · refine held.goes (le_of_not_gt fun past => ?_) stepped
      exact clear time started le_rfl (.inr past)
  rintro ⟨fuel, result, returned⟩
  exact Outcome.runFor_invariant keeps goes (either _ (Fitting.first cron _ _ ends)) returned

end

end Hopper.Guarantees
