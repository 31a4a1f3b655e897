import Hopper.Lifecycle.Runs

/-! What the journal says of the jobs that are there: each was brought into
being once, in the batch it is in, and a finished one ended as it last did. -/

namespace Hopper.Lifecycle

open List Kernel Driver Sqlite

/-- The final state of a job, if the event is an end of it. -/
def ended? (id : JobID) : Event → Option JobState
  | .finished row state _ => if row.id = id then some state else none
  | _ => none

def lastEnding? (journal : List Event) (id : JobID) : Option JobState :=
  journal.findSome? (ended? id)

def births (journal : List Event) : List LiveJob :=
  journal.filterMap birth?

theorem mem_births {journal : List Event} {row : LiveJob} :
    row ∈ births journal ↔ .inserted row ∈ journal ∨ ∃ batch, .callback batch row ∈ journal := by
  simp only [births, mem_filterMap]
  constructor
  · rintro ⟨event, mem, born⟩
    cases event with
    | inserted =>
      cases born
      exact .inl mem
    | callback batch =>
      cases born
      exact .inr ⟨batch, mem⟩
    | _ => cases born
  · rintro (mem | ⟨batch, mem⟩)
    · exact ⟨_, mem, rfl⟩
    · exact ⟨_, mem, rfl⟩

theorem lastEnding_append {events journal : List Event} {id : JobID} (none : ∀ event ∈ events, ended? id event = none) :
    lastEnding? (events ++ journal) id = lastEnding? journal id := by
  induction events with
  | nil => rfl
  | cons event events ih =>
    rw [cons_append, lastEnding?, findSome?_cons, none event mem_cons_self]
    exact ih fun other mem => none other (mem_cons_of_mem _ mem)

theorem lastEnding_finished (row : LiveJob) (state : JobState) (output : Option String) (journal : List Event) (id : JobID) :
    lastEnding? (.finished row state output :: journal) id =
      if row.id = id then some state else lastEnding? journal id := by
  simp only [lastEnding?, findSome?_cons, ended?]
  split
  · next some same => split at same <;> simp_all
  · next none => split at none <;> simp_all

/-- Each job was brought into being once, in its batch, and each finished one
ended last in the state it has. -/
structure Descent (roster : Roster) : Prop where
  distinct : ((births roster.journal).map fun row => row.id).Nodup
  jobs : ∀ row ∈ roster.jobs, ∃ born ∈ births roster.journal, born.id = row.id ∧ born.batchID = row.batchID
  history : ∀ past ∈ roster.history, ∃ born ∈ births roster.journal,
    born.id = past.id ∧ born.batchID = past.batchID
  endings : ∀ past ∈ roster.history, lastEnding? roster.journal past.id = some past.state
  callbacks : ∀ batch row, .callback batch row ∈ roster.journal → row.batchID = none

namespace Descent

variable {rules : Rules} {pre post : Roster}

theorem empty : Descent (roster {}) where
  distinct := nodup_nil
  jobs := Table.forall_mem_empty
  history := forall_mem_nil _
  endings := forall_mem_nil _
  callbacks := fun _ _ mem => absurd mem not_mem_nil

private theorem births_mono (change : Change rules pre post) {row : LiveJob}
    (born : row ∈ births pre.journal) : row ∈ births post.journal := by
  obtain ⟨event, mem, birth⟩ := mem_filterMap.mp born
  exact mem_filterMap.mpr ⟨event, change.journal_suffix.subset mem, birth⟩

private theorem endings_finish (descent : Descent pre) (identity : Identity pre) {x : W}
    {finished : Finished} {past : HistoryJob} (live : finished.row ∈ pre.jobs)
    (mem : past ∈ if finished.archive then pre.history ++ [finished.archivedAt x.now] else pre.history) :
    lastEnding? (.finished finished.row finished.state finished.output :: pre.journal) past.id = some past.state := by
  have old (earlier : past ∈ pre.history) :
      lastEnding? (.finished finished.row finished.state finished.output :: pre.journal) past.id = some past.state := by
    rw [lastEnding_finished, if_neg (identity.apart past earlier finished.row live).symm]
    exact descent.endings past earlier
  split at mem
  · rcases List.mem_append.mp mem with earlier | new
    · exact old earlier
    · rw [mem_singleton.mp new, lastEnding_finished]
      exact if_pos rfl
  · exact old mem

private theorem endings_step (descent : Descent pre) (identity : Identity pre) (change : Change rules pre post) :
    ∀ past ∈ post.history, lastEnding? post.journal past.id = some past.state := by
  have quiet (events : List Event) (none : ∀ id, ∀ event ∈ events, ended? id event = none)
      (past : HistoryJob) (mem : past ∈ pre.history) :
      lastEnding? (events ++ pre.journal) past.id = some past.state := by
    rw [lastEnding_append (none past.id)]
    exact descent.endings past mem
  intro past mem
  cases change with
  | book event books =>
    refine quiet [event] (fun id other otherMem => ?_) past mem
    rw [mem_singleton.mp otherMem]
    cases event <;> first | rfl | cases books
  | insert row event free birth =>
    refine quiet [event] (fun id other otherMem => ?_) past mem
    rw [mem_singleton.mp otherMem]
    cases event <;> first | rfl | cases birth
  | touch | renew => exact descent.endings past mem
  | start | lease => exact quiet _ (fun _ => forall_mem_entered fun _ => rfl) past mem
  | resume row => exact quiet [.ended row.id row.fence] (by simp [ended?]) past mem
  | finish x finished live => exact descent.endings_finish identity live mem
  | conclude x finished leases live =>
    have same := descent.endings_finish identity live mem
    rw [lastEnding_finished] at same ⊢
    split at same
    · next ends => rw [if_pos ends, same]
    · next other => rw [if_neg other, ← same]; rfl
  | retry old row =>
    exact quiet [.retried row] (by simp [ended?]) past (mem_of_mem_erase mem)
  | forget history sublist => exact descent.endings past (sublist.subset mem)

section
variable (descent : Descent pre) (change : Change rules pre post)
include descent change

private theorem distinct_step : ((births post.journal).map fun row => row.id).Nodup := by
  rcases change.births with ⟨events, journal, barren⟩ | ⟨event, row, new⟩
  · rw [journal, births, filterMap_append, filterMap_eq_nil_iff.mpr barren]
    exact descent.distinct
  · rw [new.journal, births, filterMap_cons_some new.birth, map_cons, nodup_cons]
    refine ⟨fun known => ?_, descent.distinct⟩
    obtain ⟨other, born, same⟩ := mem_map.mp known
    obtain ⟨earlier, mem, birth⟩ := mem_filterMap.mp born
    exact new.unknown ⟨earlier, mem, other, birth, same⟩

private theorem jobs_step : ∀ row ∈ post.jobs, ∃ born ∈ births post.journal, born.id = row.id ∧ born.batchID = row.batchID := by
  intro row mem
  rcases change.origin mem with ⟨old, oldMem, goes⟩ | arrives
  · obtain ⟨born, among, id, batch⟩ := descent.jobs old oldMem
    exact ⟨born, births_mono change among, id.trans goes.kept.id.symm, batch.trans goes.kept.batchID.symm⟩
  · cases arrives.arrival with
    | born event birth journal =>
      refine ⟨row, mem_filterMap.mpr ⟨event, ?_, birth⟩, rfl, rfl⟩
      rw [journal]
      exact mem_cons_self
    | revived past pastMem revived =>
      obtain ⟨born, among, id, batch⟩ := descent.history past pastMem
      exact ⟨born, births_mono change among, id.trans revived.id.symm, batch.trans revived.batchID.symm⟩

private theorem history_step :
    ∀ past ∈ post.history, ∃ born ∈ births post.journal, born.id = past.id ∧ born.batchID = past.batchID := by
  intro past mem
  have old (earlier : past ∈ pre.history) : ∃ born ∈ births post.journal, born.id = past.id ∧ born.batchID = past.batchID := by
    obtain ⟨born, among, facts⟩ := descent.history past earlier
    exact ⟨born, births_mono change among, facts⟩
  rcases change.history_cases with sublist | ⟨finished, now, archives⟩
  · exact old (sublist.subset mem)
  · rw [archives.history] at mem
    rcases List.mem_append.mp mem with earlier | new
    · exact old earlier
    · rw [mem_singleton.mp new]
      obtain ⟨born, among, facts⟩ := descent.jobs finished.row archives.member
      exact ⟨born, births_mono change among, facts⟩

private theorem callbacks_step : ∀ batch row, .callback batch row ∈ post.journal → row.batchID = none := by
  intro batch row mem
  rcases change.births with ⟨events, journal, barren⟩ | ⟨event, born, new⟩
  · rw [journal] at mem
    rcases List.mem_append.mp mem with later | earlier
    · cases barren _ later
    · exact descent.callbacks batch row earlier
  · rw [new.journal] at mem
    rcases mem_cons.mp mem with same | earlier
    · have birth := new.birth
      rw [← same] at birth
      cases birth
      exact new.calls batch same.symm
    · exact descent.callbacks batch row earlier

end

theorem step (descent : Descent pre) (identity : Identity pre) (change : Change rules pre post) : Descent post where
  distinct := descent.distinct_step change
  jobs := descent.jobs_step change
  history := descent.history_step change
  endings := descent.endings_step identity change
  callbacks := descent.callbacks_step change

end Descent

theorem Changes.descent {rules : Rules} {first last : Roster} (changes : Changes rules first last)
    (identity : Identity first) (descent : Descent first) : Descent last :=
  changes.invariant (fun _ _ identity change descent => descent.step identity change) identity descent

end Hopper.Lifecycle
