import Hopper.Lifecycle.Change

/-! Who is who: IDs and sequence numbers name one job each, a job is live or
in history but not both, and a unique key has one live holder. -/

namespace Hopper.Lifecycle

open List Kernel Driver Sqlite

variable {rules : Rules} {pre post : Roster} {row : LiveJob}

theorem Kept.refl (row : LiveJob) : Kept row row where
  id := rfl
  seq := rfl
  kind := rfl
  queue := rfl
  uniqueKey := rfl
  orderingKey := rfl
  partitionKey := rfl
  batchID := rfl

theorem started_kept (x : W) (owner : Option Int) (row : LiveJob) : Kept row (x.started owner row) :=
  ⟨rfl, rfl, rfl, rfl, rfl, rfl, rfl, rfl⟩

theorem Fresh.live (fresh : Fresh row) : row.state.terminal = false := by
  rcases fresh.state with pending | waits
  · rw [pending]
    rfl
  · exact JobState.waiting_not_terminal waits

theorem Fresh.idle (fresh : Fresh row) : row.state ≠ .running := by
  rcases fresh.state with pending | waits
  · rw [pending]
    nofun
  · exact JobState.waiting_ne_running waits

theorem filterMap_blind {Seen : Type} {observe : Event → Option Seen} {events journal : List Event}
    (blind : ∀ event ∈ events, observe event = none) : (events ++ journal).filterMap observe = journal.filterMap observe := by
  rw [filterMap_append, filterMap_eq_nil_iff.mpr blind, nil_append]

theorem forall_mem_entered {enter : LiveJob → Event} {rows : List LiveJob} {holds : Event → Prop}
    (each : ∀ row, holds (enter row)) : ∀ event ∈ (rows.map enter).reverse, holds event := by
  intro event mem
  obtain ⟨row, _, rfl⟩ := mem_map.mp (mem_reverse.mp mem)
  exact each row

namespace Change

section
variable (change : Change rules pre post)
include change

theorem journal_suffix : pre.journal <:+ post.journal := by
  cases change with
  | book | insert | resume | finish | retry => exact suffix_cons _ _
  | touch | forget | renew => exact suffix_refl _
  | start | lease => exact suffix_append _ _
  | conclude => exact (suffix_cons _ _).trans (suffix_cons _ _)

theorem known_mono {id : JobID} (known : pre.Known id) : post.Known id := by
  obtain ⟨event, mem, row, born, same⟩ := known
  exact ⟨event, change.journal_suffix.subset mem, row, born, same⟩

theorem seq_le : pre.seq ≤ post.seq := by
  cases change <;> simp

end

/-- A claim starts the job of a row. -/
structure Starts (rules : Rules) (before after : Roster) (old new : LiveJob) : Prop where
  startable : before.Startable old
  allowed : rules.starts before
  started : ∃ (x : W) (owner : Option Int), new = x.started owner old
  entered : .claimed new ∈ after.journal

/-- What a change makes of a row that stays live. -/
inductive Goes (rules : Rules) (before after : Roster) (old new : LiveJob) : Prop where
  | touched (touched : Touched rules old new)
  | started (starts : Starts rules before after old new)
  | resumed (running : old.state = .running) (resumed : Resumed rules old new)

inductive Arrival (rules : Rules) (before after : Roster) (row : LiveJob) : Prop where
  | born (event : Event) (birth : birth? event = some row) (journal : after.journal = event :: before.journal)
      (unknown : ¬before.Known row.id) (fresh : Fresh row) (attempts : rules.attempts row.maxAttempts)
      (history : after.history = before.history)
  | revived (past : HistoryJob) (member : past ∈ before.history) (revived : Revived past row) (edits : rules.edits)
      (journal : after.journal = .retried row :: before.journal) (history : after.history = before.history.erase past)

/-- A row that the change brings to the live table: new, or from history. -/
structure Arrives (rules : Rules) (before after : Roster) (row : LiveJob) : Prop where
  absent : ∀ old ∈ before.jobs, old.id ≠ row.id
  seq : row.seq = before.seq + 1
  next : after.seq = before.seq + 1
  keyFree : before.KeyFree row
  others : ∀ other ∈ after.jobs, other = row ∨ other ∈ before.jobs
  arrival : Arrival rules before after row

section
variable {old new : LiveJob}

theorem Starts.kept (starts : Starts rules pre post old new) : Kept old new := by
  obtain ⟨x, owner, rfl⟩ := starts.started
  exact started_kept x owner old

theorem Starts.fence (starts : Starts rules pre post old new) : new.fence = old.fence + 1 := by
  obtain ⟨x, owner, rfl⟩ := starts.started
  rfl

theorem Starts.running (starts : Starts rules pre post old new) : new.state = .running := by
  obtain ⟨x, owner, rfl⟩ := starts.started
  rfl

theorem Goes.kept (goes : Goes rules pre post old new) : Kept old new := by
  cases goes with
  | touched touched => exact touched.toKept
  | started starts => exact starts.kept
  | resumed _ resumed => exact resumed.toKept

section
variable {x : W} {owner : Option Int} {condition : LiveJob → Bool} (held : old ∈ pre.jobs)
variable (startable : condition old = true → pre.Startable old) (allowed : rules.starts pre)
variable (journal : post.journal =
  ((pre.jobs.rows.filter condition).map fun row => Event.claimed (x.started owner row)).reverse ++ pre.journal)
include held startable allowed journal

theorem Starts.of_condition (selected : condition old = true) : Starts rules pre post old (x.started owner old) := by
  refine ⟨startable selected, allowed, ⟨x, owner, rfl⟩, ?_⟩
  rw [journal]
  exact mem_append_left _ (mem_reverse.mpr (mem_map_of_mem (mem_filter.mpr ⟨held, selected⟩)))

theorem Goes.of_condition : Goes rules pre post old (if condition old then x.started owner old else old) := by
  split
  · next selected => exact .started (.of_condition held startable allowed journal selected)
  · exact .touched (.refl rules old)

end

theorem Arrives.unmarked (arrives : Arrives rules pre post row) : row.state ≠ .running ∧ row.wakeRequestedAt = none := by
  cases arrives.arrival with
  | born _ _ _ _ fresh => exact ⟨fresh.idle, fresh.mark⟩
  | revived _ _ revived => exact ⟨by rw [revived.state]; nofun, revived.mark⟩

end

theorem origin (change : Change rules pre post) (mem : row ∈ post.jobs) :
    (∃ old ∈ pre.jobs, Goes rules pre post old row) ∨ Arrives rules pre post row := by
  have stays (held : row ∈ pre.jobs) : ∃ old ∈ pre.jobs, Goes rules pre post old row :=
    ⟨row, held, .touched (.refl rules row)⟩
  cases change with
  | book | forget | renew => exact .inl (stays mem)
  | insert born event free birth unknown fresh next keyFree attempts =>
    rcases (Table.mem_append free).mp mem with old | rfl
    · exact .inl (stays old)
    · exact .inr ⟨Table.has_eq_false.mp free, next, rfl, keyFree, fun other mem => ((Table.mem_append free).mp mem).symm,
        .born event birth rfl unknown fresh attempts rfl⟩
  | touch rewrite same touched =>
    obtain ⟨old, oldMem, rfl⟩ := (Table.mem_update same).mp mem
    exact .inl ⟨old, oldMem, .touched (touched old oldMem)⟩
  | start x client condition same positive startable allowed =>
    obtain ⟨old, oldMem, rfl⟩ := (Table.mem_update same).mp mem
    exact .inl ⟨old, oldMem, .of_condition oldMem (startable old oldMem) allowed rfl⟩
  | lease x leased condition same lease leases only leasedMem startable id fence upserted allowed =>
    obtain ⟨old, oldMem, rfl⟩ := (Table.mem_update same).mp mem
    exact .inl ⟨old, oldMem, .of_condition oldMem (fun selected => (only old oldMem).mp selected ▸ startable) allowed rfl⟩
  | resume ended rewrite same leases endedMember running resumed =>
    rcases (Table.mem_modify same).mp mem with ⟨old, other⟩ | ⟨old, oldMem, keyed, rfl⟩
    · exact .inl (stays old)
    · rw [Table.eq_of_key oldMem endedMember keyed]
      exact .inl ⟨ended, endedMember, .resumed running resumed⟩
  | finish | conclude => exact .inl (stays (Table.mem_delete.mp mem).1)
  | retry old born free oldMem revived next keyFree edits =>
    rcases (Table.mem_append free).mp mem with held | rfl
    · exact .inl (stays held)
    · exact .inr ⟨Table.has_eq_false.mp free, next, rfl, keyFree, fun other mem => ((Table.mem_append free).mp mem).symm,
        .revived old oldMem revived edits rfl rfl⟩

/-- What a change enters of claims: those of the jobs it starts, and the ends
of those that run no longer. -/
structure Enters (rules : Rules) (before after : Roster) (events : List Event) : Prop where
  journal : after.journal = events ++ before.journal
  claims : ∀ row, .claimed row ∈ events → row ∈ after.jobs ∧ ∃ old ∈ before.jobs, Starts rules before after old row
  claimsOnce : (events.filterMap claim?).Nodup
  ends : ∀ ending ∈ events.filterMap ending?, ∃ row ∈ before.jobs, ending = (row.id, row.fence) ∧
    row.state = .running ∧ ∀ other ∈ after.jobs, other.id = row.id → other.state ≠ .running
  endsOnce : (events.filterMap ending?).Nodup

theorem enters (change : Change rules pre post) : ∃ events, Enters rules pre post events := by
  have claimless {events : List Event} (claims : events.filterMap claim? = []) (row : LiveJob) : .claimed row ∉ events := by
    intro mem
    cases filterMap_eq_nil_iff.mp claims _ mem
  have silent (events : List Event) (journal : post.journal = events ++ pre.journal)
      (claims : events.filterMap claim? = []) (endings : events.filterMap ending? = []) :
      ∃ events, Enters rules pre post events :=
    ⟨events, journal, fun row mem => absurd mem (claimless claims row), by simp [claims], by simp [endings], by simp [endings]⟩
  have starts {x : W} {owner : Option Int} {condition : LiveJob → Bool}
      (same : ∀ row, Keyed.key (if condition row then x.started owner row else row) = Keyed.key row)
      (startable : ∀ old ∈ pre.jobs, condition old = true → pre.Startable old) (allowed : rules.starts pre)
      (jobs : post.jobs = pre.jobs.update (fun row => if condition row then x.started owner row else row) same)
      (journal : post.journal = ((pre.jobs.rows.filter condition).map fun row =>
        Event.claimed (x.started owner row)).reverse ++ pre.journal) : ∃ events, Enters rules pre post events := by
    have endings : (((pre.jobs.rows.filter condition).map fun row =>
        Event.claimed (x.started owner row)).reverse.filterMap ending?) = [] :=
      filterMap_eq_nil_iff.mpr (forall_mem_entered fun _ => rfl)
    refine ⟨_, journal, fun row mem => ?_, ?_, by simp [endings], by simp [endings]⟩
    · obtain ⟨old, taken, same⟩ := mem_map.mp (mem_reverse.mp mem)
      cases same
      obtain ⟨held, selected⟩ := mem_filter.mp taken
      refine ⟨?_, old, held, .of_condition held (startable old held) allowed journal selected⟩
      rw [jobs]
      exact (Table.mem_update same).mpr ⟨old, held, if_pos selected⟩
    · have claims : (claim? ∘ fun row => Event.claimed (x.started owner row)) = fun row => some (row.id, row.fence + 1) := rfl
      rw [filterMap_reverse, nodup_reverse, filterMap_map, claims, filterMap_eq_map']
      refine List.Nodup.of_map Prod.fst ?_
      rw [map_map]
      exact pre.jobs.distinct.sublist (filter_sublist.map _)
  have ends (events : List Event) (journal : post.journal = events ++ pre.journal) {ended : LiveJob}
      (claims : events.filterMap claim? = []) (endings : events.filterMap ending? = [(ended.id, ended.fence)])
      (held : ended ∈ pre.jobs) (running : ended.state = .running)
      (idle : ∀ other ∈ post.jobs, other.id = ended.id → other.state ≠ .running) : ∃ events, Enters rules pre post events :=
    ⟨events, journal, fun row mem => absurd mem (claimless claims row), by simp [claims],
      by simpa [endings] using ⟨ended, held, ⟨rfl, rfl⟩, running, idle⟩, by simp [endings]⟩
  cases change with
  | book event books =>
    apply silent [event] rfl <;> cases event <;> first | rfl | cases books
  | insert row event free birth =>
    apply silent [event] rfl <;> cases event <;> first | rfl | cases birth
  | start x client condition same positive startable allowed => exact starts same startable allowed rfl rfl
  | lease x row condition same lease leases only mem startable id fence upserted allowed =>
    exact starts same (fun old held selected => (only old held).mp selected ▸ startable) allowed rfl rfl
  | resume ended rewrite same leases held running resumed =>
    refine ends [.ended ended.id ended.fence] rfl rfl rfl held running fun other mem sameID => ?_
    rcases (Table.mem_modify same).mp mem with ⟨_, different⟩ | ⟨old, oldMem, keyed, rfl⟩
    · exact absurd sameID different
    · rw [Table.eq_of_key oldMem held keyed]
      exact JobState.waiting_ne_running resumed.waits
  | finish x finished => exact silent [.finished finished.row finished.state finished.output] rfl rfl rfl
  | conclude x finished leases held running =>
    exact ends [.finished finished.row finished.state finished.output, .ended finished.row.id finished.row.fence]
      rfl rfl rfl held running fun other mem same => absurd same (by simpa using (Table.mem_delete.mp mem).2)
  | retry old row => exact silent [.retried row] rfl rfl rfl
  | touch | forget | renew => exact silent [] rfl rfl rfl

/-- The row of an event that a change enters, and that brings it into being. -/
structure Born (before after : Roster) (event : Event) (row : LiveJob) : Prop where
  birth : birth? event = some row
  journal : after.journal = event :: before.journal
  member : row ∈ after.jobs
  unknown : ¬before.Known row.id
  seq : row.seq = before.seq + 1
  next : after.seq = before.seq + 1
  calls : ∀ batch, event = .callback batch row → row.batchID = none

theorem births (change : Change rules pre post) :
    (∃ events, post.journal = events ++ pre.journal ∧ ∀ event ∈ events, birth? event = none) ∨
      ∃ event row, Born pre post event row := by
  have barren (events : List Event) (all : ∀ event ∈ events, birth? event = none) :
      (∃ others, events ++ pre.journal = others ++ pre.journal ∧ ∀ event ∈ others, birth? event = none) :=
    ⟨events, rfl, all⟩
  cases change with
  | book event books =>
    refine .inl (barren [event] fun other mem => ?_)
    rw [mem_singleton.mp mem]
    cases event <;> first | rfl | cases books
  | insert row event free birth unknown fresh next keyFree attempts calls =>
    exact .inr ⟨event, row, birth, rfl, (Table.mem_append free).mpr (.inr rfl), unknown, next, rfl, calls⟩
  | start | lease => exact .inl (barren _ (forall_mem_entered fun _ => rfl))
  | resume row => exact .inl (barren [.ended row.id row.fence] (by simp [birth?]))
  | finish x finished => exact .inl (barren [.finished finished.row finished.state finished.output] (by simp [birth?]))
  | conclude x finished =>
    exact .inl (barren [.finished finished.row finished.state finished.output,
      .ended finished.row.id finished.row.fence] (by simp [birth?]))
  | retry old row => exact .inl (barren [.retried row] (by simp [birth?]))
  | touch | forget | renew => exact .inl (barren [] (by simp))

/-- A job moves to history as it leaves the live table. -/
structure Archives (before after : Roster) (finished : Finished) (now : Int) : Prop where
  member : finished.row ∈ before.jobs
  history : after.history = before.history ++ [finished.archivedAt now]
  others : ∀ row ∈ after.jobs, row ∈ before.jobs ∧ row.id ≠ finished.row.id

theorem history_cases (change : Change rules pre post) :
    post.history.Sublist pre.history ∨ ∃ finished now, Archives pre post finished now := by
  have archives (x : W) (finished : Finished) (mem : finished.row ∈ pre.jobs)
      (jobs : post.jobs = pre.jobs.delete fun row => decide (row.id = finished.row.id))
      (history : post.history =
        if finished.archive then pre.history ++ [finished.archivedAt x.now] else pre.history) :
      post.history.Sublist pre.history ∨ ∃ finished now, Archives pre post finished now := by
    cases archived : finished.archive with
    | false =>
      rw [history, archived]
      exact .inl (List.Sublist.refl _)
    | true =>
      rw [archived] at history
      refine .inr ⟨finished, x.now, mem, history, ?_⟩
      intro row rowMem
      rw [jobs] at rowMem
      simpa using rowMem
  cases change with
  | finish x finished mem | conclude x finished leases mem => exact archives x finished mem rfl rfl
  | retry => exact .inl erase_sublist
  | forget history sublist => exact .inl sublist
  | _ => exact .inl (List.Sublist.refl _)

end Change

structure Identity (roster : Roster) : Prop where
  seq_le : ∀ row ∈ roster.jobs, row.seq ≤ roster.seq
  seq_injective : ∀ first ∈ roster.jobs, ∀ second ∈ roster.jobs, first.seq = second.seq → first = second
  jobs_known : ∀ row ∈ roster.jobs, roster.Known row.id
  history_known : ∀ row ∈ roster.history, roster.Known row.id
  history_distinct : (roster.history.map fun row => row.id).Nodup
  apart : ∀ past ∈ roster.history, ∀ row ∈ roster.jobs, past.id ≠ row.id

namespace Identity

theorem empty : Identity (roster {}) where
  seq_le := Table.forall_mem_empty
  seq_injective := Table.forall_mem_empty
  jobs_known := Table.forall_mem_empty
  history_known := forall_mem_nil _
  history_distinct := nodup_nil
  apart := forall_mem_nil _

theorem erase_id_ne (identity : Identity pre) {past other : HistoryJob}
    (mem : past ∈ pre.history) (left : other ∈ pre.history.erase past) :
    other.id ≠ past.id := by
  intro same
  have equal : other = past := inj_on_of_nodup_map identity.history_distinct (mem_of_mem_erase left) mem same
  rw [equal] at left
  exact (identity.history_distinct.of_map _).not_mem_erase left

section
variable (identity : Identity pre) (change : Change rules pre post)
include identity change

private theorem seq_le_step : ∀ row ∈ post.jobs, row.seq ≤ post.seq := by
  intro row mem
  rcases change.origin mem with ⟨old, oldMem, goes⟩ | arrives
  · rw [goes.kept.seq]
    exact (identity.seq_le old oldMem).trans change.seq_le
  · rw [arrives.seq, arrives.next]

private theorem seq_injective_step : ∀ first ∈ post.jobs, ∀ second ∈ post.jobs, first.seq = second.seq → first = second := by
  intro first firstMem second secondMem same
  have bound := identity.seq_le
  rcases change.origin firstMem with ⟨firstOld, firstOldMember, firstGoes⟩ | firstArrives <;>
    rcases change.origin secondMem with ⟨secondOld, secondOldMember, secondGoes⟩ | secondArrives
  · have sameOld := identity.seq_injective firstOld firstOldMember secondOld secondOldMember
      (by rw [← firstGoes.kept.seq, ← secondGoes.kept.seq, same])
    exact Table.eq_of_key firstMem secondMem (by simp only [key_liveJob]; rw [firstGoes.kept.id, secondGoes.kept.id, sameOld])
  · have firstBound := bound firstOld firstOldMember
    rw [← firstGoes.kept.seq, same, secondArrives.seq] at firstBound
    omega
  · have secondBound := bound secondOld secondOldMember
    rw [← secondGoes.kept.seq, ← same, firstArrives.seq] at secondBound
    omega
  · -- Both arrive, and one change brings one row.
    rcases firstArrives.others second secondMem with equal | old
    · exact equal.symm
    · exact absurd rfl (secondArrives.absent second old)

private theorem jobs_known_step : ∀ row ∈ post.jobs, post.Known row.id := by
  intro row mem
  rcases change.origin mem with ⟨old, oldMem, goes⟩ | arrives
  · rw [goes.kept.id]
    exact change.known_mono (identity.jobs_known old oldMem)
  · cases arrives.arrival with
    | born event birth journal => exact ⟨event, journal ▸ mem_cons_self, row, birth, rfl⟩
    | revived past pastMem revived =>
      rw [revived.id]
      exact change.known_mono (identity.history_known past pastMem)

private theorem history_known_step : ∀ row ∈ post.history, post.Known row.id := by
  intro past mem
  apply change.known_mono
  rcases change.history_cases with sublist | ⟨finished, now, archives⟩
  · exact identity.history_known past (sublist.subset mem)
  · rw [archives.history] at mem
    rcases List.mem_append.mp mem with old | new
    · exact identity.history_known past old
    · rw [mem_singleton.mp new]
      exact identity.jobs_known finished.row archives.member

private theorem history_distinct_step : (post.history.map fun row => row.id).Nodup := by
  rcases change.history_cases with sublist | ⟨finished, now, archives⟩
  · exact identity.history_distinct.sublist (sublist.map _)
  · rw [archives.history, map_append, map_singleton, nodup_append]
    refine ⟨identity.history_distinct, nodup_singleton _, ?_⟩
    intro id mem other new same
    obtain ⟨past, pastMem, rfl⟩ := mem_map.mp mem
    rw [mem_singleton.mp new] at same
    exact identity.apart past pastMem finished.row archives.member same

private theorem apart_step : ∀ past ∈ post.history, ∀ row ∈ post.jobs, past.id ≠ row.id := by
  intro past pastMem row mem
  rcases change.history_cases with sublist | ⟨finished, now, archives⟩
  · rcases change.origin mem with ⟨old, oldMem, goes⟩ | arrives
    · rw [goes.kept.id]
      exact identity.apart past (sublist.subset pastMem) old oldMem
    · cases arrives.arrival with
      | born event birth journal unknown fresh attempts history =>
        intro same
        rw [history] at pastMem
        exact unknown (same ▸ identity.history_known past pastMem)
      | revived old oldMem revived edits journal history =>
        rw [history] at pastMem
        rw [revived.id]
        exact identity.erase_id_ne oldMem pastMem
  · obtain ⟨rowMem, other⟩ := archives.others row mem
    rw [archives.history] at pastMem
    rcases List.mem_append.mp pastMem with old | new
    · exact identity.apart past old row rowMem
    · rw [mem_singleton.mp new]
      exact other.symm

end

theorem step (identity : Identity pre) (change : Change rules pre post) : Identity post where
  seq_le := identity.seq_le_step change
  seq_injective := identity.seq_injective_step change
  jobs_known := identity.jobs_known_step change
  history_known := identity.history_known_step change
  history_distinct := identity.history_distinct_step change
  apart := identity.apart_step change

end Identity

def Unique (roster : Roster) : Prop :=
  ∀ first ∈ roster.jobs, ∀ second ∈ roster.jobs, first.kind = second.kind →
    first.uniqueKey = second.uniqueKey → first.uniqueKey ≠ none → first = second

namespace Unique

theorem empty : Unique (roster {}) :=
  Table.forall_mem_empty

theorem step (unique : Unique pre) (change : Change rules pre post) : Unique post := by
  intro first firstMem second secondMem kind key held
  rcases change.origin firstMem with ⟨firstOld, firstOldMember, firstGoes⟩ | firstArrives <;>
    rcases change.origin secondMem with ⟨secondOld, secondOldMember, secondGoes⟩ | secondArrives
  · have sameOld := unique firstOld firstOldMember secondOld secondOldMember (by rw [← firstGoes.kept.kind, ← secondGoes.kept.kind, kind])
      (by rw [← firstGoes.kept.uniqueKey, ← secondGoes.kept.uniqueKey, key])
      (by rw [← firstGoes.kept.uniqueKey]; exact held)
    exact Table.eq_of_key firstMem secondMem (by simp only [key_liveJob]; rw [firstGoes.kept.id, secondGoes.kept.id, sameOld])
  · exact absurd (key.trans (secondArrives.keyFree firstOld firstOldMember
      (by rw [← firstGoes.kept.kind, kind]) (by rw [← firstGoes.kept.uniqueKey, key]))) held
  · exact absurd (firstArrives.keyFree secondOld secondOldMember
      (by rw [← secondGoes.kept.kind, kind]) (by rw [← secondGoes.kept.uniqueKey, key])) held
  · rcases firstArrives.others second secondMem with equal | old
    · exact equal.symm
    · exact absurd rfl (secondArrives.absent second old)

end Unique

end Hopper.Lifecycle
