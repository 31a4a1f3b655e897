import Hopper.Lifecycle.Balance

/-! How jobs ended, and the statements that end none: of edges and recorded
results they can only leave fewer. -/

namespace Hopper.Lifecycle

open List Option Kernel Driver Sqlite

/-- How a job ended, with its output, if the event is an end of it. -/
def outcome? (id : JobID) : Event → Option (JobState × Option String)
  | .finished row state output => if row.id = id then some (state, output) else none
  | _ => none

def lastOutcome? (journal : List Event) (id : JobID) : Option (JobState × Option String) :=
  journal.findSome? (outcome? id)

variable {events journal : List Event} {batch id : JobID}

theorem lastOutcome_append {id : JobID} (none : ∀ event ∈ events, outcome? id event = none) :
    lastOutcome? (events ++ journal) id = lastOutcome? journal id := by
  induction events with
  | nil => rfl
  | cons event events ih =>
    rw [cons_append, lastOutcome?, findSome?_cons, none event mem_cons_self]
    exact ih fun other mem => none other (mem_cons_of_mem _ mem)

theorem lastOutcome_finished (row : LiveJob) (state : JobState) (output : Option String) (journal : List Event) (id : JobID) :
    lastOutcome? (.finished row state output :: journal) id =
      if row.id = id then some (state, output) else lastOutcome? journal id := by
  simp only [lastOutcome?, findSome?_cons, outcome?]
  split
  · next some same => split at same <;> simp_all
  · next none => split at none <;> simp_all

theorem ended_eq_outcome (id : JobID) (event : Event) : ended? id event = (outcome? id event).map Prod.fst := by
  cases event with
  | finished =>
    simp only [ended?, outcome?]
    split <;> rfl
  | _ => rfl

theorem lastEnding_eq_outcome (journal : List Event) (id : JobID) :
    lastEnding? journal id = (lastOutcome? journal id).map Prod.fst := by
  rw [lastEnding?, lastOutcome?, map_findSome?]
  exact congrArg journal.findSome? (funext (ended_eq_outcome id))

theorem outcome_of_silent {event : Event} (is : silent event = true) (id : JobID) : outcome? id event = none := by
  cases event <;> first | rfl | cases is

def Open (store : Store) (batch : JobID) : Prop :=
  ∃ row, store.batches.find? batch = some row ∧ row.completedAt = none

theorem known_of_joined {store : Store} (mem : id ∈ joined store.journal batch) :
    (roster store).Known id := by
  obtain ⟨born, among, _, same⟩ := mem_joined.mp mem
  obtain ⟨event, eventMem, birth⟩ := mem_filterMap.mp among
  exact ⟨event, eventMem, born, birth, same⟩

theorem births_append {born : LiveJob} (among : born ∈ births journal) : born ∈ births (events ++ journal) := by
  rw [births, filterMap_append]
  exact mem_append_right _ among

theorem joined_append (mem : id ∈ joined journal batch) : id ∈ joined (events ++ journal) batch := by
  obtain ⟨born, among, facts⟩ := mem_joined.mp mem
  exact mem_joined.mpr ⟨born, births_append among, facts⟩

/-- No job that was there ends, comes back or goes. Edges and results can only
be deleted, and results of open batches are not. -/
structure Rests (before after : Store) : Prop where
  journal : ∃ events, after.journal = events ++ before.journal ∧ ∀ event ∈ events, ∀ id, outcome? id event = none
  live : ∀ id, (roster before).Known id → after.live id = before.live id
  deps : ∀ edge ∈ after.deps, edge ∈ before.deps
  results : ∀ result ∈ after.results, result ∈ before.results
  kept : ∀ result ∈ before.results, before.batches.has result.batchID = true → Open after result.batchID →
    result ∈ after.results
  has : ∀ batch, before.batches.has batch = true → after.batches.has batch = true
  opens : ∀ batch, before.batches.has batch = true → Open after batch → Open before batch

namespace Rests

variable {rules : Rules} {engine : Engine} {pre middle post : Store}
variable {batch : JobID} {row : BatchRow} {id : JobID} {events : List Event} {x : W}

section
variable (rests : Rests pre post)
include rests

theorem outcomes (id : JobID) : lastOutcome? post.journal id = lastOutcome? pre.journal id := by
  obtain ⟨events, journal, none⟩ := rests.journal
  rw [journal, lastOutcome_append fun event mem => none event mem id]

theorem endings (id : JobID) : lastEnding? post.journal id = lastEnding? pre.journal id := by
  rw [lastEnding_eq_outcome, lastEnding_eq_outcome, rests.outcomes]

theorem births {born : LiveJob} (among : born ∈ births pre.journal) :
    born ∈ Lifecycle.births post.journal := by
  obtain ⟨events, journal, _⟩ := rests.journal
  rw [journal]
  exact births_append among

theorem joined (mem : id ∈ joined pre.journal batch) :
    id ∈ Lifecycle.joined post.journal batch := by
  obtain ⟨events, journal, _⟩ := rests.journal
  rw [journal]
  exact joined_append mem

theorem known (known : (roster pre).Known id) : (roster post).Known id := by
  obtain ⟨event, mem, born, birth, same⟩ := known
  obtain ⟨events, journal, _⟩ := rests.journal
  refine ⟨event, ?_, born, birth, same⟩
  change event ∈ post.journal
  rw [journal]
  exact mem_append_right _ mem

end

theorem trans (first : Rests pre middle) (second : Rests middle post) : Rests pre post where
  journal := by
    obtain ⟨earlier, firstJournal, firstNone⟩ := first.journal
    obtain ⟨later, secondJournal, secondNone⟩ := second.journal
    refine ⟨later ++ earlier, by rw [secondJournal, firstJournal, append_assoc], fun event mem id => ?_⟩
    rcases List.mem_append.mp mem with among | among
    · exact secondNone event among id
    · exact firstNone event among id
  live := fun id known => (second.live id (first.known known)).trans (first.live id known)
  deps := fun edge mem => first.deps edge (second.deps edge mem)
  results := fun result mem => first.results result (second.results result mem)
  kept := by
    intro result mem held opened
    have middleHeld := first.has _ held
    exact second.kept result (first.kept result mem held (second.opens _ middleHeld opened)) middleHeld opened
  has := fun batch held => second.has batch (first.has batch held)
  opens := fun batch held opened => first.opens batch held (second.opens batch (first.has batch held) opened)

theorem aside (journal : post.journal = events ++ pre.journal)
    (none : ∀ event ∈ events, ∀ id, outcome? id event = none)
    (live : ∀ id, (roster pre).Known id → post.live id = pre.live id) (deps : post.deps = pre.deps)
    (results : post.results = pre.results) (batches : post.batches = pre.batches) :
    Rests pre post where
  journal := ⟨events, journal, none⟩
  live := live
  deps := fun edge mem => deps ▸ mem
  results := fun result mem => results ▸ mem
  kept := fun result mem _ _ => results ▸ mem
  has := fun batch held => batches ▸ held
  opens := by
    rintro batch _ ⟨row, found, opened⟩
    exact ⟨row, batches ▸ found, opened⟩

theorem refl (store : Store) : Rests store store :=
  aside (nil_append _).symm (forall_mem_nil _) (fun _ _ => rfl) rfl rfl rfl

theorem of_steady (steady : Steady rules pre post) : Rests pre post := by
  obtain ⟨events, journal, quiet⟩ := steady.journal
  refine aside journal (fun event mem id => ?_) (fun id _ => steady.live id) steady.deps steady.results steady.batches
  rcases quiet event mem with claims | ends
  · cases event <;> first | rfl | exact absurd rfl claims
  · cases event <;> first | rfl | exact absurd rfl ends

theorem of_births {rows : List LiveJob} {bear : LiveJob → Event} (births : ∀ row, birth? (bear row) = some row)
    (jobs : post.jobs.rows = pre.jobs.rows ++ rows)
    (journal : post.journal = (rows.map bear).reverse ++ pre.journal) (descent : Descent (roster post))
    (deps : post.deps = pre.deps) (results : post.results = pre.results)
    (batches : post.batches = pre.batches) : Rests pre post := by
  have born : Lifecycle.births post.journal = rows.reverse ++ Lifecycle.births pre.journal := by
    rw [journal, Lifecycle.births, filterMap_append, ← map_reverse, filterMap_map,
      show birth? ∘ bear = some from funext births, filterMap_some]
    rfl
  refine aside journal (fun event mem id => ?_) ?_ deps results batches
  · obtain ⟨row, _, rfl⟩ := mem_map.mp (mem_reverse.mp mem)
    have birth := births row
    generalize bear row = event at birth
    cases event <;> first | rfl | cases birth
  · rintro id ⟨event, mem, old, birth, rfl⟩
    have distinct : ((Lifecycle.births post.journal).map fun row => row.id).Nodup := descent.distinct
    rw [born, map_append] at distinct
    have oldBorn : old ∈ Lifecycle.births pre.journal := mem_filterMap.mpr ⟨event, mem, birth⟩
    rw [Bool.eq_iff_iff, live_iff, live_iff]
    simp only [Table.mem_def, jobs, List.mem_append]
    constructor
    · rintro ⟨row, held | new, same⟩
      · exact ⟨row, held, same⟩
      · exact absurd same ((nodup_append.mp distinct).2.2 row.id
          (mem_map_of_mem (mem_reverse.mpr new)) old.id (mem_map_of_mem oldBorn))
    · rintro ⟨row, held, same⟩
      exact ⟨row, .inl held, same⟩

theorem of_insertRow {row : LiveJob} {result : JobRow} (descent : Descent (roster post))
    (inserted : Yields (W.insertRow row .inserted) pre result post) : Rests pre post := by
  have births := insert_inserted inserted
  obtain ⟨free, _, _, rfl⟩ := W.yields_insertRow inserted
  exact of_births (fun _ => rfl) births.jobs births.journal descent rfl rfl rfl

theorem of_sweep {condition : ResultRow → Bool}
    (orphan : ∀ row ∈ pre.results, condition row = true → W.orphanResult pre row = true) :
    Rests pre { pre with results := pre.results.delete condition } where
  journal := (Rests.refl pre).journal
  live := fun _ _ => rfl
  deps := fun _ mem => mem
  results := fun _ mem => (Table.mem_delete.mp mem).1
  kept := by
    rintro result mem _ ⟨row, found, opened⟩
    refine Table.mem_delete.mpr ⟨mem, ?_⟩
    cases swept : condition result with
    | false => rfl
    | true =>
      have orphaned := orphan result mem swept
      change pre.batches.find? result.batchID = some row at found
      simp [W.orphanResult, found, opened] at orphaned
  has := fun _ held => held
  opens := fun _ _ opened => opened

theorem of_dropEdges (finished : List Finished) (store : Store) : Rests store (W.dropEdges finished store) where
  journal := (Rests.refl store).journal
  live := fun _ _ => rfl
  deps := fun _ mem => (Table.mem_delete.mp mem).1
  results := fun _ mem => mem
  kept := fun _ mem _ _ => mem
  has := fun _ held => held
  opens := fun _ _ opened => opened

theorem of_promoteIfReady (x : W) (store : Store) (id : JobID) : Rests store (x.promoteIfReady store id) := by
  obtain ⟨jobs, notes, same, live⟩ := promoteIfReady_eq x store id
  rw [same]
  exact aside (nil_append _).symm (forall_mem_nil _) (fun other _ => live other) rfl rfl rfl

theorem of_opened (free : pre.batches.has row.id = false) (same : roster post = roster pre)
    (deps : post.deps = pre.deps) (results : post.results = pre.results)
    (batches : post.batches = pre.batches.append row free) : Rests pre post where
  journal := ⟨[], congrArg Roster.journal same, forall_mem_nil _⟩
  live := fun id _ => congrArg (fun jobs : Table LiveJob => jobs.has id) (congrArg Roster.jobs same)
  deps := fun _ mem => deps ▸ mem
  results := fun _ mem => results ▸ mem
  kept := fun _ mem _ _ => results ▸ mem
  has := by
    intro batch held
    obtain ⟨other, mem, keyed⟩ := Table.has_eq_true.mp held
    rw [batches]
    exact Table.has_eq_true.mpr ⟨other, (Table.mem_append free).mpr (.inl mem), keyed⟩
  opens := by
    rintro batch held ⟨other, found, opened⟩
    rw [batches, Table.find?_append, if_neg] at found
    · exact ⟨other, found, opened⟩
    · rintro rfl
      rw [show pre.batches.has (Keyed.key row) = false from free] at held
      cases held

theorem of_counted {change : BatchRow → BatchRow} (batches : ∀ other, post.batches.find? other =
      if other = batch then (pre.batches.find? other).map change else pre.batches.find? other)
    (found : pre.batches.find? batch = some row) (opened : row.completedAt = none)
    (journal : post.journal = events ++ pre.journal) (none : ∀ event ∈ events, ∀ id, outcome? id event = none)
    (jobs : post.jobs = pre.jobs) (deps : post.deps = pre.deps)
    (results : ∀ result ∈ post.results, result ∈ pre.results)
    (deleted : ∀ result ∈ pre.results, result ∈ post.results ∨
      result.batchID = batch ∧ (change row).completedAt.isSome = true) : Rests pre post where
  journal := ⟨events, journal, none⟩
  live := fun id _ => congrArg (fun jobs : Table LiveJob => jobs.has id) jobs
  deps := fun _ mem => deps ▸ mem
  results := results
  kept := by
    rintro result mem _ ⟨other, there, unfinished⟩
    rcases deleted result mem with held | ⟨inBatch, closed⟩
    · exact held
    · rw [inBatch, batches, if_pos rfl, found, map_some, some.injEq] at there
      rw [there, unfinished] at closed
      cases closed
  has := by
    intro other held
    rw [Table.has, batches]
    split
    · rw [isSome_map]
      exact held
    · exact held
  opens := by
    rintro other _ ⟨later, there, unfinished⟩
    rw [batches] at there
    split at there
    · next equal =>
      rw [equal]
      exact ⟨row, found, opened⟩
    · exact ⟨later, there, unfinished⟩

theorem of_completeBatch {failed : Int} (found : pre.batches.find? batch = some row)
    (opened : row.completedAt = none) : Rests pre (x.completeBatch row failed pre) := by
  have keyed : row.id = batch := Table.key_of_find? found
  subst keyed
  have journal : (x.completeBatch row failed pre).journal = [.completed row.id failed] ++ pre.journal := rfl
  refine of_counted (fun _ => by rw [W.completeBatch, Table.find?_modify]) found opened journal (fun event mem id => ?_) rfl rfl ?_ ?_
  · rw [mem_singleton.mp mem]
    rfl
  · intro result mem
    simp only [W.completeBatch] at mem
    split at mem
    · exact (Table.mem_delete.mp mem).1
    · exact mem
  · intro result mem
    simp only [W.completeBatch]
    split
    · by_cases inBatch : result.batchID = row.id
      · exact .inr ⟨inBatch, rfl⟩
      · exact .inl (Table.mem_delete.mpr ⟨mem, decide_eq_false inBatch⟩)
    · exact .inl mem

theorem of_countBatch {owner : JobID} {count failed : Int} (descent : Descent (roster post))
    (counted : Yields (x.countBatch owner count failed) pre () post) : Rests pre post := by
  rcases W.yields_countBatch counted with ⟨_, rfl⟩ | ⟨row, found, ⟨_, rfl⟩ | ⟨opened, _, rfl⟩ | ⟨opened, _, called⟩⟩
  · exact .refl _
  · exact .refl _
  · have unfinished : row.completedAt = none := by simpa using opened
    exact of_counted (fun _ => by rw [Table.find?_modify]) found unfinished (nil_append _).symm
      (forall_mem_nil _) rfl rfl (fun _ mem => mem) fun _ mem => .inl mem
  · have unfinished : row.completedAt = none := by simpa using opened
    obtain ⟨jobs, notes, rows, rfl⟩ := W.yields_insertCallbacks called
    exact (of_completeBatch found unfinished).trans (of_births (fun _ => rfl) rows rfl descent rfl rfl rfl)

end Rests

end Hopper.Lifecycle
