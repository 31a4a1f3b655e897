import Hopper.Kernel.Recurrence
import Hopper.Postgres.Deltas

/-! Streams on Postgres: whatever order transactions commit in, a consumer is
delivered each committed event that matches its pattern once, as long as pumps
keep running. -/

namespace Hopper.Postgres

open List Kernel Driver

def Pumps (before after : StreamDB) : Prop :=
  ∃ own limit reading committed chosen, before.pump = .delivered own limit reading committed chosen ∧
    own ∈ after.transactions.committed

structure SameReading (before after : ConsumerRow) : Prop where
  pattern : after.pattern = before.pattern
  seen : after.seen = before.seen
  reading : after.reading = before.reading
  position : after.position = before.position

section
variable {topicMatches : String → String → Bool} {pre post : StreamDB} {consumer : Consumer}
variable {row : ConsumerRow} {other : ConsumerRow} {reading : Snapshot}

section
variable (step : StreamStep topicMatches pre post)
include step

theorem step_advances : pre.transactions.Advances post.transactions := by
  cases step with
  | begin | assign => exact .begin _
  | commit xid runs | commitUpsert xid runs
  | commitPump own limit reading committed chosen consumer done there runs => exact .commit runs
  | abort xid runs => exact .abort runs
  | append | upsert | lock | snapshot | deliver => exact .refl _

theorem step_events :
    ∃ extra, post.events = pre.events ++ extra ∧ ∀ event ∈ extra, pre.transactions.Running event.xid := by
  cases step with
  | append event =>
    refine ⟨[event], rfl, fun new mem => ?_⟩
    rwa [mem_singleton.mp mem]
  | begin | assign | commit | commitUpsert | commitPump | abort | upsert | lock | snapshot | deliver =>
    exact ⟨[], (append_nil _).symm, nofun⟩

theorem step_consumer (there : pre.consumer = some consumer) :
    (∃ row, post.consumer = some { consumer with row := row } ∧ SameReading consumer.row row) ∨ Pumps pre post := by
  have same : SameReading consumer.row consumer.row := ⟨rfl, rfl, rfl, rfl⟩
  cases step with
  | commitUpsert xid runs row others found idle pattern =>
    refine .inl ⟨consumer.row.upserted row, ?_, (pattern consumer there).symm, rfl, rfl, rfl⟩
    simp only [StreamDB.applyUpsert, there]
  | commitPump own limit reading committed chosen other done =>
    exact .inr ⟨own, limit, reading, committed, chosen, done, mem_cons_self ..⟩
  | begin | assign | commit | append | abort | upsert | lock | snapshot | deliver => exact .inl ⟨_, there, same⟩

end

theorem pumps_consumer (holds : StreamHolds topicMatches pre) (step : StreamStep topicMatches pre post)
    (there : pre.consumer = some consumer) (pumps : Pumps pre post) :
    ∃ own limit reading committed chosen, pre.pump = .delivered own limit reading committed chosen ∧
      post.consumer = some (consumer.pumped reading committed limit chosen) ∧ post.pump = .idle := by
  obtain ⟨own, limit, reading, committed, chosen, pump, done⟩ := pumps
  have pumping : pre.pump.own? = some own := by rw [pump, Pump.own?]
  have runs := (holds.pumping own pumping).1
  have uncommitted : own ∉ pre.transactions.committed := fun mem => runs.uncompleted (.inl mem)
  cases step with
  | commit xid running other =>
    rcases mem_cons.mp done with rfl | old
    · exact absurd pumping other
    · exact absurd old uncommitted
  | commitUpsert xid running row others found idle =>
    rw [idle] at pump
    cases pump
  | commitPump other limit reading committed chosen found pumped same =>
    cases there.symm.trans same
    exact ⟨other, limit, reading, committed, chosen, pumped, rfl, rfl⟩
  | begin | assign | append | abort | upsert | lock | snapshot | deliver => exact absurd done uncommitted

def left (topicMatches : String → String → Bool) (db : StreamDB) (row : ConsumerRow) (reading : Snapshot) : Nat :=
  (streamPumpRows topicMatches db.transactions db.events row reading).length

theorem left_same (same : SameReading row other) (reading : Snapshot) :
    left topicMatches pre other reading = left topicMatches pre row reading := by
  simp only [left, streamPumpRows, streamPumpWhere, same.pattern, same.seen, same.position]

theorem left_step (holds : StreamHolds topicMatches pre) (step : StreamStep topicMatches pre post)
    (there : pre.consumer = some consumer) (reads : consumer.row.reading = some reading)
    (row : ConsumerRow) : left topicMatches post row reading = left topicMatches pre row reading := by
  obtain ⟨extra, appended, running⟩ := step_events step
  have opened := (holds.consumer consumer there).1.opened reading reads
  have settled : ∀ event ∈ pre.events, reading.sees event.xid = true →
      (event.xid ∈ post.transactions.committed ↔ event.xid ∈ pre.transactions.committed) := by
    intro event mem visible
    have given := holds.first ▸ holds.logged.assigned event mem
    exact (step_advances step).committed _ ((opened.taken.completed _ given visible).resolve_right nofun)
  have hidden : ∀ event ∈ extra, reading.sees event.xid = false := by
    intro event mem
    cases visible : reading.sees event.xid with
    | false => rfl
    | true =>
      have runs := running event mem
      exact absurd ((opened.taken.completed _ runs.first_le visible).resolve_right nofun) runs.uncompleted
  rw [left, left, appended, streamPumpRows_frame settled hidden]

theorem left_pumped {transactions : Transactions} {events : List StreamEvent} {limit : Nat}
    {chosen : List StreamEvent} (bounds : reading.xmin ≤ reading.xmax) (positive : 1 ≤ limit)
    (pumped : chosen = streamPumpSQL topicMatches transactions events row reading limit)
    (full : ¬chosen.length < limit) :
    (streamPumpRows topicMatches transactions events (pumpedRow row reading limit chosen) reading).length <
      (streamPumpRows topicMatches transactions events row reading).length := by
  cases final : chosen.getLast? with
  | none =>
    rw [getLast?_eq_none_iff.mp final] at full
    exact absurd positive full
  | some last =>
    have chosen_last := mem_of_mem_page (pumped ▸ mem_of_getLast? final)
    have due := ((mem_due bounds).mp chosen_last).2.2
    rw [pumpedRow_of_full full final]
    have fewer : (streamPumpRows topicMatches transactions events
        { row with reading := some reading, xid := last.xid, seq := last.seq } reading).Sublist
        (streamPumpRows topicMatches transactions events row reading) := by
      refine monotone_filter_right events fun event selected => ?_
      rw [Bool.and_eq_true, streamPumpWhere_iff bounds] at selected ⊢
      obtain ⟨done, later⟩ := selected
      exact ⟨done, due.later.trans later.later, later.visible, later.unseen, later.wanted⟩
    refine lt_of_le_of_ne fewer.length_le fun same => ?_
    rw [← fewer.eq_of_length same] at chosen_last
    exact absurd ((mem_due bounds).mp chosen_last).2.2.later (lt_irrefl _)

end

structure PumpingRun (topicMatches : String → String → Bool) (run : Nat → StreamDB) : Prop where
  start : (run 0).Initial
  step : ∀ n, StreamStep topicMatches (run n) (run (n + 1))
  pumps : ∀ n, ∃ m, n ≤ m ∧ Pumps (run m) (run (m + 1))

namespace PumpingRun

variable {topicMatches : String → String → Bool} {run : Nat → StreamDB}

def Ends (run : Nat → StreamDB) (n : Nat) : Prop :=
  Pumps (run n) (run (n + 1)) ∧ (run (n + 1)).pump = .idle ∧
    ∃ consumer, (run (n + 1)).consumer = some consumer ∧ consumer.row.reading = none

variable (running : PumpingRun topicMatches run)
variable {consumer : Consumer} {n : Nat}

include running

theorem reached (n : Nat) : StreamReached topicMatches (run n) := by
  induction n with
  | zero => exact .start running.start
  | succ n ih => exact .step ih (running.step n)

theorem holds (n : Nat) : StreamHolds topicMatches (run n) :=
  .reached (running.reached n)

theorem ends_or_fewer (there : (run n).consumer = some consumer) (pumps : Pumps (run n) (run (n + 1))) :
    Ends run n ∨ ∃ post reading, (run (n + 1)).consumer = some post ∧ post.row.reading = some reading ∧
      ∀ other, consumer.row.reading = some other → other = reading ∧
        left topicMatches (run (n + 1)) post.row reading < left topicMatches (run n) consumer.row reading := by
  obtain ⟨own, limit, reading, committed, chosen, pump, found, idle⟩ :=
    pumps_consumer (running.holds n) (running.step n) there pumps
  have pumping := ((running.holds n).consumer consumer there).2.1
  rw [pump] at pumping
  obtain ⟨positive, opened, same, pumped⟩ := pumping
  by_cases fewer : chosen.length < limit
  · refine .inl ⟨pumps, idle, _, found, ?_⟩
    rw [Consumer.row_pumped, pumpedRow_of_fewer fewer]
  · refine .inr ⟨_, reading, found, ?_, fun other reads => ?_⟩
    · rw [Consumer.row_pumped, pumpedRow, if_neg fewer]
    · obtain rfl := same other reads
      refine ⟨rfl, ?_⟩
      rw [left_step (running.holds n) (running.step n) there reads, Consumer.row_pumped]
      exact left_pumped opened.taken.bounds positive pumped fewer

theorem ends_of_reading (count : Nat) {reading : Snapshot} (there : (run n).consumer = some consumer)
    (reads : consumer.row.reading = some reading) (bound : left topicMatches (run n) consumer.row reading = count) :
    ∃ m, n ≤ m ∧ Ends run m := by
  induction count using Nat.strong_induction_on generalizing n consumer reading with
  | _ count ih =>
    have keeps : ∀ n, (∃ consumer, (run n).consumer = some consumer ∧ consumer.row.reading = some reading ∧
          left topicMatches (run n) consumer.row reading = count) → ¬Pumps (run n) (run (n + 1)) →
        ∃ consumer, (run (n + 1)).consumer = some consumer ∧ consumer.row.reading = some reading ∧
          left topicMatches (run (n + 1)) consumer.row reading = count := by
      intro n kept quiet
      obtain ⟨consumer, there, reads, bound⟩ := kept
      rcases step_consumer (running.step n) there with ⟨row, found, same⟩ | pumped
      · refine ⟨_, found, same.reading.trans reads, ?_⟩
        rw [left_same same, left_step (running.holds n) (running.step n) there reads]
        exact bound
      · exact absurd pumped quiet
    obtain ⟨m, later, ⟨pre, found, laterReading, same⟩, pumps⟩ :=
      kept_until running.pumps keeps ⟨consumer, there, reads, bound⟩
    rcases running.ends_or_fewer found pumps with ends | ⟨post, other, next, reads, fewer⟩
    · exact ⟨m, later, ends⟩
    · obtain ⟨rfl, fewer⟩ := fewer reading laterReading
      obtain ⟨last, past, ends⟩ := ih _ (same ▸ fewer) next reads rfl
      exact ⟨last, (later.trans (Nat.le_succ m)).trans past, ends⟩

theorem ends (there : (run n).consumer = some consumer) : ∃ m, n ≤ m ∧ Ends run m := by
  cases reads : consumer.row.reading with
  | some => exact running.ends_of_reading _ there reads rfl
  | none =>
    have keeps : ∀ n, (∃ consumer, (run n).consumer = some consumer ∧ consumer.row.reading = none) → ¬Pumps (run n) (run (n + 1)) →
        ∃ consumer, (run (n + 1)).consumer = some consumer ∧ consumer.row.reading = none := by
      intro n kept quiet
      obtain ⟨consumer, there, reads⟩ := kept
      rcases step_consumer (running.step n) there with ⟨row, found, same⟩ | pumped
      · exact ⟨_, found, same.reading.trans reads⟩
      · exact absurd pumped quiet
    obtain ⟨m, later, ⟨pre, found, _⟩, pumps⟩ := kept_until running.pumps keeps ⟨consumer, there, reads⟩
    rcases running.ends_or_fewer found pumps with ends | ⟨post, other, next, reads, _⟩
    · exact ⟨m, later, ends⟩
    · obtain ⟨last, past, ends⟩ := running.ends_of_reading _ next reads rfl
      exact ⟨last, (later.trans (Nat.le_succ m)).trans past, ends⟩

end PumpingRun

def Pump.reads? : Pump → Option Snapshot
  | .idle | .locked .. => none
  | .reading _ _ snapshot _ | .delivered _ _ snapshot .. => some snapshot

/-- The event is owed, and the delta under way sees its transaction. -/
structure Awaited (topicMatches : String → String → Bool) (event : StreamEvent) (db : StreamDB) : Prop where
  logged : event ∈ db.events
  consumer : ∃ consumer, db.consumer = some consumer ∧ Owed topicMatches consumer db.transactions event ∧
    ∀ reading, consumer.row.reading = some reading → reading.sees event.xid = true
  pump : ∀ reading, db.pump.reads? = some reading → reading.sees event.xid = true

section
variable {topicMatches : String → String → Bool} {pre post : StreamDB} {event : StreamEvent}

theorem Owed.step {consumer later : Consumer} (owed : Owed topicMatches consumer pre.transactions event)
    (step : StreamStep topicMatches pre post) (created : later.created = consumer.created)
    (pattern : later.row.pattern = consumer.row.pattern) : Owed topicMatches later post.transactions event where
  committed := (step_advances step).mem_committed owed.committed
  unseen := created ▸ owed.unseen
  wanted := pattern ▸ owed.wanted

theorem step_reads (step : StreamStep topicMatches pre post) {reading : Snapshot} (reads : post.pump.reads? = some reading) :
    pre.pump.reads? = some reading ∨ ∃ own consumer, pre.consumer = some consumer ∧
      reading = consumer.row.reading.getD (pre.transactions.snapshot own) := by
  cases step with
  | snapshot own limit consumer locked there => exact .inr ⟨own, consumer, there, (Option.some.inj reads).symm⟩
  | deliver own limit reading committed consumer read =>
    rw [read]
    exact .inl reads
  | lock | commitPump => cases reads
  | abort =>
    dsimp only at reads
    split at reads
    · cases reads
    · exact .inl reads
  | begin | assign | commit | commitUpsert | append | upsert => exact .inl reads

theorem Awaited.step (holds : StreamHolds topicMatches pre) (awaited : Awaited topicMatches event pre)
    (step : StreamStep topicMatches pre post) : Awaited topicMatches event post := by
  obtain ⟨consumer, there, owed, visible⟩ := awaited.consumer
  obtain ⟨extra, appended, _⟩ := step_events step
  refine ⟨appended ▸ mem_append_left extra awaited.logged, ?_, fun reading reads => ?_⟩
  · rcases step_consumer step there with ⟨row, found, same⟩ | pumps
    · exact ⟨_, found, owed.step step rfl same.pattern, fun reading reads => visible reading (same.reading ▸ reads)⟩
    · obtain ⟨own, limit, reading, committed, chosen, pump, found, _⟩ := pumps_consumer holds step there pumps
      refine ⟨_, found, owed.step step Consumer.created_pumped
        Consumer.pattern_pumped, fun other reads => ?_⟩
      rw [Consumer.row_pumped, pumpedRow] at reads
      split at reads
      · cases reads
      · cases reads
        exact awaited.pump reading (by rw [pump, Pump.reads?])
  · rcases step_reads step reads with same | ⟨own, found, same, taken⟩
    · exact awaited.pump reading same
    · cases there.symm.trans same
      subst taken
      cases reads : consumer.row.reading with
      | some other => exact visible other reads
      | none => exact Transactions.sees_of_completed (.inl owed.committed)

end

namespace PumpingRun

variable {topicMatches : String → String → Bool} {run : Nat → StreamDB} (running : PumpingRun topicMatches run)
variable {n : Nat} {event : StreamEvent}
include running

theorem delivered_of_ends (awaited : Awaited topicMatches event (run n)) (ends : Ends run n) :
    ∃ consumer, (run (n + 1)).consumer = some consumer ∧ event ∈ consumer.delivered := by
  obtain ⟨pumps, _, post, next, absent⟩ := ends
  obtain ⟨consumer, there, _, _⟩ := awaited.consumer
  obtain ⟨own, limit, reading, committed, chosen, pump, found, _⟩ :=
    pumps_consumer (running.holds n) (running.step n) there pumps
  cases found.symm.trans next
  have later := awaited.step (running.holds n) (running.step n)
  obtain ⟨_, same, owed, _⟩ := later.consumer
  cases found.symm.trans same
  refine ⟨_, found, ?_⟩
  refine (((running.holds (n + 1)).consumer _ found).1.delivered event).mpr ⟨later.logged, owed, ?_⟩
  rw [Consumer.row_pumped] at absent ⊢
  by_cases fewer : chosen.length < limit
  · rw [pumpedRow_of_fewer fewer]
    exact .inl (awaited.pump reading (by rw [pump, Pump.reads?]))
  · rw [pumpedRow, if_neg fewer] at absent
    cases absent

theorem delivered_of_owed {consumer : Consumer}
    (there : (run n).consumer = some consumer) (logged : event ∈ (run n).events)
    (owed : Owed topicMatches consumer (run n).transactions event) :
    ∃ m, ∃ consumer, (run m).consumer = some consumer ∧ event ∈ consumer.delivered := by
  -- The delta after the next one is read by a snapshot that sees the event.
  obtain ⟨first, later, ends⟩ := running.ends there
  have kept : ∀ n, (∃ consumer, (run n).consumer = some consumer ∧ event ∈ (run n).events ∧
        Owed topicMatches consumer (run n).transactions event) →
      ∃ consumer, (run (n + 1)).consumer = some consumer ∧ event ∈ (run (n + 1)).events ∧
        Owed topicMatches consumer (run (n + 1)).transactions event := by
    intro n kept
    obtain ⟨consumer, there, logged, owed⟩ := kept
    obtain ⟨extra, appended, _⟩ := step_events (running.step n)
    have still := appended ▸ mem_append_left extra logged
    rcases step_consumer (running.step n) there with ⟨row, found, same⟩ | pumps
    · exact ⟨_, found, still, owed.step (running.step n) rfl same.pattern⟩
    · obtain ⟨own, limit, reading, committed, chosen, _, found, _⟩ :=
        pumps_consumer (running.holds n) (running.step n) there pumps
      exact ⟨_, found, still, owed.step (running.step n) Consumer.created_pumped
        Consumer.pattern_pumped⟩
  obtain ⟨_, idle, post, next, absent⟩ := ends
  obtain ⟨_, same, logged, owed⟩ := kept_from kept ⟨consumer, there, logged, owed⟩ (later.trans (Nat.le_succ first))
  cases next.symm.trans same
  have awaited : Awaited topicMatches event (run (first + 1)) := by
    refine ⟨logged, ⟨post, next, owed, fun reading reads => ?_⟩, fun reading reads => ?_⟩
    · rw [absent] at reads
      cases reads
    · rw [idle] at reads
      cases reads
  obtain ⟨second, past, ends⟩ := running.ends next
  exact ⟨second + 1, running.delivered_of_ends
    (kept_from (fun n (awaits : Awaited topicMatches event (run n)) => awaits.step (running.holds n) (running.step n))
      awaited past) ends⟩

end PumpingRun

end Hopper.Postgres

namespace Hopper.Guarantees

open List Kernel Driver Postgres

/-- One pump after another, each in a transaction of its own. -/
def pumpOn (topicMatches : String → String → Bool) (db : StreamDB) (consumer : Consumer) : StreamDB :=
  match db.pump with
  | .idle =>
    if db.transactions.Running (db.transactions.next - 1) then
      { db with pump := .locked (db.transactions.next - 1) 1 }
    else { db with transactions := db.transactions.begin }
  | .locked own limit =>
    { db with
      pump := .reading own limit (consumer.row.reading.getD (db.transactions.snapshot own))
        (if consumer.row.reading.isSome then consumer.committed else db.transactions.committed) }
  | .reading own limit reading committed =>
    { db with
      pump := .delivered own limit reading committed
        (streamPumpSQL topicMatches db.transactions db.events consumer.row reading limit) }
  | .delivered own limit reading committed chosen =>
    if runs : db.transactions.Running own then
      { db.applyPump consumer limit reading committed chosen with transactions := db.transactions.commit own runs }
    else db

structure Pumpable (db : StreamDB) : Prop where
  there : db.consumer.isSome
  upserts : db.upserts = []
  events : ∀ event ∈ db.events, db.transactions.Completed event.xid
  runs : ∀ own, db.pump.own? = some own → db.transactions.Running own

def stepsLeft (db : StreamDB) : Nat :=
  match db.pump with
  | .delivered .. => 0
  | .reading .. => 1
  | .locked .. => 2
  | .idle => if db.transactions.Running (db.transactions.next - 1) then 3 else 4

section
variable {topicMatches : String → String → Bool} {db : StreamDB}

theorem running_begin (transactions : Transactions) : transactions.begin.Running transactions.next :=
  ⟨transactions.first_le, Nat.lt_succ_self _, fun done => absurd (transactions.assigned _ done).2 (Nat.lt_irrefl _)⟩

theorem Pumpable.pumpOn (pumpable : Pumpable db) {consumer : Consumer} (there : db.consumer = some consumer) :
    StreamStep topicMatches db (pumpOn topicMatches db consumer) ∧ Pumpable (pumpOn topicMatches db consumer) ∧
      (Pumps db (pumpOn topicMatches db consumer) ∨ stepsLeft (pumpOn topicMatches db consumer) < stepsLeft db) := by
  unfold Guarantees.pumpOn
  cases pump : db.pump with
  | idle =>
    dsimp only
    split
    · next runs =>
      refine ⟨.lock db _ 1 runs pump pumpable.there (fun event mem same => ?_) (by rw [pumpable.upserts]; exact nofun),
        { pumpable with runs := fun own same => ?_ }, .inr ?_⟩
      · exact runs.uncompleted (same ▸ pumpable.events event mem)
      · cases same
        exact runs
      · simp [stepsLeft, pump, runs]
    · next stopped =>
      have begins : StreamStep topicMatches db { db with transactions := db.transactions.begin } := .begin db
      rw [pump] at begins
      refine ⟨begins, { pumpable with runs := nofun }, .inr ?_⟩
      have runs : db.transactions.begin.Running (db.transactions.begin.next - 1) := running_begin db.transactions
      simp [stepsLeft, pump, runs, stopped]
  | locked own limit =>
    have runs := pumpable.runs own (by rw [pump, Pump.own?])
    refine ⟨.snapshot db own limit consumer pump there, { pumpable with runs := fun other same => ?_ }, .inr ?_⟩
    · cases same
      exact runs
    · simp [stepsLeft, pump]
  | reading own limit reading committed =>
    have runs := pumpable.runs own (by rw [pump, Pump.own?])
    refine ⟨.deliver db own limit reading committed consumer pump there, { pumpable with runs := fun other same => ?_ }, .inr ?_⟩
    · cases same
      exact runs
    · simp [stepsLeft, pump]
  | delivered own limit reading committed chosen =>
    have runs := pumpable.runs own (by rw [pump, Pump.own?])
    dsimp only
    rw [dif_pos runs]
    refine ⟨.commitPump db own limit reading committed chosen consumer pump there runs,
      ⟨rfl, pumpable.upserts, fun event mem => ?_, nofun⟩,
      .inl ⟨own, limit, reading, committed, chosen, pump, mem_cons_self ..⟩⟩
    exact (Transactions.Advances.commit runs).completed _ (pumpable.events event mem)

theorem Pumpable.recurs {next : StreamDB → StreamDB}
    (steps : ∀ db, Pumpable db → Pumpable (next db) ∧ (Pumps db (next db) ∨ stepsLeft (next db) < stepsLeft db))
    (pumpable : Pumpable db) : ∃ n, Pumps (next^[n] db) (next (next^[n] db)) := by
  induction count : stepsLeft db using Nat.strong_induction_on generalizing db with
  | _ count ih =>
    obtain ⟨kept, now | fewer⟩ := steps db pumpable
    · exact ⟨0, now⟩
    · obtain ⟨n, pumps⟩ := ih _ (count ▸ fewer) kept rfl
      exact ⟨n + 1, pumps⟩

end

def keepPumping (db : StreamDB) : StreamDB :=
  match db.consumer with
  | none => db
  | some consumer => pumpOn (fun _ _ => true) db consumer

theorem Pumpable.keepPumping {db : StreamDB} (pumpable : Pumpable db) :
    StreamStep (fun _ _ => true) db (keepPumping db) ∧ Pumpable (keepPumping db) ∧
      (Pumps db (keepPumping db) ∨ stepsLeft (keepPumping db) < stepsLeft db) := by
  obtain ⟨consumer, there⟩ := Option.isSome_iff_exists.mp pumpable.there
  unfold Guarantees.keepPumping
  rw [there]
  exact pumpable.pumpOn there

/-- An event of a transaction that commits after a consumer is created. -/
def lateEvent : StreamEvent := ⟨3, 1, "topic", none, "null", "\x7b\x7d", 1⟩

def lateRow : ConsumerRow where
  name := "consumer"
  pattern := "#"
  kind := "kind"
  queue := "queue"
  maxAttempts := none
  metadata := .object []
  seen := earliestSnapshot
  reading := none
  xid := 0
  seq := 0

def lateStart : StreamDB where
  transactions := { first := 3, next := 4, first_le := by decide, assigned := by simp, apart := by simp }

def lateAppended : StreamDB := { lateStart with events := [lateEvent], nextSeq := 2 }

def lateUpserted : StreamDB := { lateAppended with upserts := [⟨none, lateRow⟩] }

def lateAssigned : StreamDB :=
  { lateUpserted with transactions := lateUpserted.transactions.begin, upserts := [⟨some 4, lateRow⟩] }

def lateCreated : StreamDB :=
  { lateAssigned.applyUpsert ⟨some 4, lateRow⟩ with
    transactions := lateAssigned.transactions.commit 4 (by decide)
    upserts := [] }

def lateCommitted : StreamDB :=
  { lateCreated with transactions := lateCreated.transactions.commit 3 (by decide) }

def lateRun : Nat → StreamDB
  | 0 => lateStart
  | 1 => lateAppended
  | 2 => lateUpserted
  | 3 => lateAssigned
  | 4 => lateCreated
  | n + 5 => keepPumping^[n] lateCommitted

theorem lateCommitted_pumpable : Pumpable lateCommitted where
  there := rfl
  upserts := rfl
  events := by decide
  runs := nofun

theorem pumpable_lateRun (n : Nat) : Pumpable (lateRun (n + 5)) := by
  induction n with
  | zero => exact lateCommitted_pumpable
  | succ n ih =>
    rw [show lateRun (n + 1 + 5) = keepPumping (lateRun (n + 5)) from Function.iterate_succ_apply' _ _ _]
    exact ih.keepPumping.2.1

theorem lateRun_pumping : PumpingRun (fun _ _ => true) lateRun where
  start := ⟨rfl, rfl, rfl, rfl, rfl, rfl⟩
  step := by
    intro n
    match n with
    | 0 => exact .append lateStart lateEvent (by decide) nofun (by decide)
    | 1 => exact .upsert lateAppended none nofun nofun nofun true lateRow rfl rfl rfl rfl
    | 2 => exact .assign lateUpserted lateRow [] (.refl _)
    | 3 => exact .commitUpsert lateAssigned 4 (by decide) lateRow [] (.refl _) rfl nofun
    | 4 => exact .commit lateCreated 3 (by decide) nofun nofun
    | n + 5 =>
      rw [show lateRun (n + 5 + 1) = keepPumping (lateRun (n + 5)) from Function.iterate_succ_apply' _ _ _]
      exact (pumpable_lateRun n).keepPumping.1
  pumps := by
    intro n
    obtain ⟨count, pumps⟩ := (pumpable_lateRun n).recurs fun _ pumpable => pumpable.keepPumping.2
    have moved : ∀ count, keepPumping^[count] (lateRun (n + 5)) = lateRun (count + n + 5) := fun count =>
      (Function.iterate_add_apply _ _ _ _).symm
    rw [moved, show keepPumping (lateRun (count + n + 5)) = lateRun (count + n + 5 + 1) from
      (Function.iterate_succ_apply' _ _ _).symm] at pumps
    exact ⟨count + n + 5, by omega, pumps⟩

end Hopper.Guarantees
