import Hopper.Kernel.Feed
import Hopper.Sqlite.Operation

/-! Streams: each consumer gets the events past its start that match its
pattern, in order and once, but for those deleted before a pump reached them. -/

namespace Hopper.Guarantees

open List Kernel Driver Sqlite

structure SameStreams (before after : Store) : Prop where
  events : after.events = before.events
  consumers : after.consumers = before.consumers
  eventSeq : after.eventSeq = before.eventSeq

theorem SameStreams.refl (store : Store) : SameStreams store store :=
  ⟨rfl, rfl, rfl⟩

theorem notify_sameStreams (x : W) (channel : String) (payloads : List String) (store : Store) :
    SameStreams store (x.notify channel payloads store) := by
  unfold W.notify
  split <;> exact ⟨rfl, rfl, rfl⟩

theorem notify_journal (x : W) (channel : String) (payloads : List String) (store : Store) :
    (x.notify channel payloads store).journal = store.journal := by
  unfold W.notify
  split <;> rfl

section
variable {x : W} {pre post : Store}
variable {consumers : Table ConsumerRow} {name : String} {consumer : ConsumerRow} {rows : List ConsumerRow}

theorem yields_streamAppend {params : StreamAppendParams} {event : StreamEvent}
    (appended : Yields (x.streamAppend params) pre event post) :
    event.seq = pre.eventSeq + 1 ∧ post.events = pre.events ++ [event] ∧
      post.consumers = pre.consumers ∧ post.eventSeq = pre.eventSeq + 1 := by
  simp only [W.streamAppend, yields_bind] at appended
  obtain ⟨message, minted, drew, store, same, got, done, written, wrote, told⟩ := appended
  obtain ⟨_, rfl⟩ := W.yields_mint.mp drew
  obtain ⟨rfl, rfl⟩ := yields_get.mp got
  obtain rfl := yields_set.mp wrote
  split at told
  · simp only [yields_bind, yields_modify, yields_pure] at told
    obtain ⟨_, last, rfl, rfl, rfl⟩ := told
    have same := notify_sameStreams x channelStream [params.topic]
    exact ⟨rfl, (same _).events, (same _).consumers, (same _).eventSeq⟩
  · obtain ⟨rfl, rfl⟩ := yields_pure.mp told
    exact ⟨rfl, rfl, rfl, rfl⟩

/-- A consumer that is there, after a row of it is upserted. -/
def renewed (row old : ConsumerRow) : ConsumerRow :=
  { row with name := old.name, seen := old.seen, position := old.position, deliveredAt := old.deliveredAt }

def upsertConsumers (rows : List ConsumerRow) (consumers : Table ConsumerRow) : Table ConsumerRow :=
  rows.foldl (fun consumers row => consumers.upsert row (renewed row) fun _ => rfl) consumers

theorem upsertConsumers_cons (row : ConsumerRow) (rows : List ConsumerRow) (consumers : Table ConsumerRow) :
    upsertConsumers (row :: rows) consumers = upsertConsumers rows (consumers.upsert row (renewed row) fun _ => rfl) :=
  rfl

theorem find?_upsert_renewed {row : ConsumerRow} : (consumers.upsert row (renewed row) fun _ => rfl).find? name =
      if row.name = name then some (((consumers.find? name).map (renewed row)).getD row)
      else consumers.find? name :=
  Table.find?_upsert

theorem foldl_upsertConsumers (rows : List ConsumerRow) (store : Store) : rows.foldl
        (fun store row => { store with consumers := store.consumers.upsert row (renewed row) fun _ => rfl }) store =
      { store with consumers := upsertConsumers rows store.consumers } := by
  induction rows generalizing store with
  | nil => rfl
  | cons row rows ih => exact ih _

theorem yields_streamConsumerUpsert {rows : List Driver.StreamConsumerRow} {done : Unit}
    (upserted : Yields (W.streamConsumerUpsert rows) pre done post) :
    ∃ encoded, rows.mapM (W.encodeConsumer pre) = .ok encoded ∧
      post = { pre with consumers := upsertConsumers encoded pre.consumers } := by
  simp only [W.streamConsumerUpsert, yields_bind, yields_get, yields_ensure, yields_set] at upserted
  obtain ⟨store, _, ⟨rfl, rfl⟩, encoded, _, ⟨accepted, rfl⟩, rfl⟩ := upserted
  exact ⟨encoded, accepted, foldl_upsertConsumers encoded _⟩

theorem encodeConsumer_ok {row : Driver.StreamConsumerRow} {value : ConsumerRow} (encoded : W.encodeConsumer pre row = .ok value) :
    value.name = row.name ∧ value.pattern = row.pattern ∧ value.seen = if row.earliest then 0 else W.latestEvent pre := by
  unfold W.encodeConsumer at encoded
  cases attempts : W.positiveAttempts row.maxAttempts with
  | error => simp [attempts, bind, Except.bind] at encoded
  | ok =>
    simp only [attempts, bind, Except.bind, pure, Except.pure, Except.ok.injEq] at encoded
    subst encoded
    exact ⟨rfl, rfl, rfl⟩

theorem find?_encoded {rows : List Driver.StreamConsumerRow} {encoded : List ConsumerRow} {value : ConsumerRow}
    (accepted : rows.mapM (W.encodeConsumer pre) = .ok encoded)
    (first : encoded.find? (fun row => decide (row.name = name)) = some value) :
    ∃ row, rows.find? (fun row => decide (row.name = name)) = some row ∧ W.encodeConsumer pre row = .ok value := by
  have pairs := mapM_ok accepted
  clear accepted
  induction pairs with
  | nil => exact absurd first nofun
  | @cons row other rows values made _ ih =>
    have names := (encodeConsumer_ok made).1
    by_cases named : row.name = name
    · rw [find?_cons_of_pos (by simpa [names] using named)] at first
      cases first
      exact ⟨row, find?_cons_of_pos (by simpa using named), made⟩
    · rw [find?_cons_of_neg (by simpa [names] using named)] at first
      rw [find?_cons_of_neg (by simpa using named)]
      exact ih first

theorem upsertConsumers_of_some (found : consumers.find? name = some consumer) :
    ∃ kept, (upsertConsumers rows consumers).find? name = some kept ∧ kept.seen = consumer.seen ∧
      ((∀ row ∈ rows, row.name = name → row.pattern = consumer.pattern) → kept.pattern = consumer.pattern) := by
  induction rows generalizing consumers consumer with
  | nil => exact ⟨consumer, found, rfl, fun _ => rfl⟩
  | cons row rows ih =>
    rw [upsertConsumers_cons]
    by_cases named : row.name = name
    · have now : (consumers.upsert row (renewed row) fun _ => rfl).find? name = some (renewed row consumer) := by
        rw [find?_upsert_renewed, if_pos named, found]
        rfl
      obtain ⟨kept, held, seen, pattern⟩ := ih now
      refine ⟨kept, held, seen, fun patterns => ?_⟩
      obtain ⟨same, later⟩ := forall_mem_cons.mp patterns
      have equal := same named
      exact (pattern (equal ▸ later)).trans equal
    · have now : (consumers.upsert row (renewed row) fun _ => rfl).find? name = some consumer := by
        rw [find?_upsert_renewed, if_neg named, found]
      obtain ⟨kept, held, seen, pattern⟩ := ih now
      exact ⟨kept, held, seen, fun patterns => pattern (forall_mem_cons.mp patterns).2⟩

theorem upsertConsumers_of_none (absent : consumers.find? name = none)
    (found : (upsertConsumers rows consumers).find? name = some consumer) :
    ∃ row, rows.find? (fun row => decide (row.name = name)) = some row ∧ consumer.seen = row.seen := by
  induction rows generalizing consumers with
  | nil => exact absurd (absent.symm.trans found) nofun
  | cons row rows ih =>
    rw [upsertConsumers_cons] at found
    by_cases named : row.name = name
    · have now : (consumers.upsert row (renewed row) fun _ => rfl).find? name = some row := by
        rw [find?_upsert_renewed, if_pos named, absent]
        rfl
      obtain ⟨kept, held, seen, _⟩ := upsertConsumers_of_some now
      cases held.symm.trans found
      exact ⟨row, find?_cons_of_pos (by simpa using named), seen⟩
    · have now : (consumers.upsert row (renewed row) fun _ => rfl).find? name = none := by
        rw [find?_upsert_renewed, if_neg named, absent]
      obtain ⟨creating, first, seen⟩ := ih now found
      exact ⟨creating, by rw [find?_cons_of_neg (by simpa using named), first], seen⟩

theorem yields_pumpInserts {events : List StreamEvent} {done : Unit} (inserted : Yields (forM events fun event => do
      let _ ← x.insertJob (W.pumpInsert consumer event)) pre done post) :
    SameStreams pre post ∧ ∃ rows : List LiveJob, post.journal = (rows.map Event.inserted).reverse ++ pre.journal ∧
      List.Forall₂ (fun event row => ∃ store, row = x.insertedRow (W.pumpInsert consumer event) store) events rows := by
  induction events generalizing pre with
  | nil =>
    obtain rfl := yields_forM_nil.mp inserted
    exact ⟨.refl _, [], rfl, .nil⟩
  | cons event events ih =>
    obtain ⟨middle, first, others⟩ := yields_forM_cons.mp inserted
    simp only [yields_bind, yields_pure] at first
    obtain ⟨job, stored, insertion, _, rfl⟩ := first
    obtain ⟨free, _, _, rfl⟩ := W.yields_insertJob rfl insertion
    obtain ⟨same, rows, journal, built⟩ := ih others
    refine ⟨⟨same.events, same.consumers, same.eventSeq⟩, _ :: rows, ?_, .cons ⟨pre, rfl⟩ built⟩
    rw [journal]
    simp

def pumped (engine : Engine) (store : Store) (consumer : ConsumerRow) (limit : Int) : List StreamEvent :=
  Feed.taken StreamEvent.seq (fun event => engine.topicMatches consumer.pattern event.topic) consumer.seen
    (max limit 1).toNat store.events

theorem yields_streamPump {limit : Int} {count : Nat} (pumping : Yields (x.streamPump name limit) pre count post) :
    ∃ consumer, pre.consumers.find? name = some consumer ∧ count = (pumped x.engine pre consumer limit).length ∧
      post.events = pre.events ∧ post.eventSeq = pre.eventSeq ∧
      (∀ other, other ≠ name → post.consumers.find? other = pre.consumers.find? other) ∧
      (∃ row, post.consumers.find? name = some row ∧ row.pattern = consumer.pattern ∧
        row.seen = Feed.reached StreamEvent.seq consumer.seen (max limit 1).toNat pre.events
          (pumped x.engine pre consumer limit)) ∧
      ∃ rows : List LiveJob, post.journal = (rows.map Event.inserted).reverse ++ pre.journal ∧
        List.Forall₂ (fun event row => ∃ store, row = x.insertedRow (W.pumpInsert consumer event) store)
          (pumped x.engine pre consumer limit) rows := by
  simp only [W.streamPump, yields_describing, yields_bind, yields_get] at pumping
  obtain ⟨store, state, ⟨read, unchanged⟩, pumping⟩ := pumping
  subst store state
  split at pumping
  · simp at pumping
  · next consumer found =>
    simp only [yields_bind, yields_modify] at pumping
    obtain ⟨_, middle, inserted, _, moved, advanced, told⟩ := pumping
    obtain ⟨same, rows, journal, built⟩ := yields_pumpInserts inserted
    have last : count = (pumped x.engine pre consumer limit).length ∧ SameStreams moved post ∧ post.journal = moved.journal := by
      split at told
      · simp only [yields_bind, yields_modify, yields_pure] at told
        obtain ⟨_, _, rfl, rfl, rfl⟩ := told
        exact ⟨rfl, notify_sameStreams x channelInsert [consumer.queue] _, notify_journal x channelInsert _ _⟩
      · obtain ⟨rfl, rfl⟩ := yields_pure.mp told
        exact ⟨rfl, .refl _, rfl⟩
    obtain ⟨counted, told, kept⟩ := last
    subst moved
    refine ⟨consumer, found, counted, told.events.trans same.events, told.eventSeq.trans same.eventSeq, ?_, ?_,
      rows, kept.trans journal, built⟩
    · intro other different
      rw [told.consumers, Table.find?_modify, if_neg different, same.consumers]
    · rw [told.consumers, Table.find?_modify, if_pos rfl, same.consumers, found]
      exact ⟨_, rfl, rfl, rfl⟩

end

/-- The jobs inserted between two stores, first to last. -/
def insertedSince (before after : Store) : List LiveJob :=
  ((after.journal.take (after.journal.length - before.journal.length)).filterMap Event.inserted?).reverse

variable {pre post : Store}

theorem insertedSince_eq {rows : List LiveJob}
    (journal : post.journal = (rows.map Event.inserted).reverse ++ pre.journal) :
    insertedSince pre post = rows := by
  have each : Event.inserted? ∘ Event.inserted = some := rfl
  rw [insertedSince, journal, length_append, Nat.add_sub_cancel, take_left', ← map_reverse,
    filterMap_map, each, filterMap_some, reverse_reverse]
  rw [← map_reverse]

structure StreamLog where
  appended : List StreamEvent := []
  /-- The events deleted, each with the consumers of the time. -/
  deleted : List (StreamEvent × Table ConsumerRow) := []
  /-- The number past which a consumer is to get the events. -/
  starts : String → Nat := fun _ => 0
  /-- The jobs that the pumps of a consumer inserted, in order. -/
  delivered : String → List LiveJob := fun _ => []

structure StreamState where
  log : StreamLog := {}
  store : Store := {}

namespace StreamLog

def append (log : StreamLog) (event : StreamEvent) : StreamLog :=
  { log with appended := log.appended ++ [event] }

/-- A consumer created at earliest is to get every event, and one created at
latest those appended from then on. -/
def create (log : StreamLog) (store : Store) (rows : List Driver.StreamConsumerRow) : StreamLog :=
  { log with starts := fun name =>
      if store.consumers.has name then log.starts name
      else match rows.find? fun row => decide (row.name = name) with
        | none => log.starts name
        | some row => if row.earliest then 0 else store.eventSeq }

def pump (log : StreamLog) (name : String) (jobs : List LiveJob) : StreamLog :=
  { log with delivered := fun other => if other = name then log.delivered other ++ jobs else log.delivered other }

def delete (log : StreamLog) (before after : Store) : StreamLog :=
  { log with deleted := log.deleted ++
      (before.events.filter fun event => decide (event ∉ after.events)).map fun event => (event, before.consumers) }

/-- The event was deleted before a pump of the consumer reached it. -/
def Missed (log : StreamLog) (name : String) (event : StreamEvent) : Prop :=
  ∃ consumers, (event, consumers) ∈ log.deleted ∧
    ∀ consumer, consumers.find? name = some consumer → consumer.seen < event.seq

end StreamLog

/-- Every row of a consumer that is there has its pattern. -/
def KeepsPatterns (store : Store) (rows : List Driver.StreamConsumerRow) : Prop :=
  ∀ row ∈ rows, ∀ consumer, store.consumers.find? row.name = some consumer → row.pattern = consumer.pattern

/-- A step of the streams: an append, an upsert of consumers that changes no
pattern, a pump by any leader, or any write that at most deletes events. -/
inductive StreamStep (engine : Engine) : StreamState → StreamState → Prop where
  | append {log : StreamLog} {store after : Store} (now : Int) (params : StreamAppendParams) (event : StreamEvent)
      (appended : Yields (W.streamAppend ⟨engine, now⟩ params) store event after) :
      StreamStep engine ⟨log, store⟩ ⟨log.append event, after⟩
  | upsert {log : StreamLog} {store after : Store} (rows : List Driver.StreamConsumerRow)
      (patterns : KeepsPatterns store rows) (upserted : Yields (W.streamConsumerUpsert rows) store () after) :
      StreamStep engine ⟨log, store⟩ ⟨log.create store rows, after⟩
  | pump {log : StreamLog} {store after : Store} (now : Int) (name : String) (limit : Int) (count : Nat)
      (pumping : Yields (W.streamPump ⟨engine, now⟩ name limit) store count after) :
      StreamStep engine ⟨log, store⟩ ⟨log.pump name (insertedSince store after), after⟩
  | delete {log : StreamLog} {store after : Store} (events : after.events.Sublist store.events)
      (consumers : after.consumers = store.consumers) (eventSeq : after.eventSeq = store.eventSeq) :
      StreamStep engine ⟨log, store⟩ ⟨log.delete store after, after⟩

/-- The job is what a pump of the consumer makes of the event. -/
def Delivers (engine : Engine) (name : String) (event : StreamEvent) (job : LiveJob) : Prop :=
  ∃ now consumer store, consumer.name = name ∧
    job = W.insertedRow ⟨engine, now⟩ (W.pumpInsert consumer event) store

/-- The events a consumer has yet to get, before it is there. -/
structure Awaits (state : StreamState) (name : String) : Prop where
  delivered : state.log.delivered name = []
  held : ∀ event ∈ state.log.appended, event ∈ state.store.events ∨ state.log.Missed name event
  gone : ∀ event, state.log.Missed name event → event ∈ state.log.appended ∧ event ∉ state.store.events

/-- The consumer is a reader of the events, and its jobs deliver what it got. -/
def ConsumerReads (engine : Engine) (state : StreamState) (name : String) (consumer : ConsumerRow)
    (got : List StreamEvent) : Prop :=
  List.Forall₂ (Delivers engine name) got (state.log.delivered name) ∧
    Feed.Reads StreamEvent.seq state.log.appended state.store.events state.store.eventSeq (state.log.Missed name)
      (fun event => engine.topicMatches consumer.pattern event.topic) (state.log.starts name) consumer.seen got

structure StreamsHold (engine : Engine) (state : StreamState) : Prop where
  ordered : Feed.Ordered StreamEvent.seq state.log.appended state.store.events state.store.eventSeq
  awaits : ∀ name, state.store.consumers.find? name = none → Awaits state name
  reads : ∀ name consumer, state.store.consumers.find? name = some consumer →
    ∃ got, ConsumerReads engine state name consumer got

theorem missed_delete {log : StreamLog} {name : String} {event : StreamEvent} :
    (log.delete pre post).Missed name event ↔ log.Missed name event ∨ (event ∈ pre.events ∧ event ∉ post.events) ∧
        ∀ consumer, pre.consumers.find? name = some consumer → consumer.seen < event.seq := by
  simp only [StreamLog.Missed, StreamLog.delete, List.mem_append, mem_map, mem_filter, decide_eq_true_eq, Prod.mk.injEq]
  constructor
  · intro missed
    obtain ⟨consumers, old | ⟨other, deleted, rfl, rfl⟩, unseen⟩ := missed
    · exact .inl ⟨consumers, old, unseen⟩
    · exact .inr ⟨deleted, unseen⟩
  · intro missed
    rcases missed with ⟨consumers, old, unseen⟩ | ⟨deleted, unseen⟩
    · exact ⟨consumers, .inl old, unseen⟩
    · exact ⟨pre.consumers, .inr ⟨event, deleted, rfl, rfl⟩, unseen⟩

namespace StreamsHold

variable {engine : Engine} {log : StreamLog} {store post : Store} {now : Int} {name : String} {limit : Int}
variable {count : Nat}

theorem append (hold : StreamsHold engine ⟨log, store⟩) {params : StreamAppendParams} {event : StreamEvent}
    (appended : Yields (W.streamAppend ⟨engine, now⟩ params) store event post) :
    StreamsHold engine ⟨log.append event, post⟩ := by
  obtain ⟨next, events, consumers, eventSeq⟩ := yields_streamAppend appended
  have pre := hold.ordered
  constructor
  · change Feed.Ordered _ (log.appended ++ [event]) post.events post.eventSeq
    rw [events, eventSeq]
    exact pre.append next
  · intro name absent
    have awaits := hold.awaits name (consumers ▸ absent)
    refine ⟨awaits.delivered, fun other mem => ?_, fun other missed => ?_⟩
    · rw [events]
      rcases List.mem_append.mp mem with old | new
      · exact (awaits.held other old).imp_left (mem_append_left _)
      · exact .inl (mem_append_right _ new)
    · obtain ⟨old, deleted⟩ := awaits.gone other missed
      refine ⟨mem_append_left _ old, fun mem => ?_⟩
      rw [events] at mem
      rcases List.mem_append.mp mem with held | new
      · exact deleted held
      · have below : other.seq ≤ store.eventSeq := pre.bounded other old
        rw [mem_singleton.mp new, next] at below
        omega
  · intro name consumer found
    obtain ⟨got, delivers, reads⟩ := hold.reads name consumer (consumers ▸ found)
    refine ⟨got, delivers, ?_⟩
    change Feed.Reads _ (log.appended ++ [event]) post.events post.eventSeq _ _ _ _ _
    rw [events, eventSeq]
    exact reads.append pre next

theorem delete (hold : StreamsHold engine ⟨log, store⟩) (events : post.events.Sublist store.events)
    (consumers : post.consumers = store.consumers) (eventSeq : post.eventSeq = store.eventSeq) :
    StreamsHold engine ⟨log.delete store post, post⟩ := by
  have pre := hold.ordered
  constructor
  · change Feed.Ordered _ log.appended post.events post.eventSeq
    rw [eventSeq]
    exact pre.trim events
  · intro name absent
    have unseen := consumers ▸ absent
    have awaits := hold.awaits name unseen
    refine ⟨awaits.delivered, fun event mem => ?_, fun event missed => ?_⟩
    · rw [missed_delete]
      rcases awaits.held event mem with held | missed
      · by_cases stays : event ∈ post.events
        · exact .inl stays
        · exact .inr (.inr ⟨⟨held, stays⟩, fun consumer found => absurd (unseen.symm.trans found) nofun⟩)
      · exact .inr (.inl missed)
    · rcases missed_delete.mp missed with old | ⟨⟨held, deleted⟩, _⟩
      · obtain ⟨appended, deleted⟩ := awaits.gone event old
        exact ⟨appended, fun mem => deleted (events.subset mem)⟩
      · exact ⟨pre.kept.subset held, deleted⟩
  · intro name consumer found
    have there := consumers ▸ found
    obtain ⟨got, delivers, reads⟩ := hold.reads name consumer there
    have missed : (log.delete store post).Missed name = fun event => log.Missed name event ∨
        (event ∈ store.events ∧ event ∉ post.events) ∧ consumer.seen < event.seq := by
      funext event
      simp [missed_delete, there]
    refine ⟨got, delivers, ?_⟩
    change Feed.Reads _ log.appended post.events post.eventSeq _ _ _ _ _
    rw [eventSeq, missed]
    exact reads.trim pre events

theorem reads_pump (ordered : Feed.Ordered StreamEvent.seq log.appended store.events store.eventSeq)
    (pumping : Yields (W.streamPump ⟨engine, now⟩ name limit) store count post) {consumer : ConsumerRow}
    (found : store.consumers.find? name = some consumer) {got : List StreamEvent}
    (reads : ConsumerReads engine ⟨log, store⟩ name consumer got) :
    ∃ row, post.consumers.find? name = some row ∧ ConsumerReads engine
      ⟨log.pump name (insertedSince store post), post⟩ name row (got ++ pumped engine store consumer limit) := by
  obtain ⟨other, same, _, events, eventSeq, _, ⟨row, moved, pattern, seen⟩, rows, journal, built⟩ :=
    yields_streamPump pumping
  cases found.symm.trans same
  refine ⟨row, moved, ?_, ?_⟩
  · change List.Forall₂ (Delivers engine name) _ (if name = name then _ else _)
    rw [if_pos rfl, insertedSince_eq journal]
    refine rel_append reads.1 (built.imp fun event job inserted => ?_)
    obtain ⟨state, rfl⟩ := inserted
    exact ⟨now, consumer, state, Table.key_of_find? found, rfl⟩
  · change Feed.Reads _ log.appended post.events post.eventSeq _ _ _ _ _
    rw [events, eventSeq, seen, pattern]
    exact reads.2.pump ordered _

theorem pump (hold : StreamsHold engine ⟨log, store⟩)
    (pumping : Yields (W.streamPump ⟨engine, now⟩ name limit) store count post) :
    StreamsHold engine ⟨log.pump name (insertedSince store post), post⟩ := by
  obtain ⟨consumer, found, _, events, eventSeq, others, ⟨row, moved, _⟩, _⟩ := yields_streamPump pumping
  have pre := hold.ordered
  constructor
  · change Feed.Ordered _ log.appended post.events post.eventSeq
    rw [events, eventSeq]
    exact pre
  · intro other absent
    have different : other ≠ name := fun same => absurd ((same ▸ moved).symm.trans absent) nofun
    have awaits := hold.awaits other (others other different ▸ absent)
    refine ⟨?_, ?_, ?_⟩
    · exact (if_neg different).trans awaits.delivered
    · change ∀ event ∈ log.appended, event ∈ post.events ∨ _
      rw [events]
      exact awaits.held
    · change ∀ event, _ → event ∈ log.appended ∧ event ∉ post.events
      rw [events]
      exact awaits.gone
  · intro other reader there
    by_cases same : other = name
    · subst other
      obtain ⟨got, reads⟩ := hold.reads name consumer found
      obtain ⟨row, moved, reads⟩ := reads_pump pre pumping found reads
      cases moved.symm.trans there
      exact ⟨_, reads⟩
    · obtain ⟨got, delivers, reads⟩ := hold.reads other reader (others other same ▸ there)
      refine ⟨got, ?_, ?_⟩
      · change List.Forall₂ _ got (if other = name then _ else _)
        rw [if_neg same]
        exact delivers
      · change Feed.Reads _ log.appended post.events post.eventSeq _ _ _ _ _
        rw [events, eventSeq]
        exact reads

theorem upsert (hold : StreamsHold engine ⟨log, store⟩) {rows : List Driver.StreamConsumerRow}
    (patterns : KeepsPatterns store rows) (upserted : Yields (W.streamConsumerUpsert rows) store () post) :
    StreamsHold engine ⟨log.create store rows, post⟩ := by
  obtain ⟨encoded, accepted, rfl⟩ := yields_streamConsumerUpsert upserted
  have pre := hold.ordered
  refine ⟨pre, fun name absent => ?_, fun name consumer found => ?_⟩
  · cases there : store.consumers.find? name with
    | none =>
      have awaits := hold.awaits name there
      exact ⟨awaits.delivered, awaits.held, awaits.gone⟩
    | some =>
      obtain ⟨kept, held, _⟩ := upsertConsumers_of_some there
      exact absurd (held.symm.trans absent) nofun
  · cases there : store.consumers.find? name with
    | none =>
      have awaits := hold.awaits name there
      obtain ⟨value, first, seen⟩ := upsertConsumers_of_none there found
      obtain ⟨row, creating, made⟩ := find?_encoded accepted first
      have start : (log.create store rows).starts name = if row.earliest then 0 else store.eventSeq := by
        simp [StreamLog.create, Table.has, there, creating]
      have unread := seen.trans (encodeConsumer_ok made).2.2
      refine ⟨[], ?_, ?_⟩
      · change List.Forall₂ _ [] (log.delivered name)
        rw [awaits.delivered]
        exact .nil
      · have latest := pre.latest_le
        change Feed.Reads _ log.appended store.events store.eventSeq _ _ _ _ _
        rw [start, unread]
        split
        · exact .create le_rfl (Nat.zero_le _) (fun event _ past => past) awaits.held awaits.gone
        · refine .create latest le_rfl (fun event member past => ?_) awaits.held awaits.gone
          exact absurd past (Nat.not_lt.mpr (Feed.le_latest member))
    | some old =>
      obtain ⟨kept, held, seen, pattern⟩ := upsertConsumers_of_some there
      obtain rfl := Option.some.inj (held.symm.trans found)
      obtain ⟨got, delivers, reads⟩ := hold.reads name old there
      have same : kept.pattern = old.pattern := by
        refine pattern fun value member named => ?_
        obtain ⟨row, listed, made⟩ := mapM_ok_mem accepted member
        obtain ⟨names, patternOf, _⟩ := encodeConsumer_ok made
        rw [patternOf]
        exact patterns row listed old (names ▸ named ▸ there)
      have start : (log.create store rows).starts name = log.starts name := by
        simp [StreamLog.create, Table.has, there]
      refine ⟨got, delivers, ?_⟩
      change Feed.Reads _ log.appended store.events store.eventSeq _ _ _ _ _
      rw [start, seen, same]
      exact reads

theorem step {one other : StreamState} (step : StreamStep engine one other) (hold : StreamsHold engine one) :
    StreamsHold engine other := by
  cases step with
  | append now params event appended => exact hold.append appended
  | upsert rows patterns upserted => exact hold.upsert patterns upserted
  | pump now name limit count pumping => exact hold.pump pumping
  | delete events consumers eventSeq => exact hold.delete events consumers eventSeq

theorem run {state : StreamState} (run : Relation.ReflTransGen (StreamStep engine) {} state) : StreamsHold engine state := by
  induction run with
  | refl => exact ⟨.start 0, fun _ _ => ⟨rfl, nofun, nofun⟩, nofun⟩
  | tail _ next ih => exact step next ih

end StreamsHold

theorem StreamStep.seen_le {engine : Engine} {one other : StreamState} (step : StreamStep engine one other)
    {name : String} {consumer : ConsumerRow} (found : one.store.consumers.find? name = some consumer) :
    ∃ row, other.store.consumers.find? name = some row ∧ consumer.seen ≤ row.seen := by
  cases step with
  | append now params event appended =>
    obtain ⟨_, _, consumers, _⟩ := yields_streamAppend appended
    exact ⟨consumer, consumers ▸ found, le_rfl⟩
  | upsert rows patterns upserted =>
    obtain ⟨encoded, _, rfl⟩ := yields_streamConsumerUpsert upserted
    obtain ⟨kept, held, seen, _⟩ := upsertConsumers_of_some found
    exact ⟨kept, held, seen.ge⟩
  | pump now pumpedName limit count pumping =>
    obtain ⟨reader, there, _, _, _, others, ⟨row, moved, _, seen⟩, _⟩ := yields_streamPump pumping
    by_cases same : name = pumpedName
    · subst same
      cases found.symm.trans there
      exact ⟨row, moved, seen.symm ▸ Feed.le_reached⟩
    · exact ⟨consumer, (others name same).trans found, le_rfl⟩
  | delete events consumers => exact ⟨consumer, consumers ▸ found, le_rfl⟩

theorem StreamStep.run_seen_le {engine : Engine} {one other : StreamState}
    (run : Relation.ReflTransGen (StreamStep engine) one other) {name : String} {consumer : ConsumerRow}
    (found : one.store.consumers.find? name = some consumer) :
    ∃ row, other.store.consumers.find? name = some row ∧ consumer.seen ≤ row.seen := by
  induction run with
  | refl => exact ⟨consumer, found, le_rfl⟩
  | tail _ step ih =>
    obtain ⟨row, there, more⟩ := ih
    obtain ⟨last, held, further⟩ := step.seen_le there
    exact ⟨last, held, more.trans further⟩

def orderEvent : StreamAppendParams :=
  { topic := "order", payload := "1" }

def auditConsumer : Driver.StreamConsumerRow :=
  { name := "audit", pattern := "order", kind := "sub:audit", queue := "default", earliest := true }

/-- Two events, the first of them deleted before the consumer's first pump. -/
def trimmedStreams : StreamState :=
  let event (seq : Nat) : StreamEvent :=
    { seq := seq, topic := "order", key := none, payload := "1", headers := "\x7b\x7d", messageID := seq, createdAt := 0 }
  let two := Operation.after .counting [(0, .streamAppend orderEvent), (0, .streamAppend orderEvent)]
  let three := committed (W.streamConsumerUpsert [auditConsumer]) two
  let four := { three with events := three.events.drop 1 }
  { log := (((({} : StreamLog).append (event 1)).append (event 2)).create two [auditConsumer]).delete three four
    store := four }

theorem trimmedStreams_run : Relation.ReflTransGen (StreamStep .counting) {} trimmedStreams := by
  refine .tail (.tail (.tail (.tail .refl (.append 0 orderEvent _ rfl)) (.append 0 orderEvent _ rfl))
    (.upsert [auditConsumer] ?_ rfl)) (.delete (drop_sublist 1 _) rfl rfl)
  exact fun row _ consumer found => absurd found nofun

end Hopper.Guarantees
