import Hopper.Kernel.Mvcc
import Hopper.Kernel.Page
import Hopper.Driver.Codec
import Mathlib.Data.Prod.Lex

/-! Streams on Postgres: events carry the transaction that wrote them, and a
consumer reads the log by snapshot deltas. The statements of appends, upserts
and pumps interleave with transactions that commit and abort in any order. -/

namespace Hopper.Postgres

open Kernel Driver

abbrev StreamPosition := Nat ×ₗ Nat

structure StreamEvent where
  xid : Nat
  seq : Nat
  topic : String
  key : Option String
  payload : String
  headers : String
  messageID : JobID
deriving DecidableEq

def StreamEvent.position (event : StreamEvent) : StreamPosition :=
  toLex (event.xid, event.seq)

structure ConsumerRow where
  name : String
  pattern : String
  kind : String
  queue : String
  maxAttempts : Option Int
  metadata : Document
  seen : Snapshot
  reading : Option Snapshot
  xid : Nat
  seq : Nat
deriving DecidableEq

def ConsumerRow.position (consumer : ConsumerRow) : StreamPosition :=
  toLex (consumer.xid, consumer.seq)

/-- Sees no transaction at all: 3 is the first ID assigned. -/
def earliestSnapshot : Snapshot := ⟨3, 3, []⟩

structure StreamDelivery where
  kind : String
  queue : String
  priority : Int
  maxAttempts : Int
  args : String
  metadata : Document
  orderingKey : Option String
deriving DecidableEq

def pumpInsert (consumer : ConsumerRow) (event : StreamEvent) : StreamDelivery where
  kind := consumer.kind
  queue := consumer.queue
  priority := 2
  maxAttempts := consumer.maxAttempts.getD (if event.key.isSome then 10 else 25)
  args := event.payload
  metadata := mergeObjects consumer.metadata
    (.object (marshalMap [("topic", jsonString event.topic), ("message_id", jsonString event.messageID.text),
      ("headers", event.headers), ("stream", jsonString consumer.name),
      ("position", jsonString (toString event.xid ++ ":" ++ toString event.seq))]))
  orderingKey := event.key

/-- Whether the statement of a pump selects a row it can see. -/
def streamPumpWhere (topicMatches : String → String → Bool) (consumer : ConsumerRow) (reading : Snapshot)
    (event : StreamEvent) : Bool :=
  decide (consumer.seen.xmin ≤ event.xid) && decide (event.xid < reading.xmax) &&
    decide (consumer.position < event.position) &&
    reading.sees event.xid && !consumer.seen.sees event.xid && topicMatches consumer.pattern event.topic

/-- The rows a pump's statement selects from: it sees those of transactions
that have committed. -/
def streamPumpRows (topicMatches : String → String → Bool) (transactions : Transactions) (events : List StreamEvent)
    (consumer : ConsumerRow) (reading : Snapshot) : List StreamEvent :=
  events.filter fun event => decide (event.xid ∈ transactions.committed) &&
    streamPumpWhere topicMatches consumer reading event

def streamPumpSQL (topicMatches : String → String → Bool) (transactions : Transactions) (events : List StreamEvent)
    (consumer : ConsumerRow) (reading : Snapshot) (limit : Nat) : List StreamEvent :=
  page StreamEvent.position limit (streamPumpRows topicMatches transactions events consumer reading)

/-- The row a pump leaves: the new snapshot is what has been seen once fewer
events than asked for were left, and kept with the last of them otherwise. -/
def pumpedRow (consumer : ConsumerRow) (reading : Snapshot) (limit : Nat) (events : List StreamEvent) : ConsumerRow :=
  if events.length < limit then { consumer with seen := reading, reading := none, xid := 0, seq := 0 }
  else { consumer with
    reading := some reading
    xid := ((events.getLast?).map StreamEvent.xid).getD consumer.xid
    seq := ((events.getLast?).map StreamEvent.seq).getD consumer.seq }

def ConsumerRow.upserted (old row : ConsumerRow) : ConsumerRow :=
  { old with
    pattern := row.pattern, kind := row.kind, queue := row.queue, maxAttempts := row.maxAttempts
    metadata := row.metadata }

/-- A delta that has been delivered: its snapshot, what had committed when that
was taken, and the events in the order they were delivered in. -/
structure Delta where
  snapshot : Snapshot
  committed : List Nat
  events : List StreamEvent

/-- A consumer's row, and a log of what was delivered to it: the snapshot it
was created with, the deltas that ended, and of the delta under way what had
committed when its snapshot was taken and the events so far. -/
structure Consumer where
  row : ConsumerRow
  created : Snapshot
  past : List Delta := []
  committed : List Nat := []
  current : List StreamEvent := []

def Consumer.delivered (consumer : Consumer) : List StreamEvent :=
  consumer.past.flatMap Delta.events ++ consumer.current

def Consumer.pumped (consumer : Consumer) (reading : Snapshot) (committed : List Nat) (limit : Nat)
    (events : List StreamEvent) : Consumer :=
  let row := pumpedRow consumer.row reading limit events
  if events.length < limit then
    { consumer with
      row := row
      past := consumer.past ++ [⟨reading, committed, consumer.current ++ events⟩]
      committed := []
      current := [] }
  else { consumer with row := row, committed := committed, current := consumer.current ++ events }

/-- Where the transaction of a pump has got to. It holds the consumer's row
from its first statement on, so that what it read of it is what is there. -/
inductive Pump where
  | idle
  | locked (own limit : Nat)
  | reading (own limit : Nat) (reading : Snapshot) (committed : List Nat)
  | delivered (own limit : Nat) (reading : Snapshot) (committed : List Nat) (events : List StreamEvent)

def Pump.own? : Pump → Option Nat
  | .idle => none
  | .locked own _ | .reading own .. | .delivered own .. => some own

/-- An upsert's statement: the row it would insert, with the snapshot it took,
and the transaction it is in, if that has an ID yet. -/
structure Upsert where
  own : Option Nat
  row : ConsumerRow

structure StreamDB where
  transactions : Transactions
  events : List StreamEvent := []
  nextSeq : Nat := 1
  upserts : List Upsert := []
  consumer : Option Consumer := none
  pump : Pump := .idle
  jobs : List StreamDelivery := []

/-- No event has been appended yet, and the consumer is not there; transactions
may have run. -/
structure StreamDB.Initial (db : StreamDB) : Prop where
  first : db.transactions.first = 3
  events : db.events = []
  upserts : db.upserts = []
  consumer : db.consumer = none
  pump : db.pump = .idle
  jobs : db.jobs = []

namespace StreamDB

variable (db : StreamDB)

def startSnapshot (earliest : Bool) (own : Option Nat) : Snapshot :=
  if earliest then earliestSnapshot else db.transactions.snapshot (own.getD db.transactions.next)

/-- A transaction's upserts take effect: its row is inserted, or changes the
row that is there. -/
def applyUpsert (upsert : Upsert) : StreamDB :=
  { db with
    consumer := some (match db.consumer with
      | none => { row := upsert.row, created := upsert.row.seen }
      | some consumer => { consumer with row := consumer.row.upserted upsert.row }) }

def applyPump (consumer : Consumer) (limit : Nat) (reading : Snapshot) (committed : List Nat)
    (events : List StreamEvent) : StreamDB :=
  { db with
    consumer := some (consumer.pumped reading committed limit events)
    pump := .idle
    jobs := db.jobs ++ events.map (pumpInsert consumer.row) }

end StreamDB

/-- The statements that interleave. A pump's limit is at least one, and its
transaction appends no events. -/
inductive StreamStep (topicMatches : String → String → Bool) : StreamDB → StreamDB → Prop
  | begin (db : StreamDB) : StreamStep topicMatches db { db with transactions := db.transactions.begin }
  /-- Sequence numbers rise, with gaps where transactions aborted. -/
  | append (db : StreamDB) (event : StreamEvent) (runs : db.transactions.Running event.xid)
      (other : db.pump.own? ≠ some event.xid) (next : db.nextSeq ≤ event.seq) :
      StreamStep topicMatches db { db with events := db.events ++ [event], nextSeq := event.seq + 1 }
  /-- `StreamConsumerUpsert` takes its snapshot; a transaction has one of them. -/
  | upsert (db : StreamDB) (own : Option Nat) (runs : ∀ xid ∈ own, db.transactions.Running xid)
      (other : ∀ xid ∈ own, db.pump.own? ≠ some xid) (only : ∀ xid ∈ own, ∀ upsert ∈ db.upserts, upsert.own ≠ some xid)
      (earliest : Bool) (row : ConsumerRow)
      (seen : row.seen = db.startSnapshot earliest own) (reading : row.reading = none)
      (xid : row.xid = 0) (seq : row.seq = 0) :
      StreamStep topicMatches db { db with upserts := ⟨own, row⟩ :: db.upserts }
  /-- The transaction of an upsert gets its ID as it writes. -/
  | assign (db : StreamDB) (row : ConsumerRow) (other : List Upsert)
      (there : db.upserts.Perm (⟨none, row⟩ :: other)) :
      StreamStep topicMatches db { db with
        transactions := db.transactions.begin
        upserts := ⟨some db.transactions.next, row⟩ :: other }
  /-- `SELECT … FOR UPDATE` waits until no other transaction holds the row. -/
  | lock (db : StreamDB) (own : Nat) (limit : Int) (runs : db.transactions.Running own)
      (idle : db.pump = .idle) (there : db.consumer.isSome) (absent : ∀ event ∈ db.events, event.xid ≠ own)
      (apart : ∀ upsert ∈ db.upserts, upsert.own ≠ some own) :
      StreamStep topicMatches db { db with pump := .locked own (max limit 1).toNat }
  /-- Continues a delta left part way, or starts one from a fresh snapshot. -/
  | snapshot (db : StreamDB) (own limit : Nat) (consumer : Consumer) (locked : db.pump = .locked own limit)
      (there : db.consumer = some consumer) :
      StreamStep topicMatches db { db with
        pump := .reading own limit (consumer.row.reading.getD (db.transactions.snapshot own))
          (if consumer.row.reading.isSome then consumer.committed else db.transactions.committed) }
  | deliver (db : StreamDB) (own limit : Nat) (reading : Snapshot) (committed : List Nat) (consumer : Consumer)
      (read : db.pump = .reading own limit reading committed) (there : db.consumer = some consumer) :
      StreamStep topicMatches db { db with
        pump := .delivered own limit reading committed
          (streamPumpSQL topicMatches db.transactions db.events consumer.row reading limit) }
  | commit (db : StreamDB) (xid : Nat) (runs : db.transactions.Running xid) (other : db.pump.own? ≠ some xid)
      (apart : ∀ upsert ∈ db.upserts, upsert.own ≠ some xid) :
      StreamStep topicMatches db { db with transactions := db.transactions.commit xid runs }
  /-- An upsert commits, holding the row: its pattern is the one that is there. -/
  | commitUpsert (db : StreamDB) (xid : Nat) (runs : db.transactions.Running xid) (row : ConsumerRow)
      (others : List Upsert) (there : db.upserts.Perm (⟨some xid, row⟩ :: others)) (idle : db.pump = .idle)
      (pattern : ∀ consumer ∈ db.consumer, consumer.row.pattern = row.pattern) :
      StreamStep topicMatches db
        { db.applyUpsert ⟨some xid, row⟩ with
          transactions := db.transactions.commit xid runs
          upserts := others }
  | commitPump (db : StreamDB) (own limit : Nat) (reading : Snapshot) (committed : List Nat)
      (events : List StreamEvent) (consumer : Consumer)
      (done : db.pump = .delivered own limit reading committed events) (there : db.consumer = some consumer)
      (runs : db.transactions.Running own) :
      StreamStep topicMatches db
        { db.applyPump consumer limit reading committed events with
          transactions := db.transactions.commit own runs }
  /-- A transaction aborts, and what it wrote is gone. -/
  | abort (db : StreamDB) (xid : Nat) (runs : db.transactions.Running xid) :
      StreamStep topicMatches db { db with
        transactions := db.transactions.abort xid runs
        pump := if db.pump.own? = some xid then .idle else db.pump
        upserts := db.upserts.filter fun upsert => upsert.own ≠ some xid }

inductive StreamReached (topicMatches : String → String → Bool) : StreamDB → Prop
  | start {db : StreamDB} (initial : db.Initial) : StreamReached topicMatches db
  | step {before after : StreamDB} (reached : StreamReached topicMatches before)
      (step : StreamStep topicMatches before after) : StreamReached topicMatches after

end Hopper.Postgres
