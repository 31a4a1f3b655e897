import Hopper.Sqlite.Insert

/-! Clients, queues, periodic slots, retention, and the messages and streams
that insert delivery jobs. -/

namespace Hopper.Sqlite

open Kernel Driver

namespace W

def clientRegister (x : W) (ttl : Int) : Tx Int := do
  let store ← get
  let row : ClientRow := { id := store.clientSeq + 1, startedAt := x.now, expiresAt := x.after ttl }
  match free : store.clients.has row.id with
  | true => throw (.constraint "hopper_clients.id")
  | false => do
      set { store with clients := store.clients.append row free, clientSeq := store.clientSeq + 1 }
      pure row.id

/-- Extends an unexpired lease, and reports whether it did. -/
def clientRenew (x : W) (clientID ttl : Int) : Tx Bool := do
  let store ← get
  set { store with
    clients := store.clients.update
      (fun row => if row.id = clientID ∧ x.now < row.expiresAt then { row with expiresAt := x.after ttl } else row)
      fun row => by dsimp only [key_clientRow]; split <;> rfl }
  pure ((store.clients.find? clientID).any fun row => decide (x.now < row.expiresAt))

def clientDelete (clientID : Int) : Tx Unit :=
  modify fun store => { store with clients := store.clients.delete fun row => decide (row.id = clientID) }

def clientPruneExpired (x : W) : Tx Nat := do
  let store ← get
  set { store with clients := store.clients.delete fun row => decide (row.expiresAt < x.now) }
  pure (store.clients.rows.countP fun row => decide (row.expiresAt < x.now))

def upsertQueue (row : QueueRow) (change : QueueRow → QueueRow)
    (same : ∀ row : QueueRow, (change row).name = row.name) (store : Store) : Store :=
  { store with queues := store.queues.upsert row change same }

def queueEnsure (x : W) (names : List String) : Tx Unit :=
  modify fun store => names.foldl
    (fun store name => upsertQueue { name := name, updatedAt := x.now } id (fun _ => rfl) store) store

def setPaused (x : W) (name : String) (paused : Bool) : Tx Unit := do
  modify (upsertQueue
    { name := name, pausedAt := if paused then some x.now else none, updatedAt := x.now }
    (fun row => { row with
      pausedAt := if paused then some (row.pausedAt.getD x.now) else none, updatedAt := x.now })
    fun _ => rfl)
  modify (x.notify channelControl [(if paused then "pause" else "resume") ++ ":" ++ name])

def nullablePositive (value : Int) : Option Int :=
  if value ≤ 0 then none else some value

/-- Sets a queue's limits. A new rate starts with a full bucket. -/
def queueSetLimits (x : W) (limits : QueueLimits) : Tx Unit := do
  let rate := if limits.ratePerSec > 0 then some limits.ratePerSec else none
  let row : QueueRow :=
    { name := limits.name, globalLimit := nullablePositive limits.globalLimit, ratePerSec := rate,
      rateBurst := nullablePositive limits.rateBurst,
      partitionLimit := nullablePositive limits.partitionLimit,
      agingSeconds := nullablePositive (limits.aging.tdiv 1000000000), updatedAt := x.now }
  modify (upsertQueue row
    (fun old => { row with
      name := old.name, pausedAt := old.pausedAt, refilledAt := old.refilledAt,
      tokens := if old.ratePerSec ≠ rate then none else old.tokens })
    fun _ => rfl)
  modify (x.notify channelControl ["limit:" ++ limits.name])

def advanceSlot (name : String) (slot : Int) (store : Store) : Option Store :=
  if (store.periodic.find? name).any fun row => decide (slot ≤ row.lastSlot) then
    none
  else
    some { store with
      periodic := store.periodic.upsert { name := name, lastSlot := slot }
        (fun row => { row with lastSlot := slot }) fun _ => rfl }

/-- The job of a slot is inserted only by the write that advances the slot. -/
def periodicInsert (x : W) (params : PeriodicInsertParams) : Tx (Option JobInsertResult) := do
  let job ← ensure (encodeInsert params.job)
  describing (.inOperation ("hopper: insert periodic job " ++ params.name ++ ": ")) do
    let store ← get
    match advanceSlot params.name (params.slot / 1000) store with
    | none => pure none
    | some advanced => do
        set advanced
        let result ← x.insertOne .skip job
        modify (x.notify channelInsert [job.queue])
        pure (some result)

/-- `DELETE … WHERE rowid IN (SELECT … LIMIT ?)`: the first rows that satisfy
the condition go. -/
def pruneFirst {Row : Type} (condition : Row → Bool) : Nat → List Row → List Row
  | _, [] => []
  | 0, rows => rows
  | limit + 1, row :: rest =>
    if condition row then pruneFirst condition limit rest
    else row :: pruneFirst condition (limit + 1) rest

theorem pruneFirst_sublist {Row : Type} (condition : Row → Bool) (limit : Nat) (rows : List Row) :
    (pruneFirst condition limit rows).Sublist rows := by
  fun_induction pruneFirst condition limit rows with
  | case1 | case2 => exact List.Sublist.refl _
  | case3 limit row rest _ ih => exact ih.cons row
  | case4 limit row rest _ ih => exact ih.cons_cons row

/-- How many rows a retention pass deletes per transaction. -/
def retentionBatch : Nat := 1000

/-- The jobs of history that one transaction of its maintenance keeps; a
retention that is not positive keeps all. -/
def retainedHistory (x : W) (params : HistoryMaintainParams) (history : List HistoryJob) : List HistoryJob :=
  let completed :=
    if params.completedRetention > 0 then
      pruneFirst (fun row : HistoryJob => decide (row.state = .completed ∧
        row.finalizedAt < x.after (-params.completedRetention))) retentionBatch history
    else history
  if params.failedRetention > 0 then
    pruneFirst (fun row : HistoryJob => decide ((row.state = .canceled ∨ row.state = .discarded) ∧
      row.finalizedAt < x.after (-params.failedRetention))) retentionBatch completed
  else completed

def retainedEvents (x : W) (params : HistoryMaintainParams) (events : List StreamEvent) : List StreamEvent :=
  if params.streamRetention > 0 then
    pruneFirst (fun row : StreamEvent => decide (row.createdAt < x.after (-params.streamRetention)))
      retentionBatch events
  else events

/-- One transaction of history maintenance, for jobs and for stream events. -/
def historyMaintain (x : W) (params : HistoryMaintainParams) : Tx Unit :=
  modify fun store => { store with
    history := x.retainedHistory params store.history
    events := x.retainedEvents params store.events }

def positiveAttempts (maxAttempts : Int) : Except Failure (Option Int) :=
  if maxAttempts > 0 then (smallint maxAttempts "max_attempts").map some else .ok none

def encodeSubscription (row : Driver.SubscriptionRow) : Except Failure SubscriptionRow := do
  let maxAttempts ← positiveAttempts row.maxAttempts
  pure { name := row.name, pattern := row.pattern, kind := row.kind, queue := row.queue,
         maxAttempts := maxAttempts, metadata := row.metadata.getD (.object []) }

def subscriptionUpsert (rows : List Driver.SubscriptionRow) : Tx Unit := do
  let encoded ← ensure (rows.mapM encodeSubscription)
  modify fun store => encoded.foldl
    (fun store row => { store with
      subscriptions := store.subscriptions.upsert row (fun old => { row with name := old.name })
        fun _ => rfl }) store

/-- The attempts of a delivery: its own, or the default, fewer for an ordered
one. -/
def deliveryAttempts (own : Option Int) (ordered : Bool) : Int :=
  own.getD (if ordered then 10 else 25)

/-- One delivery of a message. A dedup key becomes its unique key. -/
def deliveryInsert (x : W) (params : MessagePublishParams) (priority : Int) (message : JobID)
    (row : SubscriptionRow) : JobInsert :=
  { kind := row.kind, queue := row.queue, priority := priority,
    maxAttempts := deliveryAttempts row.maxAttempts (params.orderingKey ≠ "")
    scheduledAt := some (x.nanos + max params.delay 0)
    args := jsonValue params.payload "null"
    metadata := mergeObjects
      (.object (marshalMap [("topic", jsonString params.topic), ("message_id", jsonString message.text),
        ("headers", headersText params.headers)])) row.metadata
    orderingKey := params.orderingKey
    uniqueKey := if params.dedupKey = "" then "" else "msg:" ++ params.dedupKey
    ttl := params.ttl, await := params.await }

/-- Inserts one delivery per subscription whose pattern matches the topic. -/
def messagePublish (x : W) (params : MessagePublishParams) : Tx (List JobInsertResult) := do
  let priority ← ensure (smallint (if params.priority = 0 then 2 else params.priority) "priority")
  describing (.inOperation "hopper: publish: ") do
    let store ← get
    let matching := (store.subscriptions.rows.filter fun row =>
      x.engine.topicMatches row.pattern params.topic).insertionSort fun left right => left.name ≤ right.name
    let message ← x.mint
    let results ← x.insertJobs (matching.map (x.deliveryInsert params priority message)) .skip
    if params.notify then
      modify (x.notify channelInsert
        (distinctQueues (matching.map (x.deliveryInsert params priority message))))
    pure results

theorem yields_messagePublish {x : W} {params : MessagePublishParams} {pre post : Store} {results : List JobInsertResult}
    (published : Yields (x.messagePublish params) pre results post) :
    ∃ priority last notes, Yields (x.insertJobs (((pre.subscriptions.rows.filter fun row =>
      x.engine.topicMatches row.pattern params.topic).insertionSort fun left right => left.name ≤ right.name).map
        (x.deliveryInsert params priority (x.engine.newID pre.drawn))) .skip)
        { pre with drawn := pre.drawn + 1 } results last ∧ post = { last with notifications := notes } := by
  simp only [messagePublish, yields_bind, yields_ensure, yields_describing, yields_get] at published
  obtain ⟨priority, _, ⟨_, rfl⟩, _, store, ⟨rfl, rfl⟩, message, middle, minted, answered, last, inserted, returned⟩ :=
    published
  obtain ⟨rfl, rfl⟩ := yields_mint.mp minted
  split at returned
  · simp only [yields_bind, yields_modify, yields_pure] at returned
    obtain ⟨_, _, rfl, rfl, rfl⟩ := returned
    obtain ⟨notes, noted⟩ := x.notify_eq channelInsert _ last
    exact ⟨priority, last, notes, inserted, noted⟩
  · obtain ⟨rfl, rfl⟩ := yields_pure.mp returned
    exact ⟨priority, post, post.notifications, inserted, rfl⟩

def streamAppend (x : W) (params : StreamAppendParams) : Tx StreamEvent := do
  let message ← x.mint
  let store ← get
  let event : StreamEvent :=
    { seq := store.eventSeq + 1, topic := params.topic, key := nullable params.key,
      payload := jsonValue params.payload "null", headers := headersText params.headers,
      messageID := message, createdAt := x.now }
  set { store with events := store.events ++ [event], eventSeq := store.eventSeq + 1 }
  if params.notify then
    modify (x.notify channelStream [params.topic])
  pure event

def latestEvent (store : Store) : Nat :=
  (store.events.map StreamEvent.seq).foldl max 0

def encodeConsumer (store : Store) (row : Driver.StreamConsumerRow) : Except Failure ConsumerRow := do
  let maxAttempts ← positiveAttempts row.maxAttempts
  pure { name := row.name, pattern := row.pattern, kind := row.kind, queue := row.queue,
         maxAttempts := maxAttempts, metadata := row.metadata.getD (.object []),
         seen := if row.earliest then 0 else latestEvent store, position := 0, deliveredAt := none }

def streamConsumerUpsert (rows : List Driver.StreamConsumerRow) : Tx Unit := do
  let store ← get
  let encoded ← ensure (rows.mapM (encodeConsumer store))
  set (encoded.foldl
    (fun store row => { store with
      consumers := store.consumers.upsert row
        (fun old => { row with
          name := old.name, seen := old.seen, position := old.position, deliveredAt := old.deliveredAt })
        fun _ => rfl }) store)

def pumpInsert (consumer : ConsumerRow) (event : StreamEvent) : JobInsert :=
  { kind := consumer.kind, queue := consumer.queue, priority := 2,
    maxAttempts := deliveryAttempts consumer.maxAttempts event.key.isSome
    args := event.payload
    metadata := mergeObjects consumer.metadata
      (.object (marshalMap [("topic", jsonString event.topic), ("message_id", jsonString event.messageID.text),
        ("headers", event.headers), ("stream", jsonString consumer.name),
        ("position", jsonString ("0:" ++ toString event.seq))]))
    orderingKey := event.key.getD "" }

/-- Turns events past a consumer's seen number that match its pattern into
delivery jobs, and advances it past them, or past every event if fewer
matched. -/
def streamPump (x : W) (name : String) (limit : Int) : Tx Nat :=
  describing (.inOperationUnless [.notFound] ("hopper: pump stream consumer " ++ name ++ ": ")) do
    let store ← get
    match store.consumers.find? name with
    | none => throw .notFound
    | some consumer => do
        let limit := (max limit 1).toNat
        let events := ((store.events.filter fun event =>
          decide (consumer.seen < event.seq) && x.engine.topicMatches consumer.pattern event.topic)
            |>.insertionSort fun left right => left.seq ≤ right.seq).take limit
        forM events fun event => do
          let _ ← x.insertJob (pumpInsert consumer event)
        let delivered := ((events.getLast?).map StreamEvent.seq).getD consumer.seen
        let seen := if events.length < limit then max delivered (latestEvent store) else delivered
        modify fun store => { store with
          consumers := store.consumers.modify name
            (fun row => { row with
              seen := seen
              position := ((events.getLast?).map StreamEvent.seq).getD consumer.position
              deliveredAt := if events = [] then row.deliveredAt else some x.now })
            fun _ => rfl }
        if events ≠ [] then
          modify (x.notify channelInsert [consumer.queue])
        pure events.length

end W

end Hopper.Sqlite
