import Hopper.Postgres.Stream

/-! What holds of a stream consumer on Postgres in every state: what its row has
passed is what was delivered to it, delta by delta. -/

namespace Hopper.Postgres

open List Option Kernel Driver

section
variable {topicMatches : String → String → Bool} {transactions : Transactions}
variable {events : List StreamEvent} {consumer : Consumer} {reading : Snapshot} {limit : Nat}
variable {event : StreamEvent} {row : ConsumerRow} {nextSeq : Nat}

theorem sees_earliestSnapshot (xid : Nat) : earliestSnapshot.sees xid = true ↔ xid < 3 := by
  rw [Snapshot.sees, Bool.or_eq_true, Bool.and_eq_true, decide_eq_true_eq, decide_eq_true_eq]
  simp [earliestSnapshot]

theorem earliest_taken {own : Option Nat} (first : transactions.first = 3) : transactions.Taken own earliestSnapshot where
  bounds := le_rfl
  before := fun xid below => (sees_earliestSnapshot xid).mpr (first ▸ below)
  completed := fun xid given seen =>
    absurd ((sees_earliestSnapshot xid).mp seen) (Nat.not_lt.mpr (first ▸ given))

/-- The log of events: numbered in the order they were appended, by
transactions with an ID. -/
structure Logged (events : List StreamEvent) (nextSeq : Nat) : Prop where
  assigned : ∀ event ∈ events, 3 ≤ event.xid
  rising : events.Pairwise fun left right => left.seq < right.seq
  bounded : ∀ event ∈ events, event.seq < nextSeq

theorem Logged.append (logged : Logged events nextSeq) (given : 3 ≤ event.xid)
    (next : nextSeq ≤ event.seq) : Logged (events ++ [event]) (event.seq + 1) where
  assigned := forall_mem_append.mpr ⟨logged.assigned, forall_mem_singleton.mpr given⟩
  rising := by
    refine pairwise_append.mpr ⟨logged.rising, pairwise_singleton _ _, fun old mem new newest => ?_⟩
    rw [mem_singleton.mp newest]
    exact (logged.bounded old mem).trans_le next
  bounded := forall_mem_append.mpr
    ⟨fun other old => ((logged.bounded other old).trans_le next).trans (Nat.lt_succ_self _),
      forall_mem_singleton.mpr (Nat.lt_succ_self _)⟩

theorem Logged.distinct (logged : Logged events nextSeq) (chosen : StreamEvent → Bool) :
    ((events.filter chosen).map StreamEvent.position).Nodup := by
  refine pairwise_map.mpr ((logged.rising.filter chosen).imp fun pre same => pre.ne ?_)
  exact congrArg (fun position => (ofLex position).2) same

theorem position_pos (given : 3 ≤ event.xid) : (toLex (0, 0) : StreamPosition) < event.position :=
  Prod.Lex.toLex_lt_toLex.mpr (.inl (by show 0 < event.xid; omega))

/-- What a pump's statement selects, of the events of transactions that have
committed. -/
structure Due (topicMatches : String → String → Bool) (consumer : ConsumerRow) (reading : Snapshot)
    (event : StreamEvent) : Prop where
  later : consumer.position < event.position
  visible : reading.sees event.xid = true
  unseen : consumer.seen.sees event.xid = false
  wanted : topicMatches consumer.pattern event.topic = true

theorem streamPumpWhere_iff (bounds : reading.xmin ≤ reading.xmax) :
    streamPumpWhere topicMatches row reading event = true ↔ Due topicMatches row reading event := by
  simp only [streamPumpWhere, Bool.and_eq_true, decide_eq_true_eq, Bool.not_eq_true']
  constructor
  · rintro ⟨⟨⟨⟨⟨_, _⟩, later⟩, visible⟩, unseen⟩, wanted⟩
    exact ⟨later, visible, unseen, wanted⟩
  · intro due
    have start : row.seen.xmin ≤ event.xid := by
      by_contra below
      have seen := Snapshot.sees_of_lt_xmin (Nat.not_le.mp below)
      rw [due.unseen] at seen
      cases seen
    exact ⟨⟨⟨⟨⟨start, Snapshot.lt_xmax_of_sees bounds due.visible⟩, due.later⟩, due.visible⟩, due.unseen⟩, due.wanted⟩

theorem mem_due (bounds : reading.xmin ≤ reading.xmax) : event ∈ streamPumpRows topicMatches transactions events row reading ↔
      event ∈ events ∧ event.xid ∈ transactions.committed ∧ Due topicMatches row reading event := by
  rw [streamPumpRows, mem_filter, Bool.and_eq_true, decide_eq_true_eq, streamPumpWhere_iff bounds]

theorem streamPumpRows_frame {post : Transactions} {extra : List StreamEvent}
    (settled : ∀ event ∈ events, reading.sees event.xid = true → (event.xid ∈ post.committed ↔ event.xid ∈ transactions.committed))
    (unseen : ∀ event ∈ extra, reading.sees event.xid = false) :
    streamPumpRows topicMatches post (events ++ extra) row reading =
      streamPumpRows topicMatches transactions events row reading := by
  have hidden : (extra.filter fun event => decide (event.xid ∈ post.committed) &&
      streamPumpWhere topicMatches row reading event) = [] := by
    refine filter_eq_nil_iff.mpr fun event mem => ?_
    simp [streamPumpWhere, unseen event mem]
  unfold streamPumpRows
  rw [filter_append, hidden, append_nil]
  refine filter_congr fun event mem => ?_
  by_cases visible : reading.sees event.xid = true
  · rw [decide_eq_decide.mpr (settled event mem visible)]
  · simp [streamPumpWhere, visible]

end

/-! ## What holds of a consumer -/

section
variable (topicMatches : String → String → Bool)

@[mk_iff]
structure Owed (consumer : Consumer) (transactions : Transactions) (event : StreamEvent) : Prop where
  committed : event.xid ∈ transactions.committed
  unseen : consumer.created.sees event.xid = false
  wanted : topicMatches consumer.row.pattern event.topic = true

/-- An event the consumer's row says was delivered, if it is owed. -/
def Passed (row : ConsumerRow) (event : StreamEvent) : Prop :=
  row.seen.sees event.xid = true ∨
    ∃ reading, row.reading = some reading ∧ reading.sees event.xid = true ∧ event.position ≤ row.position

/-- A snapshot that a delta is read by: it sees all that was seen before, and
what had committed when it was taken. -/
structure Opened (transactions : Transactions) (own : Option Nat) (row : ConsumerRow) (reading : Snapshot)
    (committed : List Nat) : Prop where
  taken : transactions.Taken own reading
  seen : ∀ xid, row.seen.sees xid = true → reading.sees xid = true
  visible : ∀ xid ∈ committed, reading.sees xid = true
  known : ∀ xid ∈ committed, xid ∈ transactions.committed

structure ConsumerHolds (transactions : Transactions) (events : List StreamEvent) (consumer : Consumer) : Prop where
  seen : transactions.Taken none consumer.row.seen
  created : ∀ xid, consumer.created.sees xid = true → consumer.row.seen.sees xid = true
  opened : ∀ reading, consumer.row.reading = some reading →
    Opened transactions none consumer.row reading consumer.committed
  between : consumer.row.reading = none → consumer.current = [] ∧ consumer.row.position = toLex (0, 0)
  delivered : ∀ event, event ∈ consumer.delivered ↔
    event ∈ events ∧ Owed topicMatches consumer transactions event ∧ Passed consumer.row event
  once : consumer.delivered.Nodup
  ordered : ∀ delta ∈ consumer.past, delta.events.Pairwise fun left right => left.position < right.position
  ordering : consumer.current.Pairwise fun left right => left.position < right.position
  passed : ∀ event ∈ consumer.current, event.position ≤ consumer.row.position
  known : ∀ delta ∈ consumer.past, ∀ xid ∈ delta.committed, xid ∈ transactions.committed
  covered : ∀ deltas, deltas <+: consumer.past → ∀ delta ∈ deltas, ∀ event ∈ events,
    event.xid ∈ delta.committed → Owed topicMatches consumer transactions event →
      event ∈ deltas.flatMap Delta.events

end

section
variable {topicMatches : String → String → Bool} {transactions post : Transactions}
variable {events : List StreamEvent} {consumer : Consumer} {row : ConsumerRow} {reading : Snapshot} {limit : Nat}
variable {event : StreamEvent} {chosen : List StreamEvent} {committed : List Nat}

theorem Opened.advance {own : Option Nat}
    (opened : Opened transactions own row reading committed) (advances : transactions.Advances post) :
    Opened post own row reading committed where
  taken := opened.taken.advance advances
  seen := opened.seen
  visible := opened.visible
  known := fun xid mem => advances.mem_committed (opened.known xid mem)

theorem ConsumerHolds.completed (holds : ConsumerHolds topicMatches transactions events consumer)
    (passed : Passed consumer.row event) (given : transactions.first ≤ event.xid) :
    transactions.Completed event.xid := by
  rcases passed with seen | ⟨reading, found, visible, _⟩
  · exact (holds.seen.completed event.xid given seen).resolve_right nofun
  · exact ((holds.opened reading found).taken.completed event.xid given visible).resolve_right nofun

theorem Owed.iff_of_completed (advances : transactions.Advances post) (completed : transactions.Completed event.xid) :
    Owed topicMatches consumer post event ↔ Owed topicMatches consumer transactions event := by
  rw [owed_iff, owed_iff, advances.committed _ completed]

section
variable (holds : ConsumerHolds topicMatches transactions events consumer)
include holds

theorem ConsumerHolds.advance
    (given : ∀ event ∈ events, transactions.first ≤ event.xid) (advances : transactions.Advances post) :
    ConsumerHolds topicMatches post events consumer where
  seen := holds.seen.advance advances
  created := holds.created
  opened := fun reading found => (holds.opened reading found).advance advances
  between := holds.between
  delivered := by
    intro event
    rw [holds.delivered event]
    refine and_congr_right fun mem => and_congr_left fun passed => ?_
    exact (Owed.iff_of_completed advances (holds.completed passed (given event mem))).symm
  once := holds.once
  ordered := holds.ordered
  ordering := holds.ordering
  passed := holds.passed
  known := fun delta mem xid within => advances.mem_committed (holds.known delta mem xid within)
  covered := by
    intro deltas initial delta mem event logged within owed
    have committed := holds.known delta (initial.subset mem) event.xid within
    exact holds.covered deltas initial delta mem event logged within ⟨committed, owed.unseen, owed.wanted⟩

theorem ConsumerHolds.append
    (runs : transactions.Running event.xid) :
    ConsumerHolds topicMatches transactions (events ++ [event]) consumer := by
  have uncommitted : event.xid ∉ transactions.committed := fun committed => runs.uncompleted (.inl committed)
  refine { holds with delivered := fun other => ?_, covered := ?_ }
  · rw [holds.delivered other, List.mem_append, mem_singleton]
    refine ⟨fun all => ⟨.inl all.1, all.2⟩, fun all => ⟨all.1.resolve_right fun same => ?_, all.2⟩⟩
    exact uncommitted (same ▸ all.2.1.committed)
  · intro deltas initial delta mem other logged within owed
    rcases List.mem_append.mp logged with old | new
    · exact holds.covered deltas initial delta mem other old within owed
    · exact absurd (mem_singleton.mp new ▸ owed.committed) uncommitted

end

theorem Consumer.delivered_pumped :
    (consumer.pumped reading committed limit chosen).delivered = consumer.delivered ++ chosen := by
  unfold Consumer.pumped Consumer.delivered
  dsimp only
  split <;> simp

theorem Consumer.created_pumped :
    (consumer.pumped reading committed limit chosen).created = consumer.created := by
  unfold Consumer.pumped
  dsimp only
  split <;> rfl

theorem Consumer.row_pumped :
    (consumer.pumped reading committed limit chosen).row = pumpedRow consumer.row reading limit chosen := by
  unfold Consumer.pumped
  dsimp only
  split <;> rfl

theorem Consumer.pattern_pumped :
    (consumer.pumped reading committed limit chosen).row.pattern = consumer.row.pattern := by
  rw [Consumer.row_pumped]
  unfold pumpedRow
  split <;> rfl

theorem Consumer.owed_pumped :
    Owed topicMatches (consumer.pumped reading committed limit chosen) transactions event ↔
      Owed topicMatches consumer transactions event := by
  rw [owed_iff, owed_iff, created_pumped, pattern_pumped]

theorem not_due_of_passed (passed : Passed row event) : ¬Due topicMatches row reading event := by
  intro due
  rcases passed with seen | ⟨other, found, visible, within⟩
  · rw [due.unseen] at seen
    cases seen
  · exact absurd due.later (not_lt.mpr within)

theorem pumpedRow_of_fewer (fewer : chosen.length < limit) :
    pumpedRow row reading limit chosen = { row with seen := reading, reading := none, xid := 0, seq := 0 } :=
  if_pos fewer

theorem pumpedRow_of_full {last : StreamEvent} (full : ¬chosen.length < limit) (final : chosen.getLast? = some last) :
    pumpedRow row reading limit chosen = { row with reading := some reading, xid := last.xid, seq := last.seq } := by
  rw [pumpedRow, if_neg full, final]
  rfl

namespace ConsumerHolds

variable (holds : ConsumerHolds topicMatches transactions events consumer)
variable {event : StreamEvent} {nextSeq : Nat}

include holds

theorem passed_or_due (same : ∀ other, consumer.row.reading = some other → other = reading) (given : 3 ≤ event.xid)
    (wanted : topicMatches consumer.row.pattern event.topic = true) (visible : reading.sees event.xid = true) :
    Passed consumer.row event ∨ Due topicMatches consumer.row reading event := by
  cases seen : consumer.row.seen.sees event.xid with
  | true => exact .inl (.inl seen)
  | false =>
    by_cases later : consumer.row.position < event.position
    · exact .inr ⟨later, visible, seen, wanted⟩
    · cases found : consumer.row.reading with
      | none =>
        rw [(holds.between found).2] at later
        exact absurd (position_pos given) later
      | some other =>
        obtain rfl := same other found
        exact .inl (.inr ⟨other, found, visible, not_lt.mp later⟩)

theorem owed_of_due (committed : event.xid ∈ transactions.committed)
    (due : Due topicMatches consumer.row reading event) : Owed topicMatches consumer transactions event := by
  refine ⟨committed, ?_, due.wanted⟩
  cases created : consumer.created.sees event.xid with
  | false => rfl
  | true =>
    have seen := holds.created event.xid created
    rw [due.unseen] at seen
    cases seen

theorem passed_pumpedRow {committed : List Nat} (logged : Logged events nextSeq)
    (opened : Opened transactions none consumer.row reading committed)
    (same : ∀ other, consumer.row.reading = some other → other = reading) (positive : 1 ≤ limit)
    (mem : event ∈ events) (owed : Owed topicMatches consumer transactions event) :
    Passed (pumpedRow consumer.row reading limit
        (streamPumpSQL topicMatches transactions events consumer.row reading limit)) event ↔
      Passed consumer.row event ∨ event ∈ streamPumpSQL topicMatches transactions events consumer.row reading limit := by
  have distinct := logged.distinct fun event => decide (event.xid ∈ transactions.committed) &&
    streamPumpWhere topicMatches consumer.row reading event
  have selected : Due topicMatches consumer.row reading event →
      event ∈ streamPumpRows topicMatches transactions events consumer.row reading :=
    fun due => (mem_due opened.taken.bounds).mpr ⟨mem, owed.committed, due⟩
  have split := holds.passed_or_due same (logged.assigned event mem) owed.wanted
  have due : ∀ {other : StreamEvent}, other ∈ streamPumpSQL topicMatches transactions events consumer.row reading limit →
        Due topicMatches consumer.row reading other :=
    fun chosen => ((mem_due opened.taken.bounds).mp (mem_of_mem_page chosen)).2.2
  by_cases fewer : (streamPumpSQL topicMatches transactions events consumer.row reading limit).length < limit
  · rw [pumpedRow_of_fewer fewer]
    constructor
    · intro passed
      rcases passed with visible | ⟨_, absent, _⟩
      · exact (split visible).imp_right fun due => mem_page_of_fewer fewer (selected due)
      · cases absent
    · intro either
      rcases either with (seen | ⟨other, found, visible, _⟩) | chosen
      · exact .inl (opened.seen event.xid seen)
      · obtain rfl := same other found
        exact .inl visible
      · exact .inl (due chosen).visible
  · cases final : (streamPumpSQL topicMatches transactions events consumer.row reading limit).getLast? with
    | none =>
      rw [getLast?_eq_none_iff.mp final] at fewer
      exact absurd positive fewer
    | some =>
      rw [pumpedRow_of_full fewer final]
      constructor
      · intro passed
        rcases passed with seen | ⟨_, found, visible, within⟩
        · exact .inl (.inl seen)
        · cases found
          exact (split visible).imp_right fun due => mem_page_of_le distinct final (selected due) within
      · intro either
        rcases either with (seen | ⟨other, found, visible, within⟩) | chosen
        · exact .inl seen
        · obtain rfl := same other found
          exact .inr ⟨other, rfl, visible, within.trans (due (mem_of_getLast? final)).later.le⟩
        · exact .inr ⟨reading, rfl, (due chosen).visible, le_last_of_mem_page distinct final chosen⟩

theorem chosen_rising (logged : Logged events nextSeq) {chosen : List StreamEvent}
    (bounds : reading.xmin ≤ reading.xmax)
    (pumped : chosen = streamPumpSQL topicMatches transactions events consumer.row reading limit) :
    (consumer.current ++ chosen).Pairwise fun left right => left.position < right.position := by
  subst pumped
  refine pairwise_append.mpr ⟨holds.ordering, page_rising (logged.distinct _), fun old early new chosen => ?_⟩
  exact (holds.passed old early).trans_lt ((mem_due bounds).mp (mem_of_mem_page chosen)).2.2.later

section
variable {committed : List Nat} {nextSeq : Nat} {chosen : List StreamEvent} (logged : Logged events nextSeq)
variable (opened : Opened transactions none consumer.row reading committed)
variable (same : ∀ other, consumer.row.reading = some other → other = reading) (positive : 1 ≤ limit)
variable (pumped : chosen = streamPumpSQL topicMatches transactions events consumer.row reading limit)
include logged opened same positive pumped

theorem delivered_pumped (event : StreamEvent) : event ∈ (consumer.pumped reading committed limit chosen).delivered ↔
      event ∈ events ∧ Owed topicMatches (consumer.pumped reading committed limit chosen) transactions event ∧
        Passed (consumer.pumped reading committed limit chosen).row event := by
  rw [Consumer.delivered_pumped, Consumer.owed_pumped, Consumer.row_pumped, List.mem_append, holds.delivered event]
  subst pumped
  constructor
  · intro either
    rcases either with ⟨mem, owed, passed⟩ | new
    · exact ⟨mem, owed, (holds.passed_pumpedRow logged opened same positive mem owed).mpr (.inl passed)⟩
    · obtain ⟨mem, done, due⟩ := (mem_due opened.taken.bounds).mp (mem_of_mem_page new)
      have owed := holds.owed_of_due done due
      exact ⟨mem, owed, (holds.passed_pumpedRow logged opened same positive mem owed).mpr (.inr new)⟩
  · intro all
    obtain ⟨mem, owed, passed⟩ := all
    exact ((holds.passed_pumpedRow logged opened same positive mem owed).mp passed).imp_left fun passed => ⟨mem, owed, passed⟩

omit same positive in
theorem once_pumped : (consumer.pumped reading committed limit chosen).delivered.Nodup := by
  rw [Consumer.delivered_pumped]
  have rising := holds.chosen_rising logged opened.taken.bounds pumped
  refine nodup_append.mpr ⟨holds.once, ?_, ?_⟩
  · exact (pairwise_append.mp rising).2.1.imp fun pre equal => pre.ne (congrArg _ equal)
  · intro old delivered new chosen equal
    subst pumped equal
    obtain ⟨_, _, due⟩ := (mem_due opened.taken.bounds).mp (mem_of_mem_page chosen)
    exact not_due_of_passed ((holds.delivered old).mp delivered).2.2 due

theorem covered_pumped (fewer : chosen.length < limit) {event : StreamEvent} (mem : event ∈ events)
    (early : event.xid ∈ committed) (owed : Owed topicMatches consumer transactions event) :
    event ∈ consumer.delivered ++ chosen := by
  have all := (holds.delivered_pumped logged opened same positive pumped event).mpr
  rw [Consumer.delivered_pumped, Consumer.owed_pumped, Consumer.row_pumped, pumpedRow_of_fewer fewer] at all
  exact all ⟨mem, owed, .inl (opened.visible event.xid early)⟩

theorem pump : ConsumerHolds topicMatches transactions events (consumer.pumped reading committed limit chosen) := by
  have delivered := holds.delivered_pumped logged opened same positive pumped
  have once := holds.once_pumped logged opened pumped
  have rising := holds.chosen_rising logged opened.taken.bounds pumped
  by_cases fewer : chosen.length < limit
  · have covered : ∀ event ∈ events, event.xid ∈ committed → Owed topicMatches consumer transactions event →
        event ∈ consumer.delivered ++ chosen :=
      fun _ => holds.covered_pumped logged opened same positive pumped fewer
    have ends : consumer.pumped reading committed limit chosen = { consumer with
          row := { consumer.row with seen := reading, reading := none, xid := 0, seq := 0 }
          past := consumer.past ++ [⟨reading, committed, consumer.current ++ chosen⟩]
          committed := []
          current := [] } := by
      unfold Consumer.pumped
      dsimp only
      rw [if_pos fewer, pumpedRow_of_fewer fewer]
    rw [ends] at delivered once ⊢
    refine ⟨opened.taken, fun xid created => opened.seen xid (holds.created xid created), nofun, fun _ => ⟨rfl, rfl⟩,
      delivered, once, ?_, .nil, nofun, ?_, ?_⟩
    · exact forall_mem_append.mpr ⟨holds.ordered, forall_mem_singleton.mpr rising⟩
    · exact forall_mem_append.mpr ⟨holds.known, forall_mem_singleton.mpr opened.known⟩
    · intro deltas initial delta mem event known early owed
      rcases prefix_concat_iff.mp initial with rfl | older
      · rw [flatMap_append, flatMap_singleton]
        rcases List.mem_append.mp mem with old | new
        · exact mem_append_left _ (holds.covered consumer.past (prefix_refl _) delta old event known early
              ⟨owed.committed, owed.unseen, owed.wanted⟩)
        · rw [mem_singleton.mp new] at early
          have found := covered event known early ⟨owed.committed, owed.unseen, owed.wanted⟩
          rwa [Consumer.delivered, append_assoc] at found
      · exact holds.covered deltas older delta mem event known early ⟨owed.committed, owed.unseen, owed.wanted⟩
  · cases final : chosen.getLast? with
    | none =>
      rw [getLast?_eq_none_iff.mp final] at fewer
      exact absurd positive fewer
    | some last =>
      have kept : consumer.pumped reading committed limit chosen = { consumer with
            row := { consumer.row with reading := some reading, xid := last.xid, seq := last.seq }
            committed := committed
            current := consumer.current ++ chosen } := by
        unfold Consumer.pumped
        dsimp only
        rw [if_neg fewer, pumpedRow_of_full fewer final]
      rw [kept] at delivered once ⊢
      refine ⟨holds.seen, holds.created, ?_, nofun, delivered, once, holds.ordered, rising, ?_, holds.known,
        fun deltas initial delta mem event known early owed =>
          holds.covered deltas initial delta mem event known early ⟨owed.committed, owed.unseen, owed.wanted⟩⟩
      · intro other found
        cases found
        exact ⟨opened.taken, opened.seen, opened.visible, opened.known⟩
      · intro event mem
        obtain ⟨front, rfl⟩ := getLast?_eq_some_iff.mp final
        rw [← append_assoc] at rising mem
        rcases List.mem_append.mp mem with early | latest
        · exact ((pairwise_append.mp rising).2.2 event early last (mem_singleton_self last)).le
        · rw [mem_singleton.mp latest]
          exact le_rfl

end

end ConsumerHolds

end

/-! ## What holds in every state -/

section
variable (topicMatches : String → String → Bool)

/-- A pump that has its snapshot: what it delivers does not depend on what
happens until it commits. -/
def PumpHolds (transactions : Transactions) (events : List StreamEvent) (consumer : Consumer) : Pump → Prop
  | .idle => True
  | .locked _ limit => 1 ≤ limit
  | .reading own limit reading committed =>
    1 ≤ limit ∧ Opened transactions (some own) consumer.row reading committed ∧
      ∀ other, consumer.row.reading = some other → other = reading
  | .delivered own limit reading committed chosen =>
    1 ≤ limit ∧ Opened transactions (some own) consumer.row reading committed ∧
      (∀ other, consumer.row.reading = some other → other = reading) ∧
      chosen = streamPumpSQL topicMatches transactions events consumer.row reading limit

/-- A job that delivers an event to the consumer, as its row was then. -/
def Delivers (row : ConsumerRow) (job : StreamDelivery) (event : StreamEvent) : Prop :=
  ∃ later : ConsumerRow, later.name = row.name ∧ later.pattern = row.pattern ∧ job = pumpInsert later event

structure StreamHolds (db : StreamDB) : Prop where
  first : db.transactions.first = 3
  logged : Logged db.events db.nextSeq
  upserts : ∀ upsert ∈ db.upserts, db.transactions.Taken upsert.own upsert.row.seen ∧
    upsert.row.reading = none ∧ upsert.row.position = toLex (0, 0)
  pumping : ∀ own, db.pump.own? = some own → db.transactions.Running own ∧ ∀ event ∈ db.events, event.xid ≠ own
  absent : db.consumer = none → db.pump = .idle ∧ db.jobs = []
  consumer : ∀ consumer, db.consumer = some consumer →
    ConsumerHolds topicMatches db.transactions db.events consumer ∧
      PumpHolds topicMatches db.transactions db.events consumer db.pump ∧
      List.Forall₂ (Delivers consumer.row) db.jobs consumer.delivered

end

section
variable {topicMatches : String → String → Bool} {transactions post : Transactions}
variable {events : List StreamEvent} {consumer : Consumer} {pump : Pump}
variable {row : ConsumerRow} {event : StreamEvent}

theorem Opened.settled {own : Nat} {reading : Snapshot} {committed : List Nat}
    (opened : Opened transactions (some own) row reading committed) (advances : transactions.Advances post)
    (given : transactions.first ≤ event.xid) (apart : event.xid ≠ own) (visible : reading.sees event.xid = true) :
    event.xid ∈ post.committed ↔ event.xid ∈ transactions.committed := by
  have completed := (opened.taken.completed event.xid given visible).resolve_right fun same => apart (some.inj same).symm
  exact advances.committed event.xid completed

section
variable (holds : PumpHolds topicMatches transactions events consumer pump)
include holds

theorem PumpHolds.advance
    (given : ∀ event ∈ events, transactions.first ≤ event.xid)
    (apart : ∀ own, pump.own? = some own → ∀ event ∈ events, event.xid ≠ own)
    (advances : transactions.Advances post) : PumpHolds topicMatches post events consumer pump := by
  cases pump with
  | idle => exact trivial
  | locked => exact holds
  | reading =>
    obtain ⟨positive, opened, same⟩ := holds
    exact ⟨positive, opened.advance advances, same⟩
  | delivered own limit reading =>
    obtain ⟨positive, opened, same, pumped⟩ := holds
    refine ⟨positive, opened.advance advances, same, ?_⟩
    have frame : streamPumpRows topicMatches post (events ++ []) consumer.row reading =
        streamPumpRows topicMatches transactions events consumer.row reading :=
      streamPumpRows_frame (fun event mem => opened.settled advances (given event mem) (apart own rfl event mem)) nofun
    rw [append_nil] at frame
    rw [pumped, streamPumpSQL, streamPumpSQL, frame]

theorem PumpHolds.append
    (runs : transactions.Running event.xid) (other : pump.own? ≠ some event.xid) :
    PumpHolds topicMatches transactions (events ++ [event]) consumer pump := by
  cases pump with
  | idle => exact trivial
  | locked | reading => exact holds
  | delivered own limit reading =>
    obtain ⟨positive, opened, same, pumped⟩ := holds
    have unseen : reading.sees event.xid = false := by
      cases visible : reading.sees event.xid with
      | false => rfl
      | true =>
        rcases opened.taken.completed event.xid runs.first_le visible with completed | same
        · exact absurd completed runs.uncompleted
        · exact absurd same other
    have hidden : ∀ new ∈ [event], reading.sees new.xid = false := by
      intro new mem
      rwa [mem_singleton.mp mem]
    refine ⟨positive, opened, same, ?_⟩
    rw [pumped, streamPumpSQL, streamPumpSQL, streamPumpRows_frame (fun _ _ _ => Iff.rfl) hidden]

end

theorem ConsumerHolds.create (taken : transactions.Taken none row.seen) (reading : row.reading = none)
    (position : row.position = toLex (0, 0)) :
    ConsumerHolds topicMatches transactions events { row := row, created := row.seen } where
  seen := taken
  created := fun _ => id
  opened := fun other found => by
    rw [reading] at found
    cases found
  between := fun _ => ⟨rfl, position⟩
  delivered := by
    intro event
    refine ⟨nofun, fun all => ?_⟩
    obtain ⟨_, owed, seen | ⟨other, found, _⟩⟩ := all
    · exact absurd (seen.symm.trans owed.unseen) nofun
    · exact absurd (reading.symm.trans found) nofun
  once := .nil
  ordered := nofun
  ordering := .nil
  passed := nofun
  known := nofun
  covered := by
    intro deltas initial delta mem
    rw [prefix_nil.mp initial] at mem
    cases mem

theorem ConsumerHolds.upsert (holds : ConsumerHolds topicMatches transactions events consumer)
    (pattern : consumer.row.pattern = row.pattern) :
    ConsumerHolds topicMatches transactions events { consumer with row := consumer.row.upserted row } := by
  have owed : ∀ event, Owed topicMatches { consumer with row := consumer.row.upserted row } transactions event ↔
      Owed topicMatches consumer transactions event :=
    fun event => ⟨fun owed => ⟨owed.committed, owed.unseen, pattern ▸ owed.wanted⟩,
      fun owed => ⟨owed.committed, owed.unseen, pattern ▸ owed.wanted⟩⟩
  exact { seen := holds.seen, created := holds.created
          opened := fun reading found =>
            have opened := holds.opened reading found
            ⟨opened.taken, opened.seen, opened.visible, opened.known⟩
          between := holds.between
          delivered := fun event => by
            rw [owed event]
            exact holds.delivered event
          once := holds.once, ordered := holds.ordered, ordering := holds.ordering, passed := holds.passed
          known := holds.known
          covered := fun deltas initial delta mem event logged early due =>
            holds.covered deltas initial delta mem event logged early ((owed event).mp due) }

theorem Delivers.same {other : ConsumerRow} (name : other.name = row.name) (pattern : other.pattern = row.pattern)
    {job : StreamDelivery} (delivers : Delivers row job event) : Delivers other job event := by
  obtain ⟨later, named, matched, made⟩ := delivers
  exact ⟨later, named.trans name.symm, matched.trans pattern.symm, made⟩

end

namespace StreamHolds

variable {topicMatches : String → String → Bool} {db : StreamDB} {post : Transactions}
variable {consumer : Consumer} {own limit : Nat} {reading : Snapshot} {committed : List Nat} {xid : Nat}

theorem initial (start : db.Initial) : StreamHolds topicMatches db where
  first := start.first
  logged := by
    rw [start.events]
    exact ⟨nofun, .nil, nofun⟩
  upserts := by
    rw [start.upserts]
    exact nofun
  pumping := by
    rw [start.pump]
    exact nofun
  absent := fun _ => ⟨start.pump, start.jobs⟩
  consumer := by
    rw [start.consumer]
    exact nofun

section
variable (holds : StreamHolds topicMatches db)
include holds

theorem given : ∀ event ∈ db.events, db.transactions.first ≤ event.xid :=
  fun event mem => holds.first ▸ holds.logged.assigned event mem

theorem advance (advances : db.transactions.Advances post)
    (runs : ∀ own, db.pump.own? = some own → post.Running own) :
    StreamHolds topicMatches { db with transactions := post } := by
  have given := holds.given
  refine ⟨advances.first.trans holds.first, holds.logged, fun upsert mem => ?_, fun own pumping => ?_, holds.absent,
    fun consumer there => ?_⟩
  · obtain ⟨taken, rest⟩ := holds.upserts upsert mem
    exact ⟨taken.advance advances, rest⟩
  · exact ⟨runs own pumping, (holds.pumping own pumping).2⟩
  · obtain ⟨consumed, pumped, jobs⟩ := holds.consumer consumer there
    exact ⟨consumed.advance given advances, pumped.advance given (fun own pumping => (holds.pumping own pumping).2) advances, jobs⟩

theorem append {event : StreamEvent}
    (runs : db.transactions.Running event.xid) (other : db.pump.own? ≠ some event.xid)
    (next : db.nextSeq ≤ event.seq) :
    StreamHolds topicMatches { db with events := db.events ++ [event], nextSeq := event.seq + 1 } := by
  refine ⟨holds.first, holds.logged.append (holds.first ▸ runs.first_le) next, holds.upserts, fun own pumping => ?_,
    holds.absent, fun consumer there => ?_⟩
  · obtain ⟨running, apart⟩ := holds.pumping own pumping
    refine ⟨running, fun each mem same => ?_⟩
    rcases List.mem_append.mp mem with old | new
    · exact apart each old same
    · rw [mem_singleton.mp new] at same
      exact other (same ▸ pumping)
  · obtain ⟨consumed, pumped, jobs⟩ := holds.consumer consumer there
    exact ⟨consumed.append runs, pumped.append runs other, jobs⟩

theorem setUpserts {upserts : List Upsert}
    (each : ∀ upsert ∈ upserts, upsert ∈ db.upserts ∨ db.transactions.Taken upsert.own upsert.row.seen ∧
      upsert.row.reading = none ∧ upsert.row.position = toLex (0, 0)) :
    StreamHolds topicMatches { db with upserts := upserts } :=
  { holds with upserts := fun upsert mem => (each upsert mem).elim (holds.upserts upsert) id }

theorem startSnapshot_taken (earliest : Bool) (own : Option Nat) :
    db.transactions.Taken own (db.startSnapshot earliest own) := by
  unfold StreamDB.startSnapshot
  split
  · exact earliest_taken holds.first
  · cases own with
    | none => exact .unassigned _
    | some xid => exact .fresh _ xid

theorem setPump {pump : Pump} (there : db.consumer.isSome ∨ pump = .idle)
    (pumping : ∀ own, pump.own? = some own → db.transactions.Running own ∧ ∀ event ∈ db.events, event.xid ≠ own)
    (pumped : ∀ consumer, db.consumer = some consumer → PumpHolds topicMatches db.transactions db.events consumer db.pump →
      PumpHolds topicMatches db.transactions db.events consumer pump) :
    StreamHolds topicMatches { db with pump := pump } := by
  refine { holds with pumping := pumping, absent := fun absent => ?_, consumer := fun consumer found => ?_ }
  · refine ⟨there.resolve_left fun present => ?_, (holds.absent absent).2⟩
    rw [absent] at present
    cases present
  · obtain ⟨consumed, pre, jobs⟩ := holds.consumer consumer found
    exact ⟨consumed, pumped consumer found pre, jobs⟩

theorem snapshot (locked : db.pump = .locked own limit)
    (there : db.consumer = some consumer) : StreamHolds topicMatches { db with
      pump := .reading own limit (consumer.row.reading.getD (db.transactions.snapshot own))
        (if consumer.row.reading.isSome then consumer.committed else db.transactions.committed) } := by
  refine holds.setPump (.inl (there ▸ rfl)) (fun other same => holds.pumping other (locked ▸ same)) ?_
  intro found same pre
  cases there.symm.trans same
  rw [locked] at pre
  have consumed := (holds.consumer consumer there).1
  refine ⟨pre, ?_, fun other reads => by rw [reads, getD_some]⟩
  cases reads : consumer.row.reading with
  | some reading =>
    have opened := consumed.opened reading reads
    exact { opened with taken := opened.taken.assign }
  | none =>
    -- A fresh snapshot sees all that has completed.
    refine ⟨.fresh _ own, fun xid seen => ?_, fun xid done => Transactions.sees_of_completed (.inl done), fun _ => id⟩
    by_cases given : db.transactions.first ≤ xid
    · exact Transactions.sees_of_completed ((consumed.seen.completed xid given seen).resolve_right nofun)
    · exact Transactions.sees_of_lt_first (Nat.not_le.mp given)

theorem deliver
    (read : db.pump = .reading own limit reading committed) (there : db.consumer = some consumer) :
    StreamHolds topicMatches { db with
      pump := .delivered own limit reading committed
        (streamPumpSQL topicMatches db.transactions db.events consumer.row reading limit) } := by
  refine holds.setPump (.inl (there ▸ rfl)) (fun other same => holds.pumping other (read ▸ same)) ?_
  intro found same pre
  cases there.symm.trans same
  rw [read] at pre
  obtain ⟨positive, opened, kept⟩ := pre
  exact ⟨positive, opened, kept, rfl⟩

theorem commitUpsert (runs : db.transactions.Running xid)
    {row : ConsumerRow} {others : List Upsert} (there : db.upserts.Perm (⟨some xid, row⟩ :: others))
    (idle : db.pump = .idle) (pattern : ∀ consumer ∈ db.consumer, consumer.row.pattern = row.pattern) :
    StreamHolds topicMatches
      { db.applyUpsert ⟨some xid, row⟩ with transactions := db.transactions.commit xid runs, upserts := others } := by
  have advances := Transactions.Advances.commit runs
  have left := (holds.advance advances (by rw [idle]; exact nofun)).setUpserts fun upsert (mem : upsert ∈ others) =>
    .inl (there.mem_iff.mpr (mem_cons_of_mem _ mem))
  refine { left with absent := nofun, consumer := fun consumer found => ?_ }
  rw [show (db.applyUpsert ⟨some xid, row⟩).pump = .idle from idle]
  cases old : db.consumer with
  | none =>
    simp only [StreamDB.applyUpsert, old, some.injEq] at found
    subst found
    obtain ⟨taken, reading, position⟩ := holds.upserts _ (there.mem_iff.mpr (mem_cons_self ..))
    have done : ∀ own ∈ some xid, (db.transactions.commit xid runs).Completed own := by
      intro own same
      cases same
      exact .inl (mem_cons_self ..)
    refine ⟨ConsumerHolds.create ((taken.advance advances).finish done) reading position, trivial, ?_⟩
    rw [show (db.applyUpsert ⟨some xid, row⟩).jobs = [] from (holds.absent old).2]
    exact .nil
  | some pre =>
    simp only [StreamDB.applyUpsert, old, some.injEq] at found
    subst found
    have matched := pattern pre old
    obtain ⟨consumed, _, jobs⟩ := left.consumer pre old
    have name : (pre.row.upserted row).name = pre.row.name := rfl
    exact ⟨consumed.upsert matched, trivial, jobs.imp fun _ _ => Delivers.same name matched.symm⟩

theorem commitPump
    {chosen : List StreamEvent} (done : db.pump = .delivered own limit reading committed chosen)
    (there : db.consumer = some consumer) (runs : db.transactions.Running own) : StreamHolds topicMatches
      { db.applyPump consumer limit reading committed chosen with transactions := db.transactions.commit own runs } := by
  have given := holds.given
  have advances := Transactions.Advances.commit runs
  obtain ⟨consumed, pumped, jobs⟩ := holds.consumer consumer there
  have settled := pumped.advance given (fun other pumping => (holds.pumping other pumping).2) advances
  rw [done] at settled
  obtain ⟨positive, opened, same, selected⟩ := settled
  have complete : ∀ other ∈ some own, (db.transactions.commit own runs).Completed other := by
    intro other equal
    cases equal
    exact .inl (mem_cons_self ..)
  refine ⟨advances.first.trans holds.first, holds.logged, fun upsert mem => ?_, nofun, nofun, fun found equal => ?_⟩
  · obtain ⟨taken, rest⟩ := holds.upserts upsert mem
    exact ⟨taken.advance advances, rest⟩
  · cases equal
    refine ⟨(consumed.advance given advances).pump holds.logged { opened with taken := opened.taken.finish complete }
      same positive selected, trivial, ?_⟩
    have name : (consumer.pumped reading committed limit chosen).row.name = consumer.row.name := by
      rw [Consumer.row_pumped]
      unfold pumpedRow
      split <;> rfl
    have pattern := @Consumer.pattern_pumped consumer reading limit chosen committed
    rw [Consumer.delivered_pumped]
    refine rel_append (jobs.imp fun _ _ => Delivers.same name pattern) ?_
    refine forall₂_map_left_iff.mpr (forall₂_same.mpr fun event _ => ?_)
    exact ⟨consumer.row, name.symm, pattern.symm, rfl⟩

theorem abort (runs : db.transactions.Running xid) :
    StreamHolds topicMatches { db with
      transactions := db.transactions.abort xid runs
      pump := if db.pump.own? = some xid then .idle else db.pump
      upserts := db.upserts.filter fun upsert => upsert.own ≠ some xid } := by
  have advances := Transactions.Advances.abort runs
  by_cases own : db.pump.own? = some xid
  · rw [if_pos own]
    have quiet := holds.setPump (.inr rfl) nofun fun _ _ _ => (trivial : PumpHolds topicMatches _ _ _ .idle)
    exact (quiet.advance advances nofun).setUpserts fun upsert mem => .inl (mem_of_mem_filter mem)
  · rw [if_neg own]
    have running : ∀ other, db.pump.own? = some other → (db.transactions.abort xid runs).Running other :=
      fun other pumping => (holds.pumping other pumping).1.abort runs fun same => own (same ▸ pumping)
    exact (holds.advance advances running).setUpserts fun upsert mem => .inl (mem_of_mem_filter mem)

theorem step {next : StreamDB} (step : StreamStep topicMatches db next) :
    StreamHolds topicMatches next := by
  cases step with
  | begin => exact holds.advance (.begin _) fun own pumping => (holds.pumping own pumping).1.begin
  | append event runs other next => exact holds.append runs other next
  | upsert own runs other only earliest row seen reading xid seq =>
    refine holds.setUpserts fun upsert mem => ?_
    rcases mem_cons.mp mem with rfl | old
    · have position : row.position = toLex (0, 0) := by rw [ConsumerRow.position, xid, seq]
      exact .inr ⟨seen ▸ holds.startSnapshot_taken earliest own, reading, position⟩
    · exact .inl old
  | assign row others there =>
    have begun := holds.advance (.begin _) fun own pumping => (holds.pumping own pumping).1.begin
    refine begun.setUpserts fun upsert mem => ?_
    rcases mem_cons.mp mem with rfl | old
    · obtain ⟨taken, rest⟩ := begun.upserts _ (there.mem_iff.mpr (mem_cons_self ..))
      exact .inr ⟨taken.assign, rest⟩
    · exact .inl (there.mem_iff.mpr (mem_cons_of_mem _ old))
  | lock own limit runs idle there absent =>
    refine holds.setPump (.inl there) (fun other same => ?_) fun _ _ _ => ?_
    · cases same
      exact ⟨runs, absent⟩
    · show 1 ≤ (max limit 1).toNat
      omega
  | snapshot own limit consumer locked there => exact holds.snapshot locked there
  | deliver own limit reading committed consumer read there => exact holds.deliver read there
  | commit xid runs other =>
    exact holds.advance (.commit runs) fun own pumping =>
      (holds.pumping own pumping).1.commit runs fun same => other (same ▸ pumping)
  | commitUpsert xid runs row others there idle pattern => exact holds.commitUpsert runs there idle pattern
  | commitPump own limit reading committed chosen consumer done there runs => exact holds.commitPump done there runs
  | abort xid runs => exact holds.abort runs

end

theorem reached (reached : StreamReached topicMatches db) : StreamHolds topicMatches db := by
  induction reached with
  | start start => exact .initial start
  | step _ step ih => exact ih.step step

end StreamHolds

end Hopper.Postgres
