import Hopper.Kernel.Program
import Hopper.Kernel.Rank
import Hopper.Lifecycle.Runs

/-! Queue limits: how many jobs of a queue, and of a partition key in it, run
for clients, and what a claim within the limits leaves. -/

namespace Hopper.Guarantees

open List Kernel Driver Sqlite Lifecycle

/-- A client runs the job, from a queue and with a partition key among some. -/
def clientRuns (queue : String) (among : Option String → Bool) (row : LiveJob) : Bool :=
  decide (row.queue = queue ∧ row.state = .running ∧ row.attemptedBy.isSome) && among row.partitionKey

def running (queue : String) (among : Option String → Bool) (rows : List LiveJob) : Nat :=
  rows.countP (clientRuns queue among)

theorem queueRunning_eq (store : Store) (queue : String) : store.queueRunning queue = running queue (fun _ => true) store.jobs.rows :=
  countP_congr fun row _ => by simp [clientRuns]

theorem partitionRunning_eq (store : Store) {row : LiveJob} {key : String} (keyed : row.partitionKey = some key) :
    store.partitionRunning row = running row.queue (fun other => decide (other = some key)) store.jobs.rows := by
  unfold Store.partitionRunning running
  refine countP_congr fun other _ => ?_
  simp only [clientRuns, keyed, decide_eq_true_eq, Bool.and_eq_true]
  constructor
  · rintro ⟨queue, -, key, running, owned⟩
    exact ⟨⟨queue, running, owned⟩, key⟩
  · rintro ⟨⟨queue, running, owned⟩, key⟩
    exact ⟨queue, by simp [key], key, running, owned⟩

section
variable {queue : String} {among : Option String → Bool} {rows : List LiveJob} {starts : Roster → Prop}
variable {pre post : Roster}

theorem running_map_le {change : LiveJob → LiveJob}
    (keeps : ∀ row ∈ rows, clientRuns queue among (change row) = true → clientRuns queue among row = true) :
    running queue among (rows.map change) ≤ running queue among rows := by
  rw [running, countP_map]
  exact countP_mono_left keeps

theorem running_append (row : LiveJob) (idle : clientRuns queue among row = false) :
    running queue among (rows ++ [row]) = running queue among rows := by
  simp [running, idle]

theorem change_running (none : ∀ roster, ¬starts roster)
    (change : Change (Rules.starting starts) pre post) :
    running queue among post.jobs.rows ≤ running queue among pre.jobs.rows := by
  cases change with
  | book | forget | renew => exact le_rfl
  | insert row event free birth unknown fresh =>
    rw [Table.rows_append]
    exact (running_append row (by simp [clientRuns, fresh.owner])).le
  | touch change same touched =>
    rw [Table.rows_update]
    refine running_map_le fun row mem runs => ?_
    have touch := touched row mem
    simpa [clientRuns, touch.queue, touch.running, touch.owner, touch.partitionKey] using runs
  | start x client condition same positive startable starts => exact absurd starts (none _)
  | lease x row condition same lease leases only mem startable id fence upserted starts =>
    exact absurd starts (none _)
  | resume row change same leases mem runs resumed =>
    rw [Table.modify, Table.rows_update]
    refine running_map_le fun other otherMem others => ?_
    split at others
    · next keyed =>
      rw [Table.eq_of_key otherMem mem keyed] at others
      simp [clientRuns, resumed.owner] at others
    · exact others
  | finish | conclude => exact filter_sublist.countP_le
  | retry old row free mem revived =>
    rw [Table.rows_append]
    exact (running_append row (by simp [clientRuns, revived.state])).le

theorem changes_running (none : ∀ roster, ¬starts roster)
    (changes : Changes (Rules.starting starts) pre post) :
    running queue among post.jobs.rows ≤ running queue among pre.jobs.rows := by
  induction changes with
  | refl => exact le_rfl
  | tail _ change ih => exact (change_running none change).trans ih

end

/-! What a claim takes. -/

section
variable {x : W} {engine : Engine} {store pre post : Store} {queue : String}
variable {partition : Int} {row : LiveJob} {limit : Nat} {key : String}

def takes (x : W) (client : Int) (taken : List LiveJob) (row : LiveJob) : LiveJob :=
  if row.seq ∈ taken.map fun taken => taken.seq then x.started (some client) row else row

structure Taken (store : Store) (queue : String) (taken : List LiveJob) : Prop where
  nodup : taken.Nodup
  live : ∀ row ∈ taken, row ∈ store.jobs
  queue : ∀ row ∈ taken, row.queue = queue
  waits : ∀ row ∈ taken, row.state.waiting = true

theorem rows_nodup (store : Store) : store.jobs.rows.Nodup :=
  .of_map _ store.jobs.distinct

theorem eligible_nodup : (x.eligible store queue).Nodup :=
  ((perm_insertionSort _ _).nodup_iff).mpr ((rows_nodup store).filter _)

theorem claimable_sublist : (x.claimable store queue limit partition).Sublist (x.eligible store queue) := by
  unfold W.claimable
  dsimp only
  split
  · exact (take_sublist _ _).trans filter_sublist
  · exact take_sublist _ _

theorem claimable_taken : Taken store queue (x.claimable store queue limit partition) := by
  have eligible (row : LiveJob) (mem : row ∈ x.claimable store queue limit partition) :
      row.queue = queue ∧ row.state.waiting = true := by
    have allowed := (mem_claimable mem).2
    simp only [Store.claimEligible, Bool.and_eq_true, decide_eq_true_eq] at allowed
    exact ⟨allowed.1.1.1.1, allowed.1.1.1.2⟩
  exact ⟨eligible_nodup.sublist claimable_sublist, fun row mem => (mem_claimable mem).1,
    fun row mem => (eligible row mem).1, fun row mem => (eligible row mem).2⟩

theorem running_takes (sound : Sound engine store) {taken : List LiveJob} (facts : Taken store queue taken)
    (client : Int) (other : String) (among : Option String → Bool) :
    running other among (store.jobs.rows.map (takes x client taken)) = running other among store.jobs.rows +
        (taken.filter fun row => decide (row.queue = other) && among row.partitionKey).length := by
  have picked {row : LiveJob} (mem : row ∈ store.jobs) : row.seq ∈ (taken.map fun taken => taken.seq) ↔ row ∈ taken := by
    constructor
    · intro selected
      obtain ⟨held, heldMem, same⟩ := mem_map.mp selected
      rw [← sound.identity.seq_injective held (facts.live held heldMem) row mem same]
      exact heldMem
    · exact fun selected => mem_map_of_mem selected
  have split (rows : List LiveJob) (live : ∀ row ∈ rows, row ∈ store.jobs) :
      running other among (rows.map (takes x client taken)) = running other among rows +
        rows.countP fun row => decide (row ∈ taken) && (decide (row.queue = other) && among row.partitionKey) := by
    induction rows with
    | nil => rfl
    | cons row rows ih =>
      have ih := ih fun row mem => live row (mem_cons_of_mem _ mem)
      simp only [running] at ih ⊢
      simp only [map_cons, countP_cons, ih]
      by_cases selected : row ∈ taken
      · have idle := JobState.waiting_ne_running (facts.waits row selected)
        simp only [takes, (picked (live row mem_cons_self)).mpr selected, clientRuns, W.started, selected, idle]
        simp
        omega
      · have unselected := (picked (live row mem_cons_self)).not.mpr selected
        simp only [takes, unselected, selected]
        simp
        omega
  have same : (store.jobs.rows.filter fun row =>
        decide (row ∈ taken) && (decide (row.queue = other) && among row.partitionKey)).Perm
      (taken.filter fun row => decide (row.queue = other) && among row.partitionKey) := by
    rw [perm_ext_iff_of_nodup ((rows_nodup store).filter _) (facts.nodup.filter _)]
    intro row
    simp only [mem_filter, Bool.and_eq_true, decide_eq_true_eq]
    exact ⟨fun ⟨_, selected, rest⟩ => ⟨selected, rest⟩, fun ⟨selected, rest⟩ => ⟨facts.live row selected, selected, rest⟩⟩
  rw [split _ fun _ mem => mem, countP_eq_length_filter, same.length_eq]

theorem yields_claim {clientID limit : Int} {jobs : List JobRow}
    (claimed : Yields (x.claim queue clientID limit partition) pre jobs post) :
    post.jobs.rows = pre.jobs.rows.map (takes x clientID (x.claimable pre queue (min limit W.claimMax).toNat partition)) ∧
      jobs.length = (x.claimable pre queue (min limit W.claimMax).toNat partition).length := by
  unfold W.claim at claimed
  dsimp only at claimed
  split at claimed
  · next none =>
    obtain ⟨rfl, rfl⟩ := yields_pure.mp claimed
    have empty : x.claimable post queue (min limit W.claimMax).toNat partition = [] := by
      rw [Int.toNat_of_nonpos none, W.claimable]
      simp
    rw [empty]
    exact ⟨(map_id' _).symm.trans (map_congr_left fun _ _ => rfl), rfl⟩
  · simp only [yields_describing, yields_bind, yields_get, yields_pure] at claimed
    obtain ⟨_, _, ⟨rfl, rfl⟩, _, _, started, _, _, ⟨rfl, rfl⟩, rfl, rfl⟩ := claimed
    rw [W.yields_startRows started]
    simp [W.startedStore, takes]

/-! Claim order. -/

theorem claimsBefore_iff {left right : LiveJob} : claimsBefore left right = true ↔ left.priority < right.priority ∨
      (left.priority = right.priority ∧ (left.scheduledAt < right.scheduledAt ∨
        (left.scheduledAt = right.scheduledAt ∧ left.seq ≤ right.seq))) := by
  simp [claimsBefore]

theorem claimsBefore_refl (row : LiveJob) : claimsBefore row row = true := by
  simp [claimsBefore]

theorem eligible_sorted : (x.eligible store queue).Pairwise fun left right => claimsBefore left right = true := by
  have total : Std.Total fun left right : LiveJob => claimsBefore left right = true := by
    constructor
    intro left right
    simp only [claimsBefore_iff]
    omega
  have transitive : IsTrans LiveJob fun left right => claimsBefore left right = true := by
    constructor
    intro first second third
    simp only [claimsBefore_iff]
    omega
  exact pairwise_insertionSort _ _

theorem mem_eligible : row ∈ x.eligible store queue ↔ row ∈ store.jobs ∧ store.claimEligible x.now queue row = true :=
  (mem_insertionSort _).trans mem_filter

theorem eligible_antisymmetric (sound : Sound engine store) : ∀ left ∈ x.eligible store queue, ∀ right ∈ x.eligible store queue,
      claimsBefore left right = true → claimsBefore right left = true → left = right := by
  intro left leftMem right rightMember pre post
  rw [claimsBefore_iff] at pre post
  exact sound.identity.seq_injective left (mem_eligible.mp leftMem).1 right (mem_eligible.mp rightMember).1 (by omega)

/-- The eligible jobs of a partition key, in claim order. -/
def eligibleOf (x : W) (store : Store) (queue key : String) : List LiveJob :=
  (x.eligible store queue).filter fun row => decide (row.partitionKey = some key)

theorem fitsPartition_iff {limit : Int} (named : row.queue = queue)
    (keyed : row.partitionKey = some key) : W.fitsPartition store (x.eligible store queue) limit row = true ↔
      ((rank claimsBefore (eligibleOf x store queue key) row +
        running queue (fun other => decide (other = some key)) store.jobs.rows : Nat) : Int) ≤ limit := by
  have ranked : ((x.eligible store queue).countP fun other =>
      decide (other.partitionKey = row.partitionKey) && claimsBefore other row) =
        rank claimsBefore (eligibleOf x store queue key) row := by
    rw [rank, eligibleOf, countP_filter]
    refine countP_congr fun other _ => ?_
    simp [keyed, and_comm]
  rw [W.fitsPartition, ranked, partitionRunning_eq store keyed, named]
  simp [keyed]

theorem mem_eligibleOf (mem : row ∈ eligibleOf x store queue key) :
    row.queue = queue ∧ row.partitionKey = some key := by
  obtain ⟨eligible, keyed⟩ := mem_filter.mp mem
  have allowed := (mem_eligible.mp eligible).2
  simp only [Store.claimEligible, Bool.and_eq_true, decide_eq_true_eq] at allowed
  exact ⟨allowed.1.1.1.1, of_decide_eq_true keyed⟩

theorem claimable_before {earlier : LiveJob} (sound : Sound engine store)
    (picked : row ∈ x.claimable store queue limit partition) (listed : earlier ∈ x.eligible store queue)
    (stands : claimsBefore earlier row = true)
    (keyed : earlier.partitionKey = none ∨ earlier.partitionKey = row.partitionKey) :
    earlier ∈ x.claimable store queue limit partition := by
  have antisymmetric := @eligible_antisymmetric x _ _ queue sound
  unfold W.claimable at picked ⊢
  dsimp only at picked ⊢
  split at picked
  · next positive =>
    have fits : W.fitsPartition store (x.eligible store queue) partition earlier = true := by
      obtain ⟨rowListed, fits⟩ := mem_filter.mp (mem_of_mem_take picked)
      cases named : earlier.partitionKey with
      | none => simp [W.fitsPartition, named]
      | some key =>
        have same : row.partitionKey = some key := by simpa [named, eq_comm] using keyed
        have fewer : rank claimsBefore (eligibleOf x store queue key) earlier ≤
            rank claimsBefore (eligibleOf x store queue key) row := by
          refine countP_mono_left fun other _ => ?_
          simp only [claimsBefore_iff] at stands ⊢
          omega
        rw [fitsPartition_iff (mem_eligibleOf (mem_filter.mpr ⟨rowListed, decide_eq_true same⟩)).1 same] at fits
        rw [fitsPartition_iff (mem_eligibleOf (mem_filter.mpr ⟨listed, decide_eq_true named⟩)).1 named]
        omega
    rw [if_pos positive]
    refine mem_take_of_before (eligible_sorted.filter _) ?_ picked (mem_filter.mpr ⟨listed, fits⟩) stands
    exact fun left leftMem right rightMem => antisymmetric left (mem_of_mem_filter leftMem) right (mem_of_mem_filter rightMem)
  · next unlimited =>
    rw [if_neg unlimited]
    exact mem_take_of_before eligible_sorted antisymmetric picked listed stands

end

/-! Claims within the limits. -/

def globalLimit (store : Store) (queue : String) : Option Int :=
  (store.queues.find? queue).bind fun row => row.globalLimit

def partitionLimit (store : Store) (queue : String) : Option Int :=
  (store.queues.find? queue).bind fun row => row.partitionLimit

def rateLimit (store : Store) (queue : String) : Option Rat :=
  (store.queues.find? queue).bind fun row => row.ratePerSec.filter fun rate => decide (0 < rate)

/-- The smallest of a claim's limit, what the global limit leaves, and what
one claim may return. -/
def allowance (store : Store) (params : JobClaimParams) : Int :=
  min (((globalLimit store params.queue).map fun limit =>
    min params.limit (limit - store.queueRunning params.queue)).getD params.limit) W.claimMax

/-- What a limited claim takes from a queue without a rate limit. -/
def limitedTake (x : W) (store : Store) (params : JobClaimParams) : List LiveJob :=
  x.claimable store params.queue (allowance store params).toNat ((partitionLimit store params.queue).getD 0)

section
variable {x : W} {engine : Engine} {store pre post : Store} {params : JobClaimParams} {result : JobClaimResult}

theorem yields_jobClaim (claimed : Yields (x.jobClaim params) pre result post) :
    ∃ taken, Taken pre params.queue taken ∧ post.jobs.rows = pre.jobs.rows.map (takes x params.clientID taken) := by
  rcases W.jobClaim_cases claimed with ⟨-, rfl⟩ | ⟨limit, partition, middle, queues, taken, rfl⟩
  · exact ⟨[], ⟨.nil, by simp, by simp, by simp⟩, (map_id' _).symm.trans (map_congr_left fun _ _ => rfl)⟩
  · exact ⟨_, claimable_taken, (yields_claim taken).1⟩

theorem allowance_nonpos (none : params.limit ≤ 0) : allowance store params ≤ 0 := by
  unfold allowance
  cases globalLimit store params.queue with
  | none => exact (min_le_left _ _).trans none
  | some => exact (min_le_left _ _).trans ((min_le_left _ _).trans none)

theorem limitedTake_nil (none : allowance pre params ≤ 0) : limitedTake x pre params = [] := by
  rw [limitedTake, Int.toNat_of_nonpos none, W.claimable]
  simp

theorem yields_limited (limited : params.limited = true)
    (unrated : rateLimit pre params.queue = none) (claimed : Yields (x.jobClaim params) pre result post) :
    post.jobs.rows = pre.jobs.rows.map (takes x params.clientID (limitedTake x pre params)) ∧
      result.jobs.length = (limitedTake x pre params).length := by
  have nothing (none : allowance pre params ≤ 0) :
      pre.jobs.rows = pre.jobs.rows.map (takes x params.clientID (limitedTake x pre params)) ∧
        0 = (limitedTake x pre params).length := by
    rw [limitedTake_nil none]
    exact ⟨(map_id' _).symm.trans (map_congr_left fun _ _ => rfl), rfl⟩
  unfold W.jobClaim W.claimLimited at claimed
  split at claimed
  · next none =>
    obtain ⟨rfl, rfl⟩ := yields_pure.mp claimed
    exact nothing (allowance_nonpos none)
  · have within := yields_get_bind.mp claimed
    split at within
    · next none =>
      obtain ⟨_, taken, rfl⟩ := yields_return.mp within
      have spec := yields_claim taken
      simpa only [limitedTake, allowance, globalLimit, partitionLimit, none, Option.bind_none, Option.map_none,
        Option.getD_none] using spec
    · next row held =>
      have global : globalLimit pre params.queue = row.globalLimit := by rw [globalLimit, held]; rfl
      have partition : partitionLimit pre params.queue = row.partitionLimit := by
        rw [partitionLimit, held]; rfl
      have budget : allowance pre params = min (W.globalBudget pre params row) W.claimMax := by
        rw [allowance, global, W.globalBudget]
        cases row.globalLimit <;> rfl
      have rate : row.ratePerSec.filter (fun rate => decide (0 < rate)) = none := by
        rw [rateLimit, held] at unrated
        exact unrated
      dsimp only at within
      rw [rate] at within
      dsimp only at within
      split at within
      · next none =>
        obtain ⟨rfl, rfl⟩ := yields_pure.mp within
        exact nothing (by omega)
      · obtain ⟨_, taken, rfl⟩ := yields_return.mp within
        have spec := yields_claim taken
        rw [limitedTake, budget, partition]
        exact spec

end

section
variable {x : W} {engine : Engine} {store post : Store} {queue : String} {params : JobClaimParams} {row : LiveJob}

theorem limitedTake_taken : Taken store params.queue (limitedTake x store params) :=
  claimable_taken

theorem length_limitedTake_le (x : W) (store : Store) (params : JobClaimParams) :
    ((limitedTake x store params).length : Int) ≤ max (allowance store params) 0 := by
  have bound : (limitedTake x store params).length ≤ (allowance store params).toNat := by
    unfold limitedTake W.claimable
    dsimp only
    split <;> exact length_take_le _ _
  omega

theorem limitedTake_partition {limit : Int} (limited : partitionLimit store params.queue = some limit)
    (positive : 0 < limit) (key : String)
    (within : (running params.queue (fun other => decide (other = some key)) store.jobs.rows : Int) ≤ limit) :
    (((limitedTake x store params).filter fun row => decide (row.partitionKey = some key)).length +
      running params.queue (fun other => decide (other = some key)) store.jobs.rows : Int) ≤ limit := by
  have ranked : ∀ row ∈ (limitedTake x store params).filter (fun row => decide (row.partitionKey = some key)),
      rank claimsBefore (eligibleOf x store params.queue key) row ≤
        (limit - running params.queue (fun other => decide (other = some key)) store.jobs.rows).toNat := by
    intro row mem
    obtain ⟨taken, keyed⟩ := mem_filter.mp mem
    have named := limitedTake_taken.queue row taken
    rw [limitedTake, limited, Option.getD_some, W.claimable, if_pos positive] at taken
    have fits := (mem_filter.mp (mem_of_mem_take taken)).2
    rw [fitsPartition_iff named (of_decide_eq_true keyed)] at fits
    omega
  have sublist : ((limitedTake x store params).filter fun row => decide (row.partitionKey = some key)).Sublist
      (eligibleOf x store params.queue key) := claimable_sublist.filter _
  have admitted := length_le_of_rank_le sublist (eligible_sorted.sublist filter_sublist) claimsBefore_refl ranked
  omega

theorem eligible_before {taken : List LiveJob} {client now : Int} (facts : Taken store params.queue taken) (sound : Sound engine store)
    (rows : post.jobs.rows = store.jobs.rows.map (takes x client taken))
    (mem : row ∈ post.jobs) (eligible : post.claimEligible now queue row = true) :
    row ∈ store.jobs ∧ row ∉ taken ∧ store.claimEligible now queue row = true := by
  have started {other : LiveJob} (picked : other ∈ taken) : takes x client taken other = x.started (some client) other :=
    if_pos (mem_map_of_mem picked)
  have kept {other : LiveJob} (live : other ∈ store.jobs) (unpicked : other ∉ taken) : takes x client taken other = other := by
    refine if_neg fun selected => unpicked ?_
    obtain ⟨held, heldMem, same⟩ := mem_map.mp selected
    rw [← sound.identity.seq_injective held (facts.live held heldMem) other live same]
    exact heldMem
  simp only [Store.claimEligible, Bool.and_eq_true, decide_eq_true_eq] at eligible ⊢
  obtain ⟨⟨⟨⟨named, waits⟩, due⟩, unexpired⟩, allowed⟩ := eligible
  rw [Table.mem_def, rows] at mem
  obtain ⟨old, live, same⟩ := mem_map.mp mem
  have unpicked : old ∉ taken := by
    intro picked
    rw [started picked] at same
    exact JobState.waiting_ne_running waits (same ▸ rfl)
  rw [kept live unpicked] at same
  subst same
  refine ⟨live, unpicked, ⟨⟨⟨named, waits⟩, due⟩, unexpired⟩, ?_⟩
  unfold Store.orderingAllows at allowed ⊢
  rw [Bool.or_eq_true] at allowed ⊢
  rcases allowed with unkeyed | allowed
  · exact .inl unkeyed
  · right
    rw [Bool.and_eq_true, Bool.not_eq_true', decide_eq_true_eq] at allowed ⊢
    obtain ⟨idle, oldest⟩ := allowed
    have idle (other : LiveJob) (otherLive : other ∈ store.jobs) : decide ((takes x client taken other).queue = old.queue ∧
          (takes x client taken other).orderingKey = old.orderingKey ∧
          (takes x client taken other).state = .running) = false := by
      have none := any_eq_false.mp idle (takes x client taken other) (rows ▸ mem_map_of_mem otherLive)
      simpa using none
    -- None of the key was taken, or it would run.
    have others (other : LiveJob) (otherLive : other ∈ store.jobs) (sameQueue : other.queue = old.queue)
        (sameKey : other.orderingKey = old.orderingKey) : other ∉ taken := by
      intro picked
      have none := idle other otherLive
      rw [started picked] at none
      exact absurd none (by simp [W.started, sameQueue, sameKey])
    constructor
    · refine any_eq_false.mpr fun other otherLive => ?_
      have none := idle other otherLive
      by_cases picked : other ∈ taken
      · have waiting := JobState.waiting_ne_running (facts.waits other picked)
        simp [waiting]
      · rw [kept otherLive picked] at none
        simpa using none
    · rw [oldest]
      unfold Store.oldestWaiting
      rw [rows, filter_map, map_map]
      congr 1
      have filtered : store.jobs.rows.filter ((fun row : LiveJob =>
            decide (row.queue = old.queue ∧ row.orderingKey = old.orderingKey) && row.state.waiting) ∘ takes x client taken) =
          store.jobs.rows.filter fun row =>
            decide (row.queue = old.queue ∧ row.orderingKey = old.orderingKey) && row.state.waiting := by
        refine filter_congr fun other otherLive => ?_
        by_cases picked : other ∈ taken
        · have apart : ¬(other.queue = old.queue ∧ other.orderingKey = old.orderingKey) :=
            fun both => others other otherLive both.1 both.2 picked
          simp [started picked, W.started, apart]
        · simp [kept otherLive picked]
      rw [filtered]
      refine map_congr_left fun other _ => ?_
      simp only [Function.comp, takes]
      split <;> rfl

theorem refused_full (sound : Sound engine store)
    (few : ((limitedTake x store params).length : Int) < allowance store params)
    (eligible : row ∈ x.eligible store params.queue) (refused : row ∉ limitedTake x store params) :
    ∃ limit key, partitionLimit store params.queue = some limit ∧ row.partitionKey = some key ∧
      limit ≤ ((limitedTake x store params).filter fun row => decide (row.partitionKey = some key)).length +
        running params.queue (fun other => decide (other = some key)) store.jobs.rows := by
  have whole {rows : List LiveJob} (less : ((rows.take (allowance store params).toNat).length : Int) < allowance store params) :
      rows.take (allowance store params).toNat = rows := by
    rw [length_take] at less
    exact take_of_length_le (by omega)
  have named : row.queue = params.queue := by
    have allowed := (mem_eligible.mp eligible).2
    simp only [Store.claimEligible, Bool.and_eq_true, decide_eq_true_eq] at allowed
    exact allowed.1.1.1.1
  unfold limitedTake W.claimable at few refused ⊢
  dsimp only at few refused ⊢
  split at few
  · next positive =>
    rw [if_pos positive, whole few] at refused
    rw [if_pos positive, whole few]
    obtain ⟨limit, limited⟩ : ∃ limit, partitionLimit store params.queue = some limit := by
      cases found : partitionLimit store params.queue with
      | none => simp [found] at positive
      | some limit => exact ⟨limit, rfl⟩
    rw [limited, Option.getD_some] at refused ⊢
    have unfit : W.fitsPartition store (x.eligible store params.queue) limit row = false := by
      by_contra fits
      exact refused (mem_filter.mpr ⟨eligible, Bool.eq_true_of_not_eq_false fits⟩)
    obtain ⟨key, keyed⟩ : ∃ key, row.partitionKey = some key := by
      cases found : row.partitionKey with
      | none => simp [W.fitsPartition, found] at unfit
      | some key => exact ⟨key, rfl⟩
    refine ⟨limit, key, rfl, keyed, ?_⟩
    by_cases room : (running params.queue (fun other => decide (other = some key)) store.jobs.rows : Int) ≤ limit
    · have exceeds : (limit - running params.queue (fun other => decide (other = some key)) store.jobs.rows).toNat <
          rank claimsBefore (eligibleOf x store params.queue key) row := by
        have unfit := (fitsPartition_iff named keyed).not.mp (ne_true_of_eq_false unfit)
        omega
      have ranked : ((x.eligible store params.queue).filter (W.fitsPartition store (x.eligible store params.queue) limit)).filter
              (fun row => decide (row.partitionKey = some key)) =
          (eligibleOf x store params.queue key).filter fun row =>
            decide (rank claimsBefore (eligibleOf x store params.queue key) row ≤
              (limit - running params.queue (fun other => decide (other = some key)) store.jobs.rows).toNat) := by
        rw [filter_comm]
        refine filter_congr fun other mem => ?_
        obtain ⟨otherNamed, otherKeyed⟩ := mem_eligibleOf mem
        rw [Bool.eq_iff_iff, fitsPartition_iff otherNamed otherKeyed, decide_eq_true_eq]
        omega
      have full := le_length_of_refused (eligible_nodup.filter _) (eligible_sorted.sublist filter_sublist)
        (fun left leftMem right rightMember => eligible_antisymmetric sound left (mem_of_mem_filter leftMem)
          right (mem_of_mem_filter rightMember))
        (mem_filter.mpr ⟨eligible, decide_eq_true keyed⟩) exceeds
      rw [ranked]
      have counted : (limit - running params.queue (fun other => decide (other = some key)) store.jobs.rows).toNat ≤
          ((eligibleOf x store params.queue key).filter fun row =>
            decide (rank claimsBefore (eligibleOf x store params.queue key) row ≤
              (limit - running params.queue (fun other => decide (other = some key)) store.jobs.rows).toNat)).length := full
      omega
    · omega
  · next unlimited =>
    rw [if_neg unlimited, whole few] at refused
    exact absurd eligible refused

end

/-- The limits of a queue are these, and it has no rate limit. -/
structure Limits (queue : String) (global partition : Option Int) (store : Store) : Prop where
  global : globalLimit store queue = global
  partition : partitionLimit store queue = partition
  unrated : rateLimit store queue = none

/-- Every client claims from the queue within limits, and finds these. -/
def ClaimsWithin (queue : String) (global partition : Option Int) (store : Store) (operation : Operation) : Prop :=
  operation.PositiveClient ∧ ∀ params, operation = .jobClaim params → params.queue = queue →
    params.limited = true ∧ Limits queue global partition store

structure WithinLimits (queue : String) (global partition : Option Int) (store : Store) : Prop where
  global : ∀ limit, global = some limit → 0 < limit → (store.queueRunning queue : Int) ≤ limit
  partition : ∀ limit, partition = some limit → 0 < limit → ∀ key,
    (running queue (fun other => decide (other = some key)) store.jobs.rows : Int) ≤ limit

namespace WithinLimits

variable {engine : Engine} {store post : Store} {queue : String} {global partition : Option Int}

theorem empty : WithinLimits queue global partition {} where
  global := fun _ _ positive => positive.le
  partition := fun _ _ positive _ => positive.le

theorem of_le (within : WithinLimits queue global partition store)
    (le : ∀ among, running queue among post.jobs.rows ≤ running queue among store.jobs.rows) :
    WithinLimits queue global partition post where
  global := by
    intro limit limited positive
    have bound := within.global limit limited positive
    rw [queueRunning_eq] at bound ⊢
    have less := le fun _ => true
    omega
  partition := by
    intro limit limited positive key
    have bound := within.partition limit limited positive key
    have less := le fun other => decide (other = some key)
    omega

theorem claim (within : WithinLimits queue global partition store) (sound : Sound engine store) {x : W}
    {params : JobClaimParams} {result : JobClaimResult} (allowed : ClaimsWithin queue global partition store (.jobClaim params))
    (claimed : Yields (x.jobClaim params) store result post) : WithinLimits queue global partition post := by
  by_cases named : params.queue = queue
  · obtain ⟨limited, limits⟩ := allowed.2 params rfl named
    subst named
    obtain ⟨rows, _⟩ := yields_limited limited limits.unrated claimed
    constructor
    · intro limit isLimit positive
      have bound := within.global limit isLimit positive
      have few := length_limitedTake_le x store params
      rw [allowance, limits.global, isLimit, Option.map_some, Option.getD_some] at few
      have kept := length_filter_le (fun row : LiveJob => decide (row.queue = params.queue) && true) (limitedTake x store params)
      rw [queueRunning_eq] at bound few ⊢
      rw [rows, running_takes sound limitedTake_taken]
      omega
    · intro limit isLimit positive key
      have bound := limitedTake_partition (x := x) (limits.partition.trans isLimit) positive key
        (within.partition limit isLimit positive key)
      have kept : ((limitedTake x store params).filter fun row =>
          decide (row.queue = params.queue) && decide (row.partitionKey = some key)).length ≤
            ((limitedTake x store params).filter fun row => decide (row.partitionKey = some key)).length :=
        (monotone_filter_right _ fun row both => (Bool.and_eq_true_iff.mp both).2).length_le
      rw [rows, running_takes sound limitedTake_taken]
      omega
  · obtain ⟨taken, facts, rows⟩ := yields_jobClaim claimed
    refine within.of_le fun among => ?_
    have none : taken.filter (fun row => decide (row.queue = queue) && among row.partitionKey) = [] := by
      refine filter_eq_nil_iff.mpr fun row mem both => ?_
      exact named ((facts.queue row mem).symm.trans (of_decide_eq_true (Bool.and_eq_true_iff.mp both).1))
    rw [rows, running_takes sound facts, none]
    simp

end WithinLimits

section
variable {engine : Engine} {store : Store} {queue : String} {global partition : Option Int}

theorem WithinLimits.step (within : WithinLimits queue global partition store) (sound : Sound engine store)
    {now : Int} {operation : Operation} (allowed : ClaimsWithin queue global partition store operation) :
    WithinLimits queue global partition (operation.apply engine now store) := by
  by_cases claiming : Claiming operation
  · rcases committed_cases (operation.run ⟨engine, now⟩) store with ⟨_, yielded⟩ | same
    · cases operation with
      | jobClaim =>
        obtain ⟨result, claimed, _⟩ := yields_map.mp yielded
        exact within.claim sound allowed claimed
      | jobClaimByID =>
        obtain ⟨reply, claimed, _⟩ := yields_map.mp yielded
        refine within.of_le fun among => ?_
        obtain ⟨row, _, _, lease, _, _, last⟩ := W.yields_jobClaimByID claimed
        rw [Operation.apply, last]
        refine running_map_le fun other _ runs => ?_
        -- A lease starts a job for no client.
        split at runs
        · simp [clientRuns, W.started] at runs
        · exact runs
      | _ => exact absurd claiming id
    · rw [Operation.apply, same]
      exact within
  · have obeys : Obeys (Rules.starting fun _ => False) ⟨engine, now⟩ store operation :=
      obeys_starting allowed.1 fun claims => absurd claims claiming
    have changes := ((apply_performs obeys sound).moves sound).1
    exact within.of_le fun _ => changes_running (fun _ => id) changes

section
variable (reachable : Reachable engine (ClaimsWithin queue global partition) store)
include reachable

theorem ClaimsWithin.reached : Reached Rules.none engine store :=
  reachable_reached (fun _ _ _ _ allowed => obeys_starting allowed.1 fun _ => trivial) reachable

theorem limits_hold :
    WithinLimits queue global partition store := by
  refine (@Reachable.invariant engine (ClaimsWithin queue global partition)
    (fun store => Sound engine store ∧ WithinLimits queue global partition store) ⟨.empty, .empty⟩ ?_ store reachable).2
  intro store now operation holds allowed
  have obeys : Obeys Rules.none ⟨engine, now⟩ store operation := obeys_starting allowed.1 fun _ => trivial
  exact ⟨((apply_performs obeys holds.1).moves holds.1).2, holds.2.step holds.1 allowed⟩

end

/-- In every run whose clients claim from a queue within the same limits, the
jobs that clients run are within them, and a claim that takes less than it may
leaves no job that the partition limit would have let it take. -/
theorem queue_limits_exact (reachable : Reachable engine (ClaimsWithin queue global partition) store) :
    WithinLimits queue global partition store ∧
      ∀ now params result after, ClaimsWithin queue global partition store (.jobClaim params) →
        params.queue = queue → Yields (W.jobClaim ⟨engine, now⟩ params) store result after →
        (result.jobs.length : Int) < allowance store params →
        ∀ row ∈ after.jobs, after.claimEligible now queue row = true → ¬(row.partitionKey = none ∨
            ∀ limit, partition = some limit → (after.partitionRunning row : Int) < limit) := by
  refine ⟨limits_hold reachable, fun now params result after allowed named claimed few row member eligible room => ?_⟩
  have sound := (ClaimsWithin.reached reachable).sound
  obtain ⟨limited, limits⟩ := allowed.2 params rfl named
  subst named
  obtain ⟨rows, taken⟩ := yields_limited limited limits.unrated claimed
  rw [taken] at few
  obtain ⟨live, refused, was⟩ := eligible_before limitedTake_taken sound rows member eligible
  have listed : row ∈ W.eligible ⟨engine, now⟩ store params.queue := mem_eligible.mpr ⟨live, was⟩
  obtain ⟨limit, key, isLimit, keyed, full⟩ := refused_full sound few listed refused
  rcases room with unkeyed | room
  · exact absurd (keyed.symm.trans unkeyed) (by simp)
  · have less := room limit (limits.partition.symm.trans isLimit)
    have named : row.queue = params.queue := by
      simp only [Store.claimEligible, Bool.and_eq_true, decide_eq_true_eq] at was
      exact was.1.1.1.1
    have all : (limitedTake ⟨engine, now⟩ store params).filter (fun row =>
        decide (row.queue = params.queue) && decide (row.partitionKey = some key)) =
          (limitedTake ⟨engine, now⟩ store params).filter fun row => decide (row.partitionKey = some key) :=
      filter_congr fun other picked => by simp [limitedTake_taken.queue other picked]
    rw [partitionRunning_eq after keyed, named, rows, running_takes sound limitedTake_taken, all] at less
    omega

end

/-- A queue with a partition limit and jobs of two keys, claimed from once. -/
def partitioned : List (Int × Operation) :=
  [(30, .jobClaim { queue := "mail", clientID := 1, limit := 1, limited := true }),
   (20, .jobInsertMany
      [{ kind := "send", queue := "mail", priority := 1, maxAttempts := 3, partitionKey := "north" },
       { kind := "send", queue := "mail", priority := 1, maxAttempts := 3, partitionKey := "north" },
       { kind := "send", queue := "mail", priority := 1, maxAttempts := 3, partitionKey := "south" }] {}),
   (10, .queueSetLimits { name := "mail", globalLimit := 9, partitionLimit := 1 })]

/-- The second job of the one key is all that a second claim leaves. -/
theorem queue_limits_exact_partitioned : WithinLimits "mail" (some 9) (some 1) (Operation.after .counting partitioned) ∧
      ∃ result after, Yields (W.jobClaim ⟨.counting, 40⟩ { queue := "mail", clientID := 2, limit := 5, limited := true })
          (Operation.after .counting partitioned) result after ∧
        (result.jobs.map fun row => row.partitionKey) = [some "south"] ∧
        ∀ row ∈ after.jobs, after.claimEligible 40 "mail" row = true → ¬(row.partitionKey = none ∨
            ∀ limit, some 1 = some limit → (after.partitionRunning row : Int) < limit) := by
  have reachable : Reachable .counting (ClaimsWithin "mail" (some 9) (some 1)) (Operation.after .counting partitioned) := by
    refine Operation.AllAllowed.reachable ⟨⟨(by decide : (0 : Int) < 1), fun params same _ => ?_⟩,
      ⟨trivial, nofun⟩, ⟨trivial, nofun⟩, trivial⟩
    cases same
    exact ⟨rfl, by decide +kernel, by decide +kernel, by decide +kernel⟩
  have claims : ClaimsWithin "mail" (some 9) (some 1) (Operation.after .counting partitioned)
      (.jobClaim { queue := "mail", clientID := 2, limit := 5, limited := true }) := by
    refine ⟨(by decide : (0 : Int) < 2), fun params same _ => ?_⟩
    cases same
    exact ⟨rfl, by decide +kernel, by decide +kernel, by decide +kernel⟩
  have took : ((W.jobClaim ⟨.counting, 40⟩ { queue := "mail", clientID := 2, limit := 5, limited := true }
      (Operation.after .counting partitioned)).toOption.map fun pair =>
        pair.1.jobs.map fun row => row.partitionKey) = some [some "south"] := by
    decide +kernel
  have few : (1 : Int) < allowance (Operation.after .counting partitioned)
      { queue := "mail", clientID := 2, limit := 5, limited := true } := by
    decide +kernel
  have exact := queue_limits_exact reachable
  refine ⟨exact.1, ?_⟩
  cases outcome : W.jobClaim ⟨.counting, 40⟩ { queue := "mail", clientID := 2, limit := 5, limited := true }
      (Operation.after .counting partitioned) with
  | error failure => simp [outcome, Except.toOption] at took
  | ok pair =>
    simp only [outcome, Except.toOption, Option.map_some, Option.some.injEq] at took
    have length := congrArg List.length took
    rw [length_map] at length
    exact ⟨pair.1, pair.2, outcome, took, exact.2 40 _ pair.1 pair.2 claims rfl outcome (by rw [length]; exact few)⟩

/-- In every run, a claim takes eligible jobs in claim order: with a job it takes
every eligible one before it that has no partition key or the same. -/
theorem claims_in_order {engine : Engine} {store after : Store} {now : Int} {params : JobClaimParams} {result : JobClaimResult}
    (reachable : Reachable engine (fun _ operation => operation.PositiveClient) store)
    (claimed : Yields (W.jobClaim ⟨engine, now⟩ params) store result after) :
    ∃ taken, after.jobs.rows = store.jobs.rows.map (takes ⟨engine, now⟩ params.clientID taken) ∧
      result.jobs.length = taken.length ∧ taken.Sublist (W.eligible ⟨engine, now⟩ store params.queue) ∧
      ∀ row ∈ taken, ∀ earlier ∈ W.eligible ⟨engine, now⟩ store params.queue, claimsBefore earlier row = true →
        earlier.partitionKey = none ∨ earlier.partitionKey = row.partitionKey → earlier ∈ taken := by
  rcases W.jobClaim_cases claimed with ⟨none, rfl⟩ | ⟨limit, partition, middle, queues, taken, rfl⟩
  · exact ⟨[], (map_id' _).symm.trans (map_congr_left fun _ _ => rfl), congrArg length none, nil_sublist _, by simp⟩
  · have sound := (positive_reached reachable).sound
    exact ⟨_, (yields_claim taken).1, (yields_claim taken).2, claimable_sublist, fun _ picked _ => claimable_before sound picked⟩

theorem claims_in_order_partitioned : ∃ taken : List LiveJob, taken.length = 1 ∧
    taken.Sublist (W.eligible ⟨.counting, 40⟩ (Operation.after .counting partitioned) "mail") := by
  obtain ⟨pair, claimed, one⟩ : ∃ pair, W.jobClaim ⟨.counting, 40⟩ { queue := "mail", clientID := 2, limit := 5, limited := true }
      (Operation.after .counting partitioned) = .ok pair ∧ pair.1.jobs.length = 1 := by
    decide +kernel
  have reachable : Reachable .counting (fun _ operation => operation.PositiveClient) (Operation.after .counting partitioned) :=
    Operation.AllAllowed.reachable ⟨Int.zero_lt_one, trivial, trivial, trivial⟩
  obtain ⟨taken, _, length, sublist, _⟩ := claims_in_order reachable claimed
  exact ⟨taken, length.symm.trans one, sublist⟩

end Hopper.Guarantees
