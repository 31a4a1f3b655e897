import Mathlib.Order.MinMax

/-! A listener beside the commits that notify: `Next` polls the notifications table, woken through a one-slot channel. -/

namespace Hopper.Sqlite

open List Option

structure NotificationRow where
  seq : Nat
  channel : String
  payload : String
deriving DecidableEq

def listenPage : Nat := 1000

/-- Where `Next` is: not called, at the top of its loop, between the version it read and its query, or waiting. -/
inductive NextPhase where
  | idle
  | loop (poked : Bool)
  | query (poked : Bool)
  | wait
deriving DecidableEq

/-- The table in the order of `seq`; the data version as the listener's connection sees it;
the slot of the channel, and the local commits whose poke is still to come; and the listener. -/
structure Listener where
  rows : List NotificationRow
  dataVersion : Nat
  poke : Bool
  owed : Nat
  last : Nat
  version : Option Nat
  pending : List NotificationRow
  phase : NextPhase
  returned : List NotificationRow

/-- `failed` is how many rows a query gave before it failed, if it did. -/
inductive ListenerAction where
  | commit (rows : List NotificationRow) (bumps : Bool)
  | otherCommit (rows : List NotificationRow)
  | poke
  | next
  | take
  | version (failed : Bool)
  | query (failed : Option Nat)
  | poked
  | timer
  | cancel

namespace Listener

/-- `coalesce(max(seq), 0)`. -/
def maxSeq (rows : List NotificationRow) : Nat :=
  rows.foldr (fun row highest => max row.seq highest) 0

def newListener (rows : List NotificationRow) (dataVersion : Nat) (poke : Bool) (owed : Nat) : Listener where
  rows
  dataVersion
  poke
  owed
  last := maxSeq rows
  version := none
  pending := []
  phase := .idle
  returned := []

variable (listened : String → Bool) (s : Listener)

/-- Rows are appended under numbers that grow. -/
def append (rows : List NotificationRow) : Option Listener :=
  if rows.Pairwise (·.seq < ·.seq) ∧ ∀ row ∈ rows, maxSeq s.rows < row.seq then some { s with rows := s.rows ++ rows } else none

def unread : List NotificationRow := s.rows.filter (s.last < ·.seq)

def scan (row : NotificationRow) : Listener :=
  { s with last := row.seq, pending := if listened row.channel then s.pending ++ [row] else s.pending }

/-- The query's rows, and the look again after a full page. -/
def read (poked : Bool) : Listener :=
  let page := s.unread.take listenPage
  let s := page.foldl (scan listened) s
  { s with
    poke := s.poke || page.length = listenPage
    phase := if s.pending = [] then .wait else .loop poked }

def step : ListenerAction → Option Listener
  | .commit rows bumps =>
    (s.append rows).map fun s => { s with owed := s.owed + 1, dataVersion := s.dataVersion + bumps.toNat }
  | .otherCommit rows => (s.append rows).map fun s => { s with dataVersion := s.dataVersion + 1 }
  | .poke => if s.owed = 0 then none else some { s with owed := s.owed - 1, poke := true }
  | .next => if s.phase = .idle then some { s with phase := .loop true } else none
  | .take =>
    match s.phase, s.pending with
    | .loop _, row :: rest => some { s with phase := .idle, pending := rest, returned := s.returned ++ [row] }
    | _, _ => none
  | .version failed =>
    match s.phase, s.pending with
    | .loop poked, [] =>
      some (if failed then { s with phase := .idle }
        else if !poked && some s.dataVersion = s.version then { s with phase := .wait }
        else { s with version := some s.dataVersion, phase := .query poked })
    | _, _ => none
  | .query failed =>
    match s.phase with
    | .query poked =>
      some (match failed with
        | none => s.read listened poked
        | some count => { (s.unread.take (min count listenPage)).foldl (scan listened) s with phase := .idle })
    | _ => none
  | .poked => if s.phase = .wait ∧ s.poke then some { s with poke := false, phase := .loop true } else none
  | .timer => if s.phase = .wait then some { s with phase := .loop false } else none
  | .cancel => if s.phase = .wait then some { s with phase := .idle } else none

/-- The states of a listener and of the commits beside it, with the sequence number it was created at. -/
inductive Reached : Nat → Listener → Prop where
  | start {rows : List NotificationRow} (dataVersion : Nat) (poke : Bool) (owed : Nat) :
    rows.Pairwise (·.seq < ·.seq) → Reached (maxSeq rows) (newListener rows dataVersion poke owed)
  | step {created : Nat} {s later : Listener} (action : ListenerAction) :
    Reached created s → s.step listened action = some later → Reached created later

/-- The rows split into those before the listener, those it read, given or still to give, and the unread ones. -/
structure Delivers (created : Nat) : Prop where
  split : ∃ before read, s.rows = before ++ read ++ s.unread ∧ (∀ row ∈ before, row.seq ≤ created) ∧
    (∀ row ∈ read, created < row.seq ∧ row.seq ≤ s.last) ∧ s.returned ++ s.pending = read.filter (listened ·.channel)
  sorted : s.rows.Pairwise (·.seq < ·.seq)
  created_le : created ≤ s.last
  last_le : s.last ≤ maxSeq s.rows

/-- A `Next` that would not read again has a reason to wake for every row it has not read. -/
structure Holds (created : Nat) : Prop where
  delivers : s.Delivers listened created
  version : ∀ version, s.version = some version → version ≤ s.dataVersion
  waits : s.phase = .wait → s.pending = []
  awake : s.phase = .wait ∨ s.phase = .loop false → s.poke = false → s.owed = 0 → s.version = some s.dataVersion →
    s.unread = []

variable {listened} {s} {later : Listener} {created : Nat} {rows : List NotificationRow} {row : NotificationRow}

theorem le_maxSeq (mem : row ∈ rows) : row.seq ≤ maxSeq rows := by
  induction rows with
  | nil => cases mem
  | cons first rows ih =>
    rcases mem_cons.mp mem with rfl | mem
    · exact le_max_left _ _
    · exact (ih mem).trans (le_max_right _ _)

theorem maxSeq_le_append (rows new : List NotificationRow) : maxSeq rows ≤ maxSeq (rows ++ new) := by
  induction rows with
  | nil => exact Nat.zero_le _
  | cons row rows ih => exact max_le_max le_rfl ih

theorem append_eq_some (appended : s.append rows = some later)
    (delivers : s.Delivers listened created) : later.Delivers listened created ∧ later = { s with rows := s.rows ++ rows } := by
  unfold append at appended
  split at appended <;> cases appended
  next grow =>
  have unread : filter (s.last < ·.seq) (s.rows ++ rows) = s.unread ++ rows := by
    have all : rows.filter (s.last < ·.seq) = rows :=
      filter_eq_self.mpr fun row mem => decide_eq_true (delivers.last_le.trans_lt (grow.2 row mem))
    rw [filter_append, all, Listener.unread]
  obtain ⟨pre, read, whole, old, new, given⟩ := delivers.split
  refine ⟨⟨⟨pre, read, ?_, old, new, given⟩, ?_, delivers.created_le, delivers.last_le.trans (maxSeq_le_append _ _)⟩, rfl⟩
  · change s.rows ++ rows = pre ++ read ++ filter (s.last < ·.seq) (s.rows ++ rows)
    rw [unread, ← append_assoc, ← whole]
  · exact pairwise_append.mpr ⟨delivers.sorted, grow.1, fun row mem new added => (le_maxSeq mem).trans_lt (grow.2 new added)⟩

section
variable (delivers : s.Delivers listened created)
include delivers

theorem Delivers.scan {rest : List NotificationRow}
    (next : s.unread = row :: rest) : (s.scan listened row).Delivers listened created ∧ (s.scan listened row).unread = rest := by
  obtain ⟨pre, read, whole, old, new, given⟩ := delivers.split
  obtain ⟨mem, post⟩ := mem_filter.mp (next ▸ mem_cons_self : row ∈ s.unread)
  have post := of_decide_eq_true post
  have unread : filter (row.seq < ·.seq) s.rows = rest := by
    have sorted := delivers.sorted
    rw [whole, next] at sorted ⊢
    obtain ⟨-, tail, below⟩ := pairwise_append.mp sorted
    obtain ⟨above, -⟩ := pairwise_cons.mp tail
    rw [filter_append, filter_eq_nil_iff.mpr, filter_cons_of_neg, filter_eq_self.mpr, nil_append]
    · exact fun other among => decide_eq_true (above other among)
    · simp
    · intro other among
      simpa using (below other among row mem_cons_self).le
  refine ⟨⟨⟨pre, read ++ [row], ?_, old, ?_, ?_⟩, delivers.sorted, delivers.created_le.trans post.le, le_maxSeq mem⟩, unread⟩
  · change s.rows = pre ++ (read ++ [row]) ++ filter (row.seq < ·.seq) s.rows
    rw [unread, whole, next]
    simp
  · intro other among
    rcases mem_append.mp among with among | among
    · exact ⟨(new other among).1, (new other among).2.trans post.le⟩
    · obtain rfl := mem_singleton.mp among
      exact ⟨delivers.created_le.trans_lt post, le_rfl⟩
  · rw [filter_append, ← given, append_assoc]
    unfold Listener.scan
    split <;> simp [*]

theorem Delivers.scans {page rest : List NotificationRow} (next : s.unread = page ++ rest) :
    (page.foldl (Listener.scan listened) s).Delivers listened created ∧ (page.foldl (Listener.scan listened) s).unread = rest ∧
      ∃ last pending, page.foldl (Listener.scan listened) s = { s with last, pending } := by
  induction page generalizing s with
  | nil => exact ⟨delivers, next, s.last, s.pending, rfl⟩
  | cons row page ih =>
    obtain ⟨scanned, left⟩ := delivers.scan next
    obtain ⟨read, unread, last, pending, same⟩ := ih scanned left
    exact ⟨read, unread, last, pending, same⟩

theorem Delivers.frame (dataVersion : Nat) (poke : Bool) (owed : Nat)
    (version : Option Nat) (phase : NextPhase) :
    Delivers listened { s with dataVersion, poke, owed, version, phase } created :=
  ⟨delivers.split, delivers.sorted, delivers.created_le, delivers.last_le⟩

end

theorem Holds.read (holds : s.Holds listened created) (poked : Bool) : (s.read listened poked).Holds listened created := by
  obtain ⟨delivers, unread, last, pending, same⟩ := holds.delivers.scans (take_append_drop listenPage s.unread).symm
  unfold Listener.read
  dsimp only
  rw [same] at delivers unread ⊢
  refine ⟨delivers.frame _ _ _ _ _, holds.version, fun waiting => ?_, fun _ quiet _ _ => ?_⟩
  · by_contra left
    rw [if_neg left] at waiting
    cases waiting
  · -- A page that is not full is all there was.
    have short : (s.unread.take listenPage).length ≠ listenPage := by simpa using (Bool.or_eq_false_iff.mp quiet).2
    rw [length_take] at short
    change Listener.unread { s with last, pending } = []
    rw [unread, drop_eq_nil_iff]
    omega

theorem Holds.step (holds : s.Holds listened created) {action : ListenerAction} (stepped : s.step listened action = some later) :
    later.Holds listened created := by
  cases action with
  | commit rows bumps =>
    obtain ⟨grown, appended, rfl⟩ := map_eq_some_iff.mp stepped
    obtain ⟨delivers, rfl⟩ := append_eq_some appended holds.delivers
    exact ⟨delivers.frame _ _ _ _ _, fun version found => (holds.version version found).trans (Nat.le_add_right _ _), holds.waits,
      fun _ _ owed => nomatch owed⟩
  | otherCommit rows =>
    obtain ⟨grown, appended, rfl⟩ := map_eq_some_iff.mp stepped
    obtain ⟨delivers, rfl⟩ := append_eq_some appended holds.delivers
    refine ⟨delivers.frame _ _ _ _ _, fun version found => (holds.version version found).trans (Nat.le_succ _), holds.waits, ?_⟩
    exact fun _ _ _ same => absurd (holds.version _ same) (Nat.not_succ_le_self _)
  | poke =>
    rw [Listener.step] at stepped
    split at stepped <;> cases stepped
    exact ⟨holds.delivers.frame _ _ _ _ _, holds.version, holds.waits, nofun⟩
  | next =>
    rw [Listener.step] at stepped
    split at stepped <;> cases stepped
    exact ⟨holds.delivers.frame _ _ _ _ _, holds.version, nofun, by simp⟩
  | take =>
    rw [Listener.step] at stepped
    split at stepped <;> cases stepped
    next row rest _ pending =>
    obtain ⟨pre, read, whole, old, new, given⟩ := holds.delivers.split
    rw [pending] at given
    exact ⟨⟨⟨pre, read, whole, old, new, by simpa using given⟩, holds.delivers.sorted, holds.delivers.created_le,
      holds.delivers.last_le⟩, holds.version, nofun, by simp⟩
  | version failed =>
    rw [Listener.step] at stepped
    split at stepped <;> cases stepped
    next poked phase pending =>
    split
    · exact ⟨holds.delivers.frame _ _ _ _ _, holds.version, nofun, by simp⟩
    · split
      · next same =>
        obtain ⟨rfl, -⟩ : poked = false ∧ _ := by simpa using same
        exact ⟨holds.delivers.frame _ _ _ _ _, holds.version, fun _ => pending, fun _ => holds.awake (.inr phase)⟩
      · exact ⟨holds.delivers.frame _ _ _ _ _, fun _ found => (some.inj found).ge, nofun, by simp⟩
  | query failed =>
    rw [Listener.step] at stepped
    split at stepped <;> cases stepped
    cases failed with
    | none => exact holds.read _
    | some count =>
      obtain ⟨delivers, -, last, pending, same⟩ := holds.delivers.scans (take_append_drop (min count listenPage) s.unread).symm
      dsimp only
      rw [same] at delivers ⊢
      exact ⟨delivers.frame _ _ _ _ _, holds.version, nofun, by simp⟩
  | poked =>
    rw [Listener.step] at stepped
    split at stepped <;> cases stepped
    exact ⟨holds.delivers.frame _ _ _ _ _, holds.version, nofun, by simp⟩
  | timer =>
    rw [Listener.step] at stepped
    split at stepped <;> cases stepped
    next waiting => exact ⟨holds.delivers.frame _ _ _ _ _, holds.version, nofun, fun _ => holds.awake (.inl waiting)⟩
  | cancel =>
    rw [Listener.step] at stepped
    split at stepped <;> cases stepped
    exact ⟨holds.delivers.frame _ _ _ _ _, holds.version, nofun, by simp⟩

theorem Reached.holds (reached : Reached listened created s) : s.Holds listened created := by
  induction reached with
  | @start rows dataVersion poke owed sorted =>
    have none : rows.filter (maxSeq rows < ·.seq) = [] :=
      filter_eq_nil_iff.mpr fun row mem above => absurd (of_decide_eq_true above) (le_maxSeq mem).not_gt
    refine ⟨⟨⟨rows, [], ?_, fun row => le_maxSeq, forall_mem_nil _, rfl⟩, sorted, le_rfl, le_rfl⟩, nofun, nofun, by simp [newListener]⟩
    change rows = rows ++ [] ++ rows.filter (maxSeq rows < ·.seq)
    rw [none, append_nil, append_nil]
  | step action _ stepped ih => exact ih.step stepped

/-- What `Next` gave, and holds ready, are the rows of its channels since the listener began, up to the last one read, in
order; and it sleeps on none of them. -/
theorem listener_delivers (reached : Reached listened created s) :
    s.rows.Pairwise (·.seq < ·.seq) ∧
      s.returned ++ s.pending = s.rows.filter (fun row => created < row.seq ∧ row.seq ≤ s.last ∧ listened row.channel) ∧
      (s.phase = .wait → s.poke = false → s.owed = 0 → s.version = some s.dataVersion →
        s.returned = s.rows.filter fun row => created < row.seq ∧ listened row.channel) := by
  have holds := reached.holds
  obtain ⟨pre, read, whole, old, new, given⟩ := holds.delivers.split
  have delivered : s.returned ++ s.pending =
      s.rows.filter fun row => created < row.seq ∧ row.seq ≤ s.last ∧ listened row.channel := by
    have early : pre.filter (fun row => created < row.seq ∧ row.seq ≤ s.last ∧ listened row.channel) = [] :=
      filter_eq_nil_iff.mpr fun row mem => by simp [(old row mem).not_gt]
    have late : s.unread.filter (fun row => created < row.seq ∧ row.seq ≤ s.last ∧ listened row.channel) = [] :=
      filter_eq_nil_iff.mpr fun row mem => by simp [(of_decide_eq_true (mem_filter.mp mem).2).not_ge]
    rw [whole, filter_append, filter_append, early, late, nil_append, append_nil, given]
    exact filter_congr fun row mem => by simp [new row mem]
  refine ⟨holds.delivers.sorted, delivered, fun waiting quiet paid same => ?_⟩
  rw [holds.waits waiting, append_nil] at delivered
  rw [delivered]
  have read := filter_eq_nil_iff.mp (holds.awake (.inl waiting) quiet paid same)
  exact filter_congr fun row mem => by simp [not_lt.mp (mt decide_eq_true (read row mem))]

/-- A local commit to two channels, its poke after the listener has read it, and
another process's commit. -/
theorem listener_delivers_poked : ∃ s : Listener, Reached (· == "jobs") 1 s ∧ s.phase = .wait ∧ s.last = 4 ∧
    s.returned = [⟨2, "jobs", "a"⟩, ⟨4, "jobs", "c"⟩] ∧
      s.returned = s.rows.filter fun row => 1 < row.seq ∧ (row.channel == "jobs") = true := by
  have started := @Reached.start (· == "jobs") [⟨1, "jobs", "old"⟩] 7 false 0 (pairwise_singleton _ _)
  have commits := started.step (.commit [⟨2, "jobs", "a"⟩, ⟨3, "logs", "b"⟩] false) rfl
  have gave := (((commits.step .next rfl).step (.version false) rfl).step (.query none) rfl).step .take rfl
  have poked := ((gave.step .poke rfl).step (.otherCommit [⟨4, "jobs", "c"⟩]) rfl).step .next rfl
  have gaveBoth := ((poked.step (.version false) rfl).step (.query none) rfl).step .take rfl
  have waits := ((gaveBoth.step .next rfl).step (.version false) rfl).step (.query none) rfl
  have woken := ((waits.step .poked rfl).step (.version false) rfl).step (.query none) rfl
  exact ⟨_, woken, rfl, rfl, rfl, (listener_delivers woken).2.2 rfl rfl rfl rfl⟩

end Listener

end Hopper.Sqlite
