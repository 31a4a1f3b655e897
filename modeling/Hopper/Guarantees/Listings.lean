import Hopper.Client.Jobs
import Hopper.Lifecycle.Runs

/-! Listing jobs while the queue runs: each job that is there at every page, and
matches, is yielded once. -/

namespace Hopper.Guarantees

open List Kernel Driver Sqlite Lifecycle Client

def jobEntries (store : Store) : List JobEntry :=
  store.jobs.rows.map .inl ++ store.history.map .inr

/-- A store has each job once, live or finished. -/
structure Listable (store : Store) : Prop where
  distinct : ((jobEntries store).map fun entry => entry.job.id).Nodup
  live : ∀ row ∈ store.jobs.rows, row.state.terminal = false
  finished : ∀ row ∈ store.history, row.state.terminal = true
  named : ∀ entry ∈ jobEntries store, entry.job.id ≠ 0

theorem history_terminal {rules : Rules} {first last : Roster} (changes : Changes rules first last)
    (start : ∀ row ∈ first.history, row.state.terminal = true) : ∀ row ∈ last.history, row.state.terminal = true := by
  have archived {past : List HistoryJob} (x : W) (finished : Finished) (terminal : finished.state.terminal = true)
      (pre : ∀ row ∈ past, row.state.terminal = true) :
      ∀ row ∈ (if finished.archive then past ++ [finished.archivedAt x.now] else past), row.state.terminal = true := by
    split
    · exact List.forall_mem_append.mpr ⟨pre, forall_mem_singleton.mpr terminal⟩
    · exact pre
  induction changes with
  | refl => exact start
  | tail _ change ih =>
    cases change with
    | finish x finished _ _ terminal | conclude x finished _ _ _ terminal => exact archived x finished terminal ih
    | retry => exact fun row mem => ih row (mem_of_mem_erase mem)
    | forget _ sublist => exact fun row mem => ih row (sublist.subset mem)
    | _ => exact ih

theorem listable {engine : Engine} {store : Store}
    (reachable : Reachable engine (fun _ operation => operation.PositiveClient) store) : Listable store := by
  have reached := positive_reached reachable
  have sound := reached.sound
  have minted : ∀ id, (roster store).Known id → id ≠ 0 := by
    intro id known
    obtain ⟨draw, _, rfl⟩ := sound.minted id known
    exact engine.newID_ne_zero draw
  have ids : (jobEntries store).map (fun entry => entry.job.id) =
      store.jobs.rows.map (fun row => row.id) ++ store.history.map fun row => row.id := by
    rw [jobEntries, map_append, map_map, map_map]
    rfl
  exact {
    distinct := ids ▸ nodup_append.mpr ⟨store.jobs.distinct, sound.identity.history_distinct, by
      rintro id live _ past rfl
      obtain ⟨row, mem, rfl⟩ := mem_map.mp live
      obtain ⟨old, there, same⟩ := mem_map.mp past
      exact sound.identity.apart old there row mem same⟩
    live := sound.owned.live
    finished := history_terminal reached.changes (forall_mem_nil _)
    named := List.forall_mem_append.mpr ⟨forall_mem_map.mpr fun row mem => minted _ (sound.identity.jobs_known row mem),
        forall_mem_map.mpr fun row mem => minted _ (sound.identity.history_known row mem)⟩ }

section
variable {f : JobFilter} {contains : Driver.Document → String → Bool} {post : JobID} {limit : Nat} {store : Store}
variable {entry : JobEntry} {pre later : JobEntry} {s : JobsIteration}

theorem key_lt {left right : JobEntry} :
    f.key left < f.key right ↔ if f.newestFirst then right.job.id < left.job.id else left.job.id < right.job.id := by
  unfold JobFilter.key
  split <;> simp

def FoundIn (f : JobFilter) (contains : Driver.Document → String → Bool) (store : Store) (entry : JobEntry) : Prop :=
  entry ∈ jobEntries store ∧ f.selects contains entry.job = true

private theorem arm_open {rows : List JobEntry} {kept : JobState → Bool} (all : ∀ entry ∈ rows, kept entry.job.state = true) :
    (if (f.states = [] || f.states.any kept) then f.arm contains post limit rows else []) = f.arm contains post limit rows := by
  split
  · rfl
  · next shut =>
    have nothing : rows.filter (fun entry => f.selects contains entry.job && f.past post entry.job.id) = [] := by
      refine filter_eq_nil_iff.mpr fun entry mem both => shut ?_
      have keeps := all entry mem
      simp only [JobFilter.selects, Bool.and_eq_true, Bool.or_eq_true, decide_eq_true_eq] at both
      simp only [Bool.or_eq_true, decide_eq_true_eq, any_eq_true]
      exact both.1.1.1.1.1.2.imp_right fun named => ⟨_, named, keeps⟩
    rw [JobFilter.arm, nothing]
    simp [page]

section
variable (listable : Listable store)
include listable

theorem rows_eq : f.rows contains post limit store =
    page f.key (max limit 1) (f.arm contains post limit (store.jobs.rows.map .inl) ++
      f.arm contains post limit (store.history.map .inr)) := by
  have live : ∀ entry ∈ (store.jobs.rows.map .inl : List JobEntry), (!entry.job.state.terminal) = true :=
    forall_mem_map.mpr fun row mem => congrArg (!·) (listable.live row mem)
  rw [JobFilter.rows, JobFilter.live, JobFilter.history, arm_open live, arm_open (forall_mem_map.mpr listable.finished)]

private theorem armed_distinct (kept : JobEntry → Bool) :
    (((store.jobs.rows.map .inl).filter kept ++ (store.history.map .inr).filter kept).map f.key).Nodup := by
  rw [← filter_append]
  refine pairwise_map.mpr ((pairwise_map.mp listable.distinct).imp fun apart same => apart ?_) |>.sublist
    (filter_sublist.map _)
  unfold JobFilter.key at same
  split at same
  · exact Nat.cast_injective (neg_injective same)
  · exact Nat.cast_injective same

theorem mem_rows (mem : entry ∈ f.rows contains post limit store) :
    FoundIn f contains store entry ∧ f.past post entry.job.id = true := by
  rw [rows_eq listable] at mem
  have within : entry ∈ (jobEntries store).filter fun entry => f.selects contains entry.job && f.past post entry.job.id := by
    rw [jobEntries, filter_append]
    exact List.mem_append.mpr ((List.mem_append.mp (mem_of_mem_page mem)).imp mem_of_mem_page mem_of_mem_page)
  have ⟨there, both⟩ := mem_filter.mp within
  have ⟨selected, past⟩ := Bool.and_eq_true_iff.mp both
  exact ⟨⟨there, selected⟩, past⟩

theorem rows_rising :
    (f.rows contains post limit store).Pairwise fun left right => f.key left < f.key right := by
  rw [rows_eq listable]
  exact page_rising (pages_distinct (armed_distinct listable _))

end

theorem mem_rows_or_after (limit : Nat) (listable : Listable store) (found : FoundIn f contains store entry)
    (past : f.past post entry.job.id = true) :
    let rows := f.rows contains post limit store
    entry ∈ rows ∨ rows.length = max limit 1 ∧ ∀ other ∈ rows, f.key other < f.key entry := by
  rw [rows_eq listable]
  refine mem_pages_or_after (armed_distinct listable _) ?_
  rw [← filter_append]
  exact mem_filter.mpr ⟨found.1, Bool.and_eq_true_iff.mpr ⟨found.2, past⟩⟩

theorem past_of_key_lt (past : f.past post pre.job.id = true) (less : f.key pre < f.key later) :
    f.past post later.job.id = true := by
  have order := key_lt.mp less
  unfold JobFilter.past at past ⊢
  split at past
  · next newest =>
    rw [if_pos newest] at order ⊢
    simp only [Bool.or_eq_true, decide_eq_true_eq] at past ⊢
    exact past.imp_right order.trans
  · next oldest =>
    rw [if_neg oldest] at order ⊢
    exact decide_eq_true ((of_decide_eq_true past).trans order)

theorem past_entry (named : pre.job.id ≠ 0) :
    f.past pre.job.id later.job.id = true ↔ f.key pre < f.key later := by
  rw [key_lt, JobFilter.past]
  split <;> simp [named]

/-- The filter is refused with a failure, by the client or by the listing. -/
def Refused (f : JobFilter) (failure : Failure) : Prop :=
  f.checkJobFilter = .error failure ∨ f.checkParams = .error failure

/-- An iteration over the stores read: the pages rise, and its cursor is past what they
hold. -/
structure Lists (f : JobFilter) (contains : Driver.Document → String → Bool) (stores : List Store) (s : JobsIteration) : Prop where
  rising : s.yielded.Pairwise fun left right => f.key left < f.key right
  pages : ∃ pages : List (List JobEntry), s.yielded = pages.flatten ∧
    List.Forall₂ (fun store rows => ∀ entry ∈ rows, FoundIn f contains store entry) stores pages
  cursor : ∀ entry : JobEntry, f.past s.after entry.job.id = true ↔
    f.past f.after entry.job.id = true ∧ ∀ other ∈ s.yielded, f.key other < f.key entry
  counted : s.done = false → s.yielded.length = jobsPageSize * stores.length
  complete : s.failure = none → ∀ id, f.past f.after id = true →
    (∀ store ∈ stores, ∃ entry, FoundIn f contains store entry ∧ entry.job.id = id) →
    id ∈ s.yielded.map (fun entry => entry.job.id) ∨ s.done = false ∧ f.past s.after id = true
  refused : ∀ failure, s.failure = some failure → s.done = true ∧ s.yielded = [] ∧ Refused f failure
  accepted : s.yielded ≠ [] → f.checkParams = .ok ()

theorem read_ok (accepted : f.checkParams = .ok ()) (contains : Driver.Document → String → Bool) (s : JobsIteration) (store : Store) :
    s.read f contains store =
      { after := ((f.rows contains s.after jobsPageSize store).getLast?.map fun entry => entry.job.id).getD s.after
        yielded := s.yielded ++ f.rows contains s.after jobsPageSize store
        done := (f.rows contains s.after jobsPageSize store).length < jobsPageSize } := by
  rw [JobsIteration.read, JobFilter.jobList, accepted]
  rfl

theorem past_read (accepted : f.checkParams = .ok ()) (listable : Listable store) (entry : JobEntry) :
    f.past (s.read f contains store).after entry.job.id = true ↔ f.past s.after entry.job.id = true ∧
      ∀ other ∈ f.rows contains s.after jobsPageSize store, f.key other < f.key entry := by
  rw [read_ok accepted]
  cases final : (f.rows contains s.after jobsPageSize store).getLast? with
  | none => simp [getLast?_eq_none_iff.mp final]
  | some last =>
    have mem := mem_of_getLast? final
    have ⟨found, past⟩ := mem_rows listable mem
    simp only [Option.map_some, Option.getD_some]
    rw [past_entry (listable.named last found.1)]
    refine ⟨fun less => ⟨past_of_key_lt past less, fun other taken => ?_⟩, fun both => both.2 last mem⟩
    rw [rows_eq listable] at final taken
    exact (le_last_of_mem_page (pages_distinct (armed_distinct listable _)) final taken).trans_lt less

section
variable {stores : List Store} (lists : Lists f contains stores s)
include lists

/-- A page that is refused ends the iteration before it has yielded anything. -/
theorem Lists.refuse {failure : Failure} (refuses : f.checkParams = .error failure) (store : Store) :
    Lists f contains (stores ++ [store]) { s with done := true, failure := some failure } where
  rising := lists.rising
  pages := by
    obtain ⟨pages, same, found⟩ := lists.pages
    exact ⟨pages ++ [[]], by simpa using same, rel_append found (.cons (forall_mem_nil _) .nil)⟩
  cursor := lists.cursor
  counted := nofun
  complete := nofun
  refused _ same := by
    cases same
    refine ⟨rfl, by_contra fun some => ?_, .inr refuses⟩
    cases refuses.symm.trans (lists.accepted some)
  accepted := lists.accepted

theorem Lists.read (goes : s.done = false) (listable : Listable store) :
    Lists f contains (stores ++ [store]) (s.read f contains store) := by
  cases checked : f.checkParams with
  | error failure =>
    rw [JobsIteration.read, JobFilter.jobList, checked]
    exact lists.refuse checked store
  | ok =>
    have cursor (entry : JobEntry) : f.past (s.read f contains store).after entry.job.id = true ↔ _ :=
      past_read checked listable entry
    rw [read_ok checked] at cursor ⊢
    exact {
      rising := pairwise_append.mpr ⟨lists.rising, rows_rising listable, fun other there entry mem =>
        ((lists.cursor entry).mp (mem_rows listable mem).2).2 other there⟩
      pages := by
        obtain ⟨pages, same, found⟩ := lists.pages
        refine ⟨pages ++ [f.rows contains s.after jobsPageSize store], by rw [flatten_concat, ← same], ?_⟩
        exact rel_append found (.cons (fun entry mem => (mem_rows listable mem).1) .nil)
      cursor := fun entry => by
        rw [cursor, lists.cursor, and_assoc]
        exact and_congr_right fun _ => List.forall_mem_append.symm
      counted := fun short => by
        have full : (f.rows contains s.after jobsPageSize store).length = jobsPageSize :=
          le_antisymm (length_take_le _ _) (not_lt.mp (of_decide_eq_false short))
        rw [length_append, lists.counted goes, full, length_append, length_singleton, mul_add_one]
      complete := fun _ id past there => by
        have ⟨pre, ⟨entry, found, same⟩⟩ := List.forall_mem_append.mp there |>.imp_right forall_mem_singleton.mp
        have running : s.failure = none := Option.eq_none_iff_forall_not_mem.mpr fun failure is => by
          cases goes.symm.trans (lists.refused failure is).1
        rcases lists.complete running id past pre with yielded | ⟨_, ahead⟩
        · exact .inl (map_append ▸ mem_append_left _ yielded)
        · subst same
          rcases mem_rows_or_after jobsPageSize listable found ahead with taken | ⟨full, earlier⟩
          · exact .inl (mem_map_of_mem (mem_append_right _ taken))
          · exact .inr ⟨decide_eq_false (by rw [full]; decide), (cursor entry).mpr ⟨ahead, earlier⟩⟩
      refused := nofun
      accepted := fun _ => checked }

end

variable {engine : Engine} {stores : List Store} {s : JobsIteration}

theorem JobsRead.lists (read : JobsRead f contains (Reachable engine fun _ operation => operation.PositiveClient) stores s) :
    Lists f contains stores s := by
  induction read with
  | start =>
    have cursor : ∀ entry : JobEntry, f.past f.after entry.job.id = true ↔ f.past f.after entry.job.id = true ∧
        ∀ other ∈ ([] : List JobEntry), f.key other < f.key entry := fun _ => (and_iff_left (forall_mem_nil _)).symm
    rw [JobsIteration.start]
    split
    · next failure refuses =>
      refine ⟨.nil, ⟨[], rfl, .nil⟩, cursor, nofun, nofun, fun _ same => ?_, fun some => absurd rfl some⟩
      cases same
      exact ⟨rfl, rfl, .inl refuses⟩
    · exact ⟨.nil, ⟨[], rfl, .nil⟩, cursor, fun _ => rfl, fun _ _ past _ => .inr ⟨rfl, past⟩, nofun, fun some => absurd rfl some⟩
  | page _ goes reads ih => exact ih.read goes (listable reads)

theorem found_of_pages {pages : List (List JobEntry)}
    (found : List.Forall₂ (fun store rows => ∀ entry ∈ rows, FoundIn f contains store entry) stores pages)
    (mem : entry ∈ pages.flatten) : ∃ store ∈ stores, FoundIn f contains store entry := by
  induction found with
  | nil => cases mem
  | cons each _ ih =>
    rcases List.mem_append.mp mem with here | later
    · exact ⟨_, mem_cons_self, each entry here⟩
    · obtain ⟨store, among, finds⟩ := ih later
      exact ⟨store, mem_cons_of_mem _ among, finds⟩

def mail : JobInsertParams := { kind := "mail", queue := "default", priority := 2, maxAttempts := 3 }

def mails : JobFilter := { queue := "default", kinds := ["mail"], priorities := [1, 2] }

def manyMails : Store :=
  Operation.after .counting [(0, .jobInsertMany (List.replicate 101 mail) {})]

/-- The first and the last of them canceled, in history. -/
def mailsCanceled : Store :=
  Operation.after .counting [(2, .jobCancel 101), (1, .jobCancel 1), (0, .jobInsertMany (List.replicate 101 mail) {})]

def firstMails : JobsIteration := JobsIteration.read mails (fun _ _ => true) (.start mails) manyMails

def lastMails : JobsIteration := firstMails.read mails (fun _ _ => true) mailsCanceled

/-- In every run an ID names one job, which is live until it ends and is not
live once in history, and a sequence number names one live job. -/
theorem jobs_live_or_finished {store : Store} (reachable : Reachable engine (fun _ operation => operation.PositiveClient) store) :
    ((jobEntries store).map fun entry => entry.job.id).Nodup ∧ (∀ row ∈ store.jobs, row.state.terminal = false) ∧
      (∀ past ∈ store.history, past.state.terminal = true) ∧
      ∀ first ∈ store.jobs, ∀ second ∈ store.jobs, first.seq = second.seq → first = second := by
  have each := listable reachable
  exact ⟨each.distinct, each.live, each.finished, (positive_reached reachable).sound.identity.seq_injective⟩

/-- Of four mails the first two are canceled, and the second is retried. -/
def mailRetried : Store :=
  Operation.after .counting
    [(3, .jobRetry { id := 2 }), (2, .jobCancel 2), (1, .jobCancel 1), (0, .jobInsertMany (List.replicate 4 mail) {})]

theorem jobs_live_or_finished_retried : mailRetried.history.map (fun row => (row.id, row.state)) = [(1, .canceled)] ∧
    mailRetried.jobs.rows.map (fun row => (row.id, row.seq, row.state)) =
      [(3, 3, .available), (4, 4, .available), (2, 5, .available)] ∧
    ((jobEntries mailRetried).map fun entry => entry.job.id).Nodup ∧
    ∀ first ∈ mailRetried.jobs, ∀ second ∈ mailRetried.jobs, first.seq = second.seq → first = second := by
  have reachable : Reachable .counting (fun _ operation => operation.PositiveClient) mailRetried :=
    Operation.AllAllowed.reachable ⟨trivial, trivial, trivial, trivial, trivial⟩
  have shown := jobs_live_or_finished reachable
  exact ⟨by decide +kernel, by decide +kernel, shown.1, shown.2.2.2⟩

end

end Hopper.Guarantees
