import Hopper.Sqlite.Finalize
import Mathlib.Data.List.DropRight

/-! The attempt logs of a job, over every sequence of ended attempts: a finalize that
appends a log keeps the latest, and an entry goes only for a later snooze of its
attempt number or for as many later entries as are kept. -/

namespace Hopper.Guarantees

open List Driver Sqlite

/-- An attempt as its finalize sees it, with the number of logs to keep. -/
structure EndedAttempt where
  attempt : Int
  result : JobFinalize
  keep : Int
  own : ∀ log, result.log = some log → log.attempt = attempt
  positive : 0 < keep

namespace EndedAttempt

def entry (ended : EndedAttempt) : Option AttemptLog :=
  (encodeResult ended.result).entry

/-- The logs of the job's row once the attempt has ended. -/
def logs (ended : EndedAttempt) (stored : Option (List AttemptLog)) : Option (List AttemptLog) :=
  appendLog stored ended.attempt ended.result.snooze ended.entry (keepLogs ended.keep)

end EndedAttempt

/-- The stored logs of a job of which the first `n` attempts have ended. -/
def storedLogs (ended : Nat → EndedAttempt) : Nat → Option (List AttemptLog)
  | 0 => none
  | n + 1 => (ended n).logs (storedLogs ended n)

def logEntries (ended : Nat → EndedAttempt) (n : Nat) : List AttemptLog :=
  (storedLogs ended n).getD []

def snoozedEntry (number : Int) (entry : AttemptLog) : Bool :=
  entry.snoozed && entry.attempt == number

/-- The entries are those of the attempts `held`, in the order these ended, and no
two are of snoozes of one attempt number. -/
structure LogsHeld (ended : Nat → EndedAttempt) (n : Nat) (held : List Nat) : Prop where
  stored : held.map (fun i => (ended i).entry) = (logEntries ended n).map some
  order : held.Pairwise (· < ·)
  earlier : ∀ i ∈ held, i < n
  snoozes : ∀ number, (logEntries ended n).countP (snoozedEntry number) ≤ 1

/-- What the end of attempt `n` does to the attempts whose entries are held. -/
structure LogsMoved (ended : Nat → EndedAttempt) (n : Nat) (before after : List Nat) : Prop where
  appended : (ended n).entry.isSome → n ∈ after ∧ ((logEntries ended (n + 1)).length : Int) ≤ (ended n).keep
  held : ∀ i ∈ after, i ∈ before ∨ i = n
  lost : ∀ i ∈ before, i ∉ after →
    ((ended n).result.snooze ∧ (ended i).result.snooze ∧ (ended i).attempt = (ended n).attempt) ∨
      (ended n).keep ≤ ((after.filter (i < ·)).length : Int)

theorem keepLogs_of_pos {keep : Int} (positive : 0 < keep) : (keepLogs keep : Int) = keep := by
  unfold keepLogs
  rw [if_neg (by omega)]
  omega

def otherEntries (ended : EndedAttempt) (entries : List AttemptLog) : List AttemptLog :=
  entries.filter fun entry => !ended.result.snooze || !snoozedEntry ended.attempt entry

/-- The end of an attempt without a log, and with no entry to replace. -/
def EndedAttempt.Leaves (ended : EndedAttempt) (entries : List AttemptLog) : Prop :=
  (ended.entry.isNone && !(ended.result.snooze && entries.any (snoozedEntry ended.attempt))) = true

section

variable {ended : Nat → EndedAttempt} {n i : Nat} {log : AttemptLog} {number : Int} {list : List Nat}

theorem entries_of_leaves (leaves : (ended n).Leaves (logEntries ended n)) : logEntries ended (n + 1) = logEntries ended n := by
  have same : storedLogs ended (n + 1) = storedLogs ended n := if_pos leaves
  unfold logEntries
  rw [same]

theorem entries_of_changes (changes : ¬(ended n).Leaves (logEntries ended n)) : logEntries ended (n + 1) =
    (otherEntries (ended n) (logEntries ended n) ++ (ended n).entry.toList).rtake (keepLogs (ended n).keep) := by
  generalize post : (otherEntries (ended n) (logEntries ended n) ++ (ended n).entry.toList).rtake (keepLogs (ended n).keep) = latest
  have changed : storedLogs ended (n + 1) = if latest = [] then none else some latest := by
    rw [← post]
    exact if_neg changes
  rw [logEntries, changed]
  split
  next empty => exact empty.symm
  next => rfl

theorem entry_eq_some (found : (ended i).entry = some log) :
    log.attempt = (ended i).attempt ∧ log.snoozed = (ended i).result.snooze := by
  simp only [EndedAttempt.entry, encodeResult, marshalAttemptLog] at found
  split at found
  · cases found
  next recorded own =>
    obtain ⟨_, rfl⟩ := Option.ite_some_none_eq_some.mp found
    exact ⟨(ended i).own recorded own, rfl⟩

theorem countP_others_eq_zero (logged : (ended n).entry = some log) (snoozed : snoozedEntry number log = true) :
    (otherEntries (ended n) (logEntries ended n)).countP (snoozedEntry number) = 0 := by
  obtain ⟨numbered, snoozes⟩ := entry_eq_some logged
  obtain ⟨marked, same⟩ := Bool.and_eq_true_iff.mp snoozed
  rw [countP_eq_zero]
  intro entry mem again
  have kept := (mem_filter.mp mem).2
  rw [← numbered, eq_of_beq same, ← snoozes, marked, again] at kept
  cases kept

theorem countP_entries_succ (number : Int) (pre : (logEntries ended n).countP (snoozedEntry number) ≤ 1) :
    (logEntries ended (n + 1)).countP (snoozedEntry number) ≤ 1 := by
  by_cases leaves : (ended n).Leaves (logEntries ended n)
  · rw [entries_of_leaves leaves]
    exact pre
  · rw [entries_of_changes leaves]
    refine (drop_sublist _ _).countP_le.trans ?_
    have fewer : (otherEntries (ended n) (logEntries ended n)).countP (snoozedEntry number) ≤ 1 :=
      filter_sublist.countP_le.trans pre
    rw [countP_append]
    cases logged : (ended n).entry with
    | none => exact fewer
    | some log =>
      by_cases snoozed : snoozedEntry number log = true
      · rw [countP_others_eq_zero logged snoozed, zero_add]
        exact countP_le_length
      · rw [Option.toList_some, countP_singleton, if_neg snoozed]
        exact fewer

instance (ended : EndedAttempt) (entries : List AttemptLog) : Decidable (ended.Leaves entries) :=
  inferInstanceAs (Decidable (_ = true))

/-- The attempts whose entries are held, as `appendLog` keeps them. -/
def heldLogs (ended : Nat → EndedAttempt) : Nat → List Nat
  | 0 => []
  | n + 1 =>
    let kept := (heldLogs ended n).filter fun i =>
      !(ended n).result.snooze || !(ended i).entry.any (snoozedEntry (ended n).attempt)
    if (ended n).Leaves (logEntries ended n) then heldLogs ended n
    else (kept ++ (ended n).entry.toList.map fun _ => n).rtake (keepLogs (ended n).keep)

theorem any_entry (same : (ended i).entry.any (snoozedEntry number) = true) :
    (ended i).result.snooze = true ∧ (ended i).attempt = number := by
  cases logged : (ended i).entry with
  | none =>
    rw [logged] at same
    cases same
  | some log =>
    obtain ⟨numbered, snoozes⟩ := entry_eq_some logged
    rw [logged] at same
    obtain ⟨marked, found⟩ := Bool.and_eq_true_iff.mp same
    exact ⟨snoozes.symm.trans marked, numbered.symm.trans (eq_of_beq found)⟩

theorem map_rtake {α β : Type} (f : α → β) (list : List α) (keep : Nat) : (list.rtake keep).map f = (list.map f).rtake keep := by
  rw [List.rtake, List.rtake, map_drop, length_map]

theorem heldLogs_stored (n : Nat) : (heldLogs ended n).map (fun i => (ended i).entry) = (logEntries ended n).map some := by
  induction n with
  | zero => rfl
  | succ n ih =>
    by_cases leaves : (ended n).Leaves (logEntries ended n)
    · rw [entries_of_leaves leaves, heldLogs, if_pos leaves, ih]
    · have kept := congrArg (List.filter fun entry : Option AttemptLog =>
        !(ended n).result.snooze || !entry.any (snoozedEntry (ended n).attempt)) ih
      rw [filter_map, filter_map] at kept
      have appended : ((ended n).entry.toList.map fun _ => n).map (fun i => (ended i).entry) = (ended n).entry.toList.map some := by
        rw [map_map]
        refine map_congr_left fun log mem => ?_
        exact Option.mem_toList.mp mem
      rw [entries_of_changes leaves, heldLogs, if_neg leaves, map_rtake, map_rtake, map_append, map_append, appended]
      exact congrArg (fun list : List (Option AttemptLog) =>
        (list ++ (ended n).entry.toList.map some).rtake (keepLogs (ended n).keep)) kept

theorem mem_kept (mem : i ∈ list ++ (ended n).entry.toList.map fun _ => n) : i ∈ list ∨ i = n := by
  refine (List.mem_append.mp mem).imp_right fun new => ?_
  obtain ⟨_, _, same⟩ := mem_map.mp new
  exact same.symm

theorem heldLogs_succ (mem : i ∈ heldLogs ended (n + 1)) : i ∈ heldLogs ended n ∨ i = n := by
  rw [heldLogs] at mem
  split at mem
  · exact .inl mem
  · exact (mem_kept ((drop_sublist _ _).subset mem)).imp_left fun kept => (mem_filter.mp kept).1

theorem heldLogs_lt (n : Nat) (mem : i ∈ heldLogs ended n) : i < n := by
  induction n with
  | zero => cases mem
  | succ n ih =>
    rcases heldLogs_succ mem with held | rfl
    · exact (ih held).trans (Nat.lt_succ_self n)
    · exact Nat.lt_succ_self i

theorem kept_ordered (ordered : (heldLogs ended n).Pairwise (· < ·)) (p : Nat → Bool) :
    (((heldLogs ended n).filter p) ++ (ended n).entry.toList.map fun _ => n).Pairwise (· < ·) := by
  refine pairwise_append.mpr ⟨ordered.sublist filter_sublist, ?_, fun i earlier j new => ?_⟩
  · cases (ended n).entry with
    | none => exact .nil
    | some log => exact pairwise_singleton _ _
  · obtain ⟨_, _, rfl⟩ := mem_map.mp new
    exact heldLogs_lt n (mem_filter.mp earlier).1

theorem heldLogs_ordered (n : Nat) : (heldLogs ended n).Pairwise (· < ·) := by
  induction n with
  | zero => exact .nil
  | succ n ih =>
    rw [heldLogs]
    split
    · exact ih
    · exact (kept_ordered ih _).sublist (drop_sublist _ _)

theorem not_mem_rtake {keep : Nat} (ordered : list.Pairwise (· < ·)) (mem : i ∈ list)
    (lost : i ∉ list.rtake keep) : keep ≤ ((list.rtake keep).filter (i < ·)).length := by
  have parts := take_append_drop (list.length - keep) list
  have first : i ∈ list.take (list.length - keep) := by
    rw [← parts] at mem
    exact (List.mem_append.mp mem).resolve_right lost
  rw [← parts] at ordered
  have later : (list.rtake keep).filter (i < ·) = list.rtake keep :=
    filter_eq_self.mpr fun j latest => decide_eq_true ((pairwise_append.mp ordered).2.2 i first j latest)
  have long : 0 < list.length - keep := by
    refine Nat.pos_of_ne_zero fun all => ?_
    rw [all] at first
    cases first
  rw [later, List.rtake, length_drop]
  omega

theorem heldLogs_moved (ended : Nat → EndedAttempt) (n : Nat) : LogsMoved ended n (heldLogs ended n) (heldLogs ended (n + 1)) where
  appended logged := by
    have changes : ¬(ended n).Leaves (logEntries ended n) := by
      intro leaves
      rw [EndedAttempt.Leaves, Option.isNone_eq_false_iff.mpr logged] at leaves
      cases leaves
    have positive := (ended n).positive
    have keeps := keepLogs_of_pos positive
    constructor
    · obtain ⟨log, found⟩ := Option.isSome_iff_exists.mp logged
      obtain ⟨keep, some_kept⟩ := Nat.exists_eq_succ_of_ne_zero (show keepLogs (ended n).keep ≠ 0 by omega)
      rw [heldLogs, if_neg changes, found, some_kept]
      simp only [Option.toList_some, map_cons, map_nil, Nat.succ_eq_add_one, rtake_concat_succ]
      exact mem_append_right _ mem_cons_self
    · rw [entries_of_changes changes, List.rtake, length_drop]
      omega
  held _ := heldLogs_succ
  lost i mem lost := by
    rw [heldLogs] at lost ⊢
    split at lost
    · exact absurd mem lost
    next changes =>
      rw [if_neg changes]
      by_cases kept : (!(ended n).result.snooze || !(ended i).entry.any (snoozedEntry (ended n).attempt)) = true
      · right
        have followed := not_mem_rtake (kept_ordered (heldLogs_ordered n) _)
          (mem_append_left _ (mem_filter.mpr ⟨mem, kept⟩)) lost
        have keeps := keepLogs_of_pos (ended n).positive
        omega
      · left
        simp only [Bool.or_eq_true, Bool.not_eq_true', not_or, Bool.not_eq_false] at kept
        obtain ⟨snoozed, same⟩ := any_entry kept.2
        exact ⟨kept.1, snoozed, same⟩

theorem heldLogs_held (ended : Nat → EndedAttempt) (n : Nat) : LogsHeld ended n (heldLogs ended n) where
  stored := heldLogs_stored n
  order := heldLogs_ordered n
  earlier _ := heldLogs_lt n
  snoozes number := by
    induction n with
    | zero => exact Nat.zero_le 1
    | succ n ih => exact countP_entries_succ number ih

end

/-- After each attempt the entries are those of some of the attempts that have ended,
in that order, one at most of a snooze of each number; an attempt with a log leaves
no more than it keeps, its own among them; and an entry goes for a later snooze of
its number, being a snooze's, or for as many later entries as are kept. -/
theorem storedLogs_kept (ended : Nat → EndedAttempt) :
    ∃ held : Nat → List Nat, ∀ n, LogsHeld ended n (held n) ∧ LogsMoved ended n (held n) (held (n + 1)) :=
  ⟨heldLogs ended, fun n => ⟨heldLogs_held ended n, heldLogs_moved ended n⟩⟩

/-- Two snoozes of a first attempt, which then fails as those after it do. -/
def snoozing (i : Nat) : EndedAttempt where
  attempt := max 1 (i - 1 : Nat)
  result :=
    { id := 1, state := if i < 2 then .scheduled else .retryable, snooze := i < 2,
      log := some { attempt := max 1 (i - 1 : Nat), log := if i = 1 then "asked again" else "asked" } }
  keep := 2
  own := by
    rintro log ⟨⟩
    rfl
  positive := by decide

/-- The second snooze takes the place of the first, and two later failures that
of both it and the first of them. -/
theorem storedLogs_kept_snoozing : ∃ held : Nat → List Nat,
    (held 2).map (fun i => (snoozing i).entry) = [some { attempt := 1, snoozed := true, log := "asked again" }] ∧
      (held 5).map (fun i => (snoozing i).entry) = [some { attempt := 2, log := "asked" }, some { attempt := 3, log := "asked" }] ∧
      ∀ n, LogsMoved snoozing n (held n) (held (n + 1)) := by
  obtain ⟨held, kept⟩ := storedLogs_kept snoozing
  refine ⟨held, (kept 2).1.stored.trans ?_, (kept 5).1.stored.trans ?_, fun n => (kept n).2⟩
  · decide +kernel
  · decide +kernel

end Hopper.Guarantees
