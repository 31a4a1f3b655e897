import Mathlib.Tactic.Common
import Mathlib.Order.Lattice
import Mathlib.Data.List.Basic

/-! Transactions with rising IDs that commit or abort in any order, and the
snapshots statements take of them. -/

namespace Hopper.Kernel

open List

/-- The transactions that have an ID: those given out from the first up to the
next, and which of them have completed. -/
structure Transactions where
  first : Nat
  next : Nat
  committed : List Nat := []
  aborted : List Nat := []
  first_le : first ≤ next
  assigned : ∀ xid, xid ∈ committed ∨ xid ∈ aborted → first ≤ xid ∧ xid < next
  apart : ∀ xid ∈ committed, xid ∉ aborted

/-- What a snapshot says of transactions: those below `xmin` had completed,
those from `xmax` on had not, and between them those listed had not. -/
structure Snapshot where
  xmin : Nat
  xmax : Nat
  xip : List Nat
deriving DecidableEq

/-- Whether the transaction had completed when the snapshot was taken. -/
def Snapshot.sees (snapshot : Snapshot) (xid : Nat) : Bool :=
  decide (xid < snapshot.xmin) || (decide (xid < snapshot.xmax) && decide (xid ∉ snapshot.xip))

theorem Snapshot.sees_of_lt_xmin {snapshot : Snapshot} {xid : Nat} (below : xid < snapshot.xmin) : snapshot.sees xid = true := by
  simp [Snapshot.sees, below]

theorem Snapshot.lt_xmax_of_sees {snapshot : Snapshot} {xid : Nat} (bounds : snapshot.xmin ≤ snapshot.xmax)
    (seen : snapshot.sees xid = true) : xid < snapshot.xmax := by
  rw [Snapshot.sees, Bool.or_eq_true, Bool.and_eq_true, decide_eq_true_eq, decide_eq_true_eq] at seen
  rcases seen with below | within
  · exact below.trans_le bounds
  · exact within.1

namespace Transactions

variable (transactions : Transactions)

def Completed (xid : Nat) : Prop :=
  xid ∈ transactions.committed ∨ xid ∈ transactions.aborted

instance (xid : Nat) : Decidable (transactions.Completed xid) :=
  inferInstanceAs (Decidable (_ ∨ _))

structure Running (xid : Nat) : Prop where
  first_le : transactions.first ≤ xid
  lt_next : xid < transactions.next
  uncompleted : ¬transactions.Completed xid

instance (xid : Nat) : Decidable (transactions.Running xid) :=
  decidable_of_iff (transactions.first ≤ xid ∧ xid < transactions.next ∧ ¬transactions.Completed xid)
    ⟨fun all => ⟨all.1, all.2.1, all.2.2⟩, fun running => ⟨running.first_le, running.lt_next, running.uncompleted⟩⟩

/-- One past the highest transaction that has completed. -/
def xmax : Nat :=
  (transactions.committed ++ transactions.aborted).foldl (fun bound xid => max bound (xid + 1)) transactions.first

def running : List Nat :=
  (List.range transactions.next).filter fun xid => decide (transactions.Running xid)

/-- The snapshot that a statement of a transaction takes: its own ID counts for
`xmin`, and is not listed as in progress. -/
def snapshot (own : Nat) : Snapshot where
  xmin := transactions.running.foldl min transactions.xmax
  xmax := transactions.xmax
  xip := transactions.running.filter fun xid => decide (xid < transactions.xmax ∧ xid ≠ own)

def begin : Transactions :=
  { transactions with
    next := transactions.next + 1
    first_le := transactions.first_le.trans (Nat.le_succ _)
    assigned := fun xid completed =>
      ⟨(transactions.assigned xid completed).1, (transactions.assigned xid completed).2.trans (Nat.lt_succ_self _)⟩ }

def commit (xid : Nat) (runs : transactions.Running xid) : Transactions :=
  { transactions with
    committed := xid :: transactions.committed
    assigned := by
      intro other completed
      rw [List.mem_cons, or_assoc] at completed
      rcases completed with rfl | old
      · exact ⟨runs.first_le, runs.lt_next⟩
      · exact transactions.assigned other old
    apart := by
      intro other member
      rcases List.mem_cons.mp member with rfl | old
      · exact fun aborted => runs.uncompleted (.inr aborted)
      · exact transactions.apart other old }

def abort (xid : Nat) (runs : transactions.Running xid) : Transactions :=
  { transactions with
    aborted := xid :: transactions.aborted
    assigned := by
      intro other completed
      rw [List.mem_cons, or_left_comm] at completed
      rcases completed with rfl | old
      · exact ⟨runs.first_le, runs.lt_next⟩
      · exact transactions.assigned other old
    apart := by
      intro other member aborted
      rcases List.mem_cons.mp aborted with rfl | old
      · exact runs.uncompleted (.inl member)
      · exact transactions.apart other member old }

variable {transactions}
variable {xid own : Nat} {xids : List Nat} {start bound : Nat}

theorem mem_running : xid ∈ transactions.running ↔ transactions.Running xid := by
  rw [running, mem_filter, mem_range, decide_eq_true_eq]
  exact ⟨fun both => both.2, fun runs => ⟨runs.lt_next, runs⟩⟩

private theorem foldl_bound :
    bound ≤ xids.foldl (fun bound xid => max bound (xid + 1)) start ↔ bound ≤ start ∨ ∃ xid ∈ xids, bound ≤ xid + 1 := by
  induction xids generalizing start with
  | nil => simp
  | cons xid xids ih => simp [ih, or_assoc]

private theorem le_foldl_min :
    bound ≤ xids.foldl min start ↔ bound ≤ start ∧ ∀ xid ∈ xids, bound ≤ xid := by
  induction xids generalizing start with
  | nil => simp
  | cons xid xids ih => simp [ih, and_assoc]

theorem lt_xmax_of_completed (completed : transactions.Completed xid) : xid < transactions.xmax :=
  Iff.mpr foldl_bound (.inr ⟨xid, List.mem_append.mpr completed, le_rfl⟩)

theorem first_le_xmax : transactions.first ≤ transactions.xmax :=
  Iff.mpr foldl_bound (.inl le_rfl)

theorem xmax_le_next : transactions.xmax ≤ transactions.next := by
  rcases Iff.mp foldl_bound (le_refl transactions.xmax) with start | ⟨xid, mem, bound⟩
  · exact start.trans transactions.first_le
  · exact bound.trans (transactions.assigned xid (List.mem_append.mp mem)).2

/-- A snapshot sees what is below its `xmax` and not running, but for the
transaction that takes it. -/
theorem sees_snapshot : (transactions.snapshot own).sees xid = true ↔
      xid < transactions.xmax ∧ (transactions.Running xid → xid = own) := by
  have listed : xid ∈ (transactions.snapshot own).xip ↔ transactions.Running xid ∧ xid < transactions.xmax ∧ xid ≠ own := by
    simp [snapshot, mem_running]
  rw [Snapshot.sees, Bool.or_eq_true, Bool.and_eq_true, decide_eq_true_eq, decide_eq_true_eq, decide_eq_true_eq, listed]
  constructor
  · intro seen
    rcases seen with below | ⟨below, unlisted⟩
    · have least := Iff.mp le_foldl_min (Nat.succ_le_of_lt below)
      exact ⟨least.1, fun runs => absurd (least.2 xid (Iff.mpr mem_running runs)) (Nat.not_succ_le_self xid)⟩
    · exact ⟨below, fun runs => by_contra fun other => unlisted ⟨runs, below, other⟩⟩
  · intro seen
    exact .inr ⟨seen.1, fun listed => listed.2.2 (seen.2 listed.1)⟩

theorem sees_of_completed (completed : transactions.Completed xid) : (transactions.snapshot own).sees xid = true :=
  Iff.mpr sees_snapshot ⟨lt_xmax_of_completed completed, fun runs => absurd completed runs.uncompleted⟩

theorem sees_of_lt_first (below : xid < transactions.first) : (transactions.snapshot own).sees xid = true :=
  Iff.mpr sees_snapshot ⟨below.trans_le first_le_xmax, fun runs => absurd runs.first_le (Nat.not_le.mpr below)⟩

theorem completed_of_sees (seen : (transactions.snapshot own).sees xid = true) (given : transactions.first ≤ xid) :
    transactions.Completed xid ∨ xid = own := by
  obtain ⟨below, runs⟩ := Iff.mp sees_snapshot seen
  by_cases completed : transactions.Completed xid
  · exact .inl completed
  · exact .inr (runs ⟨given, below.trans_le xmax_le_next, completed⟩)

theorem xmin_le_xmax : (transactions.snapshot own).xmin ≤ (transactions.snapshot own).xmax :=
  (Iff.mp le_foldl_min le_rfl).1

/-- Transactions begin and complete; what has completed stays as it is. -/
structure Advances (before after : Transactions) : Prop where
  first : after.first = before.first
  completed : ∀ xid, before.Completed xid → after.Completed xid
  committed : ∀ xid, before.Completed xid → (xid ∈ after.committed ↔ xid ∈ before.committed)

namespace Advances

theorem refl (transactions : Transactions) : transactions.Advances transactions :=
  ⟨rfl, fun _ done => done, fun _ _ => Iff.rfl⟩

theorem begin (transactions : Transactions) : transactions.Advances transactions.begin :=
  ⟨rfl, fun _ done => done, fun _ _ => Iff.rfl⟩

theorem commit {xid : Nat} (runs : transactions.Running xid) : transactions.Advances (transactions.commit xid runs) where
  first := rfl
  completed := fun _ done => done.imp (mem_cons_of_mem xid) id
  committed := by
    intro other done
    refine ⟨fun mem => ?_, mem_cons_of_mem xid⟩
    rcases mem_cons.mp mem with rfl | old
    · exact absurd done runs.uncompleted
    · exact old

theorem abort {xid : Nat} (runs : transactions.Running xid) : transactions.Advances (transactions.abort xid runs) :=
  ⟨rfl, fun _ done => done.imp id (mem_cons_of_mem xid), fun _ _ => Iff.rfl⟩

theorem mem_committed {pre post : Transactions} (advances : pre.Advances post) {xid : Nat}
    (mem : xid ∈ pre.committed) : xid ∈ post.committed :=
  (advances.committed xid (.inl mem)).mpr mem

end Advances

theorem Running.begin {xid : Nat} (runs : transactions.Running xid) : transactions.begin.Running xid :=
  ⟨runs.first_le, runs.lt_next.trans (Nat.lt_succ_self _), runs.uncompleted⟩

theorem Running.commit {xid other : Nat} (runs : transactions.Running xid) (ends : transactions.Running other)
    (apart : xid ≠ other) : (transactions.commit other ends).Running xid := by
  refine ⟨runs.first_le, runs.lt_next, fun completed => runs.uncompleted (completed.imp_left fun mem => ?_)⟩
  exact (mem_cons.mp mem).resolve_left apart

theorem Running.abort {xid other : Nat} (runs : transactions.Running xid) (ends : transactions.Running other)
    (apart : xid ≠ other) : (transactions.abort other ends).Running xid := by
  refine ⟨runs.first_le, runs.lt_next, fun completed => runs.uncompleted (completed.imp_right fun mem => ?_)⟩
  exact (mem_cons.mp mem).resolve_left apart

/-- A snapshot that was taken of the transactions at some time, by one that
may still run. -/
structure Taken (transactions : Transactions) (own : Option Nat) (snapshot : Snapshot) : Prop where
  bounds : snapshot.xmin ≤ snapshot.xmax
  before : ∀ xid, xid < transactions.first → snapshot.sees xid = true
  completed : ∀ xid, transactions.first ≤ xid → snapshot.sees xid = true →
    transactions.Completed xid ∨ own = some xid

namespace Taken

variable {own : Option Nat} {snapshot : Snapshot}

theorem fresh (transactions : Transactions) (own : Nat) : transactions.Taken (some own) (transactions.snapshot own) where
  bounds := xmin_le_xmax
  before := fun _ => sees_of_lt_first
  completed := fun _ given seen => (completed_of_sees seen given).imp id fun same => congrArg some same.symm

theorem unassigned (transactions : Transactions) : transactions.Taken none (transactions.snapshot transactions.next) where
  bounds := xmin_le_xmax
  before := fun _ => sees_of_lt_first
  completed := by
    intro xid given seen
    rcases completed_of_sees seen given with done | rfl
    · exact .inl done
    · exact absurd (Iff.mp sees_snapshot seen).1 (Nat.not_lt.mpr xmax_le_next)

theorem advance {post : Transactions} (taken : transactions.Taken own snapshot)
    (advances : transactions.Advances post) : post.Taken own snapshot where
  bounds := taken.bounds
  before := fun xid below => taken.before xid (advances.first ▸ below)
  completed := fun xid given seen =>
    (taken.completed xid (advances.first ▸ given) seen).imp_left (advances.completed xid)

theorem finish (taken : transactions.Taken own snapshot) (done : ∀ xid ∈ own, transactions.Completed xid) :
    transactions.Taken none snapshot where
  bounds := taken.bounds
  before := taken.before
  completed := fun xid given seen =>
    (taken.completed xid given seen).elim .inl fun same => .inl (done xid (Option.mem_def.mpr same))

theorem assign (taken : transactions.Taken none snapshot) : transactions.Taken own snapshot where
  bounds := taken.bounds
  before := taken.before
  completed := fun xid given seen => (taken.completed xid given seen).elim .inl nofun

end Taken

end Transactions

end Hopper.Kernel
