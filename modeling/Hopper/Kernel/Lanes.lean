import Mathlib.Data.List.Basic
import Mathlib.Data.List.Sort
import Mathlib.Logic.Function.Basic

/-! Numbered operations, each on one cell of many. What a run leaves in a cell
and what it answers there depends on the cell's own operations alone, so a run
may take the cells' operations in any order that keeps each cell's, and leave
out those that find nothing to do. -/

namespace Hopper.Kernel.Lanes

open List

variable {Lane Cell Answer : Type} [DecidableEq Lane] (lane : Nat → Lane) (act : Nat → Cell → Cell)
  (answer : Nat → Cell → Answer)

def step (cells : Lane → Cell) (op : Nat) : Lane → Cell :=
  Function.update cells (lane op) (act op (cells (lane op)))

def run (ops : List Nat) (cells : Lane → Cell) : Lane → Cell :=
  ops.foldl (step lane act) cells

def answers : List Nat → (Lane → Cell) → List Answer
  | [], _ => []
  | op :: ops, cells => answer op (cells (lane op)) :: answers ops (step lane act cells op)

def own (which : Lane) (ops : List Nat) : List Nat :=
  ops.filter fun op => decide (lane op = which)

def cellRun (ops : List Nat) (cell : Cell) : Cell :=
  ops.foldl (fun cell op => act op cell) cell

/-- A cell before an operation on it, all operations taken in turn. -/
def cellBefore (cells : Lane → Cell) (op : Nat) : Cell :=
  cellRun act (own lane (lane op) (List.range op)) (cells (lane op))

variable {lane act answer} {ops : List Nat}

theorem mem_own {which : Lane} {op : Nat} : op ∈ own lane which ops ↔ op ∈ ops ∧ lane op = which := by
  simp [own]

theorem cellRun_snoc (ops : List Nat) (op : Nat) (cell : Cell) :
    cellRun act (ops ++ [op]) cell = act op (cellRun act ops cell) := by
  simp [cellRun]

theorem run_apply (ops : List Nat) (cells : Lane → Cell) (which : Lane) :
    run lane act ops cells which = cellRun act (own lane which ops) (cells which) := by
  induction ops generalizing cells with
  | nil => rfl
  | cons op ops ih =>
    rw [run, foldl_cons, ← run, ih, step, own, own, filter_cons]
    by_cases here : lane op = which
    · subst here
      rw [Function.update_self, if_pos (decide_eq_true rfl)]
      rfl
    · rw [Function.update_of_ne (Ne.symm here), if_neg (by simpa using here)]

theorem run_append (ops later : List Nat) (cells : Lane → Cell) :
    run lane act (ops ++ later) cells = run lane act later (run lane act ops cells) :=
  foldl_append

theorem answers_append (ops later : List Nat) (cells : Lane → Cell) : answers lane act answer (ops ++ later) cells =
      answers lane act answer ops cells ++ answers lane act answer later (run lane act ops cells) := by
  induction ops generalizing cells with
  | nil => rfl
  | cons op ops ih =>
    rw [cons_append, answers, answers, ih, cons_append]
    rfl

theorem answers_eq {cells : Lane → Cell} {given : Nat → Answer}
    (stands : ∀ pre op post, ops = pre ++ op :: post → answer op (run lane act pre cells (lane op)) = given op) :
    answers lane act answer ops cells = ops.map given := by
  induction ops generalizing cells with
  | nil => rfl
  | cons op ops ih =>
    rw [answers, map_cons, ih]
    · rw [← stands [] op ops rfl]
      rfl
    · intro pre other post split
      exact stands (op :: pre) other post (by rw [split, cons_append])

private theorem eq_of_increasing {left right : List Nat} (leftSorted : left.Pairwise (· < ·))
    (rightSorted : right.Pairwise (· < ·)) (same : ∀ op, op ∈ left ↔ op ∈ right) : left = right := by
  refine List.Perm.eq_of_pairwise (fun _ _ _ _ less more => ?_) leftSorted rightSorted ?_
  · exact absurd less (Nat.lt_asymm more)
  · exact (perm_ext_iff_of_nodup (leftSorted.imp Nat.ne_of_lt) (rightSorted.imp Nat.ne_of_lt)).mpr same

theorem own_range_sorted (which : Lane) (count : Nat) : (own lane which (List.range count)).Pairwise (· < ·) :=
  List.Pairwise.filter _ pairwise_lt_range

theorem cellBefore_eq (cells : Lane → Cell) {op last : Nat} (less : last < op) (same : lane last = lane op)
    (between : ∀ other, last < other → other < op → lane other ≠ lane op) :
    cellBefore lane act cells op = act last (cellBefore lane act cells last) := by
  have split : own lane (lane op) (List.range op) = own lane (lane op) (List.range last) ++ [last] := by
    refine eq_of_increasing (own_range_sorted _ _) ?_ fun other => ?_
    · refine pairwise_append.mpr ⟨own_range_sorted _ _, pairwise_singleton _ _, fun other mem one isLast => ?_⟩
      rw [mem_singleton.mp isLast]
      exact mem_range.mp (mem_own.mp mem).1
    · rw [List.mem_append, mem_singleton, mem_own, mem_own, mem_range, mem_range]
      constructor
      · intro ⟨earlier, own⟩
        rcases Nat.lt_trichotomy other last with pre | is | after
        · exact .inl ⟨pre, own⟩
        · exact .inr is
        · exact absurd own (between other after earlier)
      · intro found
        rcases found with ⟨pre, own⟩ | rfl
        · exact ⟨pre.trans less, own⟩
        · exact ⟨less, same⟩
  rw [cellBefore, split, cellRun_snoc, cellBefore, same]

section
variable {View : Type} {view : Cell → View} {cells : Lane → Cell} {count : Nat} {kept : Nat → Bool} {schedule : List Nat}
  (congr : ∀ op cell other, view cell = view other → view (act op cell) = view (act op other)) {op : Nat}

include congr in
theorem cellRun_kept (idle : ∀ op < count, kept op = false →
      view (act op (cellBefore lane act cells op)) = view (cellBefore lane act cells op)) (which : Lane) :
    view (cellRun act ((own lane which (List.range count)).filter kept) (cells which)) =
      view (cellRun act (own lane which (List.range count)) (cells which)) := by
  induction count with
  | zero => rfl
  | succ last ih =>
    have pre := ih fun op less => idle op (Nat.lt_succ_of_lt less)
    rw [range_succ, own, filter_append, ← own, filter_append]
    by_cases here : lane last = which
    · subst here
      rw [filter_singleton, decide_eq_true rfl, cond_true, cellRun_snoc]
      cases keeps : kept last with
      | true =>
        rw [filter_singleton, keeps, cond_true, cellRun_snoc]
        exact congr last _ _ pre
      | false =>
        rw [filter_singleton, keeps, cond_false, append_nil, pre]
        exact (idle last (Nat.lt_succ_self last) keeps).symm
    · rw [filter_singleton, decide_eq_false here, cond_false, filter_nil, append_nil, append_nil, pre]

def cellAt (lane : Nat → Lane) (act : Nat → Cell → Cell) (schedule : List Nat) (cells : Lane → Cell) (op : Nat) : Cell :=
  run lane act (schedule.takeWhile fun other => decide (other ≠ op)) cells (lane op)

theorem takeWhile_split {pre post : List Nat} (nodup : (pre ++ op :: post).Nodup) :
    (pre ++ op :: post).takeWhile (fun other => decide (other ≠ op)) = pre := by
  have others (other : Nat) (mem : other ∈ pre) : decide (other ≠ op) = true :=
    decide_eq_true ((nodup_append.mp nodup).2.2 other mem op mem_cons_self)
  rw [takeWhile_append_of_pos others, takeWhile_cons_of_neg (by simp), append_nil]

theorem answers_nodup {ops : List Nat} (nodup : ops.Nodup) (cells : Lane → Cell) :
    answers lane act answer ops cells = ops.map fun op => answer op (cellAt lane act ops cells op) := by
  refine answers_eq fun pre op post split => ?_
  subst split
  rw [cellAt, takeWhile_split nodup]

variable (ordered : schedule.Pairwise fun first second => lane first = lane second → first < second)
include ordered

private theorem own_sorted (which : Lane) : (own lane which schedule).Pairwise (· < ·) := by
  refine (List.Pairwise.filter _ ordered).imp_of_mem fun {first second} firstOwn secondOwn less => ?_
  exact less ((mem_own.mp firstOwn).2.trans (mem_own.mp secondOwn).2.symm)

variable (members : ∀ op, op ∈ schedule ↔ op < count ∧ kept op = true)
include congr members

theorem run_schedule (idle : ∀ op < count, kept op = false →
      view (act op (cellBefore lane act cells op)) = view (cellBefore lane act cells op)) (which : Lane) :
    view (run lane act schedule cells which) = view (run lane act (List.range count) cells which) := by
  rw [run_apply, run_apply, ← cellRun_kept congr idle which]
  refine congrArg (fun ops => view (cellRun act ops _)) (eq_of_increasing (own_sorted ordered which) ?_ fun op => ?_)
  · exact List.Pairwise.filter _ (own_range_sorted which count)
  · rw [mem_filter, mem_own, mem_own, members, mem_range]
    tauto

theorem cellAt_schedule (nodup : schedule.Nodup) (listed : op ∈ schedule) (idle : ∀ other < op, kept other = false →
      view (act other (cellBefore lane act cells other)) = view (cellBefore lane act cells other)) :
    view (cellAt lane act schedule cells op) = view (cellBefore lane act cells op) := by
  obtain ⟨pre, after, split⟩ := append_of_mem listed
  rw [split] at nodup
  rw [cellAt, split, takeWhile_split nodup]
  rw [split, pairwise_append, pairwise_cons] at ordered
  obtain ⟨first, ⟨later, _⟩, across⟩ := ordered
  have within : op < count := ((members op).mp listed).1
  rw [run_apply, cellBefore, ← cellRun_kept congr idle]
  refine congrArg (fun ops => view (cellRun act ops _)) (eq_of_increasing (own_sorted first _) ?_ fun other => ?_)
  · exact List.Pairwise.filter _ (own_range_sorted _ op)
  · rw [mem_filter, mem_own, mem_own, mem_range]
    constructor
    · intro ⟨mem, same⟩
      have kept := ((members other).mp (by simp [split, mem])).2
      exact ⟨⟨across other mem op mem_cons_self same, same⟩, kept⟩
    · intro ⟨⟨less, same⟩, kept⟩
      have mem := (members other).mpr ⟨less.trans within, kept⟩
      rw [split, List.mem_append, mem_cons] at mem
      rcases mem with earlier | rfl | after
      · exact ⟨earlier, same⟩
      · exact absurd less (Nat.lt_irrefl _)
      · exact absurd (later other after same.symm) (Nat.lt_asymm less)

end

theorem answers_range (cells : Lane → Cell) (count : Nat) : answers lane act answer (List.range count) cells =
      (List.range count).map fun op => answer op (cellBefore lane act cells op) := by
  have members (op : Nat) : op ∈ List.range count ↔ op < count ∧ (fun _ => true) op = true := by simp
  have ordered : (List.range count).Pairwise fun first second => lane first = lane second → first < second := by
    refine List.Pairwise.imp ?_ pairwise_lt_range
    exact fun less _ => less
  rw [answers_nodup nodup_range]
  refine map_congr_left fun op listed => congrArg (answer op) ?_
  have congr (op : Nat) (cell other : Cell) (same : id cell = id other) : id (act op cell) = id (act op other) :=
    congrArg (act op) same
  exact cellAt_schedule congr ordered members nodup_range listed nofun

end Hopper.Kernel.Lanes
