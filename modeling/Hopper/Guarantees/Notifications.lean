import Hopper.Client.Notifier
import Mathlib.Algebra.Order.Ring.Int
import Mathlib.Tactic.Common

/-! The notifier loses no mark, counts the timers that have yet to finish, and a call
of `flushNow` leaves none of those armed before it. -/

namespace Hopper.Guarantees

open List Option Client

/-- A timer armed or firing, or a call of `flushNow`, that has yet to flush. -/
def YetToFlush (thread : FlushThread) : Prop :=
  thread.point ≠ .ended ∧ ∀ held, thread.point ≠ .sending held

def Sends (thread : FlushThread) (mark : Mark) : Prop :=
  ∃ held, thread.point = .sending held ∧ mark ∈ held

/-- A timer that was armed, was not stopped and has not finished. -/
def unfinished (thread : FlushThread) : Bool :=
  thread.call.isNone && thread.point != .ended

/-- No timer of the first `began` threads is armed, and none of their flushes is under
way. -/
def QuietBefore (threads : List FlushThread) (began : Nat) : Prop :=
  ∀ id < began, ∀ thread, threads[id]? = some thread → unfinished thread = false

/-- The timer pointed to has not begun its flush. -/
def Pointed (thread : FlushThread) : Prop :=
  (thread.point = .armed ∨ thread.point = .expired) ∧ thread.call = none

/-- A call that has left its loop, or has returned, with its context live left no
timer that was there when it began. -/
def DrainedCall (threads : List FlushThread) (thread : FlushThread) : Prop :=
  ∀ call, thread.call = some call → call.began ≤ threads.length ∧
    (thread.point ≠ .looping → thread.point ≠ .waiting → thread.point ≠ .ended →
      call.ctxEnded = true ∨ QuietBefore threads call.began) ∧
    (call.live = true → QuietBefore threads call.began)

structure NotifierHolds (n : Notifier) : Prop where
  pointer : ∀ id, n.timer = some id → ∃ thread, n.threads[id]? = some thread ∧ Pointed thread
  counted : n.timers = n.threads.countP unfinished
  carried : n.pending ≠ [] → ∃ thread ∈ n.threads, YetToFlush thread
  owed : ∀ mark ∈ n.owed, mark ∈ n.pending ∨ ∃ thread ∈ n.threads, Sends thread mark
  drained : ∀ thread ∈ n.threads, DrainedCall n.threads thread

section

variable {threads : List FlushThread} {old new thread : FlushThread} {id : Nat}

section
variable (found : threads[id]? = some old)
include found

theorem mem_set_of_ne (mem : thread ∈ threads) (other : thread ≠ old) :
    thread ∈ threads.set id new := by
  obtain ⟨i, at_i⟩ := mem_iff_getElem?.mp mem
  refine mem_iff_getElem?.mpr ⟨i, ?_⟩
  rwa [getElem?_set_ne]
  rintro rfl
  exact other (some.inj (at_i.symm.trans found))

theorem mem_set_self : new ∈ threads.set id new :=
  List.mem_set (List.getElem?_eq_some_iff.mp found).1 new

theorem exists_mem_set {P : FlushThread → Prop} (kept : P old → P new)
    (exists_mem : ∃ thread ∈ threads, P thread) : ∃ thread ∈ threads.set id new, P thread := by
  obtain ⟨thread, mem, holds⟩ := exists_mem
  by_cases same : thread = old
  · exact ⟨new, mem_set_self found, kept (same ▸ holds)⟩
  · exact ⟨thread, mem_set_of_ne found mem same, holds⟩

end

theorem QuietBefore.set {began : Nat} (quiet : QuietBefore threads began) (found : threads[id]? = some old)
    (ends : unfinished new = true → unfinished old = true) : QuietBefore (threads.set id new) began := by
  intro i pre thread at_i
  by_cases same : id = i
  · subst same
    rw [getElem?_set_self (List.getElem?_eq_some_iff.mp found).1] at at_i
    cases at_i
    exact Bool.eq_false_iff.mpr fun unended => Bool.eq_false_iff.mp (quiet id pre old found) (ends unended)
  · rw [getElem?_set_ne same] at at_i
    exact quiet i pre thread at_i

theorem DrainedCall.mono {post : List FlushThread} (drained : DrainedCall threads thread) (longer : threads.length ≤ post.length)
    (quiet : ∀ began ≤ threads.length, QuietBefore threads began → QuietBefore post began) : DrainedCall post thread := by
  intro call isCall
  obtain ⟨began, left, returned⟩ := drained call isCall
  exact ⟨began.trans longer, fun a b c => (left a b c).imp_right (quiet _ began), fun live => quiet _ began (returned live)⟩

theorem DrainedCall.moved {point : FlushPoint} {call : Option FlushCall} (drained : DrainedCall threads ⟨point, call⟩)
    (post : FlushPoint) (looping : point ≠ .looping) (waiting : point ≠ .waiting) (ended : point ≠ .ended) :
    DrainedCall threads ⟨post, call⟩ := by
  intro found isCall
  obtain ⟨began, left, returned⟩ := drained found isCall
  exact ⟨began, fun _ _ _ => left looping waiting ended, returned⟩

theorem woken_eq (asleep : thread.point ≠ .waiting) : thread.woken = thread :=
  if_neg asleep

theorem unfinished_woken (thread : FlushThread) : unfinished thread.woken = unfinished thread := by
  unfold FlushThread.woken
  split
  next waits =>
    simp only [unfinished, waits]
    rfl
  next => rfl

theorem quiet_of_countP (none : threads.countP unfinished = 0) (began : Nat) : QuietBefore threads began := by
  intro i _ thread found
  exact Bool.eq_false_iff.mpr (countP_eq_zero.mp none thread (mem_of_getElem? found))

end

namespace NotifierHolds

variable {n : Notifier} {old new : FlushThread} {id : Nat} {pending owed : List Mark} {timer : Option Nat}
variable {timers : Int}

section
variable (holds : NotifierHolds n)
include holds

theorem set (found : n.threads[id]? = some old) (pointer : timer = none ∨ timer = n.timer ∧ (Pointed old → Pointed new))
    (counted : timers + (if unfinished old then 1 else 0) = n.timers + if unfinished new then 1 else 0)
    (ends : unfinished new = true → unfinished old = true)
    (carried : pending ≠ [] → pending = n.pending ∧ (YetToFlush old → ∃ thread ∈ n.threads.set id new, YetToFlush thread))
    (owes : ∀ mark ∈ owed, mark ∈ n.owed ∧ (mark ∈ n.pending → mark ∈ pending ∨ Sends new mark) ∧ (Sends old mark → Sends new mark))
    (drained : DrainedCall n.threads new) :
    NotifierHolds { n with pending, timer, timers, owed, threads := n.threads.set id new } where
  pointer i points := by
    rcases pointer with none | ⟨rfl, kept⟩
    · rw [none] at points
      cases points
    · obtain ⟨thread, at_i, pointed⟩ := holds.pointer i points
      by_cases same : id = i
      · subst same
        cases found.symm.trans at_i
        exact ⟨new, getElem?_set_self (List.getElem?_eq_some_iff.mp found).1, kept pointed⟩
      · exact ⟨thread, (getElem?_set_ne same).trans at_i, pointed⟩
  counted := by
    obtain ⟨within, rfl⟩ := List.getElem?_eq_some_iff.mp found
    have sum := countP_set (p := unfinished) (a := new) within
    have held := boole_getElem_le_countP (p := unfinished) within
    have pre := holds.counted
    dsimp only
    split_ifs at counted sum held <;> omega
  carried marked := by
    obtain ⟨rfl, kept⟩ := carried marked
    obtain ⟨thread, mem, due⟩ := holds.carried marked
    by_cases same : thread = old
    · exact kept (same ▸ due)
    · exact ⟨thread, mem_set_of_ne found mem same, due⟩
  owed mark mem := by
    obtain ⟨pre, moved, kept⟩ := owes mark mem
    rcases holds.owed mark pre with waits | sends
    · exact (moved waits).imp_right fun sent => ⟨new, mem_set_self found, sent⟩
    · exact .inr (exists_mem_set found kept sends)
  drained thread mem := by
    have longer : n.threads.length ≤ (n.threads.set id new).length := length_set.ge
    rcases mem_or_eq_of_mem_set mem with kept | rfl
    · exact (holds.drained thread kept).mono longer fun _ _ quiet => quiet.set found ends
    · exact drained.mono longer fun _ _ quiet => quiet.set found ends

theorem append
    (pointer : timer = n.timer ∨ timer = some n.threads.length ∧ Pointed new)
    (counted : timers = n.timers + if unfinished new then 1 else 0) (due : YetToFlush new)
    (pends : ∀ mark ∈ n.pending, mark ∈ pending) (owes : ∀ mark ∈ owed, mark ∈ n.owed ∨ mark ∈ pending)
    (drained : DrainedCall (n.threads ++ [new]) new) :
    NotifierHolds { n with pending, timer, timers, owed, threads := n.threads ++ [new] } where
  pointer i points := by
    rcases pointer with rfl | ⟨rfl, pointed⟩
    · obtain ⟨thread, at_i, pointed⟩ := holds.pointer i points
      exact ⟨thread, getElem?_append_left (List.getElem?_eq_some_iff.mp at_i).1 ▸ at_i, pointed⟩
    · cases points
      exact ⟨new, getElem?_concat_length, pointed⟩
  counted := by
    rw [counted, holds.counted, countP_append, countP_singleton]
    split_ifs <;> rfl
  carried _ := ⟨new, mem_append_right _ mem_cons_self, due⟩
  owed mark mem := by
    rcases owes mark mem with pre | waits
    · refine (holds.owed mark pre).imp (pends mark) ?_
      rintro ⟨thread, mem, sends⟩
      exact ⟨thread, mem_append_left _ mem, sends⟩
    · exact .inl waits
  drained thread mem := by
    rcases List.mem_append.mp mem with kept | made
    · refine (holds.drained thread kept).mono (by rw [length_append]; omega) fun began bound quiet i pre thread at_i => ?_
      exact quiet i pre thread (getElem?_append_left (pre.trans_le bound) ▸ at_i)
    · obtain rfl := mem_singleton.mp made
      exact drained

theorem mark (mark : Mark) :
    NotifierHolds { n with pending := n.pending.insert mark, owed := n.owed.insert mark }.arm := by
  have pends : ∀ other ∈ n.pending, other ∈ n.pending.insert mark := fun _ => mem_insert_of_mem
  have owes : ∀ other ∈ n.owed.insert mark, other ∈ n.owed ∨ other ∈ n.pending.insert mark := by
    intro other mem
    rcases mem_insert_iff.mp mem with rfl | before
    · exact .inr mem_insert_self
    · exact .inl before
  unfold Notifier.arm
  split
  next unarmed => exact holds.append (.inr ⟨rfl, .inl rfl, rfl⟩) rfl ⟨nofun, nofun⟩ pends owes nofun
  next armed =>
    obtain ⟨id, points⟩ := ne_none_iff_exists'.mp armed
    obtain ⟨thread, found, pointed⟩ := holds.pointer id points
    refine ⟨holds.pointer, holds.counted, fun _ => ⟨thread, mem_of_getElem? found, ?_⟩, fun other mem => ?_, holds.drained⟩
    · rcases pointed.1 with point | point <;> rw [YetToFlush, point] <;> exact ⟨nofun, nofun⟩
    · rcases owes other mem with before | waits
      · exact (holds.owed other before).imp_left (pends other)
      · exact .inl waits

theorem flushNow : NotifierHolds
    { n with threads := n.threads ++ [⟨.looping, some { began := n.threads.length }⟩] } := by
  refine holds.append (.inl rfl) (add_zero _).symm ⟨nofun, nofun⟩ (fun _ => id) (fun _ => .inl) ?_
  intro call isCall
  cases isCall
  exact ⟨by rw [length_append]; exact Nat.le_add_right _ _, fun outside => absurd rfl outside, nofun⟩

theorem broadcast : NotifierHolds n.broadcast where
  pointer i points := by
    obtain ⟨thread, at_i, pointed⟩ := holds.pointer i points
    have asleep : thread.point ≠ .waiting := by rcases pointed.1 with point | point <;> rw [point] <;> nofun
    exact ⟨thread, by rw [Notifier.broadcast, getElem?_map, at_i, map_some, woken_eq asleep], pointed⟩
  counted := by
    rw [Notifier.broadcast, countP_map]
    exact holds.counted.trans (congrArg (fun p => ((List.countP p n.threads : Nat) : Int)) (funext unfinished_woken).symm)
  carried marked := by
    obtain ⟨thread, mem, due⟩ := holds.carried marked
    refine ⟨thread.woken, mem_map_of_mem mem, ?_⟩
    unfold FlushThread.woken
    split
    · exact ⟨nofun, nofun⟩
    · exact due
  owed mark mem := by
    refine (holds.owed mark mem).imp_right ?_
    rintro ⟨thread, mem, held, point, among⟩
    have asleep : thread.point ≠ .waiting := by rw [point]; nofun
    exact ⟨thread, woken_eq asleep ▸ mem_map_of_mem mem, held, point, among⟩
  drained woken mem := by
    obtain ⟨thread, pre, rfl⟩ := mem_map.mp mem
    have kept : DrainedCall n.threads thread.woken := by
      unfold FlushThread.woken
      split
      next =>
        intro call isCall
        obtain ⟨began, _, returned⟩ := holds.drained thread pre call isCall
        exact ⟨began, fun outside => absurd rfl outside, returned⟩
      next => exact holds.drained thread pre
    refine kept.mono (length_map _).ge fun began _ quiet i earlier thread at_i => ?_
    rw [Notifier.broadcast, getElem?_map] at at_i
    obtain ⟨asleep, found, rfl⟩ := map_eq_some_iff.mp at_i
    rw [unfinished_woken]
    exact quiet i earlier asleep found

theorem stopTimer {call : Option FlushCall} (looping : n.threads[id]? = some ⟨.looping, call⟩) :
    NotifierHolds n.stopTimer ∧ n.stopTimer.threads[id]? = some ⟨.looping, call⟩ := by
  unfold Notifier.stopTimer
  split
  next timer points =>
    split
    next armed =>
      have other : timer ≠ id := by
        rintro rfl
        cases armed.2.symm.trans looping
      have still : (n.threads.set timer ⟨.ended, none⟩)[id]? = some ⟨.looping, call⟩ :=
        (getElem?_set_ne other).trans looping
      refine ⟨holds.set armed.2 (.inl rfl) ?_ nofun (fun _ => ⟨rfl, fun _ => ?_⟩) ?_ nofun, still⟩
      · exact (Int.sub_add_cancel n.timers 1).trans (Int.add_zero n.timers).symm
      · exact ⟨_, mem_of_getElem? still, nofun, nofun⟩
      · exact fun mark owed => ⟨owed, .inl, nofun⟩
    next => exact ⟨holds, looping⟩
  next => exact ⟨holds, looping⟩

/-- A call leaves its loop once no timer is counted, or once its context has ended. -/
theorem loop {call : FlushCall} (looping : n.threads[id]? = some ⟨.looping, some call⟩)
    {point : FlushPoint} (turned : point = .waiting ∨ point = .flushing ∧ ¬(0 < n.timers ∧ (!call.ctxEnded) = true)) :
    NotifierHolds { n with threads := n.threads.set id ⟨point, some call⟩ } := by
  obtain ⟨began, _, returned⟩ := holds.drained _ (mem_of_getElem? looping) call rfl
  have due : YetToFlush ⟨point, some call⟩ := by rcases turned with rfl | ⟨rfl, _⟩ <;> exact ⟨nofun, nofun⟩
  refine holds.set looping (.inr ⟨rfl, nofun⟩) rfl nofun (fun _ => ⟨rfl, fun _ => ⟨_, mem_set_self looping, due⟩⟩)
    (fun mark owed => ⟨owed, .inl, nofun⟩) fun again isCall => ?_
  cases isCall
  refine ⟨began, fun _ outside _ => ?_, returned⟩
  obtain ⟨_, leaves⟩ := turned.resolve_left outside
  by_cases ended : call.ctxEnded = true
  · exact .inl ended
  · have none : ¬0 < n.timers := fun some => leaves ⟨some, by rw [Bool.eq_false_iff.mpr ended]; rfl⟩
    have counted := holds.counted
    exact .inr (quiet_of_countP (by omega) _)

theorem step {next : Notifier} {act : NotifierAct} (stepped : n.step act = some next) :
    NotifierHolds next := by
  cases act with
  | mark mark =>
    cases stepped
    exact holds.mark mark
  | flushNow =>
    cases stepped
    exact holds.flushNow
  | expire id =>
    simp only [Notifier.step] at stepped
    split at stepped
    next call found =>
      cases stepped
      have drained := (holds.drained _ (mem_of_getElem? found)).moved .expired nofun nofun nofun
      exact holds.set found (.inr ⟨rfl, fun pointed => ⟨.inr rfl, pointed.2⟩⟩) rfl (fun kept => kept)
        (fun _ => ⟨rfl, fun _ => ⟨_, mem_set_self found, nofun, nofun⟩⟩) (fun mark owed => ⟨owed, .inl, nofun⟩) drained
    next => cases stepped
  | fire id =>
    simp only [Notifier.step] at stepped
    split at stepped
    next call found =>
      cases stepped
      have drained := (holds.drained _ (mem_of_getElem? found)).moved .flushing nofun nofun nofun
      exact holds.set found (.inl rfl) rfl (fun kept => kept) (fun _ => ⟨rfl, fun _ => ⟨_, mem_set_self found, nofun, nofun⟩⟩)
        (fun mark owed => ⟨owed, .inl, nofun⟩) drained
    next => cases stepped
  | endCtx id =>
    simp only [Notifier.step] at stepped
    split at stepped
    next point call found =>
      cases stepped
      obtain ⟨began, _, returned⟩ := holds.drained _ (mem_of_getElem? found) call rfl
      refine NotifierHolds.broadcast (n := { n with threads := n.threads.set id ⟨point, some { call with ctxEnded := true }⟩ }) ?_
      refine holds.set found (.inr ⟨rfl, fun pointed => absurd pointed.2 nofun⟩) rfl nofun
        (fun _ => ⟨rfl, fun due => ⟨_, mem_set_self found, due⟩⟩) (fun mark owed => ⟨owed, .inl, fun sends => sends⟩)
        fun again isCall => ?_
      cases isCall
      exact ⟨began, fun _ _ _ => .inl rfl, returned⟩
    next => cases stepped
  | loop id =>
    simp only [Notifier.step] at stepped
    split at stepped
    next call found =>
      cases stepped
      obtain ⟨stopped, looping⟩ := holds.stopTimer found
      refine stopped.loop looping ?_
      split
      next => exact .inl rfl
      next leaves => exact .inr ⟨rfl, leaves⟩
    next => cases stepped
  | flush id =>
    simp only [Notifier.step] at stepped
    split at stepped
    next call found =>
      cases stepped
      have drained := (holds.drained _ (mem_of_getElem? found)).moved (.sending n.pending) nofun nofun nofun
      exact holds.set found (.inr ⟨rfl, fun pointed => pointed.1.elim nofun nofun⟩) rfl (fun kept => kept) (fun some => absurd rfl some)
        (fun mark owed => ⟨owed, fun waits => .inr ⟨_, rfl, waits⟩, nofun⟩) drained
    next => cases stepped
  | notify id =>
    simp only [Notifier.step] at stepped
    split at stepped
    next held call found =>
      obtain ⟨_, sent⟩ := ite_none_left_eq_some.mp stepped
      cases sent
      have drained := (holds.drained _ (mem_of_getElem? found)).moved (.sending (held.filter (· ∉ handed held))) nofun nofun nofun
      refine holds.set found (.inr ⟨rfl, fun pointed => pointed.1.elim nofun nofun⟩) rfl (fun kept => kept)
        (fun _ => ⟨rfl, fun due => absurd rfl (due.2 held)⟩) (fun mark owed => ?_) drained
      obtain ⟨pre, unsent⟩ := mem_filter.mp owed
      refine ⟨pre, .inl, ?_⟩
      rintro ⟨_, same, among⟩
      cases same
      exact ⟨_, rfl, mem_filter.mpr ⟨among, unsent⟩⟩
    next => cases stepped
  | finish id =>
    simp only [Notifier.step] at stepped
    split at stepped
    next found =>
      cases stepped
      refine NotifierHolds.broadcast (n := { n with timers := n.timers - 1, threads := n.threads.set id ⟨.ended, none⟩ }) ?_
      refine holds.set found (.inr ⟨rfl, fun pointed => pointed.1.elim nofun nofun⟩) ?_ nofun
        (fun _ => ⟨rfl, fun due => absurd rfl (due.2 [])⟩) (fun mark owed => ⟨owed, .inl, ?_⟩) nofun
      · exact (Int.sub_add_cancel n.timers 1).trans (Int.add_zero n.timers).symm
      rintro ⟨_, same, among⟩
      cases same
      cases among
    next call found =>
      cases stepped
      obtain ⟨began, left, _⟩ := holds.drained _ (mem_of_getElem? found) call rfl
      refine holds.set found (.inr ⟨rfl, fun pointed => absurd pointed.2 nofun⟩) rfl nofun
        (fun _ => ⟨rfl, fun due => absurd rfl (due.2 [])⟩) (fun mark owed => ⟨owed, .inl, ?_⟩) fun again isCall => ?_
      · rintro ⟨_, same, among⟩
        cases same
        cases among
      · cases isCall
        refine ⟨began, fun _ _ unended => absurd rfl unended, fun live => ?_⟩
        refine (left nofun nofun nofun).resolve_left fun ended => ?_
        rw [ended] at live
        cases live
    next => cases stepped

end

theorem reached (reached : NotifierReached n) : NotifierHolds n := by
  induction reached with
  | start => exact ⟨nofun, rfl, fun some => absurd rfl some, nofun, nofun⟩
  | step _ _ stepped ih => exact ih.step stepped

end NotifierHolds

/-- A mark that was not handed to `Notify` since is pending, with a timer armed or
firing or a call of `flushNow` that has yet to flush, or a flush holds it; the timers
counted are those armed whose flush has not finished; and where a call of `flushNow`
returned with its context live, no timer armed before it began is armed, or has a
flush under way. -/
theorem notifier_keeps (n : Notifier) (reached : NotifierReached n) :
    (∀ mark ∈ n.owed, mark ∈ n.pending ∧ (∃ thread ∈ n.threads, YetToFlush thread) ∨ ∃ thread ∈ n.threads, Sends thread mark) ∧
      n.timers = n.threads.countP unfinished ∧
      ∀ thread ∈ n.threads, ∀ call, thread.call = some call → call.live = true → QuietBefore n.threads call.began := by
  have holds := NotifierHolds.reached reached
  refine ⟨fun mark owed => ?_, holds.counted, fun thread member call isCall => (holds.drained thread member call isCall).2.2⟩
  refine (holds.owed mark owed).imp_left fun waits => ⟨waits, holds.carried fun empty => ?_⟩
  rw [empty] at waits
  cases waits

/-- A call stops the timer of a mark, flushes and returns, and a timer armed meanwhile
stays. -/
theorem notifier_keeps_two : ∃ n, NotifierReached n ∧ n.timers = 1 ∧
    (⟨.ended, some ⟨1, false, true⟩⟩ : FlushThread) ∈ n.threads ∧ QuietBefore n.threads 1 := by
  have marked := (NotifierReached.start.step (.mark (.queue "a")) rfl).step .flushNow rfl
  have flushed := (marked.step (.loop 1) rfl).step (.flush 1) rfl
  have again := (flushed.step (.mark (.queue "b")) rfl).step (.notify 1) rfl
  have returned := again.step (.finish 1) rfl
  exact ⟨_, returned, rfl, by decide, (notifier_keeps _ returned).2.2 ⟨.ended, some ⟨1, false, true⟩⟩ (by decide) _ rfl rfl⟩

end Hopper.Guarantees
