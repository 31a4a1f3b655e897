import Hopper.Client.FinalizerSteps

/-! The finalizer's books: where each result that was submitted is, what the
counters of submits count, and what the log budget does. -/

namespace Hopper.Client

open List

/-- The submit may still put its result into the channel. -/
def Submit.enqueues (submit : Submit) : Bool :=
  match submit.stage with
  | .accepted | .waiting _ | .taken | .stamped => true
  | .refused | .handed | .ended => false

/-- The submit has its result: it has not handed it in, nor dropped it. -/
def Submit.undecided (submit : Submit) : Bool :=
  submit.enqueues || decide (submit.stage = .refused)

/-- `submitted` does not count the submit yet. -/
def Submit.inFlight (submit : Submit) : Bool :=
  decide (submit.stage ≠ .ended)

def Submit.room (submit : Submit) : Nat :=
  match submit.stage with
  | .taken | .stamped => submit.pending.logBytes
  | _ => 0

def Loop.flushes : Loop → List Pending
  | .flushing _ batch _ => batch
  | _ => []

def Finalizer.results (f : Finalizer) : List Pending :=
  f.inbox ++ f.batch ++ f.flushed ++ f.dropped

/-- The log bytes of the results accepted and not yet flushed or dropped. -/
def Finalizer.accepted (f : Finalizer) : Nat :=
  (f.goroutines.map Submit.room).sum + bytes f.inbox + bytes f.batch + bytes f.loop.flushes

structure Ledger (f : Finalizer) : Prop where
  count : f.submits / 2 = f.submitted + f.goroutines.countP Submit.inFlight
  tickets : ∀ submit ∈ f.goroutines, submit.pending.ticket < f.submits / 2
  fates : ∀ ticket < f.submits / 2,
    (∃ submit ∈ f.goroutines, submit.undecided = true ∧ submit.pending.ticket = ticket) ∨
      ∃ result ∈ f.results, result.ticket = ticket
  even : ∀ late n idle, f.loop = .swapping late n idle → n % 2 = 0
  budget : f.done = false → f.used = f.accepted

section
variable {tuning : FinalizerTuning} {f next : Finalizer}
variable {result : Pending} {pre post : List Submit} {stage : Stage} {loop : Loop}

theorem bytes_append (first second : List Pending) : bytes (first ++ second) = bytes first + bytes second := by
  simp [bytes]

theorem bytes_cons (result : Pending) (rest : List Pending) : bytes (result :: rest) = result.logBytes + bytes rest := by
  simp [bytes]

theorem bytes_nil : bytes [] = 0 := rfl

theorem bytes_filter (chosen : Pending → Bool) (results : List Pending) :
    bytes (results.filter chosen) + bytes (results.filter fun result => !chosen result) = bytes results := by
  induction results with
  | nil => rfl
  | cons result rest ih =>
    cases drops : chosen result with
    | true => simp [drops, bytes_cons, ← ih, Nat.add_assoc]
    | false => simp [drops, bytes_cons, ← ih, Nat.add_left_comm]

theorem loop_counters (step : LoopStep tuning f loop next) :
    next.goroutines = f.goroutines ∧ next.submitted = f.submitted ∧
      (next.submits = f.submits ∨ ∃ late idle, loop = .swapping late f.submits idle ∧ next.submits = f.submits + 1) := by
  cases step with
  | swap late n idle same =>
    subst same
    exact ⟨rfl, rfl, .inr ⟨late, idle, rfl, rfl⟩⟩
  | _ => exact ⟨rfl, rfl, .inl rfl⟩

theorem loop_results (step : LoopStep tuning f loop next) (mem : result ∈ f.results) : result ∈ next.results := by
  unfold Finalizer.results at mem ⊢
  cases step with
  | late deadline =>
    cases drops : dropsLate deadline result with
    | true | false => simp [drops] at mem ⊢; tauto
  | piece late n =>
    have halves : result ∈ f.batch → result ∈ f.batch.take n ∨ result ∈ f.batch.drop n := by
      rw [← List.mem_append, take_append_drop]
      exact id
    simp at mem ⊢
    tauto
  | keep one rest timer logBytes inbox | fill one rest inbox | collect one rest inbox | receive one rest inbox =>
    simp [inbox] at mem ⊢; tauto
  | fire => simp at mem ⊢; tauto
  | _ => exact mem

theorem loop_budget (given : f.loop = loop) (step : LoopStep tuning f loop next)
    (budget : f.done = false → f.used = f.accepted) : next.done = false → next.used = next.accepted := by
  intro unclosed
  cases step with
  | close => cases unclosed
  | late deadline =>
    have halves := bytes_filter (dropsLate deadline) f.batch
    have pre := budget unclosed
    simp only [Finalizer.accepted, given, Loop.flushes, bytes_nil] at pre ⊢
    omega
  | piece late n =>
    have halves := bytes_append (f.batch.take n) (f.batch.drop n)
    rw [take_append_drop] at halves
    have pre := budget unclosed
    simp only [Finalizer.accepted, given, Loop.flushes, bytes_nil] at pre ⊢
    omega
  | keep one rest timer logBytes inbox | fill one rest inbox | collect one rest inbox | receive one rest inbox =>
    have pre := budget unclosed
    simp only [Finalizer.accepted, given, Loop.flushes, bytes_nil, inbox, bytes_cons, bytes_append] at pre ⊢
    omega
  | fire =>
    have pre := budget unclosed
    simp only [Finalizer.accepted, given, Loop.flushes, bytes_nil] at pre ⊢
    omega
  | flushed late =>
    have absent : (if f.draining = true then Loop.writing late else .running).flushes = [] := by split <;> rfl
    have pre := budget unclosed
    rw [Finalizer.accepted, given, Loop.flushes] at pre
    simp only [Finalizer.accepted, absent, bytes_nil]
    omega
  | report late n same =>
    have absent : (if (same && f.inbox.isEmpty) = true then Loop.returned else .waiting).flushes = [] := by
      split <;> rfl
    have pre := budget unclosed
    simp only [Finalizer.accepted, given, Loop.flushes] at pre
    simpa only [Finalizer.accepted, absent] using pre
  | swap late n idle =>
    have absent : (if idle = true then Loop.returned else .waiting).flushes = [] := by split <;> rfl
    have pre := budget unclosed
    simp only [Finalizer.accepted, given, Loop.flushes] at pre
    simpa only [Finalizer.accepted, absent] using pre
  | _ =>
    have pre := budget unclosed
    simp only [Finalizer.accepted, given, Loop.flushes] at pre ⊢
    exact pre

section
variable (step : SubmitStep tuning f pre post result stage next)
include step

theorem submit_inbox : next.inbox = f.inbox ∨ (Submit.mk result stage).enqueues = true := by
  cases step with
  | send => exact .inr rfl
  | _ => exact .inl rfl

theorem submit_count :
    next.submits = f.submits ∧ next.loop = f.loop ∧ f.submitted ≤ next.submitted ∧
      f.submitted + (pre ++ ⟨result, stage⟩ :: post).countP Submit.inFlight =
        next.submitted + next.goroutines.countP Submit.inFlight := by
  cases step with
  | giveUp stage waits =>
    obtain rfl | ⟨freed, rfl⟩ := waits
    · simp [Submit.inFlight]
    · simp [Submit.inFlight]
  | count => simp [Submit.inFlight]; omega
  | _ => simp [Submit.inFlight]

theorem submit_members {submit : Submit} (mem : submit ∈ next.goroutines) : submit ∈ pre ++ post ∨ submit.pending.ticket = result.ticket ∧
      (submit.enqueues = true → (Submit.mk result stage).enqueues = true) := by
  have replaced : ∀ other : Submit, submit ∈ pre ++ other :: post →
      other.pending.ticket = result.ticket → (other.enqueues = true → (Submit.mk result stage).enqueues = true) →
      submit ∈ pre ++ post ∨ submit.pending.ticket = result.ticket ∧
        (submit.enqueues = true → (Submit.mk result stage).enqueues = true) := by
    intro other mem same enqueues
    rw [List.mem_append, mem_cons] at mem
    rcases mem with early | rfl | later
    · exact .inl (mem_append_left _ early)
    · exact .inr ⟨same, enqueues⟩
    · exact .inl (mem_append_right _ later)
  cases step with
  | leave => exact .inl mem
  | take | wait | retry | stamp => exact replaced _ mem rfl fun _ => rfl
  | send | refuse | count | giveUp => exact replaced _ mem rfl nofun

theorem submit_tickets {bound : Nat} (tickets : ∀ submit ∈ pre ++ ⟨result, stage⟩ :: post, submit.pending.ticket < bound) :
    ∀ submit ∈ next.goroutines, submit.pending.ticket < bound := by
  intro submit mem
  rcases submit_members step mem with other | ⟨same, _⟩
  · exact tickets submit (((sublist_cons_self _ _).append_left _).subset other)
  · rw [same]
    exact tickets ⟨result, stage⟩ (by simp)

variable (there : f.goroutines = pre ++ ⟨result, stage⟩ :: post)
include there

theorem submit_fates {ticket : Nat} (fate : (∃ submit ∈ f.goroutines, submit.undecided = true ∧ submit.pending.ticket = ticket) ∨
      ∃ result ∈ f.results, result.ticket = ticket) :
    (∃ submit ∈ next.goroutines, submit.undecided = true ∧ submit.pending.ticket = ticket) ∨
      ∃ result ∈ next.results, result.ticket = ticket := by
  have others : ∀ (other : Submit) (next : Finalizer), next.goroutines = pre ++ other :: post →
      (∀ kept ∈ f.results, kept ∈ next.results) →
      ((Submit.mk result stage).undecided = true →
        (other.undecided = true ∧ other.pending.ticket = result.ticket) ∨ result ∈ next.results) →
      (∃ submit ∈ next.goroutines, submit.undecided = true ∧ submit.pending.ticket = ticket) ∨
        ∃ result ∈ next.results, result.ticket = ticket := by
    intro other next moved kept own
    rcases fate with ⟨submit, mem, undecided, same⟩ | ⟨one, mem, same⟩
    · rw [there] at mem
      rcases List.mem_append.mp mem with early | late
      · exact .inl ⟨submit, moved ▸ mem_append_left _ early, undecided, same⟩
      · rcases mem_cons.mp late with rfl | later
        · rcases own undecided with ⟨still, equal⟩ | handed
          · exact .inl ⟨other, by simp [moved], still, equal.trans same⟩
          · exact .inr ⟨result, handed, same⟩
        · exact .inl ⟨submit, by simp [moved, later], undecided, same⟩
    · exact .inr ⟨one, kept one mem, same⟩
  cases step with
  | take | wait | retry | stamp => exact others _ _ rfl (fun _ => id) fun _ => .inl ⟨rfl, rfl⟩
  | send | refuse | giveUp =>
    refine others _ _ rfl (fun kept mem => ?_) fun _ => .inr ?_
    · simp only [Finalizer.results, List.mem_append] at mem ⊢
      tauto
    · simp [Finalizer.results]
  | count => exact others _ _ rfl (fun _ => id) nofun
  | leave =>
    rcases fate with ⟨submit, mem, undecided, same⟩ | kept
    · rw [there] at mem
      simp only [List.mem_append, mem_cons] at mem
      rcases mem with early | rfl | later
      · exact .inl ⟨submit, mem_append_left _ early, undecided, same⟩
      · cases undecided
      · exact .inl ⟨submit, mem_append_right _ later, undecided, same⟩
    · exact .inr kept

theorem submit_budget (budget : f.done = false → f.used = f.accepted) :
    next.done = false → next.used = next.accepted := by
  intro unclosed
  cases step with
  | giveUp stage waits done => exact absurd (done.symm.trans unclosed) nofun
  | take | leave =>
    have held := budget unclosed
    simp only [Finalizer.accepted, there, map_append, map_cons, sum_append, sum_cons, Submit.room] at held ⊢
    omega
  | send =>
    have held := budget unclosed
    simp only [Finalizer.accepted, there, map_append, map_cons, sum_append, sum_cons,
      Submit.room, bytes_append, bytes_cons, bytes_nil] at held ⊢
    omega
  | _ =>
    have held := budget unclosed
    simp only [Finalizer.accepted, there, map_append, map_cons, sum_append, sum_cons, Submit.room] at held ⊢
    exact held

end

theorem Ledger.startSubmit (ledger : Ledger f) (result : Pending) : Ledger (f.startSubmit result) where
  count := by
    have counted := ledger.count
    have started : ∀ pending, (Submit.mk pending (if f.submits % 2 = 0 then .accepted else .refused)).inFlight = true := by
      intro pending
      split <;> rfl
    have more : (f.startSubmit result).goroutines.countP Submit.inFlight = f.goroutines.countP Submit.inFlight + 1 := by
      rw [Finalizer.startSubmit, countP_append, countP_singleton, if_pos (started _)]
    rw [more]
    show (f.submits + 2) / 2 = f.submitted + (f.goroutines.countP Submit.inFlight + 1)
    omega
  tickets := by
    intro submit mem
    have below : f.submits / 2 < (f.submits + 2) / 2 := by omega
    rcases List.mem_append.mp mem with old | new
    · exact Nat.lt_trans (ledger.tickets submit old) below
    · rw [mem_singleton.mp new]
      exact below
  fates := by
    intro ticket given
    by_cases old : ticket < f.submits / 2
    · exact (ledger.fates ticket old).imp_left fun ⟨submit, mem, rest⟩ =>
        ⟨submit, mem_append_left _ mem, rest⟩
    · have newest : ticket = f.submits / 2 := by
        have given : ticket < (f.submits + 2) / 2 := given
        omega
      refine .inl ⟨_, mem_append_right _ (mem_singleton_self _), ?_, newest.symm⟩
      by_cases unclosed : f.submits % 2 = 0
      · simp [Submit.undecided, Submit.enqueues, unclosed]
      · simp [Submit.undecided, unclosed]
  even := ledger.even
  budget := by
    intro unclosed
    have held := ledger.budget unclosed
    have absent : ∀ (pending : Pending) (stage : Stage), stage = .accepted ∨ stage = .refused →
        (Submit.mk pending stage).room = 0 := by
      rintro pending stage (rfl | rfl) <;> rfl
    have started : (if f.submits % 2 = 0 then Stage.accepted else .refused) = .accepted ∨
        (if f.submits % 2 = 0 then Stage.accepted else .refused) = .refused := by
      split
      · exact .inl rfl
      · exact .inr rfl
    simp only [Finalizer.accepted, Finalizer.startSubmit, map_append, map_cons, map_nil,
      sum_append, sum_cons, sum_nil, absent _ _ started] at held ⊢
    exact held

theorem Ledger.holdAgain (ledger : Ledger f) (result : Pending) {late : Bool} {batch untried rest : List Pending}
    (stands : f.loop = .flushing late batch untried) :
    Ledger { f.holdAgain result with loop := .flushing late batch rest } := by
  have reloop : ∀ {g : Finalizer}, Ledger g → g.loop = .flushing late batch untried →
      Ledger { g with loop := .flushing late batch rest } := by
    intro g ledger stands
    refine ⟨ledger.count, ledger.tickets, ledger.fates, nofun, fun unclosed => ?_⟩
    have held := ledger.budget unclosed
    simp only [Finalizer.accepted, stands] at held
    exact held
  unfold Finalizer.holdAgain
  dsimp only
  split
  · exact reloop (ledger.startSubmit _) stands
  · refine reloop ⟨?_, ?_, ?_, ledger.even, ledger.budget⟩ stands
    · have counted := ledger.count
      show (f.submits + 2) / 2 = f.submitted + 1 + f.goroutines.countP Submit.inFlight
      omega
    · intro submit mem
      have below : f.submits / 2 < (f.submits + 2) / 2 := by omega
      exact Nat.lt_trans (ledger.tickets submit mem) below
    · intro ticket given
      by_cases old : ticket < f.submits / 2
      · refine (ledger.fates ticket old).imp_right fun ⟨one, mem, same⟩ => ⟨one, ?_, same⟩
        simp only [Finalizer.results, Finalizer.signalLeft, Finalizer.drop, List.mem_append] at mem ⊢
        tauto
      · have newest : ticket = f.submits / 2 := by
          have given : ticket < (f.submits + 2) / 2 := given
          omega
        refine .inr ⟨{ result with ticket := f.submits / 2, waits := result.waits + 1 }, ?_, newest.symm⟩
        simp [Finalizer.results, Finalizer.signalLeft, Finalizer.drop]

theorem Ledger.step {action : Action} (ledger : Ledger f) (step : FinalizerStep tuning f action next) : Ledger next := by
  cases step with
  | outside =>
    exact ⟨ledger.count, ledger.tickets, ledger.fates, ledger.even, ledger.budget⟩
  | submit => exact ledger.startSubmit _
  | deliver _ pre post submit _ acts there step =>
    obtain ⟨submits, loop, _, counted⟩ := submit_count step
    refine ⟨?_, ?_, ?_, ?_, submit_budget step there ledger.budget⟩
    · rw [submits, ledger.count, there]
      exact counted
    · rw [submits]
      exact submit_tickets step (there ▸ ledger.tickets)
    · intro ticket given
      rw [submits] at given
      exact submit_fates step there (ledger.fates ticket given)
    · rw [loop]
      exact ledger.even
  | held index late batch untried rest result stands => exact ledger.holdAgain result stands
  | loop _ acts _ step =>
    obtain ⟨goroutines, submitted, submits⟩ := loop_counters step
    have halves : next.submits / 2 = f.submits / 2 := by
      rcases submits with same | ⟨late, idle, stands, odd⟩
      · rw [same]
      · have even := ledger.even late f.submits idle stands
        omega
    refine ⟨?_, ?_, ?_, ?_, loop_budget rfl step ledger.budget⟩
    · rw [halves, submitted, goroutines]
      exact ledger.count
    · rw [halves, goroutines]
      exact ledger.tickets
    · intro ticket given
      rw [goroutines]
      exact (ledger.fates ticket (halves ▸ given)).imp_right fun ⟨one, mem, same⟩ =>
        ⟨one, loop_results step mem, same⟩
    · intro late n idle stands
      generalize same : f.loop = loop at step
      cases step with
      | attempt _ _ _ even =>
        cases stands
        exact even
      | flushed | report | swap =>
        dsimp only at stands
        split at stands <;> cases stands
      | keep | collect | close => cases same.symm.trans stands
      | _ => cases stands

end

end Hopper.Client
