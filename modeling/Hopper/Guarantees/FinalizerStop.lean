import Hopper.Client.FinalizerDrain
import Hopper.Kernel.Recurrence

/-! The finalizer's stop: what its loop leaves when it returns, that its drain
ends, and what its log budget counts. -/

namespace Hopper.Client

open List

/-- The action is a step of the loop or of a submit that has started. -/
def Action.works : Action → Bool
  | .deliver _ | .giveUp _ | .receive | .fire | .drain | .loop | .wake | .expire | .close => true
  | .tick | .cancel | .crash | .submit .. | .held _ => false

/-- What is left for a submit to do, and for the loop to do with what it makes
of it: 30 for a round of the loop, 33 for a result that is received. -/
def Stage.weight : Stage → Nat
  | .ended => 31
  | .handed => 32
  | .refused => 33
  | .stamped => 66
  | .taken => 67
  | .accepted => 68
  | .waiting _ => 69

/-- What is left of a round. A value of `submits` that has changed since is
read once more. -/
def Loop.weight (submits : Nat) : Loop → Nat
  | .running | .waiting | .returned => 0
  | .collecting => 20
  | .flushing .. => 13
  | .writing _ => 12
  | .loading _ => 11
  | .loaded _ n => 10 + if n = submits then 0 else 5
  | .compared _ n _ => 9 + if n = submits then 0 else 5
  | .swapping _ n _ => 8 + if n = submits then 0 else 5

def Finalizer.weight (f : Finalizer) : Nat :=
  (f.goroutines.map fun submit => submit.stage.weight).sum + 33 * f.inbox.length + 3 * f.batch.length +
    (if f.left then 30 else 0) + (if f.deadline.isSome then 0 else 30) + (if f.expiry.isSome then 30 else 0) +
    f.loop.weight f.submits

section
variable {tuning : FinalizerTuning} {f next : Finalizer}

theorem submit_weight {pre post : List Submit} {submit : Submit} (draining : f.draining = true)
    (there : f.goroutines = pre ++ submit :: post)
    (step : SubmitStep tuning f pre post submit.pending submit.stage next) : next.weight < f.weight := by
  obtain ⟨result, stage⟩ := submit
  unfold Finalizer.weight
  rw [there]
  cases step with
  | wait early => exact absurd (draining.symm.trans early) nofun
  | giveUp stage waits =>
    obtain rfl | ⟨freed, rfl⟩ := waits
    · simp [Stage.weight]
    · simp [Stage.weight]
  | leave =>
    simp [Stage.weight, draining]
    split <;> omega
  | send =>
    simp [Stage.weight]
    omega
  | _ => simp [Stage.weight]

theorem loop_weight (rounds : RoundHolds f f.loop) (draining : f.draining = true) (unreturned : f.loop ≠ .returned)
    (step : LoopStep tuning f f.loop next) : next.weight < f.weight := by
  unfold Finalizer.weight
  generalize given : f.loop = loop at step rounds unreturned
  cases step with
  | keep | fill | fire | crash | drain => exact absurd (draining.symm.trans rounds) nofun
  | close => exact absurd rfl unreturned
  | flushed => simp [Loop.weight, draining]
  | collect result rest inbox =>
    simp [Loop.weight, inbox, given]
    omega
  | onTime | load | compare | attempt => simp [Loop.weight]
  | late deadline =>
    have fewer := length_filter_le (fun result => !dropsLate deadline result) f.batch
    simp [Loop.weight]
    omega
  | settle late deadline expiry batch armed isSet =>
    simp only [Loop.weight, isSet, if_true]
    cases expiry with
    | none => simp; omega
    | some =>
      rcases armed rfl with absent | armed
      · simp only [absent, Option.isSome_none, Option.isSome_some, Bool.false_eq_true, if_true, if_false]
        omega
      · simp only [armed, Option.isSome_some, if_true]
        omega
  | piece late n present batch =>
    have more := length_pos_iff.mpr batch
    simp [Loop.weight]
    omega
  | report late n same =>
    have absent : (if (same && f.inbox.isEmpty) = true then Loop.returned else .waiting).weight f.submits = 0 := by
      split <;> rfl
    dsimp only
    rw [absent, Loop.weight]
    omega
  | swap late n idle =>
    have absent : (if idle = true then Loop.returned else .waiting).weight (n + 1) = 0 := by split <;> rfl
    dsimp only
    rw [absent, Loop.weight]
    omega
  | reload late n idle changed =>
    simp only [Loop.weight, if_neg (Ne.symm changed)]
    omega
  | receive result rest inbox =>
    simp [Loop.weight, inbox]
    omega
  | wake left =>
    simp [Loop.weight, left]
    omega
  | expire time armed =>
    simp [Loop.weight, armed]

theorem works_weight {action : Action} (rounds : RoundHolds f f.loop) (draining : f.draining = true)
    (unreturned : f.loop ≠ .returned) (works : action.works = true) (step : FinalizerStep tuning f action next) :
    next.weight < f.weight := by
  cases step with
  | outside _ outer => rcases outer with rfl | rfl | rfl <;> cases works
  | submit | held => cases works
  | deliver _ pre post submit _ acts there step => exact submit_weight draining there step
  | loop _ acts _ step => exact loop_weight rounds draining unreturned step

theorem capacity_pos (tuning : FinalizerTuning) : 0 < tuning.capacity := by
  have positive := tuning.maxBatch_pos
  unfold FinalizerTuning.capacity
  omega

theorem deliver_enabled (draining : f.draining = true) (submit : Submit) (index : Nat) :
    (f.deliver tuning index submit).isSome ∨ f.inbox ≠ [] := by
  obtain ⟨result, stage⟩ := submit
  unfold Finalizer.deliver
  cases stage with
  | accepted =>
    dsimp only
    split
    · exact .inl rfl
    · split <;> exact .inl rfl
  | waiting =>
    dsimp only
    rw [if_pos (.inr draining)]
    exact .inl rfl
  | stamped =>
    dsimp only
    split
    · exact .inl rfl
    · next full =>
      refine .inr fun empty => full ?_
      rw [empty]
      exact capacity_pos tuning
  | taken | refused | handed | ended => exact .inl rfl

theorem works_enabled (wakes : WakeHolds f f.loop) (rounds : RoundHolds f f.loop) (draining : f.draining = true)
    (unreturned : f.loop ≠ .returned) : ∃ action, Action.works action = true ∧ (f.perform tuning action).isSome := by
  cases given : f.loop with
  | running =>
    rw [given] at rounds
    exact absurd (draining.symm.trans rounds) nofun
  | returned => exact absurd given unreturned
  | waiting =>
    have received : f.inbox ≠ [] → (f.perform tuning .receive).isSome := by
      intro present
      cases inbox : f.inbox with
      | nil => exact absurd inbox present
      | cons => simp [Finalizer.perform, inbox, Finalizer.receive, given]
    rw [given] at wakes
    rcases wakes with busy | present | left
    · cases there : f.goroutines with
      | nil => exact absurd there busy
      | cons submit =>
        have either : (f.deliver tuning 0 submit).isSome ∨ f.inbox ≠ [] := deliver_enabled draining submit 0
        rcases either with goes | present
        · exact ⟨.deliver 0, rfl, by simpa [Finalizer.perform, there] using goes⟩
        · exact ⟨.receive, rfl, received present⟩
    · exact ⟨.receive, rfl, received present⟩
    · exact ⟨.wake, rfl, by simp [Finalizer.perform, given, left]⟩
  | flushing | loading | loaded => exact ⟨.loop, rfl, by simp [Finalizer.perform, Finalizer.stepLoop, given]⟩
  | collecting =>
    refine ⟨.loop, rfl, ?_⟩
    simp only [Finalizer.perform, Finalizer.stepLoop, given]
    split
    · rfl
    · split
      · rfl
      · split <;> rfl
  | writing | compared | swapping =>
    refine ⟨.loop, rfl, ?_⟩
    simp only [Finalizer.perform, Finalizer.stepLoop, given]
    split <;> rfl

end

structure FinalizerHolds (f : Finalizer) : Prop where
  ledger : Ledger f
  rounds : RoundHolds f f.loop
  wakes : WakeHolds f f.loop

section
variable {tuning : FinalizerTuning} {allowed : Finalizer → Action → Prop} {f next : Finalizer} {action : Action}

theorem FinalizerHolds.step (holds : FinalizerHolds f)
    (performed : f.perform tuning action = some next) : FinalizerHolds next :=
  have step := perform_step performed
  ⟨holds.ledger.step step, holds.rounds.step step, holds.wakes.step holds.rounds holds.ledger step⟩

theorem FinalizerRun.holds (run : FinalizerRun tuning allowed f) : FinalizerHolds f := by
  induction run with
  | start =>
    refine ⟨⟨by simp, nofun, fun ticket below => ?_, nofun, fun _ => rfl⟩, rfl, trivial⟩
    simp at below
  | step action run allows performed ih => exact ih.step performed

theorem FinalizerRun.stops (run : FinalizerRun tuning Undisturbed f) : StopHolds f f.loop := by
  induction run with
  | start => exact trivial
  | step action run undisturbed performed ih =>
    exact ih.step run.holds.ledger undisturbed (perform_step performed)

theorem step_draining (step : FinalizerStep tuning f action next) (draining : f.draining = true) :
    next.draining = true := by
  cases step with
  | outside | submit => exact draining
  | deliver _ pre post submit _ acts there step => exact (submit_crashed step).2.1.trans draining
  | held =>
    unfold Finalizer.holdAgain
    dsimp only
    split <;> exact draining
  | loop _ acts _ step =>
    generalize f.loop = loop at step
    cases step with
    | drain => rfl
    | _ => exact draining

end

/-- An infinite run in which the drain has begun by a step, no submit starts
from then on, and as long as the loop or a submit can take a step, one does. -/
structure DrainingRun (tuning : FinalizerTuning) (run : Nat → Finalizer) (actions : Nat → Action) (begun : Nat) :
    Prop where
  start : ∃ now, run 0 = { now := now }
  step : ∀ n, (run n).perform tuning (actions n) = some (run (n + 1))
  draining : (run begun).draining = true
  submits : ∀ n, begun ≤ n → (∀ logBytes committed, actions n ≠ .submit logBytes committed) ∧
    ∀ index, actions n ≠ .held index
  fair : ∀ n, (∃ action, Action.works action = true ∧ ((run n).perform tuning action).isSome) →
    ∃ m, n ≤ m ∧ (actions m).works = true

namespace DrainingRun

variable {tuning : FinalizerTuning} {run : Nat → Finalizer} {actions : Nat → Action} {begun : Nat} {n : Nat}
variable (drains : DrainingRun tuning run actions begun)
include drains

theorem holds (n : Nat) : FinalizerHolds (run n) := by
  induction n with
  | zero =>
    obtain ⟨now, start⟩ := drains.start
    rw [start]
    have started : FinalizerRun tuning (fun _ _ => True) { now := now } := .start now
    exact started.holds
  | succ n ih => exact ih.step (drains.step n)

theorem draining_from (later : begun ≤ n) : (run n).draining = true :=
  Kernel.kept_from (fun n draining => step_draining (perform_step (drains.step n)) draining) drains.draining later

theorem weight_idle (later : begun ≤ n) (idle : ¬(actions n).works = true) : (run (n + 1)).weight = (run n).weight := by
  obtain ⟨unstarted, unheld⟩ := drains.submits n later
  have performed := drains.step n
  generalize run (n + 1) = next at performed
  cases action : actions n with
  | tick | cancel | crash =>
    rw [action] at performed
    cases performed
    rfl
  | submit logBytes committed => exact absurd action (unstarted logBytes committed)
  | held index => exact absurd action (unheld index)
  | _ =>
    rw [action] at idle
    exact absurd rfl idle

theorem returns : ∃ n, (run n).loop = .returned := by
  by_contra never
  have unreturned : ∀ n, (run n).loop ≠ .returned := fun n given => never ⟨n, given⟩
  have recurs : ∀ n, ∃ m, n ≤ m ∧ (actions m).works = true := by
    intro n
    have draining := drains.draining_from (Nat.le_max_right n begun)
    have hold := drains.holds (max n begun)
    obtain ⟨m, later, works⟩ := drains.fair (max n begun) (works_enabled hold.wakes hold.rounds draining (unreturned _))
    exact ⟨m, Nat.le_trans (Nat.le_max_left n begun) later, works⟩
  -- Every step that works takes from what is left, and there is always one more.
  have endless : ∀ weight n, begun ≤ n → (run n).weight = weight → False := by
    intro weight
    induction weight using Nat.strongRecOn with
    | ind weight ih =>
      intro n later left
      obtain ⟨m, _, ⟨late, same⟩, works⟩ := Kernel.kept_until recurs (fun n (kept : begun ≤ n ∧ (run n).weight = weight) idle =>
          (⟨Nat.le_succ_of_le kept.1, (drains.weight_idle kept.1 idle).trans kept.2⟩ :
            begun ≤ n + 1 ∧ (run (n + 1)).weight = weight)) ⟨later, left⟩
      have fewer := works_weight (drains.holds m).rounds (drains.draining_from late) (unreturned m) works (perform_step (drains.step m))
      exact ih _ (same ▸ fewer) (m + 1) (Nat.le_succ_of_le late) rfl
  exact endless _ begun (Nat.le_refl begun) rfl

end DrainingRun

end Hopper.Client

namespace Hopper.Guarantees

open List Client

/-- As long as no submit that was refused ends between the loads of the two
counters while another may enqueue its result: when the loop has returned
without a crash, the channel is empty and stays so, and each submit's result was
passed to `flush` or dropped, or is about to be dropped by the submit that was
refused. In every run, the log budget in use is until then the log bytes of the
results that were accepted and are not flushed or dropped yet, and the drain ends
once no more submits start. -/
theorem finalizer_stops (tuning : FinalizerTuning) : (∀ f, FinalizerRun tuning Undisturbed f →
      f.loop = .returned → f.crashed = false → f.inbox = [] ∧
        (∀ action next, f.perform tuning action = some next → next.loop = .returned ∧ next.inbox = []) ∧
        ∀ ticket < f.submits / 2, (∃ result ∈ f.flushed ++ f.dropped, result.ticket = ticket) ∨
          ∃ submit ∈ f.goroutines, submit.stage = .refused ∧ submit.pending.ticket = ticket) ∧
    (∀ f, FinalizerRun tuning (fun _ _ => True) f → f.done = false → f.used = f.accepted ∧ 0 ≤ f.used) ∧
    ∀ run actions begun, DrainingRun tuning run actions begun → ∃ n, (run n).loop = .returned := by
  refine ⟨fun f run given alive => ?_, fun f run unclosed => ?_, fun run actions begun drains => drains.returns⟩
  · have holds := run.holds
    have stops := run.stops
    have rounds := holds.rounds
    rw [given] at stops rounds
    obtain ⟨_, closed, empty⟩ := stops alive
    obtain ⟨_, batch⟩ := rounds alive
    refine ⟨empty, fun action next performed => ?_, fun ticket below => ?_⟩
    · have step := perform_step performed
      cases step with
      | outside | submit => exact ⟨given, empty⟩
      | deliver _ before after submit _ acts there step =>
        exact ⟨(submit_count step).2.1.trans given, (submit_inbox_closed there step closed).trans empty⟩
      | held index late batch untried rest result flushing => cases given.symm.trans flushing
      | loop _ acts _ step =>
        rw [given] at step
        cases step
        exact ⟨given, empty⟩
    · rcases holds.ledger.fates ticket below with ⟨submit, member, undecided, same⟩ | ⟨result, member, same⟩
      · refine .inr ⟨submit, member, ?_, same⟩
        rw [Submit.undecided, closed submit member, Bool.false_or] at undecided
        exact of_decide_eq_true undecided
      · refine .inl ⟨result, ?_, same⟩
        simpa [Finalizer.results, empty, batch] using member
  · have used := run.holds.ledger.budget unclosed
    exact ⟨used, by rw [used]; exact Int.natCast_nonneg _⟩

theorem performs_run {tuning : FinalizerTuning} {allowed : Finalizer → Action → Prop}
    [∀ f action, Decidable (allowed f action)] {actions : List Action} {f next : Finalizer}
    (run : FinalizerRun tuning allowed f)
    (performed : actions.foldlM (fun f action => if allowed f action then f.perform tuning action else none) f =
      some next) : FinalizerRun tuning allowed next := by
  induction actions generalizing f with
  | nil =>
    cases performed
    exact run
  | cons action actions ih =>
    rw [foldlM_cons] at performed
    obtain ⟨between, first, rest⟩ := Option.bind_eq_some_iff.mp performed
    split at first
    · next allows =>
      exact ih (.step action run allows first) rest
    · cases first

def smallTuning : FinalizerTuning where
  interval := 1
  maxBatch := 1
  flushLogBytes := 1
  bufferedLogBytes := 1
  buffer := 1
  drainTimeout := 0
  maxBatch_pos := by decide
  flushLogBytes_pos := by decide

/-- A result with a log is submitted, and the client stops. -/
def drainedActions : List Action :=
  [.cancel, .submit 3 false, .deliver 0, .deliver 0, .deliver 0, .deliver 0, .deliver 0, .drain, .loop, .loop, .loop,
    .loop, .loop, .loop, .loop, .loop, .loop, .close]

def drainedAfter (n : Nat) : Finalizer :=
  ((drainedActions.take n).foldlM (Finalizer.perform smallTuning) {}).getD {}

def drainedRun (n : Nat) : Finalizer :=
  { drainedAfter n with now := n - 18 }

theorem drainedRun_ended (n : Nat) : drainedRun (n + 18) = { drainedAfter 18 with now := n } := by
  have all : drainedActions.take (n + 18) = drainedActions.take 18 := by
    rw [take_of_length_le (by simp [drainedActions]), take_of_length_le (by simp [drainedActions])]
  rw [drainedRun, drainedAfter, drainedAfter, all, Nat.add_sub_cancel]

theorem drainedRun_step (n : Nat) : (drainedRun n).perform smallTuning (drainedActions[n]?.getD .tick) = some (drainedRun (n + 1)) := by
  by_cases short : n < 18
  · have steps : ∀ n < 18, (drainedRun n).perform smallTuning (drainedActions[n]?.getD .tick) = some (drainedRun (n + 1)) := by
      decide +kernel
    exact steps n short
  · obtain ⟨extra, rfl⟩ := Nat.exists_eq_add_of_le' (Nat.not_lt.mp short)
    have past : drainedActions[extra + 18]? = none := getElem?_eq_none (by simp [drainedActions])
    rw [past, Nat.add_right_comm, drainedRun_ended, drainedRun_ended]
    rfl

theorem drainedRun_idle (n : Nat) {action : Action} (works : action.works = true) :
    (drainedRun (n + 18)).perform smallTuning action = none := by
  have ended : (drainedAfter 18).loop = .returned ∧ (drainedAfter 18).done = true ∧
      (drainedAfter 18).goroutines = [] ∧ (drainedAfter 18).inbox = [] := by decide +kernel
  obtain ⟨given, done, absent, empty⟩ := ended
  rw [drainedRun_ended]
  cases action with
  | deliver | giveUp => simp [Finalizer.perform, absent]
  | receive => simp [Finalizer.perform, empty]
  | fire | drain | wake | expire => simp [Finalizer.perform, given]
  | loop => simp [Finalizer.perform, Finalizer.stepLoop, given]
  | close => simp [Finalizer.perform, given, done]
  | _ => cases works

theorem drainedRun_drains : DrainingRun smallTuning drainedRun (fun n => drainedActions[n]?.getD .tick) 8 where
  start := ⟨0, by decide +kernel⟩
  step := drainedRun_step
  draining := by decide +kernel
  submits := by
    intro n later
    by_cases short : n < 18
    · have quiet : ∀ n < 18, 8 ≤ n → drainedActions[n]?.getD .tick ∈ [Action.loop, .close] := by decide +kernel
      have either := quiet n short later
      constructor
      · intro logBytes committed same
        simp [same] at either
      · intro index same
        simp [same] at either
    · have past : drainedActions[n]? = none := getElem?_eq_none (by simp [drainedActions]; omega)
      simp [past]
  fair := by
    intro n enabled
    by_cases short : n ≤ 17
    · exact ⟨17, short, by decide +kernel⟩
    · obtain ⟨extra, rfl⟩ := Nat.exists_eq_add_of_le' (Nat.not_le.mp short)
      obtain ⟨action, works, performs⟩ := enabled
      rw [drainedRun_idle extra works] at performs
      cases performs

theorem finalizer_stops_drained : (∃ f, FinalizerRun smallTuning Undisturbed f ∧ f.loop = .returned ∧ f.submits / 2 = 1 ∧ f.inbox = []) ∧
    (∃ f, FinalizerRun smallTuning (fun _ _ => True) f ∧ f.accepted = 3 ∧ f.used = 3) ∧ ∃ n, (drainedRun n).loop = .returned := by
  obtain ⟨safe, budget, ends⟩ := finalizer_stops smallTuning
  have stopped : ∃ f, (drainedActions.take 17).foldlM
      (fun f action => if Undisturbed f action then Finalizer.perform smallTuning f action else none)
        ({ now := 0 } : Finalizer) = some f ∧ f.loop = .returned ∧ f.crashed = false ∧ f.submits / 2 = 1 := by
    refine ⟨_, rfl, ?_⟩
    decide +kernel
  have kept : ∃ f, (drainedActions.take 8).foldlM
      (fun f action => if True then Finalizer.perform smallTuning f action else none)
        ({ now := 0 } : Finalizer) = some f ∧ f.done = false ∧ f.accepted = 3 := by
    refine ⟨_, rfl, ?_⟩
    decide +kernel
  obtain ⟨f, performed, given, alive, one⟩ := stopped
  obtain ⟨g, filled, unclosed, three⟩ := kept
  have run := performs_run (.start 0) performed
  have held := performs_run (.start 0) filled
  exact ⟨⟨f, run, given, one, (safe f run given alive).1⟩, ⟨g, held, three, (budget g held unclosed).1.trans (congrArg _ three)⟩,
    ends drainedRun _ 8 drainedRun_drains⟩

/-- The first submit is in flight while the drain takes no more. The second is
refused and ends, and the loop begins to check again; the third is refused and
ends between the loads of the counters. -/
def lossActions : List Action :=
  [.cancel, .submit 0 false, .drain, .loop, .loop, .loop, .loop, .loop, .tick, .expire, .loop, .loop, .loop, .loop,
    .loop, .loop, .submit 0 false, .deliver 1, .deliver 1, .deliver 1, .wake, .loop, .loop, .loop, .submit 0 false,
    .deliver 1, .deliver 1, .loop, .loop, .close, .deliver 0, .deliver 0, .deliver 0]

/-- The loop has returned, and then a submit that was counted puts its result
into the channel, where it stays. -/
theorem finalizer_loses_result : ∃ f result, FinalizerRun smallTuning (fun _ _ => True) f ∧ f.loop = .returned ∧ f.crashed = false ∧
      f.inbox = [result] ∧ result ∉ f.flushed ++ f.dropped := by
  have performed : ∃ f, lossActions.foldlM
      (fun f action => if True then Finalizer.perform smallTuning f action else none) ({ now := 0 } : Finalizer) =
        some f ∧ f.loop = .returned ∧ f.crashed = false ∧ f.inbox = [⟨0, 0, false, 0, some 1⟩] ∧
        (⟨0, 0, false, 0, some 1⟩ : Pending) ∉ f.flushed ++ f.dropped := by
    refine ⟨_, rfl, ?_⟩
    decide +kernel
  obtain ⟨f, performed, given, alive, inbox, lost⟩ := performed
  exact ⟨f, _, performs_run (.start 0) performed, given, alive, inbox, lost⟩

end Hopper.Guarantees
