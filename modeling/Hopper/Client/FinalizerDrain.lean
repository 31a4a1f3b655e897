import Hopper.Client.FinalizerLedger

/-! The finalizer's drain: what `stopIfIdle` knows when it reports an idle
finalizer, and what wakes the loop when it does not. -/

namespace Hopper.Client

open List

/-- A submit counted before the loop read `submits` as `n`, and not yet by
`submitted`. -/
def Submit.early (n : Nat) (submit : Submit) : Bool :=
  submit.inFlight && decide (submit.pending.ticket < n / 2)

def Finalizer.Closed (f : Finalizer) : Prop :=
  ∀ submit ∈ f.goroutines, submit.enqueues = false

/-- What holds where the loop has got to in `stopIfIdle`. An even `n` is
compared again by the swap. With an odd `n` no more submits are accepted, and
`submitted` falls short of `n / 2` by those in flight that it counts, as long
as one of them may enqueue its result. -/
def StopHolds (f : Finalizer) : Loop → Prop
  | .loaded _ n =>
    n ≤ f.submits ∧ (n % 2 = 1 → f.submits % 2 = 1 ∧
      (∀ submit ∈ f.goroutines, submit.enqueues = true → submit.pending.ticket < n / 2) ∧
      (f.Closed ∨ f.submitted + f.goroutines.countP (Submit.early n) = n / 2))
  | .compared _ n same =>
    n ≤ f.submits ∧ (n % 2 = 1 → f.submits % 2 = 1 ∧ (same = true → f.Closed)) ∧
      (n % 2 = 0 → same = true → f.submits = n → f.goroutines.countP Submit.inFlight = 0)
  | .swapping _ n idle =>
    n ≤ f.submits ∧
      (idle = true → f.submits = n → f.goroutines.countP Submit.inFlight = 0 ∧ f.inbox = [])
  | .returned => f.crashed = false → f.submits % 2 = 1 ∧ f.Closed ∧ f.inbox = []
  | _ => True

/-- A submit that started after the loop read `submits`, and was refused, ends
before the loop reads `submitted`, while another may still enqueue its result. -/
def disturbs (f : Finalizer) : Action → Bool
  | .deliver index =>
    match f.loop, f.goroutines[index]? with
    | .loaded _ n, some submit =>
      decide (n % 2 = 1 ∧ submit.stage = .handed ∧ n / 2 ≤ submit.pending.ticket) &&
        f.goroutines.any Submit.enqueues
    | _, _ => false
  | _ => false

def Undisturbed (f : Finalizer) (action : Action) : Prop :=
  disturbs f action = false

instance (f : Finalizer) (action : Action) : Decidable (Undisturbed f action) :=
  inferInstanceAs (Decidable (disturbs f action = false))

section
variable {tuning : FinalizerTuning} {f next : Finalizer}
variable {submit : Submit} {pre post : List Submit} {result : Pending} {stage : Stage} {action : Action}

theorem enqueues_inFlight (enqueues : submit.enqueues = true) : submit.inFlight = true := by
  obtain ⟨pending, stage⟩ := submit
  cases stage with
  | ended => cases enqueues
  | _ => rfl

theorem closed_of_none (absent : f.goroutines.countP Submit.inFlight = 0) : f.Closed := by
  intro submit mem
  cases enqueues : submit.enqueues with
  | false => rfl
  | true => exact absurd (enqueues_inFlight enqueues) (countP_eq_zero.mp absent submit mem)

theorem submit_early {n : Nat} (step : SubmitStep tuning f pre post result stage next)
    (early : stage = .handed → result.ticket < n / 2) :
    f.submitted + (pre ++ ⟨result, stage⟩ :: post).countP (Submit.early n) =
      next.submitted + next.goroutines.countP (Submit.early n) := by
  cases step with
  | giveUp stage waits =>
    obtain rfl | ⟨freed, rfl⟩ := waits
    · simp [countP_cons, Submit.early, Submit.inFlight]
    · simp [countP_cons, Submit.early, Submit.inFlight]
  | count =>
    simp [Submit.early, Submit.inFlight, early rfl]
    omega
  | _ => simp [countP_cons, Submit.early, Submit.inFlight]

section
variable (there : f.goroutines = pre ++ submit :: post)
  (step : SubmitStep tuning f pre post submit.pending submit.stage next)
include there step

theorem submit_closed (closed : f.Closed) : next.Closed := by
  intro other mem
  have closed : ∀ one ∈ pre ++ submit :: post, one.enqueues = false := there ▸ closed
  rcases submit_members step mem with old | ⟨_, enqueues⟩
  · exact closed other (((sublist_cons_self _ _).append_left _).subset old)
  · cases found : other.enqueues with
    | false => rfl
    | true =>
      have own := closed submit (by simp)
      rw [enqueues found] at own
      cases own

theorem submit_inbox_closed (closed : f.Closed) : next.inbox = f.inbox := by
  refine (submit_inbox step).resolve_right fun enqueues => ?_
  have own := closed submit (by rw [there]; simp)
  rw [enqueues] at own
  cases own

theorem StopHolds.deliver {loop : Loop} (holds : StopHolds f loop) (crashed : next.crashed = f.crashed)
    (undisturbed : ∀ late n, loop = .loaded late n → n % 2 = 1 → submit.stage = .handed →
      n / 2 ≤ submit.pending.ticket → f.Closed) : StopHolds next loop := by
  obtain ⟨submits, _, grows, counted⟩ := submit_count step
  rw [← there] at counted
  have absent : f.goroutines.countP Submit.inFlight = 0 → next.goroutines.countP Submit.inFlight = 0 := by omega
  cases loop with
  | loaded late n =>
    obtain ⟨below, odd⟩ := holds
    refine ⟨submits ▸ below, fun is => ?_⟩
    obtain ⟨stopped, tickets, rest⟩ := odd is
    refine ⟨submits ▸ stopped, fun other mem enqueues => ?_, ?_⟩
    · rcases submit_members step mem with old | ⟨same, own⟩
      · rw [there] at tickets
        exact tickets other (((sublist_cons_self _ _).append_left _).subset old) enqueues
      · rw [same]
        exact tickets submit (by rw [there]; simp) (own enqueues)
    · by_cases closed : f.Closed
      · exact .inl (submit_closed there step closed)
      · have early : submit.stage = .handed → submit.pending.ticket < n / 2 := by
          intro handed
          by_contra later
          exact closed (undisturbed late n rfl is handed (Nat.not_lt.mp later))
        refine .inr ?_
        have kept := submit_early step early
        rw [← kept, ← there]
        exact rest.resolve_left closed
  | compared late n same =>
    obtain ⟨below, odd, even⟩ := holds
    refine ⟨submits ▸ below, fun is => ?_, fun is same equal => absent (even is same (submits ▸ equal))⟩
    obtain ⟨stopped, closed⟩ := odd is
    exact ⟨submits ▸ stopped, fun same => submit_closed there step (closed same)⟩
  | swapping =>
    obtain ⟨below, rest⟩ := holds
    refine ⟨submits ▸ below, fun is equal => ?_⟩
    obtain ⟨quiet, empty⟩ := rest is (submits ▸ equal)
    exact ⟨absent quiet, (submit_inbox_closed there step (closed_of_none quiet)).trans empty⟩
  | returned =>
    intro alive
    obtain ⟨stopped, closed, empty⟩ := holds (crashed ▸ alive)
    exact ⟨submits ▸ stopped, submit_closed there step closed, (submit_inbox_closed there step closed).trans empty⟩
  | running | flushing | collecting | writing | loading | waiting => exact trivial

end

theorem StopHolds.startSubmit {loop : Loop} (holds : StopHolds f loop) (result : Pending) :
    StopHolds (f.startSubmit result) loop := by
  have grown : (f.startSubmit result).submits = f.submits + 2 := rfl
  have refused : f.submits % 2 = 1 → ∀ submit ∈ (f.startSubmit result).goroutines, submit.enqueues = true →
      submit ∈ f.goroutines := by
    intro odd submit mem enqueues
    rcases List.mem_append.mp mem with old | new
    · exact old
    · rw [mem_singleton.mp new, if_neg (by omega)] at enqueues
      cases enqueues
  have closed : f.submits % 2 = 1 → f.Closed → (f.startSubmit result).Closed := by
    intro odd closed submit mem
    cases enqueues : submit.enqueues with
    | false => rfl
    | true => exact enqueues.symm.trans (closed submit (refused odd submit mem enqueues))
  cases loop with
  | loaded late n =>
    obtain ⟨below, odd⟩ := holds
    refine ⟨by omega, fun is => ?_⟩
    obtain ⟨stopped, tickets, rest⟩ := odd is
    refine ⟨by omega, fun submit mem enqueues => tickets submit (refused stopped submit mem enqueues) enqueues,
      rest.imp (closed stopped) fun short => ?_⟩
    -- The new submit's number is past those counted in `n`.
    have late : ¬f.submits / 2 < n / 2 := by omega
    rw [Finalizer.startSubmit]
    simpa [Submit.early, late] using short
  | compared late n same =>
    obtain ⟨below, odd, even⟩ := holds
    refine ⟨by omega, fun is => ?_, fun _ _ equal => by omega⟩
    obtain ⟨stopped, idle⟩ := odd is
    exact ⟨by omega, fun same => closed stopped (idle same)⟩
  | swapping =>
    obtain ⟨below, rest⟩ := holds
    exact ⟨by omega, fun _ equal => by omega⟩
  | returned =>
    intro alive
    obtain ⟨stopped, idle, empty⟩ := holds alive
    exact ⟨by omega, closed stopped idle, empty⟩
  | running | flushing | collecting | writing | loading | waiting => exact trivial

theorem StopHolds.loop (holds : StopHolds f f.loop) (ledger : Ledger f) (step : LoopStep tuning f f.loop next) :
    StopHolds next next.loop := by
  generalize given : f.loop = loop at step holds
  cases step with
  | load =>
    refine ⟨Nat.le_refl _, fun odd => ⟨odd, fun submit mem _ => ledger.tickets submit mem, .inr ?_⟩⟩
    have all : f.goroutines.countP (Submit.early f.submits) = f.goroutines.countP Submit.inFlight := by
      refine countP_congr fun submit mem => ?_
      simp [Submit.early, ledger.tickets submit mem]
    exact (congrArg (f.submitted + ·) all).trans ledger.count.symm
  | compare late n =>
    obtain ⟨below, odd⟩ := holds
    refine ⟨below, fun is => ?_, fun _ same equal => ?_⟩
    · obtain ⟨stopped, tickets, rest⟩ := odd is
      refine ⟨stopped, fun same submit mem => ?_⟩
      rcases rest with closed | short
      · exact closed submit mem
      · have counted : f.goroutines.countP (Submit.early n) = 0 := by
          have same := of_decide_eq_true same
          omega
        cases enqueues : submit.enqueues with
        | false => rfl
        | true =>
          have early : submit.early n = true := by
            simp [Submit.early, enqueues_inFlight enqueues, tickets submit mem enqueues]
          exact absurd early (countP_eq_zero.mp counted submit mem)
    · have same := of_decide_eq_true same
      have counted := ledger.count
      have equal : f.submits = n := equal
      show f.goroutines.countP Submit.inFlight = 0
      omega
  | report late n same sure =>
    obtain ⟨below, odd, _⟩ := holds
    cases idle : same && f.inbox.isEmpty with
    | false => exact trivial
    | true =>
      rw [Bool.and_eq_true, List.isEmpty_iff] at idle
      intro _
      rcases sure with is | ⟨busy, _⟩
      · obtain ⟨stopped, closed⟩ := odd is
        exact ⟨stopped, closed idle.1, idle.2⟩
      · simp [idle] at busy
  | attempt late n same even =>
    obtain ⟨below, _, rest⟩ := holds
    refine ⟨below, fun idle equal => ?_⟩
    rw [Bool.and_eq_true, List.isEmpty_iff] at idle
    exact ⟨rest even idle.1 equal, idle.2⟩
  | swap late n idle same =>
    obtain ⟨_, rest⟩ := holds
    cases idle with
    | false => exact trivial
    | true =>
      intro _
      obtain ⟨quiet, empty⟩ := rest rfl same
      have even := ledger.even late n true given
      refine ⟨?_, closed_of_none quiet, empty⟩
      show (n + 1) % 2 = 1
      omega
  | crash crashed =>
    intro alive
    exact absurd (crashed.symm.trans alive) nofun
  | close =>
    show StopHolds { f with done := true } f.loop
    rw [given]
    exact holds
  | flushed =>
    dsimp only
    split <;> exact trivial
  | keep | collect =>
    dsimp only
    rw [given]
    exact trivial
  | _ => exact trivial

theorem submit_crashed (step : SubmitStep tuning f pre post result stage next) :
    next.crashed = f.crashed ∧ next.draining = f.draining ∧ next.batch = f.batch := by
  cases step with
  | _ => exact ⟨rfl, rfl, rfl⟩

theorem StopHolds.step (holds : StopHolds f f.loop) (ledger : Ledger f) (undisturbed : Undisturbed f action)
    (step : FinalizerStep tuning f action next) : StopHolds next next.loop := by
  cases step with
  | outside _ outer now canceled crashed stays =>
    show StopHolds { f with now := now, canceled := canceled, crashed := crashed } f.loop
    cases given : f.loop with
    | returned =>
      rw [given] at holds
      intro alive
      have alive : crashed = false := alive
      refine holds ?_
      cases pre : f.crashed with
      | false => rfl
      | true => exact (stays pre).symm.trans alive
    | _ =>
      rw [given] at holds
      exact holds
  | submit => exact holds.startSubmit _
  | deliver _ pre post submit _ acts there step =>
    obtain ⟨_, loop, _, _⟩ := submit_count step
    rw [loop]
    refine holds.deliver there step (submit_crashed step).1 fun late n given odd handed past => ?_
    have found : f.goroutines[pre.length]? = some submit := by
      rw [there]
      simp
    rcases acts with rfl | ⟨_, unhanded⟩
    · have absent : f.goroutines.any Submit.enqueues = false := by
        simpa [Undisturbed, disturbs, given, found, odd, handed, past] using undisturbed
      exact fun other mem => Bool.not_eq_true _ |>.mp (any_eq_false.mp absent other mem)
    · exact absurd handed unhanded
  | held => exact trivial
  | loop _ acts _ step => exact holds.loop ledger step

def RoundHolds (f : Finalizer) : Loop → Prop
  | .running => f.draining = false
  | .flushing .. => True
  | .collecting | .writing _ => f.draining = true
  | .loading _ | .loaded .. | .compared .. | .swapping .. | .waiting => f.draining = true ∧ f.batch = []
  | .returned => f.crashed = false → f.draining = true ∧ f.batch = []

theorem RoundHolds.loop (holds : RoundHolds f f.loop) (step : LoopStep tuning f f.loop next) : RoundHolds next next.loop := by
  generalize given : f.loop = loop at step holds
  cases step with
  | keep | collect | close =>
    dsimp only
    rw [given]
    exact holds
  | fill | fire | piece => exact trivial
  | crash crashed => exact fun alive => absurd (crashed.symm.trans alive) nofun
  | drain => exact rfl
  | flushed =>
    dsimp only
    split
    · next draining =>
      exact draining
    · next early =>
      exact Bool.not_eq_true f.draining |>.mp early
  | onTime | late | load | compare | attempt | reload => exact holds
  | settle late deadline expiry batch => exact ⟨holds, batch⟩
  | report | swap =>
    dsimp only
    split
    · exact fun _ => holds
    · exact holds
  | receive | wake | expire => exact holds.1

theorem RoundHolds.step (holds : RoundHolds f f.loop) (step : FinalizerStep tuning f action next) : RoundHolds next next.loop := by
  have same : ∀ (g : Finalizer), g.loop = f.loop → g.draining = f.draining → g.batch = f.batch →
      (f.crashed = true → g.crashed = true) → RoundHolds g g.loop := by
    intro g loop draining batch crashed
    rw [loop]
    cases given : f.loop with
    | returned =>
      rw [given] at holds
      intro alive
      rw [draining, batch]
      refine holds ?_
      cases pre : f.crashed with
      | false => rfl
      | true => exact (crashed pre).symm.trans alive
    | flushing => exact trivial
    | _ =>
      rw [given] at holds
      simpa only [RoundHolds, draining, batch] using holds
  cases step with
  | outside _ outer now canceled crashed stays => exact same _ rfl rfl rfl stays
  | submit => exact same _ rfl rfl rfl id
  | deliver _ pre post submit _ acts there step =>
    obtain ⟨crashed, draining, batch⟩ := submit_crashed step
    exact same _ (submit_count step).2.1 draining batch crashed.trans
  | held => exact trivial
  | loop _ acts _ step => exact holds.loop step

def Finalizer.Woken (f : Finalizer) : Prop :=
  f.goroutines ≠ [] ∨ f.inbox ≠ [] ∨ f.left = true

/-- Where `stopIfIdle` has found the finalizer busy, something wakes the loop. -/
def WakeHolds (f : Finalizer) : Loop → Prop
  | .loaded _ n => f.submits / 2 ≠ n / 2 → f.Woken
  | .compared _ _ same => same = false → f.Woken
  | .swapping _ _ idle => idle = false → f.Woken
  | .waiting => f.Woken
  | _ => True

theorem WakeHolds.of_woken (woken : f.Woken) (loop : Loop) : WakeHolds f loop := by
  cases loop with
  | loaded | compared | swapping => exact fun _ => woken
  | waiting => exact woken
  | _ => exact trivial

theorem woken_of_busy {same : Bool} (woken : same = false → f.Woken) (busy : (same && f.inbox.isEmpty) = false) : f.Woken := by
  cases same with
  | false => exact woken rfl
  | true =>
    refine .inr (.inl fun empty => ?_)
    rw [empty] at busy
    cases busy

theorem WakeHolds.loop (holds : WakeHolds f f.loop) (ledger : Ledger f) (step : LoopStep tuning f f.loop next) :
    WakeHolds next next.loop := by
  generalize given : f.loop = loop at step holds
  cases step with
  | load => exact fun changed => absurd rfl changed
  | compare late n =>
    intro different
    by_cases changed : f.submits / 2 = n / 2
    · have counted := ledger.count
      have different := of_decide_eq_false different
      refine .inl fun absent => different ?_
      have absent : f.goroutines = [] := absent
      rw [absent, countP_nil] at counted
      omega
    · exact holds changed
  | report late n same =>
    cases idle : same && f.inbox.isEmpty with
    | true => exact trivial
    | false => exact woken_of_busy holds idle
  | attempt => exact fun busy => woken_of_busy holds busy
  | swap late n idle =>
    cases idle with
    | true => exact trivial
    | false => exact holds rfl
  | flushed =>
    dsimp only
    split <;> exact trivial
  | keep | collect | close =>
    dsimp only
    rw [given]
    exact trivial
  | _ => exact trivial

theorem submit_woken (step : SubmitStep tuning f pre post result stage next) (draining : f.draining = true) :
    next.Woken := by
  cases step with
  | leave =>
    refine .inr (.inr ?_)
    show (f.left || f.draining) = true
    rw [draining, Bool.or_true]
  | _ => exact .inl (by simp)

theorem WakeHolds.step (holds : WakeHolds f f.loop) (rounds : RoundHolds f f.loop) (ledger : Ledger f)
    (step : FinalizerStep tuning f action next) : WakeHolds next next.loop := by
  cases step with
  | outside => exact holds
  | submit => exact .of_woken (.inl (by simp [Finalizer.startSubmit])) _
  | deliver _ pre post submit _ acts there step =>
    rw [(submit_count step).2.1]
    cases draining : f.draining with
    | true => exact .of_woken (submit_woken step draining) _
    | false =>
      -- Outside the drain there is nothing to say.
      cases given : f.loop with
      | loaded | compared | swapping | waiting =>
        rw [given] at rounds
        cases rounds.1.symm.trans draining
      | _ => exact trivial
  | held => exact trivial
  | loop _ acts _ step => exact holds.loop ledger step

end

end Hopper.Client
