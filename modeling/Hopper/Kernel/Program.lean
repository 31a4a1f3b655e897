import Mathlib.Logic.Relation

/-! Programs of one party of several that share a state. A program makes calls
one after another, each chosen by the replies before it, and others may change
the state between any two of them. -/

namespace Hopper.Kernel

inductive Program (Call : Type → Type) (Failure Result : Type) : Type 1 where
  | done (result : Result)
  | fail (failure : Failure)
  | call {Reply : Type} (request : Call Reply) (next : Except Failure Reply → Program Call Failure Result)

section
variable {Call : Type → Type} {Failure Result Reply Value : Type}

namespace Program

def bind : Program Call Failure Value → (Value → Program Call Failure Result) → Program Call Failure Result
  | done value, next => next value
  | fail failure, _ => fail failure
  | call request rest, next => call request fun reply => (rest reply).bind next

instance : Monad (Program Call Failure) where
  pure := done
  bind := bind

def request (request : Call Reply) : Program Call Failure Reply :=
  .call request fun
    | .ok reply => .done reply
    | .error failure => .fail failure

def attempt (request : Call Reply) : Program Call Failure (Except Failure Reply) :=
  .call request .done

def ensure : Except Failure Value → Program Call Failure Value
  | .ok value => .done value
  | .error failure => .fail failure

end Program

variable {State : Type} {run : (Reply : Type) → Call Reply → State → Except Failure Reply × State}
variable {meets : (Reply : Type) → Call Reply → State → Prop}

/-- What a program can return and leave, others changing the state before each
of its calls. -/
inductive Runs (others : State → State → Prop)
    (answers : (Reply : Type) → Call Reply → State → Except Failure Reply → State → Prop) :
    State → Program Call Failure Result → Except Failure Result → State → Prop where
  | done (state : State) (result : Result) : Runs others answers state (.done result) (.ok result) state
  | fail (state : State) (failure : Failure) : Runs others answers state (.fail failure) (.error failure) state
  | call {Reply : Type} {before asked replied after : State} {request : Call Reply}
      {next : Except Failure Reply → Program Call Failure Result} {reply : Except Failure Reply}
      {outcome : Except Failure Result} (between : Relation.ReflTransGen others before asked)
      (answered : answers Reply request asked reply replied)
      (rest : Runs others answers replied (next reply) outcome after) :
      Runs others answers before (.call request next) outcome after

section
variable {others : State → State → Prop}
  {answers : (Reply : Type) → Call Reply → State → Except Failure Reply → State → Prop}
  {pre post : State} {request : Call Reply}

theorem runs_pure {value result : Value}
    (runs : Runs others answers pre (pure value : Program Call Failure Value) (.ok result) post) :
    result = value ∧ post = pre := by
  cases runs
  exact ⟨rfl, rfl⟩

theorem runs_bind {program : Program Call Failure Value} {next : Value → Program Call Failure Result}
    {result : Result} (runs : Runs others answers pre (program >>= next) (.ok result) post) :
    ∃ value middle, Runs others answers pre program (.ok value) middle ∧
      Runs others answers middle (next value) (.ok result) post := by
  induction program generalizing pre with
  | done value => exact ⟨value, pre, .done pre value, runs⟩
  | fail => cases runs
  | call request rest ih =>
    cases runs with
    | @call _ _ _ replied _ _ _ reply _ between answered others =>
      obtain ⟨value, middle, first, second⟩ := ih reply others
      exact ⟨value, middle, .call between answered first, second⟩

theorem runs_request {result : Reply}
    (runs : Runs others answers pre (Program.request request) (.ok result) post) :
    ∃ asked, Relation.ReflTransGen others pre asked ∧ answers Reply request asked (.ok result) post := by
  cases runs with
  | @call _ _ _ _ _ _ _ reply _ between answered rest =>
    cases reply with
    | ok =>
      cases rest
      exact ⟨_, between, answered⟩
    | error => cases rest

theorem runs_attempt {result : Except Failure Reply}
    (runs : Runs others answers pre (Program.attempt request) (.ok result) post) :
    ∃ asked, Relation.ReflTransGen others pre asked ∧ answers Reply request asked result post := by
  cases runs with
  | call between answered rest =>
    cases rest
    exact ⟨_, between, answered⟩

theorem runs_ensure {checked : Except Failure Value} {result : Value}
    (runs : Runs others answers pre (Program.ensure checked) (.ok result) post) :
    checked = .ok result ∧ post = pre := by
  cases checked with
  | ok =>
    cases runs
    exact ⟨rfl, rfl⟩
  | error => cases runs

end

/-- The program alone with the state, each call run in turn. -/
def Program.exec (run : (Reply : Type) → Call Reply → State → Except Failure Reply × State) :
    Program Call Failure Result → State → Except Failure Result × State
  | .done result, state => (.ok result, state)
  | .fail failure, state => (.error failure, state)
  | .call request next, state => exec run (next (run _ request state).1) (run _ request state).2

/-- Each call the program makes alone meets a condition in the state it finds. -/
def Program.Meets (run : (Reply : Type) → Call Reply → State → Except Failure Reply × State)
    (meets : (Reply : Type) → Call Reply → State → Prop) : Program Call Failure Result → State → Prop
  | .done _, _ => True
  | .fail _, _ => True
  | .call request next, state =>
    meets _ request state ∧ Program.Meets run meets (next (run _ request state).1) (run _ request state).2

instance Program.decidableMeets {run : (Reply : Type) → Call Reply → State → Except Failure Reply × State}
    {meets : (Reply : Type) → Call Reply → State → Prop}
    [each : ∀ Reply (request : Call Reply) state, Decidable (meets Reply request state)] :
    (program : Program Call Failure Result) → (state : State) → Decidable (program.Meets run meets state)
  | .done _, _ => .isTrue trivial
  | .fail _, _ => .isTrue trivial
  | .call request next, state =>
    @instDecidableAnd _ _ (each _ request state)
      (decidableMeets (next (run _ request state).1) (run _ request state).2)

instance decidableExistsOk {holds : Result → Prop} [DecidablePred holds] :
    (outcome : Except Failure Result) → Decidable (∃ result, outcome = .ok result ∧ holds result)
  | .ok result => decidable_of_iff (holds result) ⟨fun held => ⟨result, rfl, held⟩, fun ⟨_, rfl, held⟩ => held⟩
  | .error _ => .isFalse nofun

theorem Program.meets_of_forall (all : ∀ Reply (request : Call Reply) state, meets Reply request state)
    (program : Program Call Failure Result) (state : State) : program.Meets run meets state := by
  induction program generalizing state with
  | done | fail => trivial
  | call request next ih => exact ⟨all _ request state, ih _ _⟩

theorem Program.exec_runs {others : State → State → Prop}
    {answers : (Reply : Type) → Call Reply → State → Except Failure Reply → State → Prop}
    (answered : ∀ (Reply : Type) (request : Call Reply) state, meets Reply request state →
      answers Reply request state (run Reply request state).1 (run Reply request state).2)
    {program : Program Call Failure Result} {state : State} (met : program.Meets run meets state) :
    Runs others answers state program (program.exec run state).1 (program.exec run state).2 := by
  induction program generalizing state with
  | done result => exact .done state result
  | fail failure => exact .fail state failure
  | call request next ih => exact .call .refl (answered _ request state met.1) (ih _ met.2)

end

end Hopper.Kernel
