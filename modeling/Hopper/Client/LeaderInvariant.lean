import Hopper.Client.Leader

/-! What a leader loop keeps: its term's lease fence is covered by the lease, and
its lease is given up without a term. -/

namespace Hopper.Client

open List Option Sqlite

namespace LeaderPhase

/-- The phase has `isLeader` say whether there is a term. -/
def settled : LeaderPhase → Bool
  | .ending _ | .requested _ | .resigning => false
  | _ => true

/-- The ID of the attempt that the phase makes, or follows. -/
def attempt? : LeaderPhase → Option Int
  | .send id | .sent id .. | .renew id .. | .overdue id .. | .moved id .. | .switch id .. => some id
  | _ => none

/-- The phase comes after the end of a term, and before another. -/
def termless : LeaderPhase → Bool
  | .giveUp .. | .deleting .. | .requested _ | .resigning => true
  | _ => false

/-- The attempt that the phase has the outcome of, or will have. -/
def outcome? : LeaderPhase → Option (Int × Int × LeaderResult)
  | .sent id attempted reply | .renew id attempted reply | .overdue id attempted reply
  | .moved id attempted reply _ | .switch id attempted reply _ => reply.map fun result => (id, attempted, result)
  | .ending next => next.outcome?
  | _ => none

def ids : LeaderPhase → List Int
  | .lapse id | .fence id | .send id | .requested id => [id]
  | .sent id .. | .renew id .. | .overdue id .. | .moved id .. | .switch id .. => [id]
  | .ending next => next.ids
  | .giveUp id next | .deleting id _ next => id :: next.ids
  | _ => []

def calm : LeaderPhase → Bool
  | .send _ | .hold | .stopped => true
  | _ => false

def resumes : LeaderPhase → Bool
  | .fence _ | .moved .. | .switch .. | .requested _ | .idle | .resigning => true
  | .giveUp _ next => next.calm
  | _ => false

def shaped : LeaderPhase → Bool
  | .giveUp _ next | .deleting _ _ next => next.calm
  | .ending next => next.resumes
  | _ => true

def plain : LeaderPhase → Bool
  | .sent .. | .ending _ | .giveUp .. | .deleting .. | .requested _ | .resigning => false
  | _ => true

theorem outcome_mem_ids {phase : LeaderPhase} {id attempted : Int} {result : LeaderResult}
    (told : phase.outcome? = some (id, attempted, result)) : id ∈ phase.ids := by
  have first {other tried : Int} {reply : Option LeaderResult}
      (told : (reply.map fun result => (other, tried, result)) = some (id, attempted, result)) : id ∈ [other] := by
    obtain ⟨_, _, same⟩ := map_eq_some_iff.mp told
    exact mem_singleton.mpr (congrArg Prod.fst same).symm
  induction phase with
  | ending next ih => exact ih told
  | sent | renew | overdue | moved | switch => exact first told
  | _ => cases told

end LeaderPhase

/-- The lease is the ID's until the expiry, in nanoseconds. -/
def Covers (now : Int) (lease : Option LeaderRow) (id expiry : Int) : Prop :=
  now < expiry → ∃ row, lease = some row ∧ row.clientID = id ∧ expiry ≤ (row.expiresAt + 1) * 1000

section
variable {Key : Type} (ttl now : Int) (lease : Option LeaderRow) (owner : Int → Option Key) (key : Key)

/-- What holds of a client, wherever its loop has got to. -/
structure LeaderKept (c : Leader) : Prop where
  own : owner c.clientID = some key
  leased : c.held = true ∨ c.term.isSome ∨ c.isLeader = true → owner c.leaseID = some key
  covered : ∀ term, c.term = some term → Covers now lease c.leaseID term.expiry
  past : ∀ term ∈ c.past, term.returned = true

structure PhaseHolds (c : Leader) (phase : LeaderPhase) : Prop where
  shaped : phase.shaped = true
  ids : ∀ id ∈ phase.ids, owner id = some key
  promised : ∀ id attempted result, phase.outcome? = some (id, attempted, result) → result.leader = true →
    result.resignRequested = false → Covers now lease id (attempted + ttl)
  sent : ∀ id attempted outcome, phase = .sent id attempted outcome → attempted ≤ now
  settled : phase.settled = true → c.isLeader = c.term.isSome ∧ (c.term.isSome → c.held = true)
  ending : ∀ next, phase = .ending next → next.settled = true → c.isLeader = false
  attempts : ∀ id, phase.attempt? = some id → c.term.isSome → c.leaseID = id
  termless : phase.termless = true → c.term = none

structure LeaderHolds (c : Leader) : Prop where
  kept : LeaderKept now lease owner key c
  phase : PhaseHolds ttl now lease owner key c c.phase

end

section
variable {Key : Type} {ttl now : Int} {lease : Option LeaderRow} {owner : Int → Option Key} {key : Key} {c : Leader}
variable {next : LeaderPhase} {reply : Option LeaderResult}

theorem Leader.endTerm_none (ended : c.term = none) : c.endTerm next = { c with phase := next } := by
  rw [Leader.endTerm, ended]

section
variable (kept : LeaderKept now lease owner key c) (resumes : next.resumes = true)
  (ids : ∀ id ∈ next.ids, owner id = some key)
  (promised : ∀ id attempted result, next.outcome? = some (id, attempted, result) → result.leader = true →
    result.resignRequested = false → Covers now lease id (attempted + ttl))
include kept resumes ids promised

theorem LeaderKept.endTerm (quiet : next.settled = true → c.isLeader = false) : LeaderHolds ttl now lease owner key (c.endTerm next) := by
  unfold Leader.endTerm
  cases found : c.term with
  | none =>
    refine ⟨⟨kept.own, fun any => ?_, nofun, kept.past⟩, ?_, ids, promised, ?_, ?_, ?_, nofun, fun _ => rfl⟩
    · exact kept.leased (by rw [found]; exact any)
    · cases next with
      | giveUp => exact resumes
      | fence | moved | switch | requested | idle | resigning => rfl
      | _ => cases resumes
    · rintro id attempted outcome rfl
      cases resumes
    · exact fun settled => ⟨quiet settled, nofun⟩
    · rintro post rfl
      cases resumes
  | some term =>
    refine ⟨⟨kept.own, fun _ => kept.leased (.inr (.inl (found ▸ rfl))), ?_, kept.past⟩, resumes, ids, promised, nofun,
      nofun, ?_, nofun, nofun⟩
    · rintro other same
      cases same
      exact kept.covered term found
    · intro post same
      obtain rfl := LeaderPhase.ending.inj same
      exact quiet

theorem LeaderKept.lose : LeaderHolds ttl now lease owner key (c.lose next) := by
  have kept : LeaderKept now lease owner key { c with isLeader := false } :=
    ⟨kept.own, fun any => kept.leased (any.imp_right fun rest => .inl (rest.resolve_right nofun)), kept.covered, kept.past⟩
  exact kept.endTerm resumes ids promised fun _ => rfl

end

theorem LeaderHolds.goOn (holds : LeaderHolds ttl now lease owner key c) (settled : c.phase.settled = true)
    (plain : next.plain = true) (ids : ∀ id ∈ next.ids, owner id = some key)
    (promised : ∀ id attempted result, next.outcome? = some (id, attempted, result) → result.leader = true →
      result.resignRequested = false → Covers now lease id (attempted + ttl))
    (attempts : ∀ id, next.attempt? = some id → c.term.isSome → c.leaseID = id) :
    LeaderHolds ttl now lease owner key { c with phase := next } := by
  refine ⟨⟨holds.kept.own, holds.kept.leased, holds.kept.covered, holds.kept.past⟩, ?_, ids, promised, ?_,
    fun _ => holds.phase.settled settled, ?_, attempts, ?_⟩
  · cases next with
    | giveUp | deleting | ending => cases plain
    | _ => rfl
  · rintro id attempted outcome rfl
    cases plain
  · rintro post rfl
    cases plain
  · intro termless
    cases next with
    | giveUp | deleting | requested | resigning => cases plain
    | _ => cases termless

section
variable (kept : LeaderKept now lease owner key c)
include kept

theorem LeaderKept.unheld : LeaderKept now lease owner key { c with held := false } :=
  ⟨kept.own, fun any => kept.leased (.inr (any.resolve_left nofun)), kept.covered, kept.past⟩

theorem LeaderKept.termless (ended : c.term = none) (led : c.isLeader = false) (shaped : next.shaped = true)
    (ids : ∀ id ∈ next.ids, owner id = some key) (silent : next.outcome? = none) (unsent : next.attempt? = none)
    (opens : ∀ post, next ≠ .ending post) : LeaderHolds ttl now lease owner key { c with phase := next } := by
  refine ⟨⟨kept.own, kept.leased, kept.covered, kept.past⟩, shaped, ids, fun id attempted result told => ?_,
    fun id attempted outcome same => ?_, fun _ => ⟨?_, fun any => ?_⟩, fun post same => absurd same (opens post),
    fun id attempt => ?_, fun _ => ended⟩
  · cases silent.symm.trans told
  · dsimp only at same
    rw [same] at unsent
    cases unsent
  · dsimp only
    rw [led, ended]
    rfl
  · dsimp only at any
    rw [ended] at any
    cases any
  · cases unsent.symm.trans attempt

end

theorem sameTerm_some (same : c.sameTerm reply = true) :
    ∃ result, reply = some result ∧ result.leader = true := by
  unfold Leader.sameTerm at same
  cases reply with
  | none => cases same
  | some result =>
    simp only [Option.any_some, Bool.and_eq_true] at same
    exact ⟨result, rfl, same.1⟩

variable (holds : LeaderHolds ttl now lease owner key c)
include holds

theorem LeaderHolds.switchOn {id attempted : Int} {lapsed : Bool} (given : c.phase = .switch id attempted reply lapsed) :
    LeaderHolds ttl now lease owner key (c.switchOn ttl id attempted lapsed reply) := by
  have phase := holds.phase
  rw [given] at phase
  have settled : c.phase.settled = true := by rw [given]; rfl
  obtain ⟨leads, held⟩ := phase.settled rfl
  have own := phase.ids id (mem_singleton_self id)
  cases reply with
  | none =>
    unfold Leader.switchOn
    refine holds.goOn settled ?_ ?_ ?_ ?_
    · split
      · rfl
      · split <;> rfl
    · intro other mem
      split at mem
      · cases mem
      · split at mem
        · obtain rfl := mem_singleton.mp mem
          exact holds.kept.own
        · cases mem
    · intro other attempted result told
      split at told
      · cases told
      · split at told <;> cases told
    · intro other attempt
      split at attempt
      · cases attempt
      · split at attempt <;> cases attempt
  | some result =>
    unfold Leader.switchOn
    dsimp only
    cases requested : result.resignRequested with
    | true =>
      rw [if_pos rfl]
      exact holds.kept.endTerm rfl (fun _ mem => mem_singleton.mp mem ▸ own) nofun nofun
    | false =>
      rw [if_neg nofun]
      cases leader : result.leader with
      | true =>
        rw [if_pos rfl]
        have promise := phase.promised id attempted result rfl leader requested
        refine ⟨⟨holds.kept.own, fun _ => own, fun term there => ?_, fun term mem => ?_⟩, rfl, nofun, nofun, nofun,
          fun _ => ⟨?_, fun _ => rfl⟩, nofun, nofun, nofun⟩
        · dsimp only at there ⊢
          split at there
          · have same := phase.attempts id rfl (there ▸ rfl)
            exact same ▸ holds.kept.covered term there
          · cases there
            exact promise
        · dsimp only at mem
          split at mem
          · exact holds.kept.past term mem
          · next led =>
            rw [not_isSome_iff_eq_none.mp fun any => led (leads.trans any)] at mem
            exact holds.kept.past term mem
        · dsimp only
          split
          · next leading => exact leading.symm.trans leads
          · rfl
      | false =>
        rw [if_neg nofun]
        by_cases leading : c.isLeader = true
        · rw [if_pos leading]
          exact holds.kept.unheld.lose rfl nofun nofun
        · rw [if_neg leading]
          exact holds.kept.unheld.termless (not_isSome_iff_eq_none.mp fun any => leading (leads.trans any))
            (Bool.eq_false_iff.mpr leading) rfl nofun rfl rfl nofun

section
variable {id attempted : Int} {step : Leader} (advanced : c.advance ttl now = some step)
include advanced

private theorem LeaderHolds.fence (given : c.phase = .fence id) : LeaderHolds ttl now lease owner key step := by
  have phase := holds.phase
  have settled : c.phase.settled = true := by rw [given]; rfl
  rw [given] at phase
  obtain ⟨leads, held⟩ := phase.settled rfl
  simp only [Leader.advance, given] at advanced
  split at advanced
  · next moved =>
    have ids : ∀ other ∈ (LeaderPhase.giveUp c.leaseID (.send id)).ids, owner other = some key :=
      forall_mem_cons.mpr ⟨holds.kept.leased (.inl moved.1), phase.ids⟩
    cases advanced
    split
    · exact holds.kept.unheld.lose rfl ids nofun
    · next led =>
      exact holds.kept.unheld.termless (not_isSome_iff_eq_none.mp fun any => led (leads.trans any))
        (Bool.eq_false_iff.mpr led) rfl ids rfl rfl nofun
  · next same =>
    cases advanced
    refine holds.goOn settled rfl phase.ids nofun fun other attempt any => ?_
    cases attempt
    by_contra different
    exact same ⟨held any, different⟩

private theorem LeaderHolds.send (given : c.phase = .send id) : LeaderHolds ttl now lease owner key step := by
  have phase := holds.phase
  rw [given] at phase
  simp only [Leader.advance, given, some.injEq] at advanced
  subst advanced
  refine ⟨⟨holds.kept.own, holds.kept.leased, holds.kept.covered, holds.kept.past⟩, rfl, phase.ids, nofun, ?_,
    fun _ => phase.settled rfl, nofun, phase.attempts, nofun⟩
  intro other attempted outcome same
  obtain ⟨_, rfl, _⟩ := LeaderPhase.sent.inj same
  exact le_rfl

private theorem LeaderHolds.renew (given : c.phase = .renew id attempted reply) : LeaderHolds ttl now lease owner key step := by
  have phase := holds.phase
  have settled : c.phase.settled = true := by rw [given]; rfl
  rw [given] at phase
  have goOn : ∀ next : LeaderPhase, next.plain = true → next.ids = [id] →
      next.outcome? = (reply.map fun result => (id, attempted, result)) → next.attempt? = some id →
      LeaderHolds ttl now lease owner key { c with phase := next } := fun next plain ids told attempt =>
    holds.goOn settled plain (ids ▸ phase.ids) (told ▸ phase.promised) (attempt ▸ phase.attempts)
  simp only [Leader.advance, given] at advanced
  split at advanced
  · cases advanced
    exact goOn _ rfl rfl rfl rfl
  · next term there =>
    split at advanced
    · next same =>
      split at advanced
      · cases advanced
        exact goOn _ rfl rfl rfl rfl
      · next unasked =>
        split at advanced
        · -- The renewal came back in time: it extends the fence up to what the reply promises.
          cases advanced
          obtain ⟨result, rfl, leader⟩ := sameTerm_some same
          have any : c.term.isSome = true := there ▸ rfl
          have promise := phase.promised id attempted result rfl leader (Bool.eq_false_iff.mpr unasked)
          have sameID := phase.attempts id rfl any
          obtain ⟨leads, held⟩ := phase.settled rfl
          refine ⟨⟨holds.kept.own, fun _ => holds.kept.leased (.inr (.inl any)), fun other same => ?_, holds.kept.past⟩, rfl,
            phase.ids, phase.promised, nofun, fun _ => ⟨leads.trans any, fun _ => held any⟩, nofun, fun other attempt _ => ?_, nofun⟩
          · cases same
            exact sameID ▸ promise
          · exact sameID.trans (some.inj attempt)
        · cases advanced
          exact goOn _ rfl rfl rfl rfl
    · cases advanced
      exact goOn _ rfl rfl rfl rfl

private theorem LeaderHolds.ending (given : c.phase = .ending next) : LeaderHolds ttl now lease owner key step := by
  have phase := holds.phase
  rw [given] at phase
  simp only [Leader.advance, given] at advanced
  split at advanced
  · next ended =>
    cases advanced
    rw [← Leader.endTerm_none ended]
    exact holds.kept.endTerm phase.shaped phase.ids phase.promised (phase.ending next rfl)
  · next term there =>
    split at advanced
    · next returned =>
      cases advanced
      have ended : LeaderKept now lease owner key { c with term := none, past := term :: c.past } := by
        refine ⟨holds.kept.own, fun any => holds.kept.leased ?_, nofun, forall_mem_cons.mpr ⟨returned, holds.kept.past⟩⟩
        exact any.imp_right fun rest => .inr (rest.resolve_left nofun)
      exact ended.endTerm phase.shaped phase.ids phase.promised (phase.ending next rfl)
    · cases advanced

private theorem LeaderHolds.holdOff {since : Int} (given : c.phase = .holdOff since) : LeaderHolds ttl now lease owner key step := by
  have settled : c.phase.settled = true := by rw [given]; rfl
  simp only [Leader.advance, given] at advanced
  split at advanced
  · cases advanced
    exact holds.goOn settled rfl nofun nofun nofun
  · split at advanced
    · cases advanced
      exact holds.goOn settled rfl (forall_mem_singleton.mpr holds.kept.own) nofun nofun
    · cases advanced

private theorem LeaderHolds.resigning (given : c.phase = .resigning) : LeaderHolds ttl now lease owner key step := by
  have ended : c.term = none := by
    have phase := holds.phase
    rw [given] at phase
    exact phase.termless rfl
  simp only [Leader.advance, given] at advanced
  split at advanced
  · next any =>
    cases advanced
    have own := holds.kept.leased (any.symm.imp_right .inr)
    have kept : LeaderKept now lease owner key { c with isLeader := false } :=
      ⟨holds.kept.own, fun _ => own, holds.kept.covered, holds.kept.past⟩
    exact kept.termless ended rfl rfl (forall_mem_singleton.mpr own) rfl rfl nofun
  · next unled =>
    cases advanced
    exact holds.kept.termless ended (Bool.eq_false_iff.mpr (not_or.mp unled).1) rfl nofun rfl rfl nofun

theorem LeaderHolds.advance : LeaderHolds ttl now lease owner key step := by
  have phase := holds.phase
  cases given : c.phase with
  | fence => exact holds.fence advanced given
  | send => exact holds.send advanced given
  | renew => exact holds.renew advanced given
  | ending => exact holds.ending advanced given
  | holdOff => exact holds.holdOff advanced given
  | resigning => exact holds.resigning advanced given
  | lapse | overdue | moved =>
    have settled : c.phase.settled = true := by rw [given]; rfl
    rw [given] at phase
    simp only [Leader.advance, given, some.injEq] at advanced
    subst advanced
    split
    · exact holds.kept.lose rfl phase.ids phase.promised
    · exact holds.goOn settled rfl phase.ids phase.promised phase.attempts
  | switch =>
    simp only [Leader.advance, given, some.injEq] at advanced
    exact advanced ▸ holds.switchOn given
  | giveUp =>
    rw [given] at phase
    simp only [Leader.advance, given, some.injEq] at advanced
    subst advanced
    exact ⟨⟨holds.kept.own, holds.kept.leased, holds.kept.covered, holds.kept.past⟩, phase.shaped, phase.ids, nofun, nofun,
      fun _ => phase.settled rfl, nofun, nofun, fun _ => phase.termless rfl⟩
  | requested =>
    rw [given] at phase
    simp only [Leader.advance, given, some.injEq] at advanced
    subst advanced
    have kept : LeaderKept now lease owner key { c with held := false, isLeader := false } :=
      ⟨holds.kept.own, fun any => holds.kept.leased (.inr (.inl ((any.resolve_left nofun).resolve_right nofun))),
        holds.kept.covered, holds.kept.past⟩
    exact kept.termless (phase.termless rfl) rfl rfl phase.ids rfl rfl nofun
  | hold =>
    have settled : c.phase.settled = true := by rw [given]; rfl
    simp only [Leader.advance, given, some.injEq] at advanced
    exact advanced ▸ holds.goOn settled rfl nofun nofun nofun
  | stopping =>
    simp only [Leader.advance, given, some.injEq] at advanced
    exact advanced ▸ holds.kept.endTerm rfl nofun nofun nofun
  | idle | sent | deleting | stopped => simp [Leader.advance, given] at advanced

end

theorem LeaderHolds.mono {later : Int} {lease' : Option LeaderRow}
    {owner' : Int → Option Key} (le : now ≤ later) (owners : ∀ id, owner id = some key → owner' id = some key)
    (covers : ∀ id expiry, owner id = some key → Covers now lease id expiry → Covers later lease' id expiry) :
    LeaderHolds ttl later lease' owner' key c where
  kept :=
    { own := owners _ holds.kept.own
      leased := fun any => owners _ (holds.kept.leased any)
      covered := fun term there =>
        covers _ _ (holds.kept.leased (.inr (.inl (there ▸ rfl)))) (holds.kept.covered term there)
      past := holds.kept.past }
  phase :=
    { holds.phase with
      ids := fun id mem => owners id (holds.phase.ids id mem)
      promised := fun id attempted result told leader unasked =>
        covers _ _ (holds.phase.ids id (LeaderPhase.outcome_mem_ids told))
          (holds.phase.promised id attempted result told leader unasked)
      sent := fun id attempted outcome same => le_trans (holds.phase.sent id attempted outcome same) le }

theorem LeaderHolds.withTerm {term other : LeaderTerm}
    (there : c.term = some term) (same : other.expiry = term.expiry) :
    LeaderHolds ttl now lease owner key { c with term := some other } := by
  have any : c.term.isSome = true := there ▸ rfl
  refine ⟨⟨holds.kept.own, fun _ => holds.kept.leased (.inr (.inl any)), fun term' there' => ?_, holds.kept.past⟩,
    holds.phase.shaped, holds.phase.ids, holds.phase.promised, holds.phase.sent, fun settled => ?_, holds.phase.ending,
    fun id attempt _ => holds.phase.attempts id attempt any, fun termless => ?_⟩
  · cases there'
    exact same ▸ holds.kept.covered term there
  · obtain ⟨leads, held⟩ := holds.phase.settled settled
    exact ⟨leads.trans any, fun _ => held any⟩
  · cases (holds.phase.termless termless).symm.trans there

end

end Hopper.Client
