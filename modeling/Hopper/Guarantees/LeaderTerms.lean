import Hopper.Sqlite.Leader
import Hopper.Sqlite.Operation

/-! Terms of the leader lease: what the calls on the lease do to the term they
find, and what a run of them makes of elections, renewals and requests. -/

namespace Hopper.Guarantees

open List Sqlite

/-- A call at a time, the lease it found and its reply. -/
structure LeaderEvent where
  now : Int
  call : LeaderCall
  before : Option LeaderRow
  reply : LeaderReply

namespace LeaderEvent

/-- The attempt starts a term: there is no lease, or it has expired. -/
def Takes (event : LeaderEvent) (params : LeaderParams) : Prop :=
  event.call = .attempt params ∧ ∀ row, event.before = some row → row.expiresAt < event.now

def Renews (event : LeaderEvent) (params : LeaderParams) : Prop :=
  event.call = .attempt params ∧
    ∃ row, event.before = some row ∧ row.clientID = params.clientID ∧ event.now ≤ row.expiresAt

def Asks (event : LeaderEvent) : Prop :=
  ∃ leaderID row, event.call = .requestResign leaderID ∧ event.before = some row ∧ event.now < row.expiresAt ∧
    (leaderID = 0 ∨ row.clientID = leaderID)

def Deletes (event : LeaderEvent) : Prop :=
  ∃ row, event.call = .resign row.clientID ∧ event.before = some row

def Continues (event : LeaderEvent) : Prop :=
  (∀ params, ¬event.Takes params) ∧ ¬event.Deletes

end LeaderEvent

def PositiveTTL : LeaderCall → Prop
  | .attempt params => 0 < params.ttl
  | _ => True

/-- The events of a run, the last one first, and the lease it leaves. -/
inductive LeaderRun (engine : Engine) : List LeaderEvent → Option LeaderRow → Prop where
  | start : LeaderRun engine [] none
  | step {events : List LeaderEvent} {lease : Option LeaderRow} (now : Int) (call : LeaderCall) :
      LeaderRun engine events lease → (∀ event ∈ events.head?, event.now ≤ now) → PositiveTTL call →
      LeaderRun engine (⟨now, call, lease, (call.apply ⟨engine, now⟩ lease).1⟩ :: events)
        (call.apply ⟨engine, now⟩ lease).2

theorem LeaderRun.stepTo {engine : Engine} {events : List LeaderEvent} {lease post : Option LeaderRow} (now : Int)
    (call : LeaderCall) {reply : LeaderReply} (run : LeaderRun engine events lease)
    (clock : ∀ event ∈ events.head?, event.now ≤ now) (positive : PositiveTTL call)
    (applied : call.apply ⟨engine, now⟩ lease = (reply, post)) :
    LeaderRun engine (⟨now, call, lease, reply⟩ :: events) post := by
  have stepped := run.step now call clock positive
  rwa [applied] at stepped

inductive TermStep (event : LeaderEvent) : Option LeaderRow → Option LeaderRow → Prop where
  | takes {lease : Option LeaderRow} (params : LeaderParams) : event.Takes params → 0 < params.ttl →
      event.reply = .attempted ⟨true, some event.now, false⟩ →
      TermStep event lease (some ⟨params.clientID, event.now, (event.now * 1000 + params.ttl) / 1000, none⟩)
  | renews {row : LeaderRow} (params : LeaderParams) : event.Renews params → 0 < params.ttl →
      event.reply = .attempted ⟨true, some row.electedAt, row.requested⟩ →
      TermStep event (some row) (some { row with
        expiresAt := if row.requested then row.expiresAt else (event.now * 1000 + params.ttl) / 1000 })
  | refused {row : LeaderRow} (params : LeaderParams) : event.call = .attempt params → row.clientID ≠ params.clientID →
      event.now ≤ row.expiresAt → event.reply = .attempted {} → TermStep event (some row) (some row)
  | asks {row : LeaderRow} : event.Asks → TermStep event (some row) (some { row with resignClientID := some row.clientID })
  | deletes {row : LeaderRow} : event.Deletes → TermStep event (some row) none
  | idle {lease : Option LeaderRow} : (∀ params, event.call ≠ .attempt params) → ¬event.Asks → ¬event.Deletes →
      TermStep event lease lease

section
variable {engine : Engine} {now : Int} {lease : Option LeaderRow} {event : LeaderEvent}

theorem attempt_step {params : LeaderParams} (positive : 0 < params.ttl) (given : event.now = now)
    (call : event.call = .attempt params) (found : event.before = lease)
    (reply : event.reply = .attempted (W.leaderAttempt ⟨engine, now⟩ params lease).1) :
    TermStep event lease (W.leaderAttempt ⟨engine, now⟩ params lease).2 := by
  subst given found
  cases held : event.before with
  | none =>
    rw [held] at reply
    refine .takes params ⟨call, fun row is => by cases held.symm.trans is⟩ positive ?_
    simp [reply, W.leaderAttempt, W.leaderResult, W.leaderExcluded, LeaderRow.requested]
  | some row =>
    rw [held, W.leaderAttempt] at reply
    rw [W.leaderAttempt]
    by_cases expired : row.expiresAt < event.now
    · rw [if_pos (.inl expired)] at reply ⊢
      have past : ¬(row.clientID = params.clientID ∧ event.now ≤ row.expiresAt) := by omega
      have updated : W.leaderUpdated ⟨engine, event.now⟩ params row = W.leaderExcluded ⟨engine, event.now⟩ params := by
        simp [W.leaderUpdated, W.leaderExcluded, past]
      rw [updated] at reply ⊢
      refine .takes params ⟨call, fun other is => by cases held.symm.trans is; exact expired⟩ positive ?_
      simp [reply, W.leaderResult, W.leaderExcluded, LeaderRow.requested]
    · have live := not_lt.mp expired
      by_cases own : row.clientID = params.clientID
      · rw [if_pos (.inr own)] at reply ⊢
        have updated : W.leaderUpdated ⟨engine, event.now⟩ params row = { row with
              expiresAt := if row.requested then row.expiresAt else (event.now * 1000 + params.ttl) / 1000 } := by
          simp [W.leaderUpdated, W.leaderExcluded, own, live, W.after, W.nanos]
        rw [updated] at reply ⊢
        refine .renews params ⟨call, row, held, own, live⟩ positive ?_
        simp [reply, W.leaderResult, own, LeaderRow.requested]
      · have others : ¬(row.expiresAt < event.now ∨ row.clientID = params.clientID) := by tauto
        rw [if_neg others] at reply ⊢
        exact .refused params call own live reply

theorem call_step {call : LeaderCall} (positive : PositiveTTL call) :
    TermStep ⟨now, call, lease, (call.apply ⟨engine, now⟩ lease).1⟩ lease (call.apply ⟨engine, now⟩ lease).2 := by
  cases call with
  | attempt => exact attempt_step positive rfl rfl rfl rfl
  | requestResign leaderID =>
    have undeleted : ¬LeaderEvent.Deletes ⟨now, .requestResign leaderID, lease,
        (LeaderCall.apply ⟨engine, now⟩ lease (.requestResign leaderID)).1⟩ := by
      rintro ⟨_, call, _⟩
      cases call
    cases lease with
    | none => exact .idle nofun (fun ⟨_, _, _, found, _⟩ => by cases found) undeleted
    | some row =>
      by_cases asks : now < row.expiresAt ∧ (leaderID = 0 ∨ row.clientID = leaderID)
      · simp only [LeaderCall.apply, W.leaderRequestResign, if_pos asks]
        exact .asks ⟨leaderID, row, rfl, rfl, asks⟩
      · simp only [LeaderCall.apply, W.leaderRequestResign, if_neg asks] at undeleted ⊢
        refine .idle nofun ?_ undeleted
        rintro ⟨_, _, ⟨⟩, ⟨⟩, named⟩
        exact asks named
  | resign clientID =>
    have unasked : ¬LeaderEvent.Asks ⟨now, .resign clientID, lease, (LeaderCall.apply ⟨engine, now⟩ lease (.resign clientID)).1⟩ := by
      rintro ⟨_, _, call, _⟩
      cases call
    cases lease with
    | none => exact .idle nofun unasked fun ⟨_, _, found⟩ => by cases found
    | some row =>
      by_cases own : row.clientID = clientID
      · simp only [LeaderCall.apply, W.leaderResign, if_pos own]
        exact .deletes ⟨row, by rw [own], rfl⟩
      · simp only [LeaderCall.apply, W.leaderResign, if_neg own] at unasked ⊢
        refine .idle nofun unasked ?_
        rintro ⟨_, call, found⟩
        cases found
        cases call
        exact own rfl

theorem LeaderRun.last {events : List LeaderEvent} {post : Option LeaderRow}
    (run : LeaderRun engine (event :: events) post) :
    LeaderRun engine events event.before ∧ TermStep event event.before post ∧ ∀ earlier ∈ events.head?, earlier.now ≤ event.now := by
  cases run with
  | step now call run later positive => exact ⟨run, call_step positive, later⟩

end

/-! One term: an attempt that starts it, and the events after it that neither
start a term nor end one. -/

structure InTerm (later : List LeaderEvent) (taken : LeaderEvent) (params : LeaderParams) (row : LeaderRow) : Prop where
  holder : row.clientID = params.clientID
  electedAt : row.electedAt = taken.now
  requested : row.requested = true ↔ ∃ event ∈ later, event.Asks
  /-- Until a request, the lease lasts from the last renewal as long as it says. -/
  expiry : (∀ event ∈ later, ¬event.Asks) → ∀ newer event older renewal, later ++ [taken] = newer ++ event :: older →
    event.Renews renewal ∨ event.Takes renewal → (∀ other ∈ newer, ∀ renewal, ¬other.Renews renewal) →
    row.expiresAt = (event.now * 1000 + renewal.ttl) / 1000
  /-- From a request on, the expiry is the one it found. -/
  fixed : ∀ newer asked older found, later = newer ++ asked :: older → asked.Asks → asked.before = some found →
    row.expiresAt = found.expiresAt
  /-- Renewals report the term, and the request if there was one before them. -/
  reports : ∀ newer event older renewal, later = newer ++ event :: older → event.Renews renewal →
    ∃ requested, event.reply = .attempted ⟨true, some taken.now, requested⟩ ∧
      (requested = true ↔ ∃ asked ∈ older, asked.Asks)

section
variable {engine : Engine} {later earlier : List LeaderEvent} {taken event : LeaderEvent} {params : LeaderParams}
  {row : LeaderRow} {lease post : Option LeaderRow}
variable {events older : List LeaderEvent} {newer : List LeaderEvent} {result : LeaderResult}

theorem LeaderEvent.Takes.step (takes : taken.Takes params) (step : TermStep taken taken.before post) :
    post = some ⟨params.clientID, taken.now, (taken.now * 1000 + params.ttl) / 1000, none⟩ ∧ 0 < params.ttl ∧
      taken.reply = .attempted ⟨true, some taken.now, false⟩ := by
  obtain ⟨call, expired⟩ := takes
  generalize found : taken.before = pre at step
  cases step with
  | takes given isTaken positive reply =>
    cases call.symm.trans isTaken.1
    exact ⟨rfl, positive, reply⟩
  | renews given renews =>
    obtain ⟨_, row, is, _, live⟩ := renews
    exact absurd (expired row is) (not_lt_of_ge live)
  | refused given _ _ live => exact absurd (expired _ found) (not_lt_of_ge live)
  | asks asks =>
    obtain ⟨_, _, is, _⟩ := asks
    cases call.symm.trans is
  | deletes deletes =>
    obtain ⟨_, is, _⟩ := deletes
    cases call.symm.trans is
  | idle other => exact absurd call (other params)

theorem InTerm.first (takes : taken.Takes params) :
    InTerm [] taken params ⟨params.clientID, taken.now, (taken.now * 1000 + params.ttl) / 1000, none⟩ where
  holder := rfl
  electedAt := rfl
  requested := by simp [LeaderRow.requested]
  expiry := by
    intro _ newer event older renewal split attempts _
    cases newer with
    | cons => simp at split
    | nil =>
      obtain ⟨rfl, _⟩ := cons_eq_cons.mp split
      have call := attempts.elim And.left And.left
      cases takes.1.symm.trans call
      rfl
  fixed := by simp
  reports := by simp

theorem split_cons {first event : LeaderEvent} (split : first :: events = newer ++ event :: older) :
    newer = [] ∧ event = first ∧ older = events ∨ ∃ rest, newer = first :: rest ∧ events = rest ++ event :: older := by
  cases newer with
  | nil =>
    obtain ⟨rfl, rfl⟩ := cons_eq_cons.mp split
    exact .inl ⟨rfl, rfl, rfl⟩
  | cons other newer =>
    obtain ⟨rfl, rest⟩ := cons_eq_cons.mp split
    exact .inr ⟨newer, rfl, rest⟩

section
variable (term : InTerm later taken params row)
include term

theorem InTerm.idle (unrenewed : ∀ renewal, ¬event.Renews renewal)
    (untaken : ∀ renewal, ¬event.Takes renewal) (unasked : ¬event.Asks) : InTerm (event :: later) taken params row where
  holder := term.holder
  electedAt := term.electedAt
  requested := by
    rw [term.requested]
    simp [unasked]
  expiry := by
    intro none newer found older renewal split attempts last
    rcases split_cons split with ⟨_, rfl, _⟩ | ⟨rest, rfl, tail⟩
    · rcases attempts with renews | takes
      · exact absurd renews (unrenewed renewal)
      · exact absurd takes (untaken renewal)
    · exact term.expiry (fun other mem => none other (mem_cons_of_mem _ mem)) rest found older renewal tail attempts
        fun other mem => last other (mem_cons_of_mem _ mem)
  fixed := by
    intro newer asked older found split asks is
    rcases split_cons split with ⟨_, rfl, _⟩ | ⟨rest, rfl, tail⟩
    · exact absurd asks unasked
    · exact term.fixed rest asked older found tail asks is
  reports := by
    intro newer found older renewal split renews
    rcases split_cons split with ⟨_, rfl, _⟩ | ⟨rest, rfl, tail⟩
    · exact absurd renews (unrenewed renewal)
    · exact term.reports rest found older renewal tail renews

theorem InTerm.asks (asks : event.Asks) (found : event.before = some row) :
    InTerm (event :: later) taken params { row with resignClientID := some row.clientID } where
  holder := term.holder
  electedAt := term.electedAt
  requested := iff_of_true (decide_eq_true rfl) ⟨event, mem_cons_self, asks⟩
  expiry := fun none => absurd asks (none event mem_cons_self)
  fixed := by
    intro newer asked older given split isAsked is
    rcases split_cons split with ⟨_, rfl, _⟩ | ⟨rest, rfl, tail⟩
    · cases found.symm.trans is
      rfl
    · exact term.fixed rest asked older given tail isAsked is
  reports := by
    intro newer given older renewal split renews
    rcases split_cons split with ⟨_, rfl, _⟩ | ⟨rest, rfl, tail⟩
    · obtain ⟨_, _, call, _⟩ := asks
      cases call.symm.trans renews.1
    · exact term.reports rest given older renewal tail renews

theorem InTerm.renews {renewal : LeaderParams} (renews : event.Renews renewal)
    (reply : event.reply = .attempted ⟨true, some row.electedAt, row.requested⟩) :
    InTerm (event :: later) taken params { row with
      expiresAt := if row.requested then row.expiresAt else (event.now * 1000 + renewal.ttl) / 1000 } where
  holder := term.holder
  electedAt := term.electedAt
  requested := by
    have unasked : ¬event.Asks := by
      rintro ⟨_, _, call, _⟩
      cases call.symm.trans renews.1
    change row.requested = true ↔ _
    rw [term.requested]
    simp [unasked]
  expiry := by
    intro none newer given older last split attempts latest
    have unrequested : ¬row.requested = true := by
      rw [term.requested]
      rintro ⟨asked, mem, asks⟩
      exact none asked (mem_cons_of_mem _ mem) asks
    change (if row.requested then row.expiresAt else _) = _
    rw [if_neg unrequested]
    rcases split_cons split with ⟨_, rfl, _⟩ | ⟨rest, rfl, _⟩
    · have call := attempts.elim And.left And.left
      cases renews.1.symm.trans call
      rfl
    · exact absurd renews (latest event mem_cons_self renewal)
  fixed := by
    intro newer asked older found split asks is
    rcases split_cons split with ⟨_, rfl, _⟩ | ⟨rest, rfl, tail⟩
    · obtain ⟨_, _, call, _⟩ := asks
      cases call.symm.trans renews.1
    · have requested : row.requested = true := by
        rw [term.requested, tail]
        exact ⟨asked, mem_append_right _ mem_cons_self, asks⟩
      change (if row.requested then row.expiresAt else _) = _
      rw [if_pos requested]
      exact term.fixed rest asked older found tail asks is
  reports := by
    intro newer given older last split _
    rcases split_cons split with ⟨_, rfl, rfl⟩ | ⟨rest, rfl, tail⟩
    · exact ⟨row.requested, by rw [reply, term.electedAt], term.requested⟩
    · exact term.reports rest given older last tail ‹_›

end

theorem LeaderRun.inTerm (run : LeaderRun engine (later ++ taken :: earlier) lease) (takes : taken.Takes params)
    (continues : ∀ event ∈ later, event.Continues) : ∃ row, lease = some row ∧ InTerm later taken params row := by
  induction later generalizing lease with
  | nil =>
    obtain ⟨_, step, _⟩ := run.last
    exact ⟨_, (takes.step step).1, .first takes⟩
  | cons event later ih =>
    obtain ⟨pre, step, _⟩ := run.last
    obtain ⟨row, found, term⟩ := ih pre fun other mem => continues other (mem_cons_of_mem _ mem)
    obtain ⟨untaken, undeleted⟩ := continues event mem_cons_self
    rw [found] at step
    cases step with
    | takes params takes => exact absurd takes (untaken params)
    | deletes deletes => exact absurd deletes undeleted
    | renews renewal renews _ reply => exact ⟨_, rfl, term.renews renews reply⟩
    | asks asks => exact ⟨_, rfl, term.asks asks found⟩
    | refused given call other =>
      refine ⟨row, rfl, term.idle ?_ untaken ?_⟩
      · rintro renewal ⟨is, held, holds, own, _⟩
        cases call.symm.trans is
        cases found.symm.trans holds
        exact other own
      · rintro ⟨_, _, is, _⟩
        cases call.symm.trans is
    | idle other unasked => exact ⟨row, rfl, term.idle (fun renewal renews => other renewal renews.1) untaken unasked⟩

theorem LeaderRun.exists_term (run : LeaderRun engine events (some row)) :
    ∃ later taken earlier params, events = later ++ taken :: earlier ∧ taken.Takes params ∧ ∀ event ∈ later, event.Continues := by
  induction events generalizing row with
  | nil => cases run
  | cons event events ih =>
    obtain ⟨pre, step, _⟩ := run.last
    by_cases takes : ∃ params, event.Takes params
    · obtain ⟨params, takes⟩ := takes
      exact ⟨[], event, events, params, rfl, takes, forall_mem_nil _⟩
    · have untaken := not_exists.mp takes
      have held : ∃ row, event.before = some row ∧ ¬event.Deletes := by
        generalize found : event.before = lease at step
        cases step with
        | takes params takes => exact absurd takes (untaken params)
        | @renews row _ renews =>
          refine ⟨row, rfl, ?_⟩
          rintro ⟨_, call, _⟩
          cases call.symm.trans renews.1
        | @refused row _ call =>
          refine ⟨row, rfl, ?_⟩
          rintro ⟨_, is, _⟩
          cases call.symm.trans is
        | @asks row asks =>
          refine ⟨row, rfl, ?_⟩
          rintro ⟨_, call, _⟩
          obtain ⟨_, _, is, _⟩ := asks
          cases call.symm.trans is
        | idle _ _ undeleted => exact ⟨_, rfl, undeleted⟩
      obtain ⟨row, found, undeleted⟩ := held
      rw [found] at pre
      obtain ⟨later, taken, earlier, params, rfl, started, continues⟩ := ih pre
      exact ⟨event :: later, taken, earlier, params, rfl, started, forall_mem_cons.mpr ⟨⟨untaken, undeleted⟩, continues⟩⟩

theorem LeaderRun.elected_le (run : LeaderRun engine events (some row)) :
    row.electedAt ≤ row.expiresAt ∧ ∀ event ∈ events.head?, row.electedAt ≤ event.now := by
  induction events generalizing row with
  | nil => cases run
  | cons event events ih =>
    obtain ⟨pre, step, ordered⟩ := run.last
    have since (found : LeaderRow) (is : event.before = some found) :
        found.electedAt ≤ found.expiresAt ∧ found.electedAt ≤ event.now := by
      rw [is] at pre
      obtain ⟨least, times⟩ := ih pre
      cases events with
      | nil => cases pre
      | cons last => exact ⟨least, (times last rfl).trans (ordered last rfl)⟩
    have both : row.electedAt ≤ row.expiresAt ∧ row.electedAt ≤ event.now := by
      generalize found : event.before = lease at step
      cases step with
      | takes => exact ⟨by dsimp only; omega, le_rfl⟩
      | renews =>
        obtain ⟨least, time⟩ := since _ found
        refine ⟨?_, time⟩
        dsimp only
        split <;> omega
      | refused | idle => exact since _ found
      | asks =>
        obtain ⟨least, time⟩ := since _ found
        exact ⟨least, time⟩
    refine ⟨both.1, fun last is => ?_⟩
    cases is
    exact both.2

/-- What a run makes of the lease: one client's terms, one after another. -/
structure TermMachine (events : List LeaderEvent) (lease : Option LeaderRow) : Prop where
  /-- Another client than the holder gets the lease only once it has expired. -/
  others : ∀ event ∈ events, ∀ params row result, event.call = .attempt params → event.before = some row →
    row.clientID ≠ params.clientID → event.reply = .attempted result → result.leader = true → row.expiresAt < event.now
  term : ∀ later taken earlier params, events = later ++ taken :: earlier → taken.Takes params →
    (∀ event ∈ later, event.Continues) → ∃ row, lease = some row ∧ InTerm later taken params row
  /-- A request is reported to renewals of the term it was recorded in. -/
  reported : ∀ newer event older result, events = newer ++ event :: older → event.reply = .attempted result →
    result.resignRequested = true → ∃ params mid asked rest, event.Renews params ∧ older = mid ++ asked :: rest ∧
      asked.Asks ∧ ∀ other ∈ mid, other.Continues
  /-- A new term is elected later than the one before, and has no request. -/
  takeover : ∀ event ∈ events, ∀ params row, event.Takes params → event.before = some row →
    row.electedAt < event.now ∧ event.reply = .attempted ⟨true, some event.now, false⟩

theorem LeaderRun.upTo (run : LeaderRun engine (newer ++ event :: older) lease) :
    ∃ post, LeaderRun engine (event :: older) post := by
  induction newer generalizing lease with
  | nil => exact ⟨lease, run⟩
  | cons other newer ih => exact ih run.last.1

theorem LeaderRun.attempted (run : LeaderRun engine (event :: older) post)
    (reply : event.reply = .attempted result) : ∃ params, event.call = .attempt params := by
  cases run with
  | step now call =>
    cases call with
    | attempt params => exact ⟨params, rfl⟩
    | requestResign | resign => cases reply

theorem LeaderRun.reported (run : LeaderRun engine (event :: older) post)
    (reply : event.reply = .attempted result) (requested : result.resignRequested = true) :
    ∃ params mid asked rest, event.Renews params ∧ older = mid ++ asked :: rest ∧ asked.Asks ∧ ∀ other ∈ mid, other.Continues := by
  obtain ⟨given, call⟩ := run.attempted reply
  obtain ⟨pre, step, _⟩ := run.last
  generalize found : event.before = lease at step pre
  cases step with
  | takes params _ _ is | refused params _ _ _ is =>
    cases reply.symm.trans is
    cases requested
  | asks asks =>
    obtain ⟨_, _, is, _⟩ := asks
    cases call.symm.trans is
  | deletes deletes =>
    obtain ⟨_, is, _⟩ := deletes
    cases call.symm.trans is
  | idle other => exact absurd call (other given)
  | renews params renews _ is =>
    cases reply.symm.trans is
    obtain ⟨later, taken, earlier, started, rfl, takes, continues⟩ := pre.exists_term
    obtain ⟨_, ⟨⟩, term⟩ := pre.inTerm takes continues
    obtain ⟨asked, mem, asks⟩ := term.requested.mp requested
    obtain ⟨mid, rest, rfl⟩ := append_of_mem mem
    refine ⟨params, mid, asked, rest ++ taken :: earlier, renews, by simp, asks, fun other among => ?_⟩
    exact continues other (mem_append_left _ among)

/-- At non-decreasing times, the calls of any clients on the lease make terms of
it. -/
theorem leader_terms {events : List LeaderEvent} (run : LeaderRun engine events lease) : TermMachine events lease where
  others := by
    intro event member params row result call found other reply leads
    obtain ⟨newer, older, rfl⟩ := append_of_mem member
    obtain ⟨after, run⟩ := run.upTo
    obtain ⟨_, step, _⟩ := run.last
    generalize is : event.before = lease at step
    cases step with
    | takes given takes => exact takes.2 row found
    | renews given renews =>
      obtain ⟨given, held, holds, own, _⟩ := renews
      cases call.symm.trans given
      cases found.symm.trans holds
      exact absurd own other
    | refused given _ _ _ refused =>
      cases reply.symm.trans refused
      cases leads
    | asks asks =>
      obtain ⟨_, _, given, _⟩ := asks
      cases call.symm.trans given
    | deletes deletes =>
      obtain ⟨_, given, _⟩ := deletes
      cases call.symm.trans given
    | idle never => exact absurd call (never params)
  term := by
    rintro later taken earlier params rfl takes continues
    exact run.inTerm takes continues
  reported := by
    rintro newer event older result rfl reply requested
    obtain ⟨after, run⟩ := run.upTo
    exact run.reported reply requested
  takeover := by
    intro event member params row takes found
    obtain ⟨newer, older, rfl⟩ := append_of_mem member
    obtain ⟨after, run⟩ := run.upTo
    obtain ⟨before, step, _⟩ := run.last
    refine ⟨?_, (takes.step step).2.2⟩
    rw [found] at before
    exact before.elected_le.1.trans_lt (takes.2 row found)

/-- A client takes the lease, is asked to resign and told so, and another takes
the lease once it has expired. -/
theorem leader_terms_asked : ∃ events, LeaderRun .counting events (some ⟨2, 6, 11, none⟩) ∧
      events.map LeaderEvent.reply = [.attempted ⟨true, some 6, false⟩, .attempted ⟨true, some 0, true⟩, .asked 1,
        .attempted ⟨true, some 0, false⟩] ∧ TermMachine events (some ⟨2, 6, 11, none⟩) := by
  have taken : LeaderRun .counting _ (some ⟨1, 0, 5, none⟩) :=
    LeaderRun.start.stepTo 0 (.attempt ⟨1, 5000⟩) (by simp) (by simp [PositiveTTL]) rfl
  have asked := taken.stepTo 2 (.requestResign 0) (by simp) trivial rfl
  have renewed := asked.stepTo 3 (.attempt ⟨1, 5000⟩) (by simp) (by simp [PositiveTTL]) rfl
  have passed := renewed.stepTo 6 (.attempt ⟨2, 5000⟩) (by simp) (by simp [PositiveTTL]) rfl
  exact ⟨_, passed, by decide +kernel, leader_terms passed⟩

/-- A TTL that is no whole number of microseconds is cut to one that is. -/
theorem expiry_before_ttl : ∃ events row taken, LeaderRun .counting events (some row) ∧ events = [taken] ∧ taken.Takes ⟨1, 1500⟩ ∧
      row.expiresAt * 1000 < taken.now * 1000 + 1500 := by
  have taken : LeaderRun .counting _ (some ⟨1, 0, 1, none⟩) :=
    LeaderRun.start.stepTo 0 (.attempt ⟨1, 1500⟩) (by simp) (by simp [PositiveTTL]) rfl
  exact ⟨_, _, _, taken, rfl, ⟨rfl, nofun⟩, by decide⟩

end

end Hopper.Guarantees
