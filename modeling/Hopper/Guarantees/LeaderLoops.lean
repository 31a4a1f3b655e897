import Hopper.Client.LeaderInvariant
import Hopper.Sqlite.Operation

/-! Leader loops: no two clients lead while their lease fences last, and a lease
is given up only once the loops of its term have returned. -/

namespace Hopper.Client

open List Sqlite

section
variable {engine : Engine} {ttl now id : Int} {lease : Option LeaderRow}
variable {expiry : Int} {leaderID : Int} {other : Int}

section
variable (covers : Covers now lease id expiry)
include covers

theorem Covers.later {later : Int} (le : now ≤ later) : Covers later lease id expiry :=
  fun live => covers (lt_of_le_of_lt le live)

theorem Covers.request (x : W) :
    Covers now (x.leaderRequestResign leaderID lease).2.2 id expiry := by
  intro live
  obtain ⟨row, rfl, mine, lasts⟩ := covers live
  unfold W.leaderRequestResign
  dsimp only
  split
  · exact ⟨_, rfl, mine, lasts⟩
  · exact ⟨row, rfl, mine, lasts⟩

theorem Covers.delete (differ : id ≠ other) :
    Covers now (W.leaderResign other lease).2.2 id expiry := by
  intro live
  obtain ⟨row, rfl, mine, lasts⟩ := covers live
  unfold W.leaderResign
  dsimp only
  rw [if_neg (fun same => differ (mine.symm.trans same))]
  exact ⟨row, rfl, mine, lasts⟩

end

/-- A lease expires no later than one that is taken now. -/
def LeaseBounded (ttl now : Int) (lease : Option LeaderRow) : Prop :=
  ∀ row, lease = some row → row.expiresAt ≤ now / 1000 + ttl / 1000

theorem after_eq (x : W) : x.after ttl = x.now + ttl / 1000 :=
  Int.mul_add_ediv_right _ _ (by decide)

section
variable (bounded : LeaseBounded ttl now lease)
include bounded

theorem LeaseBounded.later {later : Int} (le : now ≤ later) :
    LeaseBounded ttl later lease := fun row there =>
  have := bounded row there
  by omega

theorem LeaseBounded.request (x : W) :
    LeaseBounded ttl now (x.leaderRequestResign leaderID lease).2.2 := by
  cases lease with
  | none => exact bounded
  | some row =>
    intro other there
    unfold W.leaderRequestResign at there
    dsimp only at there
    split at there <;> obtain rfl := Option.some.inj there <;> exact bounded row rfl

theorem LeaseBounded.delete : LeaseBounded ttl now (W.leaderResign id lease).2.2 := by
  cases lease with
  | none => exact bounded
  | some =>
    intro other there
    unfold W.leaderResign at there
    dsimp only at there
    split at there
    · cases there
    · exact bounded other there

theorem LeaseBounded.attempt :
    LeaseBounded ttl now (W.leaderAttempt ⟨engine, now / 1000⟩ ⟨id, ttl⟩ lease).2 := by
  intro other there
  cases lease with
  | none =>
    cases there
    exact (after_eq _).le
  | some row =>
    unfold W.leaderAttempt at there
    dsimp only at there
    split at there
    · cases there
      unfold W.leaderUpdated W.leaderExcluded
      dsimp only
      split
      · exact bounded row rfl
      · exact (after_eq _).le
    · exact bounded other there

end

theorem Covers.attempt (covers : Covers now lease other expiry) (bounded : LeaseBounded ttl now lease) :
    Covers now (W.leaderAttempt ⟨engine, now / 1000⟩ ⟨id, ttl⟩ lease).2 other expiry := by
  intro live
  obtain ⟨row, rfl, mine, lasts⟩ := covers live
  have unexpired : now / 1000 ≤ row.expiresAt := by omega
  have bound := bounded row rfl
  unfold W.leaderAttempt
  dsimp only
  split
  · next takes =>
    have renews : row.clientID = id := takes.resolve_left (by omega)
    refine ⟨_, rfl, renews.symm.trans mine, ?_⟩
    unfold W.leaderUpdated W.leaderExcluded
    dsimp only
    split
    · exact lasts
    · rw [after_eq]
      dsimp only
      omega
  · exact ⟨row, rfl, mine, lasts⟩

theorem Covers.promise {attempted : Int} (whole : 1000 ∣ ttl) (sent : attempted ≤ now)
    (leader : (W.leaderAttempt ⟨engine, now / 1000⟩ ⟨id, ttl⟩ lease).1.leader = true)
    (unasked : (W.leaderAttempt ⟨engine, now / 1000⟩ ⟨id, ttl⟩ lease).1.resignRequested = false) :
    Covers now (W.leaderAttempt ⟨engine, now / 1000⟩ ⟨id, ttl⟩ lease).2 id (attempted + ttl) := by
  have lasts : attempted + ttl ≤ (W.after ⟨engine, now / 1000⟩ ttl + 1) * 1000 := by
    rw [after_eq]
    dsimp only
    omega
  intro _
  cases lease with
  | none => exact ⟨_, rfl, rfl, lasts⟩
  | some row =>
    unfold W.leaderAttempt at leader unasked ⊢
    dsimp only at leader unasked ⊢
    split at leader
    · next takes =>
      rw [if_pos takes] at unasked ⊢
      refine ⟨_, rfl, rfl, ?_⟩
      have told : W.leaderResult ⟨id, ttl⟩ (W.leaderUpdated ⟨engine, now / 1000⟩ ⟨id, ttl⟩ row) = ⟨true, _, _⟩ :=
        if_pos rfl
      rw [told] at unasked
      unfold W.leaderUpdated W.leaderExcluded
      dsimp only
      split
      · next kept =>
        obtain ⟨renews, asked⟩ := Bool.and_eq_true_iff.mp kept
        have mine : row.clientID = id := (of_decide_eq_true renews).1
        refine absurd ?_ (of_decide_eq_false unasked)
        exact (if_pos renews).trans ((of_decide_eq_true asked).trans (congrArg some mine))
      · exact lasts
    · cases leader

end

section
variable {Key : Type} [DecidableEq Key] {engine : Engine} {ttl : Int} {s : LeaderSystem Key} {key : Key} {c : Leader}

structure SystemHolds (ttl : Int) (s : LeaderSystem Key) : Prop where
  clients : ∀ key, LeaderHolds ttl s.now s.lease s.owner key (s.clients key)
  lease : LeaseBounded ttl s.now s.lease

omit [DecidableEq Key] in
theorem SystemHolds.initial (initial : s.Initial) : SystemHolds ttl s where
  clients key := by
    have own := initial.owner key
    rw [initial.clients key]
    exact ⟨⟨own, nofun, nofun, forall_mem_nil _⟩, rfl, forall_mem_nil _, nofun, nofun,
      fun _ => ⟨rfl, nofun⟩, nofun, nofun, nofun⟩
  lease row there := nomatch initial.lease.symm.trans there

theorem SystemHolds.step (holds : SystemHolds ttl s) {lease : Option LeaderRow} {owner : Int → Option Key}
    (own : LeaderHolds ttl s.now lease owner key c) (bounded : LeaseBounded ttl s.now lease)
    (owners : ∀ id other, s.owner id = some other → owner id = some other)
    (covers : ∀ other, other ≠ key → ∀ id expiry, s.owner id = some other →
      Covers s.now s.lease id expiry → Covers s.now lease id expiry) :
    SystemHolds ttl { s.set key c with lease := lease, owner := owner } := by
  refine ⟨fun other => ?_, bounded⟩
  by_cases same : other = key
  · subst same
    change LeaderHolds ttl s.now lease owner other (Function.update s.clients other c other)
    rw [Function.update_self]
    exact own
  · change LeaderHolds ttl s.now lease owner other (Function.update s.clients key c other)
    rw [Function.update_of_ne same]
    exact (holds.clients other).mono le_rfl (fun id => owners id other) (covers other same)

theorem SystemHolds.set (holds : SystemHolds ttl s)
    (own : LeaderHolds ttl s.now s.lease s.owner key c) : SystemHolds ttl (s.set key c) :=
  holds.step own holds.lease (fun _ _ mine => mine) fun _ _ _ _ _ covers => covers

theorem LeaderStep.keeps {pre post : LeaderSystem Key} (whole : 1000 ∣ ttl) (step : LeaderStep engine ttl pre post)
    (holds : SystemHolds ttl pre) : SystemHolds ttl post := by
  cases step with
  | time now later =>
    exact ⟨fun key => (holds.clients key).mono later (fun _ mine => mine) fun _ _ _ covers => covers.later later,
      holds.lease.later later⟩
  | request =>
    exact ⟨fun key => (holds.clients key).mono le_rfl (fun _ mine => mine) fun _ _ _ covers => covers.request _, holds.lease.request _⟩
  | register key id fresh =>
    have owners : ∀ other owner, pre.owner other = some owner → Function.update pre.owner id (some key) other = some owner := by
      intro other owner mine
      have differ : other ≠ id := fun same => nomatch (same ▸ fresh).symm.trans mine
      rw [Function.update_of_ne differ]
      exact mine
    refine holds.step ?_ holds.lease owners fun _ _ _ _ _ covers => covers
    have moved := (holds.clients key).mono le_rfl (fun other => owners other key) fun _ _ _ covers => covers
    exact ⟨⟨Function.update_self .., moved.kept.leased, moved.kept.covered, moved.kept.past⟩, { moved.phase with }⟩
  | stop key =>
    have own := holds.clients key
    exact holds.set ⟨⟨own.kept.own, own.kept.leased, own.kept.covered, own.kept.past⟩, { own.phase with }⟩
  | cancel key term there | termReturn key term there => exact holds.set ((holds.clients key).withTerm there rfl)
  | wake key waits =>
    have own := holds.clients key
    refine holds.set (own.goOn (by rw [waits]; rfl) rfl (fun id mem => ?_) nofun nofun)
    obtain rfl := mem_singleton.mp mem
    exact own.kept.own
  | quit key waits =>
    exact holds.set ((holds.clients key).goOn (by rw [waits]; rfl) rfl (forall_mem_nil _) nofun nofun)
  | advance key next advanced => exact holds.set ((holds.clients key).advance advanced)
  | attempt key id attempted waits =>
    have own : LeaderHolds ttl pre.now (W.leaderAttempt ⟨engine, pre.now / 1000⟩ ⟨id, ttl⟩ pre.lease).2
        pre.owner key (pre.clients key) :=
      (holds.clients key).mono le_rfl (fun _ mine => mine) fun _ _ _ covers => covers.attempt holds.lease
    have phase := own.phase
    rw [waits] at phase
    refine holds.step ?_ holds.lease.attempt (fun _ _ mine => mine) fun _ _ _ _ _ covers => covers.attempt holds.lease
    refine ⟨⟨own.kept.own, own.kept.leased, own.kept.covered, own.kept.past⟩, rfl, phase.ids,
      fun other sent result told leader unasked => ?_, fun other sent outcome same => ?_, fun _ => phase.settled rfl, nofun,
      phase.attempts, nofun⟩
    · obtain ⟨rfl, rfl, rfl⟩ := told
      exact Covers.promise whole (phase.sent id attempted none rfl) leader unasked
    · obtain ⟨_, rfl, _⟩ := LeaderPhase.sent.inj same
      exact phase.sent id attempted none rfl
  | reply key id attempted outcome reply waits told =>
    have own := holds.clients key
    have phase := own.phase
    rw [waits] at phase
    refine holds.set (own.goOn (by rw [waits]; rfl) rfl phase.ids (fun other sent result same => ?_) phase.attempts)
    rcases told with rfl | ⟨_, rfl⟩
    · cases same
    · exact phase.promised other sent result same
  | delete key id next waits =>
    have own := holds.clients key
    have phase := own.phase
    rw [waits] at phase
    have mine := phase.ids id mem_cons_self
    have absent := phase.termless rfl
    refine holds.step ?_ holds.lease.delete (fun _ _ mine => mine) fun other differ otherID expiry owned covers => ?_
    · refine ⟨⟨own.kept.own, own.kept.leased, fun term there => (nomatch absent.symm.trans there), own.kept.past⟩,
        phase.shaped, phase.ids, nofun, nofun, fun _ => phase.settled rfl, nofun, nofun, fun _ => absent⟩
    · refine covers.delete fun same => differ ?_
      exact Option.some.inj (owned.symm.trans (same ▸ mine))
  | deleted key id took next waits =>
    have own := holds.clients key
    have phase := own.phase
    rw [waits] at phase
    have absent := phase.termless rfl
    have calm : next.calm = true := phase.shaped
    refine holds.set (own.goOn (by rw [waits]; rfl) ?_ (fun other mem => phase.ids other (mem_cons_of_mem _ mem)) ?_
      fun _ _ present => ?_)
    · cases next with
      | send | hold | stopped => rfl
      | _ => cases calm
    · intro other attempted result told
      cases next with
      | send | hold | stopped => cases told
      | _ => cases calm
    · rw [absent] at present
      cases present

theorem LeaderReached.holds (whole : 1000 ∣ ttl) (reached : LeaderReached engine ttl s) : SystemHolds ttl s := by
  induction reached with
  | start initial => exact SystemHolds.initial initial
  | step _ step ih => exact step.keeps whole ih

/-- The client leads: its loops have not been canceled, nor has its lease fence
expired. -/
def Leader.leads (c : Leader) (now : Int) : Prop :=
  ∃ term, c.term = some term ∧ term.canceled = false ∧ now < term.expiry

end

end Hopper.Client

namespace Hopper.Guarantees

open List Sqlite Client

/-- No two clients lead at once, and a client that has sent a delete of its
lease has no term whose loops have yet to return. -/
theorem leader_loops_exclude {Key : Type} [DecidableEq Key] {engine : Engine} {ttl : Int} (whole : 1000 ∣ ttl)
    {s : LeaderSystem Key} (reached : LeaderReached engine ttl s) :
    (∀ key other, (s.clients key).leads s.now → (s.clients other).leads s.now → key = other) ∧
      ∀ key id took next, (s.clients key).phase = .deleting id took next →
        (s.clients key).term = none ∧ ∀ term ∈ (s.clients key).past, term.returned = true := by
  have holds := reached.holds whole
  refine ⟨fun key other leads otherLeads => ?_, fun key id took next deleting => ?_⟩
  · obtain ⟨term, there, _, live⟩ := leads
    obtain ⟨otherTerm, otherThere, _, otherLive⟩ := otherLeads
    obtain ⟨row, found, mine, _⟩ := (holds.clients key).kept.covered term there live
    obtain ⟨otherRow, otherFound, otherMine, _⟩ := (holds.clients other).kept.covered otherTerm otherThere otherLive
    obtain rfl := Option.some.inj (found.symm.trans otherFound)
    have own := (holds.clients key).kept.leased (.inr (.inl (there ▸ rfl)))
    have otherOwn := (holds.clients other).kept.leased (.inr (.inl (otherThere ▸ rfl)))
    rw [← mine, otherMine] at own
    exact Option.some.inj (own.symm.trans otherOwn)
  · have phase := (holds.clients key).phase
    rw [deleting] at phase
    exact ⟨phase.termless rfl, (holds.clients key).kept.past⟩

def twoLeaders : LeaderSystem Bool where
  now := 0
  owner id := if id = 1 then some false else if id = 2 then some true else none
  clients key := { clientID := if key then 2 else 1 }

theorem twoLeaders_initial : twoLeaders.Initial where
  lease := rfl
  owner key := by cases key <;> rfl
  clients key := rfl

def leaderTTL : Int := 15000000000

theorem twoLeaders_run : ∃ led gone : LeaderSystem Bool, (LeaderReached Engine.counting leaderTTL led ∧ led.now = 0 ∧
      (led.clients false).term = some { expiry := leaderTTL }) ∧
    LeaderReached Engine.counting leaderTTL gone ∧ (gone.clients false).phase = .deleting 1 false .stopped ∧
      (gone.clients false).past.length = 1 := by
  have start : LeaderReached Engine.counting leaderTTL twoLeaders := .start twoLeaders_initial
  have awake := start.step (.wake _ false rfl)
  have fenced := awake.step (.advance _ false _ rfl)
  have sends := fenced.step (.advance _ false _ rfl)
  have sent := sends.step (.advance _ false _ rfl)
  have took := sent.step (.attempt _ false 1 0 rfl)
  have replied := took.step (.reply _ false 1 0 _ _ rfl (.inr ⟨rfl, rfl⟩))
  have renewed := replied.step (.advance _ false _ rfl)
  have moved := renewed.step (.advance _ false _ rfl)
  have leads := moved.step (.advance _ false _ rfl)
  have asked := leads.step (.stop _ false)
  have stopping := asked.step (.quit _ false rfl rfl)
  have ending := stopping.step (.advance _ false _ rfl)
  have returned := ending.step (.termReturn _ false { expiry := leaderTTL, canceled := true } rfl rfl)
  have ended := returned.step (.advance _ false _ rfl)
  have resigning := ended.step (.advance _ false _ rfl)
  have deleting := resigning.step (.advance _ false _ rfl)
  exact ⟨_, _, ⟨leads, rfl, rfl⟩, deleting, rfl, rfl⟩

theorem leader_loops_exclude_elected : ∃ led gone : LeaderSystem Bool,
    ((led.clients false).leads led.now ∧ ¬(led.clients true).leads led.now) ∧
      (gone.clients false).phase = .deleting 1 false .stopped ∧ (gone.clients false).term = none ∧
      ∃ term, (gone.clients false).past = [term] ∧ term.returned = true := by
  obtain ⟨led, gone, ⟨reached, start, there⟩, laterReached, deleting, one⟩ := twoLeaders_run
  have leads : (led.clients false).leads led.now := ⟨_, there, rfl, by rw [start]; decide⟩
  have whole : 1000 ∣ leaderTTL := by decide
  obtain ⟨termless, returned⟩ := (leader_loops_exclude whole laterReached).2 false 1 false .stopped deleting
  obtain ⟨term, past⟩ := length_eq_one_iff.mp one
  refine ⟨led, gone, ⟨leads, fun otherLeads => ?_⟩, deleting, termless, term, past, ?_⟩
  · cases (leader_loops_exclude whole reached).1 false true leads otherLeads
  · exact returned term (past ▸ mem_singleton_self term)

end Hopper.Guarantees
