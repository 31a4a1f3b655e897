import Hopper.Lifecycle.Moves

/-! What operations do to jobs without one coming or going. -/

namespace Hopper.Lifecycle

open List Kernel Driver Sqlite

/-- Nothing happens to edges, results and batches, and no job comes or goes. -/
structure Steady (rules : Rules) (before after : Store) : Prop where
  changes : Changes rules (roster before) (roster after)
  deps : after.deps = before.deps
  results : after.results = before.results
  batches : after.batches = before.batches
  drawn : before.drawn ≤ after.drawn
  live : ∀ id, after.live id = before.live id
  journal : ∃ events, after.journal = events ++ before.journal ∧
    ∀ event ∈ events, claim? event ≠ none ∨ ending? event ≠ none

section
variable {rules : Rules} {engine : Engine} {pre post : Store}

theorem Sound.of_changes (sound : Sound engine pre) (changes : Changes rules (roster pre) (roster post))
    (births : ∀ event ∈ post.journal, event ∈ pre.journal ∨ birth? event = none)
    (drawn : pre.drawn ≤ post.drawn) : Sound engine post := by
  have steps {first last : Roster} (path : Changes rules first last) (identity : Identity first)
      (owned : Owned first) : Identity last ∧ Owned last := by
    induction path with
    | refl => exact ⟨identity, owned⟩
    | tail _ change ih => exact ⟨ih.1.step change, ih.2.step change⟩
  obtain ⟨identity, owned⟩ := steps changes sound.identity sound.owned
  refine ⟨identity, owned, ?_⟩
  rintro id ⟨event, mem, row, born, rfl⟩
  rcases births event mem with old | none
  · obtain ⟨draw, earlier, minted⟩ := sound.minted row.id ⟨event, old, row, born, rfl⟩
    exact ⟨draw, earlier.trans_le drawn, minted⟩
  · rw [none] at born
    cases born

theorem Steady.moves (steady : Steady rules pre post) : Moves rules engine pre post := by
  intro sound
  refine ⟨steady.changes, sound.of_changes steady.changes ?_ steady.drawn⟩
  intro event mem
  obtain ⟨events, journal, quiet⟩ := steady.journal
  rw [journal] at mem
  rcases List.mem_append.mp mem with new | old
  · refine .inr ?_
    rcases quiet event new with claims | ends
    · cases event <;> first | rfl | exact absurd rfl claims
    · cases event <;> first | rfl | exact absurd rfl ends
  · exact .inl old

namespace Steady

theorem aside (same : roster post = roster pre) (deps : post.deps = pre.deps)
    (results : post.results = pre.results) (batches : post.batches = pre.batches)
    (drawn : pre.drawn ≤ post.drawn) : Steady rules pre post where
  changes := by rw [same]
  deps := deps
  results := results
  batches := batches
  drawn := drawn
  live := fun id => congrArg (Table.has · id) (congrArg Roster.jobs same)
  journal := ⟨[], congrArg Roster.journal same, forall_mem_nil _⟩

theorem notify (x : W) (channel : String) (payloads : List String) (store : Store) :
    Steady rules store (x.notify channel payloads store) := by
  refine .aside (roster_notify x channel payloads store) ?_ ?_ ?_ (drawn_notify x channel payloads store).ge <;>
  · unfold W.notify
    split <;> rfl

variable {change : LiveJob → LiveJob} {id : JobID} {x : W} {condition : LiveJob → Bool} {row : LiveJob}

theorem touch (same : ∀ row, Keyed.key (change row) = Keyed.key row) (touched : ∀ row ∈ pre.jobs, Touched rules row (change row)) :
    Steady rules pre { pre with jobs := pre.jobs.update change same } :=
  ⟨.single (.touch (roster pre) change same touched), rfl, rfl, rfl, le_rfl, fun _ => Table.has_update same,
    [], rfl, forall_mem_nil _⟩

theorem updateJob {same : ∀ row : LiveJob, (change row).id = row.id}
    (touched : ∀ row ∈ pre.jobs, row.id = id → Touched rules row (change row)) :
    Steady rules pre (W.updateJob id change same pre) := by
  refine touch _ fun row mem => ?_
  split
  · next keyed => exact touched row mem keyed
  · exact .refl rules row

theorem start {client : Int} (positive : 0 < client)
    (startable : ∀ row ∈ pre.jobs, condition row = true → (roster pre).Startable row)
    (starts : rules.starts (roster pre)) : Steady rules pre (x.startedStore (some client) condition pre) :=
  ⟨.single (.start (roster pre) x client condition (x.key_started_if _ condition) positive startable starts),
    rfl, rfl, rfl, le_rfl, fun _ => Table.has_update (x.key_started_if _ condition), _, rfl, forall_mem_entered fun _ => .inl nofun⟩

theorem lease {lease : LeaseRow}
    (only : ∀ other ∈ pre.jobs, condition other = true ↔ other = row) (mem : row ∈ pre.jobs)
    (startable : (roster pre).Startable row) (id : lease.id = row.id) (fence : lease.fence = row.fence + 1)
    (starts : rules.starts (roster pre)) :
    Steady rules pre (W.upsertLease lease (x.startedStore none condition pre)) :=
  ⟨.single (.lease (roster pre) x row condition (x.key_started_if none condition) lease _ only mem startable id fence
      (fun _ => W.mem_upsertLease) starts),
    rfl, rfl, rfl, Nat.le_succ _, fun _ => Table.has_update (x.key_started_if _ condition), _, rfl, forall_mem_entered fun _ => .inl nofun⟩

theorem resume {leased : Bool} {same : ∀ row : LiveJob, (change row).id = row.id}
    (mem : row ∈ pre.jobs) (keyed : row.id = id) (running : row.state = .running)
    (resumed : Resumed rules row (change row))
    (released : Released row pre.leases (W.endClaim row leased pre).leases) :
    Steady rules pre (W.updateJob id change same (W.endClaim row leased pre)) := by
  subst keyed
  exact ⟨.single (.resume (roster pre) row change same _ mem running resumed released), rfl, rfl, rfl, le_rfl,
    fun _ => Table.has_modify same, [.ended row.id row.fence], rfl, forall_mem_singleton.mpr (.inr nofun)⟩

theorem forget {history : List HistoryJob} (sublist : history.Sublist pre.history) :
    Steady rules pre { pre with history := history } :=
  ⟨.single (.forget (roster pre) history sublist), rfl, rfl, rfl, le_rfl, fun _ => rfl, [], rfl, forall_mem_nil _⟩

theorem renew {change : LeaseRow → LeaseRow} (same : ∀ lease, Keyed.key (change lease) = Keyed.key lease)
    (fence : ∀ lease, (change lease).fence = lease.fence) :
    Steady rules pre { pre with leases := pre.leases.update change same } :=
  ⟨.single (.renew (roster pre) change same fence), rfl, rfl, rfl, le_rfl, fun _ => rfl, [], rfl, forall_mem_nil _⟩

end Steady

end

end Hopper.Lifecycle
