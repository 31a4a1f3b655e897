import Hopper.Lifecycle.Operations

/-! Whole runs: every store of one is sound, and acts lead to it from the
empty store. -/

namespace Hopper.Lifecycle

open Kernel Driver Sqlite

section
variable {rules : Rules} {engine : Engine} {Allowed : Store → Operation → Prop}
variable {store : Store}

def Reached (rules : Rules) (engine : Engine) (store : Store) : Prop :=
  Acts rules engine ⟨{}, []⟩ ⟨store, []⟩

section
variable (reached : Reached rules engine store)
include reached

theorem Reached.sound : Sound engine store :=
  (reached.moves .empty).2

theorem Reached.changes : Changes rules (roster {}) (roster store) :=
  (reached.moves .empty).1

theorem Reached.step {now : Int} {operation : Operation}
    (obeys : Obeys rules ⟨engine, now⟩ store operation) : Reached rules engine (operation.apply engine now store) :=
  Relation.ReflTransGen.trans reached (apply_performs obeys reached.sound)

end

theorem reachable_reached (obeys : ∀ store now operation, Reached rules engine store → Allowed store operation →
      Obeys rules ⟨engine, now⟩ store operation) (reachable : Reachable engine Allowed store) :
    Reached rules engine store :=
  reachable.invariant .refl fun store now operation reached allowed =>
    reached.step (obeys store now operation reached allowed)

end

variable {first last : Roster}

theorem Changes.invariant {rules : Rules} {Holds : Roster → Prop} (changes : Changes rules first last)
    (kept : ∀ pre post, Identity pre → Change rules pre post → Holds pre → Holds post)
    (identity : Identity first) (start : Holds first) : Holds last := by
  have both : Identity last ∧ Holds last := by
    induction changes with
    | refl => exact ⟨identity, start⟩
    | tail _ change ih => exact ⟨ih.1.step change, kept _ _ ih.1 change ih.2⟩
  exact both.2

variable {rules : Rules} {store : Store} {engine : Engine}

theorem Changes.journal_suffix (changes : Changes rules first last) : first.journal <:+ last.journal := by
  induction changes with
  | refl => exact List.suffix_refl _
  | tail _ change ih => exact ih.trans change.journal_suffix

theorem Changes.seq_le (changes : Changes rules first last) : first.seq ≤ last.seq := by
  induction changes with
  | refl => exact le_rfl
  | tail _ change ih => exact ih.trans change.seq_le

/-- What holds of the roster of every store reached, whatever the callers do. -/
structure Orderly (roster : Roster) : Prop where
  unique : Unique roster
  serial : Serial roster
  fenced : Fenced roster

theorem Reached.orderly (reached : Reached rules engine store) : Orderly (roster store) := by
  refine reached.changes.invariant (fun pre post identity change orderly => ?_) .empty ⟨.empty, .empty, .empty⟩
  exact ⟨orderly.unique.step change, orderly.serial.step identity change, orderly.fenced.step identity change⟩

/-- Only claims, wakes and finalizes are limited. -/
def Rules.limiting (starts : Roster → Prop) (wakes : Prop) (drops : LiveJob → Prop) : Rules :=
  { Rules.none with starts := starts, wakes := wakes, drops := drops }

def Rules.starting (starts : Roster → Prop) : Rules :=
  .limiting starts True fun _ => True

def Claiming : Operation → Prop
  | .jobClaim _ | .jobClaimByID _ => True
  | _ => False

def Waking : Operation → Prop
  | .jobRetryOrderingKey _ => True
  | _ => False

theorem obeys_limiting {x : W} {operation : Operation} {starts : Roster → Prop} {wakes : Prop} {drops : LiveJob → Prop}
    (positive : operation.PositiveClient) (claims : Claiming operation → starts (roster store))
    (marks : Waking operation → wakes)
    (leaves : ∀ params, operation = .jobFinalizeMany params → params.noBatches = true → ∀ row ∈ store.jobs,
      (∃ result ∈ params.jobs, result.id = row.id) → drops row) :
    Obeys (.limiting starts wakes drops) x store operation := by
  cases operation with
  | jobInsertMany => exact fun _ _ _ _ _ _ => ⟨fun _ _ _ _ _ _ => trivial, fun _ => trivial, trivial⟩
  | periodicInsert => exact fun _ _ _ _ => ⟨fun _ _ _ _ _ _ => trivial, fun _ => trivial, trivial⟩
  | jobClaim => exact ⟨positive, claims trivial⟩
  | jobClaimByID => exact claims trivial
  | jobRetryOrderingKey => exact ⟨marks trivial, trivial⟩
  | jobFinalizeMany params => exact ⟨fun _ _ _ _ _ _ _ _ => trivial, leaves params rfl⟩
  | workflowInsert | messagePublish => exact fun _ _ => trivial
  | streamPump | jobExpireLeases => exact fun _ _ _ => trivial
  | jobRetry => exact ⟨trivial, fun _ _ _ => trivial⟩
  | _ => trivial

theorem obeys_starting {x : W} {operation : Operation} {starts : Roster → Prop} (positive : operation.PositiveClient)
    (claims : Claiming operation → starts (roster store)) : Obeys (.starting starts) x store operation :=
  obeys_limiting positive claims (fun _ => trivial) fun _ _ _ _ _ _ => trivial

theorem positive_reached (reachable : Reachable engine (fun _ operation => operation.PositiveClient) store) :
    Reached Rules.none engine store :=
  reachable_reached (fun _ _ _ _ positive => obeys_starting positive fun _ => trivial) reachable

end Hopper.Lifecycle
