import Hopper.Lifecycle.Runs

/-! What operations enter in the journal. -/

namespace Hopper.Lifecycle

open List Kernel Driver Sqlite

def Logs (kind : Event → Bool) (before after : Store) : Prop :=
  ∃ events, after.journal = events ++ before.journal ∧ ∀ event ∈ events, kind event = true

section
variable {kind : Event → Bool} {pre post : Store}

namespace Logs

theorem of_journal (same : post.journal = pre.journal) : Logs kind pre post :=
  ⟨[], same, forall_mem_nil _⟩

theorem refl (store : Store) : Logs kind store store :=
  of_journal rfl

theorem trans (first second third : Store) (firstLogs : Logs kind first second)
    (secondLogs : Logs kind second third) : Logs kind first third := by
  obtain ⟨events, journal, kinds⟩ := firstLogs
  obtain ⟨later, laterJournal, laterKinds⟩ := secondLogs
  refine ⟨later ++ events, by rw [laterJournal, journal, append_assoc], fun event mem => ?_⟩
  rcases List.mem_append.mp mem with new | old
  · exact laterKinds event new
  · exact kinds event old

theorem one {event : Event} (journal : post.journal = event :: pre.journal)
    (is : kind event = true) : Logs kind pre post := by
  refine ⟨[event], journal, fun other mem => ?_⟩
  rw [mem_singleton.mp mem]
  exact is

theorem notify (x : W) (channel : String) (payloads : List String) (store : Store) :
    Logs kind store (x.notify channel payloads store) :=
  of_journal (congrArg Roster.journal (roster_notify x channel payloads store))

theorem filterMap_eq {Seen : Type} {observe : Event → Option Seen} (logs : Logs kind pre post)
    (blind : ∀ event, kind event = true → observe event = none) :
    post.journal.filterMap observe = pre.journal.filterMap observe := by
  obtain ⟨events, journal, kinds⟩ := logs
  rw [journal, filterMap_blind fun event mem => blind event (kinds event mem)]

end Logs

def tailEvent : Event → Bool
  | .cascaded _ | .finished _ _ _ | .completed _ _ | .callback _ _ => true
  | _ => false

@[simp] theorem journal_recordResult (x : W) (finished : Finished) (store : Store) :
    (x.recordResult finished store).journal = store.journal :=
  congrArg Roster.journal (roster_recordResult x finished store)

theorem countBatch_logs {x : W} {id : JobID} {count failed : Int} :
    Within (Logs tailEvent) (x.countBatch id count failed) pre := by
  intro done post counted
  obtain ⟨rows, counts⟩ := W.countBatch_counts counted
  obtain ⟨events, journal, completed⟩ := counts.journal
  refine ⟨(rows.map (Event.callback id)).reverse ++ events, by rw [journal, append_assoc],
    forall_mem_append.mpr ⟨fun event mem => ?_, fun event mem => ?_⟩⟩
  · obtain ⟨row, _, rfl⟩ := mem_map.mp (mem_reverse.mp mem)
    rfl
  · obtain ⟨failed, rfl⟩ := completed event mem
    rfl

theorem promoteIfReady_logs (x : W) (store : Store) (id : JobID) : Logs kind store (x.promoteIfReady store id) := by
  unfold W.promoteIfReady
  split
  · exact .refl _
  · split
    · exact .trans _ _ _ (.of_journal rfl) (.notify x _ _ _)
    · exact .refl _

theorem tail_logs (x : W) (finished : List Finished) (pre : Store) : Within (Logs tailEvent) (x.tail finished) pre := by
  refine W.tail_within Logs.refl Logs.trans (fun store row _ _ => ?_)
    (fun store finished => .of_journal (journal_recordResult x finished store))
    (fun _ _ _ _ => countBatch_logs)
    (fun store id => promoteIfReady_logs x store id) (fun _ _ => .of_journal rfl) finished pre
  refine ⟨[.finished row .canceled none, .cascaded row.id], ?_, fun event mem => ?_⟩
  · exact journal_finish x (x.dependentFinished row) _
  · rcases mem_cons.mp mem with rfl | mem
    · rfl
    · rw [mem_singleton.mp mem]
      rfl

end

end Hopper.Lifecycle
