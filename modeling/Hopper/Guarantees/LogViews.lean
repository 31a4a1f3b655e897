import Hopper.Client.LogFollow
import Mathlib.Tactic.Common

/-! A consumer that follows a job's log holds the bytes of one run, from where it last
reset, and a read goes on from there unless another run is listed. -/

namespace Hopper.Guarantees

open List Option Client Driver

variable {id : JobID} {opts : Option LogReadOpts} {logs pre : Int → List UInt8} {s next : LogFollow} {v : LogView}
variable {fence offset : Int}

/-- The view is the bytes of a run from where it starts to an offset. -/
structure Shows (logs : Int → List UInt8) (v : LogView) (fence offset : Int) : Prop where
  bytes : v.view <+: (logs fence).drop v.start.toNat
  length : (v.view.length : Int) = offset - v.start
  start : v.start < 0 → offset < 0

structure ViewHolds (logs : Int → List UInt8) (s : LogFollow) (v : LogView) : Prop where
  shows : s.missing = false → Shows logs v s.p.cursor.fence s.p.cursor.offset
  cleared : s.missing = true → v.view = [] ∧ v.start = 0
  last : ∀ update, v.last = some update → update.missing = s.missing ∧
    if update.missing then update.cursor.offset = 0 else update.cursor = s.p.cursor ∧ update.run.fence = s.p.cursor.fence

theorem Shows.grow (shows : Shows pre v fence offset) (grown : ∀ fence, pre fence <+: logs fence) :
    Shows logs v fence offset := by
  refine { shows with bytes := shows.bytes.trans ?_ }
  obtain ⟨rest, same⟩ := grown fence
  rw [← same, drop_append]
  exact prefix_append _ _

theorem Shows.append (shows : Shows logs v fence offset) (positive : 0 ≤ offset) {log : List UInt8}
    (read : log <+: (logs fence).drop offset.toNat) : v.view ++ log <+: (logs fence).drop v.start.toNat := by
  obtain ⟨rest, split⟩ := shows.bytes
  have start : 0 ≤ v.start := by
    by_contra negative
    exact absurd (shows.start (by omega)) (by omega)
  have ends : offset.toNat = v.start.toNat + v.view.length := by
    have length := shows.length
    omega
  rw [ends, ← drop_drop, ← split, drop_left] at read
  rw [← split]
  exact (prefix_append_right_inj v.view).mpr read

theorem listLogRuns_fence {list : LogListParams → Except LogError LogRunPage} {params : LogListParams} {page : LogRunPage}
    (listed : listLogRuns list params = .ok page) : ∀ run ∈ page.runs, 1 ≤ run.fence := by
  unfold listLogRuns at listed
  generalize (if params.limit = 0 then { params with limit := 100 } else params) = params at listed
  dsimp only at listed
  split at listed
  · cases listed
  · split at listed
    · cases listed
    · split at listed
      · cases listed
      · split at listed
        · cases listed
        · split at listed
          · cases listed
          next valid =>
            cases listed
            intro run mem
            by_contra low
            refine valid (.inl (any_eq_true.mpr ⟨run, mem, ?_⟩))
            simp [LogRun.invalid, show run.fence < 1 by omega]

/-- What a read gives is a chunk of the listed run. -/
structure ReadOf (logs : Int → List UInt8) (result : LogReadResult) : Prop where
  bytes : result.log <+: (logs result.run.fence).drop result.offset.toNat
  fence : 1 ≤ result.run.fence
  offset : 0 ≤ result.offset
  cursor : result.cursor = ⟨result.run.fence, result.nextOffset⟩
  length : (result.log.length : Int) = result.nextOffset - result.offset

theorem readJobLog_of_ok {store : LogStoreTurn} {p : LogReadOpts} {result : LogReadResult}
    (reads : ∀ params chunk, store.read params = .ok chunk → chunk.log <+: (logs params.fence).drop chunk.offset.toNat)
    (read : readJobLog store id p = .ok result) : ReadOf logs result := by
  unfold readJobLog at read
  split at read
  · cases read
  next page listed =>
    split at read
    · cases read
    next run rest runs =>
      split at read
      · cases read
      next chunk answered =>
        split at read
        · cases read
        next valid =>
          cases read
          simp only [LogChunk.invalid, not_or, not_lt, ne_eq, not_not] at valid
          exact ⟨reads _ chunk answered, listLogRuns_fence listed run (runs ▸ mem_cons_self), valid.1, rfl, valid.2.2.2.1⟩

namespace ViewHolds

theorem start {p : LogReadOpts} : ViewHolds logs { p } { start := p.cursor.offset } where
  shows _ := ⟨List.nil_prefix, (Int.sub_self _).symm, fun negative => negative⟩
  cleared := nofun
  last := nofun

theorem turn (holds : ViewHolds pre s v) (grown : ∀ fence, pre fence <+: logs fence) {store : LogStoreTurn}
    (reads : ∀ params chunk, store.read params = .ok chunk → chunk.log <+: (logs params.fence).drop chunk.offset.toNat)
    {yielded : Option LogUpdate} (turned : s.turn store id = .ok (next, yielded)) : ViewHolds logs next (v.consume yielded) := by
  unfold LogFollow.turn at turned
  split at turned
  next err failed =>
    split at turned
    next =>
      dsimp only at turned
      split at turned
      next =>
        cases turned
        refine ⟨nofun, fun _ => ⟨rfl, rfl⟩, fun update same => ?_⟩
        cases same
        exact ⟨rfl, rfl⟩
      next again =>
        cases turned
        simp only [Bool.or_eq_true, Bool.not_eq_true', not_or, Bool.not_eq_false] at again
        refine ⟨nofun, fun _ => holds.cleared again.2, fun update same => ?_⟩
        obtain ⟨missing, rest⟩ := holds.last update same
        rw [again.2] at missing
        rw [missing] at rest ⊢
        exact ⟨rfl, rest⟩
    next => cases turned
  next result read =>
    have chunk := readJobLog_of_ok reads read
    dsimp only at turned
    generalize decided : (s.missing || result.run.fence ≠ s.p.cursor.fence || result.offset ≠ s.p.cursor.offset) = reset at turned
    cases reset with
    | true =>
      cases turned
      refine ⟨fun _ => ⟨?_, ?_, ?_⟩, nofun, fun update same => ?_⟩
      · rw [chunk.cursor]
        exact chunk.bytes
      · rw [chunk.cursor]
        exact chunk.length
      · exact fun negative => absurd chunk.offset (Int.not_le.mpr negative)
      · cases same
        exact ⟨rfl, rfl, by rw [chunk.cursor]⟩
    | false =>
      simp only [Bool.or_eq_false_iff, decide_eq_false_iff_not, ne_eq, not_not] at decided
      obtain ⟨⟨found, fence⟩, offset⟩ := decided
      have shows := (holds.shows found).grow grown
      have positive := offset ▸ chunk.offset
      have bytes := chunk.bytes
      rw [fence, offset] at bytes
      by_cases empty : result.log = []
      · rw [if_neg (by simp [empty])] at turned
        cases turned
        -- an empty read leaves the cursor where it was
        have length := chunk.length
        rw [empty, offset] at length
        have cursor : result.cursor = s.p.cursor := by
          rw [chunk.cursor, fence, show result.nextOffset = s.p.cursor.offset by simp at length; omega]
        refine ⟨fun _ => cursor ▸ shows, nofun, fun update same => ?_⟩
        obtain ⟨missing, rest⟩ := holds.last update same
        rw [found] at missing
        rw [missing] at rest ⊢
        exact ⟨rfl, cursor ▸ rest⟩
      · rw [if_pos (by simp [empty])] at turned
        cases turned
        refine ⟨fun _ => ⟨?_, ?_, fun negative => ?_⟩, nofun, fun update same => ?_⟩
        · rw [chunk.cursor, fence]
          exact shows.append positive bytes
        · have total := shows.length
          have length := chunk.length
          have joined : (v.view ++ result.log).length = v.view.length + result.log.length := length_append
          rw [chunk.cursor]
          change ((v.view ++ result.log).length : Int) = result.nextOffset - v.start
          omega
        · exact absurd (shows.start negative) (by omega)
        · cases same
          exact ⟨rfl, rfl, by rw [chunk.cursor]⟩

theorem followed (followed : LogFollowed id opts logs s v) : ViewHolds logs s v := by
  induction followed with
  | start => exact start
  | turn _ grown store reads turned ih => exact ih.turn grown reads turned

end ViewHolds

/-- After each update the view is the bytes of the update's run from the offset of the
last `Reset` update, or of the given cursor, to the update's cursor; and where the run
listed next is the update's, the next read asks for the byte at the cursor. -/
theorem follow_shows (followed : LogFollowed id opts logs s v) (update : LogUpdate) (last : v.last = some update) :
    v.view = ((logs update.run.fence).drop v.start.toNat).take (update.cursor.offset - v.start).toNat ∧
      (v.view.length : Int) = update.cursor.offset - v.start ∧
      (update.missing = false → ∀ run, run.fence = update.run.fence →
        (readParams id s.p run).fence = update.cursor.fence ∧ (readParams id s.p run).offset = update.cursor.offset) := by
  have holds := ViewHolds.followed followed
  obtain ⟨same, rest⟩ := holds.last update last
  cases missing : update.missing with
  | true =>
    rw [missing] at same rest
    obtain ⟨empty, start⟩ := holds.cleared same.symm
    rw [empty, start, show update.cursor.offset = 0 from rest]
    exact ⟨rfl, rfl, nofun⟩
  | false =>
    rw [missing] at same rest
    obtain ⟨cursor, fence⟩ := rest
    have shows := holds.shows same.symm
    rw [cursor, fence]
    refine ⟨?_, shows.length, fun _ run listed => ?_⟩
    · rw [← shows.length, Int.toNat_natCast]
      exact prefix_iff_eq_take.mp shows.bytes
    · rw [readParams]
      exact ⟨listed, if_neg fun other => other.2 listed.symm⟩

/-- A store of one run of three bytes, which reads the first two. -/
def twoOfThree : LogStoreTurn where
  list _ := .ok { runs := [{ jobID := 1, fence := 1, attempt := 1, size := 3 }] }
  read _ := .ok { log := [65, 66], nextOffset := 2, size := 3 }

theorem twoOfThree_reads (params : LogReadParams) (chunk : LogChunk) (read : twoOfThree.read params = .ok chunk) :
    chunk.log <+: ([65, 66, 67] : List UInt8).drop chunk.offset.toNat := by
  cases read
  exact ⟨[67], rfl⟩

theorem follow_shows_two : ∃ s v, LogFollowed 1 none (fun _ => [65, 66, 67]) s v ∧ v.view = [65, 66] ∧
    (readParams 1 s.p { fence := 1 }).offset = 2 := by
  have followed : LogFollowed 1 none (fun _ => [65, 66, 67]) _ _ :=
    .turn (.start rfl) (fun _ => prefix_rfl) twoOfThree twoOfThree_reads rfl
  obtain ⟨view, _, asks⟩ := follow_shows followed _ rfl
  exact ⟨_, _, followed, view, (asks rfl { fence := 1 } rfl).2⟩

/-- A newer run is listed before the third byte of the first is read. -/
theorem follow_leaves_run : ∃ s v update page, LogFollowed 1 none (fun _ => [65, 66, 67]) s v ∧ v.last = some update ∧
    update.missing = false ∧ update.cursor.offset < ([65, 66, 67] : List UInt8).length ∧
    listLogRuns (fun _ => .ok page) { jobID := 1, fence := s.p.fence, limit := 1 } = .ok page ∧
    ∀ run ∈ page.runs, (readParams 1 s.p run).fence ≠ update.cursor.fence ∧ (readParams 1 s.p run).offset = -1 := by
  exact ⟨_, _, _, { runs := [{ jobID := 1, fence := 2, attempt := 1 }] },
    .turn (.start rfl) (fun _ => prefix_rfl) twoOfThree twoOfThree_reads rfl, rfl, rfl, by decide, rfl, by decide⟩

end Hopper.Guarantees
