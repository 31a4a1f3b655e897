import Hopper.Kernel.Page

/-! Feeds: entries with rising numbers are appended to a log and deleted from
it, and a reader takes those it wants past the number it has seen, so many at
a time. What it gets is in order, without repetition, and without gaps but for
the entries that were deleted before it reached them. -/

namespace Hopper.Kernel.Feed

open List

section
variable {Entry : Type} (number : Entry → Nat)

def latest (retained : List Entry) : Nat :=
  (retained.map number).foldl max 0

def taken (wanted : Entry → Bool) (seen limit : Nat) (retained : List Entry) : List Entry :=
  ((retained.filter fun entry => decide (seen < number entry) && wanted entry).insertionSort
    fun left right => number left ≤ number right).take limit

/-- The number a reader has seen once it has taken entries: the last of them,
or the latest of all if there were fewer than it asked for. -/
def reached (seen limit : Nat) (retained entries : List Entry) : Nat :=
  let delivered := ((entries.getLast?).map number).getD seen
  if entries.length < limit then max delivered (latest number retained) else delivered

/-- The log holds what was appended to it, less what was deleted. -/
structure Ordered (appended retained : List Entry) (last : Nat) : Prop where
  rising : appended.Pairwise fun left right => number left < number right
  bounded : ∀ entry ∈ appended, number entry ≤ last
  kept : retained.Sublist appended

end

section
variable {Entry : Type} {number : Entry → Nat} {retained : List Entry}

theorem foldl_max_le {numbers : List Nat} {start bound : Nat} :
    numbers.foldl max start ≤ bound ↔ start ≤ bound ∧ ∀ value ∈ numbers, value ≤ bound := by
  induction numbers generalizing start with
  | nil => simp
  | cons value numbers ih => simp [ih, and_assoc]

theorem latest_le {bound : Nat} :
    latest number retained ≤ bound ↔ ∀ entry ∈ retained, number entry ≤ bound := by
  simp [latest, foldl_max_le]

theorem le_latest {entry : Entry} (mem : entry ∈ retained) : number entry ≤ latest number retained :=
  latest_le.mp le_rfl entry mem

namespace Ordered

variable {appended retained : List Entry} {last : Nat}

theorem start (last : Nat) : Ordered number [] [] last :=
  ⟨.nil, nofun, .refl []⟩

variable (ordered : Ordered number appended retained last)
include ordered

theorem append {entry : Entry} (next : number entry = last + 1) :
    Ordered number (appended ++ [entry]) (retained ++ [entry]) (last + 1) where
  rising := by
    refine pairwise_append.mpr ⟨ordered.rising, pairwise_singleton _ _, fun old mem new newest => ?_⟩
    have below := ordered.bounded old mem
    rw [mem_singleton.mp newest]
    omega
  bounded := by
    intro other mem
    rcases List.mem_append.mp mem with old | new
    · exact (ordered.bounded other old).trans (Nat.le_succ last)
    · rw [mem_singleton.mp new, next]
  kept := ordered.kept.append (.refl [entry])

theorem trim {left : List Entry} (fewer : left.Sublist retained) :
    Ordered number appended left last :=
  { ordered with kept := fewer.trans ordered.kept }

theorem latest_le : latest number retained ≤ last :=
  Feed.latest_le.mpr fun entry mem => ordered.bounded entry (ordered.kept.subset mem)

theorem distinct (chosen : Entry → Bool) :
    ((retained.filter chosen).map number).Nodup :=
  pairwise_map.mpr (((ordered.rising.sublist ordered.kept).filter chosen).imp fun pre => pre.ne)

theorem taken_rising (wanted : Entry → Bool) (seen limit : Nat) :
    (taken number wanted seen limit retained).Pairwise fun left right => number left < number right :=
  page_rising (ordered.distinct _)

end Ordered

variable {wanted : Entry → Bool} {seen limit : Nat} {retained appended : List Entry} {entry : Entry} {last : Nat}

theorem mem_taken (mem : entry ∈ taken number wanted seen limit retained) :
    entry ∈ retained ∧ seen < number entry ∧ wanted entry = true := by
  have chosen := mem_of_mem_page mem
  simpa using chosen

theorem le_reached : seen ≤ reached number seen limit retained (taken number wanted seen limit retained) := by
  have delivered : seen ≤ (((taken number wanted seen limit retained).getLast?).map number).getD seen := by
    cases final : (taken number wanted seen limit retained).getLast? with
    | none => exact le_rfl
    | some => exact (mem_taken (mem_of_getLast? final)).2.1.le
  unfold reached
  dsimp only
  split
  · exact delivered.trans (le_max_left _ _)
  · exact delivered

theorem mem_taken_of_fewer (fewer : (taken number wanted seen limit retained).length < limit)
    (mem : entry ∈ retained) (past : seen < number entry) (wants : wanted entry = true) :
    entry ∈ taken number wanted seen limit retained :=
  mem_page_of_fewer fewer (by simp [mem, past, wants])

section
variable (ordered : Ordered number appended retained last)
include ordered

theorem Ordered.mem_taken (mem : entry ∈ retained)
    (past : seen < number entry) (wants : wanted entry = true)
    (passed : number entry ≤ reached number seen limit retained (taken number wanted seen limit retained)) :
    entry ∈ taken number wanted seen limit retained := by
  by_cases fewer : (taken number wanted seen limit retained).length < limit
  · exact mem_taken_of_fewer fewer mem past wants
  · rw [reached, if_neg fewer] at passed
    cases final : (taken number wanted seen limit retained).getLast? with
    | none =>
      rw [final] at passed
      exact absurd passed (Nat.not_le.mpr past)
    | some =>
      rw [final] at passed
      exact mem_page_of_le (ordered.distinct _) final (by simp [mem, past, wants]) passed

theorem Ordered.le_reached_of_mem
    (mem : entry ∈ taken number wanted seen limit retained) :
    number entry ≤ reached number seen limit retained (taken number wanted seen limit retained) := by
  have delivered : number entry ≤ (((taken number wanted seen limit retained).getLast?).map number).getD seen := by
    cases final : (taken number wanted seen limit retained).getLast? with
    | none =>
      rw [getLast?_eq_none_iff.mp final] at mem
      cases mem
    | some => exact le_last_of_mem_page (ordered.distinct _) final mem
  unfold reached
  dsimp only
  split
  · exact delivered.trans (le_max_left _ _)
  · exact delivered

theorem Ordered.reached_le (behind : seen ≤ last) :
    reached number seen limit retained (taken number wanted seen limit retained) ≤ last := by
  have delivered : (((taken number wanted seen limit retained).getLast?).map number).getD seen ≤ last := by
    cases final : (taken number wanted seen limit retained).getLast? with
    | none => exact behind
    | some entry =>
      exact ordered.bounded entry (ordered.kept.subset (Feed.mem_taken (mem_of_getLast? final)).1)
  unfold reached
  dsimp only
  split
  · exact max_le delivered ordered.latest_le
  · exact delivered

end

/-- A reader that wants the entries past its start has got those it has passed,
but for the lost ones, which were deleted before it reached them. -/
structure Reads (number : Entry → Nat) (appended retained : List Entry) (last : Nat) (lost : Entry → Prop)
    (wanted : Entry → Bool) (start seen : Nat) (got : List Entry) : Prop where
  rising : got.Pairwise fun left right => number left < number right
  source : ∀ entry ∈ got, entry ∈ appended ∧ start < number entry ∧ wanted entry = true
  behind : ∀ entry ∈ got, number entry ≤ seen
  start_le : start ≤ last
  seen_le : seen ≤ last
  past : ∀ entry ∈ retained, seen < number entry → start < number entry
  passed : ∀ entry ∈ appended, start < number entry → number entry ≤ seen → wanted entry = true →
    entry ∈ got ∨ lost entry
  ahead : ∀ entry ∈ appended, seen < number entry → entry ∈ retained ∨ lost entry
  gone : ∀ entry, lost entry → entry ∈ appended ∧ entry ∉ retained ∧ entry ∉ got

namespace Reads

variable {appended retained got : List Entry} {last start seen : Nat} {lost : Entry → Prop} {wanted : Entry → Bool}
variable {entry : Entry}

theorem create (bounded : seen ≤ start) (started : start ≤ last)
    (past : ∀ entry ∈ retained, seen < number entry → start < number entry)
    (ahead : ∀ entry ∈ appended, entry ∈ retained ∨ lost entry)
    (gone : ∀ entry, lost entry → entry ∈ appended ∧ entry ∉ retained) :
    Reads number appended retained last lost wanted start seen [] where
  rising := .nil
  source := nofun
  behind := nofun
  start_le := started
  seen_le := bounded.trans started
  past := past
  passed := by
    intro entry _ post passed
    omega
  ahead := fun entry mem _ => ahead entry mem
  gone := by
    intro entry lost
    obtain ⟨old, deleted⟩ := gone entry lost
    exact ⟨old, deleted, not_mem_nil⟩

variable (reads : Reads number appended retained last lost wanted start seen got)
include reads

theorem complete {limit : Nat}
    (fewer : (taken number wanted seen limit retained).length < limit) (mem : entry ∈ appended)
    (post : start < number entry) (wants : wanted entry = true) (held : ¬lost entry) :
    entry ∈ got ++ taken number wanted seen limit retained := by
  by_cases passed : number entry ≤ seen
  · exact mem_append_left _ ((reads.passed entry mem post passed wants).resolve_right held)
  · have there := (reads.ahead entry mem (Nat.not_le.mp passed)).resolve_right held
    exact mem_append_right _ (mem_taken_of_fewer fewer there (Nat.not_le.mp passed) wants)

variable (ordered : Ordered number appended retained last)
include ordered

theorem append (next : number entry = last + 1) :
    Reads number (appended ++ [entry]) (retained ++ [entry]) (last + 1) lost wanted start seen got where
  rising := reads.rising
  source := by
    intro other mem
    obtain ⟨old, rest⟩ := reads.source other mem
    exact ⟨mem_append_left _ old, rest⟩
  behind := reads.behind
  start_le := reads.start_le.trans (Nat.le_succ last)
  seen_le := reads.seen_le.trans (Nat.le_succ last)
  past := by
    intro other mem post
    rcases List.mem_append.mp mem with old | new
    · exact reads.past other old post
    · have started := reads.start_le
      rw [mem_singleton.mp new]
      omega
  passed := by
    intro other mem post passed wants
    rcases List.mem_append.mp mem with old | new
    · exact reads.passed other old post passed wants
    · have behind := reads.seen_le
      rw [mem_singleton.mp new] at passed
      omega
  ahead := by
    intro other mem post
    rcases List.mem_append.mp mem with old | new
    · exact (reads.ahead other old post).imp_left (mem_append_left _)
    · exact .inl (mem_append_right _ new)
  gone := by
    intro other lost
    obtain ⟨old, deleted, missed⟩ := reads.gone other lost
    refine ⟨mem_append_left _ old, fun mem => ?_, missed⟩
    rcases List.mem_append.mp mem with held | new
    · exact deleted held
    · have below := ordered.bounded other old
      rw [mem_singleton.mp new] at below
      omega

theorem trim {left : List Entry} (fewer : left.Sublist retained) :
    Reads number appended left last (fun entry => lost entry ∨ (entry ∈ retained ∧ entry ∉ left) ∧ seen < number entry)
      wanted start seen got where
  rising := reads.rising
  source := reads.source
  behind := reads.behind
  start_le := reads.start_le
  seen_le := reads.seen_le
  past := fun entry mem => reads.past entry (fewer.subset mem)
  passed := by
    intro entry mem post passed wants
    exact (reads.passed entry mem post passed wants).imp_right .inl
  ahead := by
    intro entry mem post
    rcases reads.ahead entry mem post with held | lost
    · by_cases stays : entry ∈ left
      · exact .inl stays
      · exact .inr (.inr ⟨⟨held, stays⟩, post⟩)
    · exact .inr (.inl lost)
  gone := by
    intro entry gone
    rcases gone with lost | ⟨⟨held, deleted⟩, post⟩
    · obtain ⟨old, deleted, missed⟩ := reads.gone entry lost
      exact ⟨old, fun mem => deleted (fewer.subset mem), missed⟩
    · refine ⟨ordered.kept.subset held, deleted, fun mem => ?_⟩
      exact Nat.not_le.mpr post (reads.behind entry mem)

theorem pump (limit : Nat) : Reads number appended retained last lost wanted start
      (reached number seen limit retained (taken number wanted seen limit retained))
      (got ++ taken number wanted seen limit retained) where
  rising := by
    refine pairwise_append.mpr ⟨reads.rising, ordered.taken_rising wanted seen limit, ?_⟩
    intro old earlier new later
    exact (reads.behind old earlier).trans_lt (Feed.mem_taken later).2.1
  source := by
    intro entry mem
    rcases List.mem_append.mp mem with old | new
    · exact reads.source entry old
    · obtain ⟨held, post, wants⟩ := Feed.mem_taken new
      exact ⟨ordered.kept.subset held, reads.past entry held post, wants⟩
  behind := by
    intro entry mem
    rcases List.mem_append.mp mem with old | new
    · exact (reads.behind entry old).trans le_reached
    · exact ordered.le_reached_of_mem new
  start_le := reads.start_le
  seen_le := ordered.reached_le reads.seen_le
  past := fun entry mem post => reads.past entry mem (le_reached.trans_lt post)
  passed := by
    intro entry mem post passed wants
    by_cases old : number entry ≤ seen
    · exact (reads.passed entry mem post old wants).imp_left (mem_append_left _)
    · refine (reads.ahead entry mem (Nat.not_le.mp old)).imp_left fun held => ?_
      exact mem_append_right _ (ordered.mem_taken held (Nat.not_le.mp old) wants passed)
  ahead := fun entry mem post => reads.ahead entry mem (le_reached.trans_lt post)
  gone := by
    intro entry lost
    obtain ⟨old, deleted, missed⟩ := reads.gone entry lost
    refine ⟨old, deleted, fun mem => ?_⟩
    rcases List.mem_append.mp mem with earlier | new
    · exact missed earlier
    · exact deleted (Feed.mem_taken new).1

end Reads

end

end Hopper.Kernel.Feed
