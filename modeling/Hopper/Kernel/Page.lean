import Mathlib.Data.List.Sort

/-! Pages: the first so many entries of a list, in the order of a key. -/

namespace Hopper.Kernel

open List

section
variable {Entry Key : Type} [LinearOrder Key] {key : Entry → Key}

/-- `ORDER BY key LIMIT ?`. -/
def page (key : Entry → Key) (limit : Nat) (entries : List Entry) : List Entry :=
  (entries.insertionSort fun left right => key left ≤ key right).take limit

variable {limit : Nat} {entries : List Entry} {entry last : Entry} {others : List Entry}

theorem mem_of_mem_page (mem : entry ∈ page key limit entries) : entry ∈ entries :=
  (mem_insertionSort _).mp (mem_of_mem_take mem)

private theorem sorted_rising (distinct : (entries.map key).Nodup) :
    (entries.insertionSort fun left right => key left ≤ key right).Pairwise fun left right => key left < key right := by
  have total : Std.Total fun left right : Entry => key left ≤ key right := ⟨fun left right => le_total (key left) (key right)⟩
  have transitive : IsTrans Entry fun left right => key left ≤ key right := ⟨fun _ _ _ => le_trans⟩
  have sorted := pairwise_insertionSort (fun left right : Entry => key left ≤ key right) entries
  have unique : (entries.insertionSort fun left right => key left ≤ key right).Pairwise fun left right => key left ≠ key right :=
    pairwise_map.mp (((perm_insertionSort _ entries).map key).nodup_iff.mpr distinct)
  exact (sorted.and unique).imp fun both => lt_of_le_of_ne both.1 both.2

theorem page_rising (distinct : (entries.map key).Nodup) :
    (page key limit entries).Pairwise fun left right => key left < key right :=
  (sorted_rising distinct).sublist (take_sublist _ _)

theorem mem_page_of_fewer (fewer : (page key limit entries).length < limit) (mem : entry ∈ entries) :
    entry ∈ page key limit entries := by
  rw [page, length_take] at fewer
  rw [page, take_of_length_le (by omega)]
  exact (mem_insertionSort _).mpr mem

section
variable (distinct : (entries.map key).Nodup)
include distinct

theorem le_last_of_mem_page (final : (page key limit entries).getLast? = some last)
    (mem : entry ∈ page key limit entries) : key entry ≤ key last := by
  have rising : (page key limit entries).Pairwise fun left right => key left < key right := page_rising distinct
  generalize page key limit entries = taken at final mem rising
  obtain ⟨front, rfl⟩ := getLast?_eq_some_iff.mp final
  rcases List.mem_append.mp mem with early | same
  · exact ((pairwise_append.mp rising).2.2 entry early last (mem_singleton_self last)).le
  · rw [mem_singleton.mp same]

/-- What is not on a page comes after all of it, and the page is full. -/
theorem mem_page_or_after (mem : entry ∈ entries) : entry ∈ page key limit entries ∨
      (page key limit entries).length = limit ∧ ∀ other ∈ page key limit entries, key other < key entry := by
  have rising := sorted_rising distinct
  have there : entry ∈ entries.insertionSort fun left right => key left ≤ key right :=
    (mem_insertionSort _).mpr mem
  rw [← take_append_drop limit (entries.insertionSort fun left right => key left ≤ key right)] at rising there
  rcases List.mem_append.mp there with first | later
  · exact .inl first
  · refine .inr ⟨?_, fun other taken => (pairwise_append.mp rising).2.2 other taken entry later⟩
    have short := length_pos_of_mem later
    rw [length_drop] at short
    rw [page, length_take]
    omega

theorem mem_page_of_le (final : (page key limit entries).getLast? = some last)
    (mem : entry ∈ entries) (passed : key entry ≤ key last) : entry ∈ page key limit entries :=
  (mem_page_or_after distinct mem).resolve_right fun post =>
    absurd passed (not_le.mpr (post.2 last (mem_of_getLast? final)))

/-- Where so many entries come before another, the page is full of such. -/
theorem page_before {part : List Entry} (sublist : part.Sublist entries)
    (full : limit ≤ part.length) (earlier : ∀ other ∈ part, key other < key entry) :
    (page key limit entries).length = limit ∧ ∀ other ∈ page key limit entries, key other < key entry := by
  have length : (page key limit entries).length = limit := by
    have longer := sublist.length_le
    rw [page, length_take, length_insertionSort]
    omega
  refine ⟨length, fun other taken => ?_⟩
  by_contra late
  have pre : ∀ one ∈ part, key one < key other := fun one mem => (earlier one mem).trans_le (not_lt.mp late)
  have subset : ∀ one ∈ other :: part, one ∈ page key limit entries := by
    intro one mem
    rcases mem_cons.mp mem with rfl | mem
    · exact taken
    · refine (mem_page_or_after distinct (sublist.subset mem)).resolve_right fun post => ?_
      exact lt_asymm (pre one mem) (post.2 other taken)
  have once : (other :: part).Nodup :=
    nodup_cons.mpr ⟨fun mem => lt_irrefl _ (pre other mem), (distinct.of_map _).sublist sublist⟩
  have more := (subperm_of_subset once subset).length_le
  rw [length_cons] at more
  omega

end

theorem pages_distinct (distinct : ((entries ++ others).map key).Nodup) :
    ((page key limit entries ++ page key limit others).map key).Nodup := by
  have once {list : List Entry} (nodup : (list.map key).Nodup) : ((page key limit list).map key).Nodup :=
    pairwise_map.mpr ((page_rising nodup).imp ne_of_lt)
  have each := nodup_append.mp (map_append ▸ distinct)
  rw [map_append]
  exact nodup_append.mpr ⟨once each.1, once each.2.1, fun left one right other => each.2.2
    left (map_subset key (fun _ => mem_of_mem_page) one) right (map_subset key (fun _ => mem_of_mem_page) other)⟩

theorem mem_pages_or_after (distinct : ((entries ++ others).map key).Nodup)
    (mem : entry ∈ entries ++ others) :
    let both := page key limit (page key limit entries ++ page key limit others)
    entry ∈ both ∨ both.length = limit ∧ ∀ other ∈ both, key other < key entry := by
  have each := nodup_append.mp (map_append ▸ distinct)
  have apart : ((page key limit entries ++ page key limit others).map key).Nodup := pages_distinct distinct
  rcases List.mem_append.mp mem with mem | mem
  · rcases mem_page_or_after each.1 mem with taken | ⟨full, earlier⟩
    · exact mem_page_or_after apart (mem_append_left _ taken)
    · exact .inr (page_before apart (sublist_append_left _ _) full.ge earlier)
  · rcases mem_page_or_after each.2.1 mem with taken | ⟨full, earlier⟩
    · exact mem_page_or_after apart (mem_append_right _ taken)
    · exact .inr (page_before apart (sublist_append_right _ _) full.ge earlier)

end

end Hopper.Kernel
