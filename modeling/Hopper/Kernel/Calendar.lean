import Mathlib.Order.Monotone.Basic
import Mathlib.Algebra.Order.Group.Int
import Mathlib.Tactic.IntervalCases
import Mathlib.Data.Int.ConditionallyCompleteOrder

/-! The Gregorian calendar, extended both ways. A month is counted from
January of year zero and a day from January 1, 1970. -/

namespace Hopper.Kernel.Calendar

def year (month : Int) : Int := month / 12

def monthNumber (month : Int) : Int := month % 12 + 1

def isLeap (year : Int) : Bool :=
  decide (year % 4 = 0 ∧ (year % 100 ≠ 0 ∨ year % 400 = 0))

def monthLength (month : Int) : Int :=
  if monthNumber month = 2 then if isLeap (year month) then 29 else 28
  else if monthNumber month = 4 ∨ monthNumber month = 6 ∨ monthNumber month = 9 ∨ monthNumber month = 11 then 30
  else 31

/-- The days before a year that begins in March, whose leap day is its last. -/
def marchStart (year : Int) : Int :=
  365 * year + year / 4 - year / 100 + year / 400

def marchDays (month : Int) : Int :=
  (153 * month + 2) / 5

def epoch : Int := 719468

def monthStart (month : Int) : Int :=
  marchStart ((month - 2) / 12) + marchDays ((month - 2) % 12) - epoch

/-- The year from March that a day is in: the mean length of a year is off by
one at most. -/
def marchYear (day : Int) : Int :=
  let guess := 400 * day / 146097
  if day < marchStart guess then guess - 1
  else if marchStart (guess + 1) ≤ day then guess + 1
  else guess

def monthOf (day : Int) : Int :=
  let year := marchYear (day + epoch)
  12 * year + (5 * (day + epoch - marchStart year) + 2) / 153 + 2

def weekday (day : Int) : Int := (day + 4) % 7

theorem exists_march (month : Int) : ∃ year place, 0 ≤ place ∧ place < 12 ∧ month = 12 * year + place + 2 :=
  ⟨(month - 2) / 12, (month - 2) % 12, by omega, by omega, by omega⟩

theorem monthStart_march (year : Int) {place : Int} (low : 0 ≤ place) (high : place < 12) :
    monthStart (12 * year + place + 2) = marchStart year + marchDays place - epoch := by
  have whole : (12 * year + place + 2 - 2) / 12 = year := by omega
  have part : (12 * year + place + 2 - 2) % 12 = place := by omega
  rw [monthStart, whole, part]

theorem marchStart_succ (year : Int) : marchStart (year + 1) = marchStart year + if isLeap (year + 1) then 366 else 365 := by
  simp only [marchStart, isLeap, decide_eq_true_eq]
  omega

theorem monthStart_succ (month : Int) : monthStart (month + 1) = monthStart month + monthLength month := by
  obtain ⟨year, place, low, high, rfl⟩ := exists_march month
  rw [monthStart_march year low high]
  by_cases last : place = 11
  · subst last
    have next := monthStart_march (year + 1) (Int.le_refl 0) (by decide)
    have leap := marchStart_succ year
    have same : (12 * year + 11 + 2) / 12 = year + 1 := by omega
    have february : (12 * year + 11 + 2) % 12 + 1 = 2 := by omega
    rw [show 12 * year + 11 + 2 + 1 = 12 * (year + 1) + 0 + 2 by omega, next, leap, monthLength, monthNumber,
      if_pos february, Calendar.year, same]
    simp only [marchDays]
    split <;> omega
  · have next := monthStart_march year (by omega : 0 ≤ place + 1) (by omega)
    rw [show 12 * year + place + 2 + 1 = 12 * year + (place + 1) + 2 by omega, next]
    have lengths : marchDays (place + 1) = marchDays place + monthLength (12 * year + place + 2) := by
      have pre : place < 11 := by omega
      unfold marchDays monthLength monthNumber
      interval_cases place <;> omega
    omega

theorem monthStart_strictMono : StrictMono monthStart := by
  refine strictMono_int_of_lt_succ fun month => ?_
  have positive : 0 < monthLength month := by
    unfold monthLength
    split
    · split <;> decide
    · split <;> decide
  rw [monthStart_succ]
  omega

theorem marchYear_spec (day : Int) : marchStart (marchYear day) ≤ day ∧ day < marchStart (marchYear day + 1) := by
  have low : marchStart (400 * day / 146097 - 1) ≤ day := by
    unfold marchStart
    omega
  have high : day < marchStart (400 * day / 146097 + 2) := by
    unfold marchStart
    omega
  unfold marchYear
  dsimp only
  split
  · next pre => exact ⟨low, by rwa [Int.sub_add_cancel]⟩
  · next post =>
    split
    · next late => exact ⟨late, by rwa [Int.add_assoc]⟩
    · next early => exact ⟨not_lt.mp post, not_le.mp early⟩

theorem monthOf_spec (day : Int) : monthStart (monthOf day) ≤ day ∧ day < monthStart (monthOf day + 1) := by
  obtain ⟨begun, ends⟩ := marchYear_spec (day + epoch)
  rw [marchStart_succ] at ends
  unfold monthOf
  dsimp only
  generalize marchYear (day + epoch) = year at begun ends
  generalize rest : day + epoch - marchStart year = within
  have short : within < 366 := by
    split at ends <;> omega
  have place : 0 ≤ (5 * within + 2) / 153 ∧ (5 * within + 2) / 153 < 12 := by omega
  have days : marchDays ((5 * within + 2) / 153) ≤ within := by
    unfold marchDays
    omega
  refine ⟨by rw [monthStart_march year place.1 place.2]; omega, ?_⟩
  by_cases last : (5 * within + 2) / 153 = 11
  · have next := monthStart_march (year + 1) (Int.le_refl 0) (by decide)
    rw [last, show 12 * year + 11 + 2 + 1 = 12 * (year + 1) + 0 + 2 by omega, next, marchStart_succ, marchDays]
    omega
  · have next := monthStart_march year (by omega : 0 ≤ (5 * within + 2) / 153 + 1) (by omega)
    rw [show 12 * year + (5 * within + 2) / 153 + 2 + 1 = 12 * year + ((5 * within + 2) / 153 + 1) + 2 by omega, next]
    have more : within < marchDays ((5 * within + 2) / 153 + 1) := by
      unfold marchDays
      omega
    omega

theorem monthOf_eq_iff {day month : Int} : monthOf day = month ↔ monthStart month ≤ day ∧ day < monthStart (month + 1) := by
  constructor
  · rintro rfl
    exact monthOf_spec day
  · rintro ⟨begun, ends⟩
    obtain ⟨low, high⟩ := monthOf_spec day
    have le := monthStart_strictMono.lt_iff_lt.mp (low.trans_lt ends)
    have ge := monthStart_strictMono.lt_iff_lt.mp (begun.trans_lt high)
    omega

theorem monthOf_monthStart (month : Int) : monthOf (monthStart month) = month :=
  monthOf_eq_iff.mpr ⟨le_refl _, monthStart_strictMono (by omega)⟩

theorem monthOf_mono : Monotone monthOf := by
  intro day later order
  have under := monthStart_strictMono.lt_iff_lt.mp ((monthOf_spec day).1.trans_lt (order.trans_lt (monthOf_spec later).2))
  omega

def dayOfMonth (day : Int) : Int := day - monthStart (monthOf day) + 1

theorem monthOf_succ {day : Int} (within : dayOfMonth (day + 1) ≠ 1) : monthOf (day + 1) = monthOf day := by
  obtain ⟨begun, ends⟩ := monthOf_spec day
  refine monthOf_eq_iff.mpr ⟨by omega, ?_⟩
  by_contra late
  have first : day + 1 = monthStart (monthOf day + 1) := by omega
  rw [dayOfMonth, first, monthOf_monthStart] at within
  omega

example : monthStart (12 * 1970) = 0 ∧ monthOf 0 = 12 * 1970 := by decide

end Hopper.Kernel.Calendar
