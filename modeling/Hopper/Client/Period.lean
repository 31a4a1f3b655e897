import Hopper.Client.Periodic
import Hopper.Client.Unique
import Hopper.Kernel.Calendar

/-! The period of a unique key, as text, and the queue's name as an insert checks
it. Times are in nanoseconds, and their text in UTC. -/

namespace Hopper.Client

open List Kernel Driver

def padded (width : Nat) (value : Int) : List Char :=
  List.leftpad width '0' (Nat.toDigits 10 value.toNat)

def secondsOf (time : Int) : Int := time / 1000000000

/-- `time.RFC3339`, of a time whose year has four digits. -/
def formatRFC3339 (time : Int) : List Char :=
  let day := secondsOf time / 86400
  let second := secondsOf time % 86400
  padded 4 (Calendar.year (Calendar.monthOf day)) ++
    '-' :: (padded 2 (Calendar.monthNumber (Calendar.monthOf day)) ++
      '-' :: (padded 2 (Calendar.dayOfMonth day) ++
        'T' :: (padded 2 (second / 3600) ++
          ':' :: (padded 2 (second / 60 % 60) ++ ':' :: (padded 2 (second % 60) ++ ['Z'])))))

def periodText (time period : Int) : String :=
  String.ofList (formatRFC3339 (truncate time period))

def queueDefault : String := "default"

/-- `unicode.IsControl`. -/
def isControl (char : Char) : Bool :=
  decide (char.toNat < 32 ∨ 127 ≤ char.toNat ∧ char.toNat < 160)

/-- The queue of an insert, whose name has no control characters. -/
def queueOf (name : String) : Except Failure String :=
  let queue := if name = "" then queueDefault else name
  if queue.toList.any isControl then
    .error (.refused ("hopper: queue name " ++ queue.quote ++ " contains control characters"))
  else .ok queue

theorem newline_not_mem_queue {name queue : String} (accepted : queueOf name = .ok queue) : '\n' ∉ queue.toList := by
  intro mem
  rw [queueOf] at accepted
  generalize (if name = "" then queueDefault else name) = chosen at accepted
  split at accepted
  · cases accepted
  · next plain =>
    cases accepted
    exact plain (any_eq_true.mpr ⟨'\n', mem, by decide⟩)

/-! Dates as text. -/

theorem ofDigitChars_padded (width : Nat) (value : Int) : Nat.ofDigitChars 10 (padded width value) 0 = value.toNat := by
  rw [padded, List.leftpad, Nat.ofDigitChars_append, Nat.ofDigitChars_replicate_zero, Nat.mul_zero, Nat.ofDigitChars_ten_toDigits]

variable {width : Nat} {value : Int} {other : Int}

theorem length_padded (positive : 0 < width) (fits : value.toNat < 10 ^ width) : (padded width value).length = width := by
  rw [padded, length_leftpad]
  exact max_eq_left ((Nat.length_toDigits_le_iff (by decide) positive).mpr fits)

theorem isDigit_of_mem_padded {char : Char} (mem : char ∈ padded width value) : char.isDigit = true := by
  rw [padded, List.leftpad] at mem
  rcases List.mem_append.mp mem with zero | digit
  · rw [eq_of_mem_replicate zero]
    rfl
  · exact Nat.isDigit_of_mem_toDigits (by decide) (by decide) digit

def InYears (time : Int) : Prop :=
  zeroTime ≤ time ∧ time < 253402300800000000000

structure DateFits (day : Int) : Prop where
  year : 0 ≤ Calendar.year (Calendar.monthOf day) ∧ Calendar.year (Calendar.monthOf day) < 10000
  month : 0 < Calendar.monthNumber (Calendar.monthOf day) ∧ Calendar.monthNumber (Calendar.monthOf day) ≤ 12
  day : 0 < Calendar.dayOfMonth day ∧ Calendar.dayOfMonth day ≤ 31

theorem dateFits {time : Int} (inYears : InYears time) : DateFits (secondsOf time / 86400) := by
  have low : -719162 ≤ secondsOf time / 86400 := by
    have := inYears.1
    unfold secondsOf
    unfold zeroTime at this
    omega
  have high : secondsOf time / 86400 ≤ 2932896 := by
    have := inYears.2
    unfold secondsOf
    omega
  generalize secondsOf time / 86400 = day at low high
  have post := Calendar.monthOf_mono low
  have pre := Calendar.monthOf_mono high
  rw [show Calendar.monthOf (-719162) = 12 by decide] at post
  rw [show Calendar.monthOf 2932896 = 119999 by decide] at pre
  obtain ⟨begun, ends⟩ := Calendar.monthOf_spec day
  rw [Calendar.monthStart_succ] at ends
  refine ⟨?_, ?_, ?_⟩
  · unfold Calendar.year
    omega
  · unfold Calendar.monthNumber
    omega
  · have length : Calendar.monthLength (Calendar.monthOf day) ≤ 31 := by
      unfold Calendar.monthLength
      split
      · split <;> decide
      · split <;> decide
    unfold Calendar.dayOfMonth
    omega

theorem padded_inj (nonneg : 0 ≤ value) (otherNonneg : 0 ≤ other)
    (same : padded width value = padded width other) : value = other := by
  have digits := ofDigitChars_padded width value
  rw [same, ofDigitChars_padded] at digits
  omega

theorem padded_append {rest more : List Char} (positive : 0 < width)
    (fits : 0 ≤ value ∧ value.toNat < 10 ^ width) (otherFits : 0 ≤ other ∧ other.toNat < 10 ^ width)
    (same : padded width value ++ rest = padded width other ++ more) : value = other ∧ rest = more := by
  obtain ⟨front, back⟩ := append_inj same ((length_padded positive fits.2).trans (length_padded positive otherFits.2).symm)
  exact ⟨padded_inj fits.1 otherFits.1 front, back⟩

theorem formatRFC3339_inj {first second : Int} (firstIn : InYears first) (secondIn : InYears second)
    (same : formatRFC3339 first = formatRFC3339 second) : secondsOf first = secondsOf second := by
  have firstFits := dateFits firstIn
  have secondFits := dateFits secondIn
  rw [formatRFC3339, formatRFC3339] at same
  obtain ⟨years, same⟩ := padded_append (by decide) ⟨firstFits.year.1, by have := firstFits.year; omega⟩
    ⟨secondFits.year.1, by have := secondFits.year; omega⟩ same
  obtain ⟨months, same⟩ := padded_append (by decide) ⟨by have := firstFits.month; omega, by have := firstFits.month; omega⟩
    ⟨by have := secondFits.month; omega, by have := secondFits.month; omega⟩ (List.cons.inj same).2
  obtain ⟨days, same⟩ := padded_append (by decide) ⟨by have := firstFits.day; omega, by have := firstFits.day; omega⟩
    ⟨by have := secondFits.day; omega, by have := secondFits.day; omega⟩ (List.cons.inj same).2
  obtain ⟨hours, same⟩ := padded_append (by decide) ⟨by omega, by omega⟩ ⟨by omega, by omega⟩ (List.cons.inj same).2
  obtain ⟨minutes, same⟩ := padded_append (by decide) ⟨by omega, by omega⟩ ⟨by omega, by omega⟩ (List.cons.inj same).2
  obtain ⟨seconds, _⟩ := padded_append (by decide) ⟨by omega, by omega⟩ ⟨by omega, by omega⟩ (List.cons.inj same).2
  have sameMonth : Calendar.monthOf (secondsOf first / 86400) = Calendar.monthOf (secondsOf second / 86400) := by
    unfold Calendar.year at years
    unfold Calendar.monthNumber at months
    omega
  rw [Calendar.dayOfMonth, Calendar.dayOfMonth, sameMonth] at days
  omega

end Hopper.Client
