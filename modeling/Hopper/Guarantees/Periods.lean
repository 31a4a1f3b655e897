import Hopper.Client.Period
import Hopper.Guarantees.UniqueKeys
import Mathlib.Tactic.Linarith

/-! The periods of unique keys. A key has a period as a text in whole seconds, so
it tells the periods apart that are at least a second long. -/

namespace Hopper.Guarantees

open List Kernel Driver Client

/-! Periods. -/

section
variable {time other period : Int}

theorem truncate_eq (time period : Int) : truncate time period = zeroTime + period * ((time - zeroTime) / period) := by
  have split := Int.mul_ediv_add_emod (time - zeroTime) period
  rw [truncate]
  omega

theorem inYears_truncate (positive : 0 < period) (inYears : InYears time) : InYears (truncate time period) := by
  obtain ⟨low, high⟩ := inYears
  have below := Int.emod_nonneg (time - zeroTime) (ne_of_gt positive)
  have quotient : 0 ≤ period * ((time - zeroTime) / period) :=
    mul_nonneg positive.le (Int.ediv_nonneg (by omega) positive.le)
  have split := truncate_eq time period
  refine ⟨by omega, ?_⟩
  rw [truncate]
  omega

theorem truncate_eq_of_seconds (long : 1000000000 ≤ period)
    (same : secondsOf (truncate time period) = secondsOf (truncate other period)) :
    truncate time period = truncate other period := by
  rw [truncate_eq, truncate_eq] at same ⊢
  generalize (time - zeroTime) / period = count at same ⊢
  generalize (other - zeroTime) / period = count' at same ⊢
  have apart (less greater : Int) (order : less < greater)
      (same : secondsOf (zeroTime + period * less) = secondsOf (zeroTime + period * greater)) : False := by
    have step : period * less + period ≤ period * greater := by
      have := mul_le_mul_of_nonneg_left (Int.add_one_le_of_lt order) (by omega : 0 ≤ period)
      linarith
    unfold secondsOf at same
    omega
  rcases lt_trichotomy count count' with less | equal | greater
  · exact (apart count count' less same).elim
  · rw [equal]
  · exact (apart count' count greater same.symm).elim

theorem formatRFC3339_congr (same : secondsOf time = secondsOf other) : formatRFC3339 time = formatRFC3339 other := by
  rw [formatRFC3339, formatRFC3339, same]

end

/-! The text of a period. -/

theorem mem_formatRFC3339 {time : Int} {char : Char} (mem : char ∈ formatRFC3339 time) :
    char.isDigit = true ∨ char ∈ ['-', 'T', ':', 'Z'] := by
  have digits {width : Nat} {value : Int} (mem : char ∈ padded width value) :
      char.isDigit = true ∨ char ∈ ['-', 'T', ':', 'Z'] := .inl (isDigit_of_mem_padded mem)
  simp only [formatRFC3339, List.mem_append, mem_cons, not_mem_nil, or_false] at mem
  rcases mem with year | rfl | month | rfl | day | rfl | hour | rfl | minute | rfl | second | rfl
  · exact digits year
  · decide
  · exact digits month
  · decide
  · exact digits day
  · decide
  · exact digits hour
  · decide
  · exact digits minute
  · decide
  · exact digits second
  · decide

theorem newline_not_mem_periodText (time period : Int) : '\n' ∉ ("p=" ++ periodText time period).toList := by
  intro mem
  rw [periodText, String.toList_append, List.mem_append, String.toList_ofList (l := formatRFC3339 _)] at mem
  rcases mem with front | date
  · exact absurd front (by decide)
  · exact absurd (mem_formatRFC3339 date) (by decide)

theorem utf8Len_ascii {chars : List Char} (ascii : ∀ char ∈ chars, char.utf8Size = 1) : String.utf8Len chars = chars.length := by
  induction chars with
  | nil => rfl
  | cons char chars ih =>
    obtain ⟨one, rest⟩ := forall_mem_cons.mp ascii
    rw [String.utf8Len_cons, one, ih rest, length_cons]

theorem utf8ByteSize_periodText {time period : Int} (positive : 0 < period) (inYears : InYears time) :
    ("p=" ++ periodText time period).utf8ByteSize = 22 := by
  have fits := dateFits (inYears_truncate positive inYears)
  have year := fits.year
  have month := fits.month
  have day := fits.day
  have ascii : ∀ char ∈ formatRFC3339 (truncate time period), char.utf8Size = 1 := by
    intro char mem
    rcases mem_formatRFC3339 mem with digit | sign
    · obtain ⟨_, high⟩ := Char.isDigit_iff_toNat.mp digit
      rw [Char.utf8Size_eq_one_iff]
      exact UInt32.le_iff_toNat_le.mpr (high.trans (by decide))
    · simp only [mem_cons, not_mem_nil, or_false] at sign
      rcases sign with rfl | rfl | rfl | rfl <;> rfl
  have length : (formatRFC3339 (truncate time period)).length = 20 := by
    rw [formatRFC3339]
    simp only [length_append, length_cons, length_nil]
    rw [length_padded (by decide) (by omega), length_padded (by decide) (by omega), length_padded (by decide) (by omega),
      length_padded (by decide) (by omega), length_padded (by decide) (by omega), length_padded (by decide) (by omega)]
  rw [periodText, String.utf8ByteSize_append, String.utf8ByteSize_ofList (formatRFC3339 _), utf8Len_ascii ascii, length]
  rfl

/-! Keys. -/

def joined (parts : List String) : String :=
  if parts = [] then "*" else uniqueKeySeparator.intercalate parts

theorem joined_inj {parts others : List String} (plain : ∀ part ∈ parts, '\n' ∉ part.toList)
    (otherPlain : ∀ part ∈ others, '\n' ∉ part.toList) (length : parts.length = others.length)
    (same : joined parts = joined others) : parts = others := by
  by_cases none : parts = []
  · rw [none] at length ⊢
    exact (length_eq_zero_iff.mp length.symm).symm
  · have present : others ≠ [] := fun nil => none (length_eq_zero_iff.mp (by rw [length, nil]; rfl))
    rw [joined, joined, if_neg none, if_neg present] at same
    have chars := congrArg String.toList same
    rw [String.toList_intercalate, String.toList_intercalate] at chars
    have split (list : List String) (plain : ∀ part ∈ list, '\n' ∉ part.toList) (ne : list ≠ []) :
        List.splitOn '\n' (List.intercalate uniqueKeySeparator.toList (list.map String.toList)) = list.map String.toList := by
      refine splitOn_intercalate '\n' ?_ (fun nil => ne (map_eq_nil_iff.mp nil))
      intro line mem
      obtain ⟨part, isPart, rfl⟩ := mem_map.mp mem
      exact plain part isPart
    have lines := congrArg (List.splitOn '\n') chars
    rw [split parts plain none, split others otherPlain present] at lines
    exact map_injective_iff.mpr (fun _ _ => String.toList_inj.mp) lines

theorem size_joined_concat {front : List String} {last other : String} (size : last.utf8ByteSize = other.utf8ByteSize) :
    (joined (front ++ [last])).utf8ByteSize = (joined (front ++ [other])).utf8ByteSize := by
  have apart (part : String) : front ++ [part] ≠ [] := by simp
  rw [joined, joined, if_neg (apart last), if_neg (apart other)]
  by_cases none : front = []
  · rw [none]
    simpa using size
  · have one (part : String) : [part] ≠ [] := cons_ne_nil part []
    rw [String.intercalate_append_of_ne_nil none (one last), String.intercalate_append_of_ne_nil none (one other)]
    simp only [String.utf8ByteSize_append, String.intercalate_singleton, size]

/-! The parts of a key. -/

section
variable {Args : Type} (uniqueArgs : Args → Except Failure String) (opts : UniqueOpts)

def argsParts (args : Args) : Except Failure (List String) :=
  if opts.byArgs then (uniqueArgs args).map fun text => ["a=" ++ text] else pure []

def queueParts (queue : String) : List String :=
  if opts.byQueue then ["q=" ++ queue] else []

def periodParts (now : Int) : List String :=
  if opts.byPeriod > 0 then ["p=" ++ periodText now opts.byPeriod] else []

variable {uniqueArgs opts} {args other : Args} {queue queue' key : String} {now now' : Int} {parts parts' : List String}

theorem checked_eq_ok_iff {text : String} :
    (checkUniqueKey text >>= fun _ => pure text) = .ok key ↔ key = text ∧ text.utf8ByteSize ≤ maxUniqueKey := by
  rw [checkUniqueKey]
  by_cases long : text.utf8ByteSize > maxUniqueKey
  · rw [if_pos long]
    exact iff_of_false (fun accepted => by cases accepted) fun fits => absurd fits.2 (not_le_of_gt long)
  · rw [if_neg long]
    constructor
    · intro accepted
      cases accepted
      exact ⟨rfl, le_of_not_gt long⟩
    · intro fits
      rw [fits.1]
      rfl

theorem key_eq_parts : opts.key periodText (uniqueArgs args) queue now = argsParts uniqueArgs opts args >>= fun parts =>
    checkUniqueKey (joined (parts ++ queueParts opts queue ++ periodParts opts now)) >>= fun _ =>
      pure (joined (parts ++ queueParts opts queue ++ periodParts opts now)) := by
  unfold UniqueOpts.key argsParts
  by_cases byArgs : opts.byArgs = true
  · rw [if_pos byArgs, if_pos byArgs]
    rfl
  · rw [if_neg byArgs, if_neg byArgs]
    rfl

theorem key_eq_ok_iff : opts.key periodText (uniqueArgs args) queue now = .ok key ↔ ∃ parts, argsParts uniqueArgs opts args = .ok parts ∧
      key = joined (parts ++ queueParts opts queue ++ periodParts opts now) ∧
      (joined (parts ++ queueParts opts queue ++ periodParts opts now)).utf8ByteSize ≤ maxUniqueKey := by
  rw [key_eq_parts]
  cases argsParts uniqueArgs opts args with
  | error =>
    refine iff_of_false (fun accepted => by cases accepted) ?_
    intro ⟨_, parts, _⟩
    cases parts
  | ok parts =>
    refine checked_eq_ok_iff.trans ⟨fun fits => ⟨parts, rfl, fits⟩, ?_⟩
    intro ⟨_, same, fits⟩
    cases same
    exact fits

theorem argsParts_cases (read : argsParts uniqueArgs opts args = .ok parts) : opts.byArgs = false ∧ parts = [] ∨
      opts.byArgs = true ∧ ∃ text, uniqueArgs args = .ok text ∧ parts = ["a=" ++ text] := by
  rw [argsParts] at read
  cases byArgs : opts.byArgs with
  | false =>
    rw [byArgs] at read
    cases read
    exact .inl ⟨rfl, rfl⟩
  | true =>
    rw [byArgs, if_pos rfl] at read
    cases encoded : uniqueArgs args with
    | error =>
      rw [encoded] at read
      cases read
    | ok text =>
      rw [encoded] at read
      cases read
      exact .inr ⟨rfl, text, rfl, rfl⟩

theorem argsParts_inj (first : argsParts uniqueArgs opts args = .ok parts)
    (second : argsParts uniqueArgs opts other = .ok parts) (byArgs : opts.byArgs = true) :
    uniqueArgs args = uniqueArgs other := by
  obtain ⟨without, _⟩ | ⟨_, text, read, isText⟩ := argsParts_cases first
  · rw [byArgs] at without
    cases without
  · obtain ⟨without, _⟩ | ⟨_, text', read', isText'⟩ := argsParts_cases second
    · rw [byArgs] at without
      cases without
    · rw [isText] at isText'
      have same := (List.cons.inj isText').1
      rw [String.append_right_inj] at same
      rw [read, read', same]

theorem length_argsParts (read : argsParts uniqueArgs opts args = .ok parts) : parts.length = opts.byArgs.toNat := by
  obtain ⟨byArgs, rfl⟩ | ⟨byArgs, text, _, rfl⟩ := argsParts_cases read
  · rw [byArgs]
    rfl
  · rw [byArgs]
    rfl

theorem newline_not_mem_argsParts (compact : ∀ args text, uniqueArgs args = .ok text → '\n' ∉ text.toList)
    (read : argsParts uniqueArgs opts args = .ok parts) : ∀ part ∈ parts, '\n' ∉ part.toList := by
  obtain ⟨_, rfl⟩ | ⟨_, text, encoded, rfl⟩ := argsParts_cases read
  · exact forall_mem_nil _
  · intro part mem
    rw [mem_singleton.mp mem, String.toList_append, List.mem_append]
    exact fun newline => newline.elim (by decide) (compact args text encoded)

theorem newline_not_mem_queueParts (plain : '\n' ∉ queue.toList) : ∀ part ∈ queueParts opts queue, '\n' ∉ part.toList := by
  intro part mem
  rw [queueParts] at mem
  split at mem
  · rw [mem_singleton.mp mem, String.toList_append, List.mem_append]
    exact fun newline => newline.elim (by decide) plain
  · cases mem

theorem newline_not_mem_periodParts : ∀ part ∈ periodParts opts now, '\n' ∉ part.toList := by
  intro part mem
  rw [periodParts] at mem
  split at mem
  · rw [mem_singleton.mp mem]
    exact newline_not_mem_periodText now opts.byPeriod
  · cases mem

theorem length_queueParts : (queueParts opts queue).length = opts.byQueue.toNat := by
  rw [queueParts]
  cases opts.byQueue <;> rfl

theorem length_periodParts (now now' : Int) : (periodParts opts now).length = (periodParts opts now').length := by
  rw [periodParts, periodParts]
  split <;> rfl

theorem key_inj (compact : ∀ args text, uniqueArgs args = .ok text → '\n' ∉ text.toList)
    (plain : '\n' ∉ queue.toList) (otherPlain : '\n' ∉ queue'.toList)
    (first : opts.key periodText (uniqueArgs args) queue now = .ok key)
    (second : opts.key periodText (uniqueArgs other) queue' now' = .ok key) :
    (opts.byArgs = true → uniqueArgs args = uniqueArgs other) ∧ (opts.byQueue = true → queue = queue') ∧
      periodParts opts now = periodParts opts now' := by
  obtain ⟨parts, read, isKey, _⟩ := key_eq_ok_iff.mp first
  obtain ⟨parts', read', isKey', _⟩ := key_eq_ok_iff.mp second
  have all {args : Args} {queue : String} {now : Int} {parts : List String} (plain : '\n' ∉ queue.toList)
      (read : argsParts uniqueArgs opts args = .ok parts) :
      ∀ part ∈ parts ++ queueParts opts queue ++ periodParts opts now, '\n' ∉ part.toList := by
    intro part mem
    rcases List.mem_append.mp mem with front | period
    · rcases List.mem_append.mp front with args | queue
      · exact newline_not_mem_argsParts compact read part args
      · exact newline_not_mem_queueParts plain part queue
    · exact newline_not_mem_periodParts part period
  have argsLength := (length_argsParts read).trans (length_argsParts read').symm
  have queueLength : (queueParts opts queue).length = (queueParts opts queue').length :=
    length_queueParts.trans length_queueParts.symm
  have same := joined_inj (all plain read) (all otherPlain read')
    (by simp only [length_append, argsLength, queueLength, length_periodParts now now'])
    (isKey.symm.trans isKey')
  obtain ⟨front, periods⟩ := append_inj same (by rw [length_append, length_append, argsLength, queueLength])
  obtain ⟨sameArgs, sameQueue⟩ := append_inj front argsLength
  refine ⟨argsParts_inj read (sameArgs ▸ read'), fun byQueue => ?_, periods⟩
  rw [queueParts, queueParts, if_pos byQueue, if_pos byQueue] at sameQueue
  exact (String.append_right_inj _).mp (List.cons.inj sameQueue).1

theorem key_at (positive : 0 < opts.byPeriod) (accepted : opts.key periodText (uniqueArgs args) queue now = .ok key)
    (inYears : InYears now) (otherInYears : InYears now') : ∃ key, opts.key periodText (uniqueArgs args) queue now' = .ok key := by
  obtain ⟨parts, read, _, fits⟩ := key_eq_ok_iff.mp accepted
  refine ⟨_, key_eq_ok_iff.mpr ⟨parts, read, rfl, ?_⟩⟩
  rw [periodParts, if_pos positive] at fits ⊢
  have size := (utf8ByteSize_periodText positive otherInYears).trans (utf8ByteSize_periodText positive inYears).symm
  rw [size_joined_concat size]
  exact fits

theorem truncate_zeroTime (period : Int) : truncate zeroTime period = zeroTime := by
  rw [truncate_eq, sub_self, Int.zero_ediv, mul_zero, add_zero]

theorem truncate_second {period : Int} (positive : 0 < period) : truncate (zeroTime + period) period = zeroTime + period := by
  rw [truncate_eq, add_sub_cancel_left, Int.ediv_self positive.ne', mul_one]

theorem periodParts_short (positive : 0 < opts.byPeriod) (short : opts.byPeriod < 1000000000) :
    periodParts opts zeroTime = periodParts opts (zeroTime + opts.byPeriod) := by
  have seconds : secondsOf zeroTime = secondsOf (zeroTime + opts.byPeriod) := by
    unfold secondsOf zeroTime
    omega
  rw [periodParts, periodParts, if_pos positive, if_pos positive, periodText, periodText, truncate_zeroTime,
    truncate_second positive, formatRFC3339_congr seconds]

theorem periodParts_eq_iff (long : 1000000000 ≤ opts.byPeriod) (inYears : InYears now) (otherInYears : InYears now') :
    periodParts opts now = periodParts opts now' ↔ truncate now opts.byPeriod = truncate now' opts.byPeriod := by
  have positive : 0 < opts.byPeriod := by omega
  rw [periodParts, periodParts, if_pos positive, if_pos positive, periodText, periodText]
  constructor
  · intro same
    have text := (String.append_right_inj _).mp (List.cons.inj same).1
    exact truncate_eq_of_seconds long (formatRFC3339_inj (inYears_truncate positive inYears)
      (inYears_truncate positive otherInYears) (String.ofList_injective text))
  · intro same
    rw [same]

end

section
variable {Args : Type}

/-- The args and the queue of an insert, with a queue name that is accepted. -/
structure Inserted (Args : Type) where
  args : Args
  queue : String
  named : ∃ name, queueOf name = .ok queue

def KeyPerPeriod (uniqueArgs : Args → Except Failure String) (opts : UniqueOpts) : Prop :=
  ∀ (job : Inserted Args) (now now' : Int) (key key' : String), 0 < opts.byPeriod → InYears now → InYears now' →
    opts.key periodText (uniqueArgs job.args) job.queue now = .ok key →
    opts.key periodText (uniqueArgs job.args) job.queue now' = .ok key' →
    (key = key' ↔ truncate now opts.byPeriod = truncate now' opts.byPeriod)

def KeyTellsParts (uniqueArgs : Args → Except Failure String) (opts : UniqueOpts) : Prop :=
  ∀ (job other : Inserted Args) (now now' : Int) (key : String), InYears now → InYears now' →
    opts.key periodText (uniqueArgs job.args) job.queue now = .ok key →
    opts.key periodText (uniqueArgs other.args) other.queue now' = .ok key →
    (opts.byArgs = true → uniqueArgs job.args = uniqueArgs other.args) ∧ (opts.byQueue = true → job.queue = other.queue) ∧
      (0 < opts.byPeriod → truncate now opts.byPeriod = truncate now' opts.byPeriod)

/-- Keys tell the periods apart, and their other parts, if a period has at least
the second that its text is in. -/
theorem key_per_period_iff (uniqueArgs : Args → Except Failure String)
    (compact : ∀ args text, uniqueArgs args = .ok text → '\n' ∉ text.toList) (opts : UniqueOpts)
    (accepted : ∃ (job : Inserted Args) (now : Int) (key : String),
      InYears now ∧ opts.key periodText (uniqueArgs job.args) job.queue now = .ok key) :
    KeyPerPeriod uniqueArgs opts ∧ KeyTellsParts uniqueArgs opts ↔ opts.byPeriod ≤ 0 ∨ 1000000000 ≤ opts.byPeriod := by
  constructor
  · intro ⟨perPeriod, _⟩
    by_contra short
    obtain ⟨positive, short⟩ : 0 < opts.byPeriod ∧ opts.byPeriod < 1000000000 := by omega
    obtain ⟨job, now, key, inYears, isKey⟩ := accepted
    have first : InYears zeroTime := ⟨le_refl _, by decide⟩
    have second : InYears (zeroTime + opts.byPeriod) := ⟨by omega, by unfold zeroTime; omega⟩
    obtain ⟨key, isKey⟩ := key_at positive isKey inYears first
    -- The first two periods begin in one second, so their keys are the same text.
    have isKey' : opts.key periodText (uniqueArgs job.args) job.queue (zeroTime + opts.byPeriod) = .ok key := by
      obtain ⟨parts, read, isText, fits⟩ := key_eq_ok_iff.mp isKey
      rw [periodParts_short positive short] at isText fits
      exact key_eq_ok_iff.mpr ⟨parts, read, isText, fits⟩
    have same := (perPeriod job _ _ _ _ positive first second isKey isKey').mp rfl
    rw [truncate_zeroTime, truncate_second positive] at same
    omega
  · intro long
    have tells : KeyTellsParts uniqueArgs opts := by
      intro job other now now' key inYears otherInYears isKey isKey'
      obtain ⟨name, named⟩ := job.named
      obtain ⟨name', named'⟩ := other.named
      obtain ⟨sameArgs, sameQueue, samePeriod⟩ :=
        key_inj compact (newline_not_mem_queue named) (newline_not_mem_queue named') isKey isKey'
      exact ⟨sameArgs, sameQueue, fun positive => (periodParts_eq_iff (by omega) inYears otherInYears).mp samePeriod⟩
    refine ⟨?_, tells⟩
    intro job now now' key key' positive inYears otherInYears isKey isKey'
    constructor
    · intro same
      exact (tells job job now now' key inYears otherInYears isKey (same ▸ isKey')).2.2 positive
    · intro same
      obtain ⟨parts, read, isText, _⟩ := key_eq_ok_iff.mp isKey
      obtain ⟨parts', read', isText', _⟩ := key_eq_ok_iff.mp isKey'
      have sameParts := Except.ok.inj (read.symm.trans read')
      rw [isText, isText', (periodParts_eq_iff (by omega) inYears otherInYears).mpr same, sameParts]

end

/-! The keys of args without tagged fields. -/

theorem newline_not_mem_jsonChar (one : Char) : '\n' ∉ jsonChar one := by
  unfold jsonChar
  split
  · next special => rcases special with rfl | rfl <;> decide
  split
  · decide
  split
  · decide
  split
  · decide
  split
  · decide
  split
  · decide
  next plain _ _ _ _ =>
  split
  · have hex (number : Nat) : '\n' ≠ JobID.hexDigit number := by
      have all : ∀ rest < 16, '\n' ≠ JobID.hexDigit rest := by decide
      have same : JobID.hexDigit number = JobID.hexDigit (number % 16) := by
        rw [JobID.hexDigit, JobID.hexDigit, Nat.mod_mod]
      rw [same]
      exact all _ (Nat.mod_lt _ (by decide))
    simp [hex]
  · exact fun newline => plain (mem_singleton.mp newline).symm

theorem newline_not_mem_uniqueArgs (encoded : Json GoInteger) : '\n' ∉ (uniqueArgs encoded).toList := by
  rw [uniqueArgs, String.toList_ofList]
  exact Json.newline_not_mem_render newline_not_mem_jsonChar (written_mapNumber _)

def plainJob : Inserted (Json GoInteger) := ⟨.null, queueDefault, "", by decide⟩

def hourly : UniqueOpts := { byArgs := true, byPeriod := 3600000000000 }

theorem key_per_period_iff_hour : KeyPerPeriod (fun encoded => .ok (uniqueArgs encoded)) hourly ∧
      KeyTellsParts (fun encoded => .ok (uniqueArgs encoded)) hourly :=
  (key_per_period_iff _ (fun encoded _ same => Except.ok.inj same ▸ newline_not_mem_uniqueArgs encoded) hourly
    ⟨plainJob, zeroTime, "a=null\np=0001-01-01T00:00:00Z", ⟨le_refl _, by decide⟩, by decide⟩).mpr (.inr (by decide))

/-- The first two periods of half a second have one key. -/
theorem key_half_second : UniqueOpts.key periodText { byPeriod := 500000000 } (.ok "") queueDefault zeroTime = .ok "p=0001-01-01T00:00:00Z" ∧
      UniqueOpts.key periodText { byPeriod := 500000000 } (.ok "") queueDefault (zeroTime + 500000000) = .ok "p=0001-01-01T00:00:00Z" ∧
      truncate zeroTime 500000000 ≠ truncate (zeroTime + 500000000) 500000000 := by
  decide

end Hopper.Guarantees
