import Hopper.Client.Unique

/-! Unique keys by args: two args have one key when they are equal once their
numbers are rounded, and only then. -/

namespace Hopper.Guarantees

open List Kernel Kernel.Json Driver Client

def readFloat (text : List Char) : Int :=
  if text.head? = some '-' then -Rounding.nearest floatBits (Nat.ofDigitChars 10 text.tail 0)
  else Rounding.nearest floatBits (Nat.ofDigitChars 10 text 0)

theorem readFloat_formatFloat {float : Int} (exact : Rounding.nearest floatBits float.natAbs = float.natAbs) :
    readFloat (formatFloat float) = float := by
  have digits : Nat.ofDigitChars 10 (Nat.toDigits 10 (Rounding.shortest floatBits float.natAbs)) 0 =
      Rounding.shortest floatBits float.natAbs := Nat.ofDigitChars_ten_toDigits
  have rounds := Rounding.nearest_shortest exact
  unfold readFloat formatFloat
  by_cases negative : float < 0
  · simp only [if_pos negative, singleton_append, head?_cons, tail_cons, digits, rounds, if_true]
    omega
  · have unsigned : (Nat.toDigits 10 (Rounding.shortest floatBits float.natAbs)).head? ≠ some '-' := by
      intro sign
      have digit := Nat.isDigit_of_mem_toDigits (by decide) (by decide) (mem_of_head? sign)
      exact absurd digit (by decide)
    simp only [if_neg negative, nil_append, if_neg unsigned, digits, rounds]
    omega

theorem nearest_parseFloat (integer : GoInteger) :
    Rounding.nearest floatBits (parseFloat integer).natAbs = (parseFloat integer).natAbs := by
  have size : (parseFloat integer).natAbs = integer.value.sign.natAbs * Rounding.nearest floatBits integer.value.natAbs := by
    rw [parseFloat, Int.natAbs_mul, Int.natAbs_natCast]
  rw [size]
  by_cases zero : integer.value = 0
  · rw [zero, Int.sign_zero, Int.natAbs_zero, Nat.zero_mul]
    exact Rounding.nearest_of_lt (Nat.two_pow_pos _)
  · rw [Int.natAbs_sign_of_ne_zero zero, Nat.one_mul, Rounding.nearest_nearest (by decide)]

theorem written_mapNumber (json : Json Int) : Written (json.mapNumber formatFloat) := by
  induction json using Json.induct with
  | null => rw [mapNumber]; exact .null
  | bool value => rw [mapNumber]; exact .bool value
  | number =>
    rw [mapNumber]
    refine .number _ ?_ fun one inside => ?_
    · simp [formatFloat, Nat.toDigits_ne_nil]
    · rw [formatFloat, List.mem_append] at inside
      rcases inside with sign | digit
      · split at sign
        · rw [mem_singleton.mp sign]
          rfl
        · cases sign
      · simp [numberChar, Nat.isDigit_of_mem_toDigits (by decide) (by decide) digit]
  | string text => rw [mapNumber]; exact .string text
  | array items ih =>
    rw [mapNumber_array]
    refine .array _ fun item inside => ?_
    obtain ⟨source, mem, rfl⟩ := mem_map.mp inside
    exact ih source mem
  | object members ih =>
    rw [mapNumber_object]
    refine .object _ fun mem inside => ?_
    obtain ⟨source, found, rfl⟩ := mem_map.mp inside
    exact ih source found

variable {one other : Json GoInteger}

theorem uniqueArgs_eq_iff : uniqueArgs one = uniqueArgs other ↔ decodeArgs one = decodeArgs other := by
  refine ⟨fun same => ?_, fun same => by rw [uniqueArgs, same, uniqueArgs]⟩
  have back (encoded : Json GoInteger) : ((decodeArgs encoded).mapNumber formatFloat).mapNumber readFloat = decodeArgs encoded := by
    rw [decodeArgs, canonical_mapNumber, mapNumber_mapNumber, mapNumber_mapNumber]
    refine mapNumber_congr _ fun value _ => ?_
    exact readFloat_formatFloat (nearest_parseFloat value)
  have trees := render_injective jsonChar_escapes (written_mapNumber _) (written_mapNumber _) (String.ofList_injective same)
  rw [← back one, trees, back]

theorem decodeArgs_eq_iff : decodeArgs one = decodeArgs other ↔ Same (one.mapNumber parseFloat) (other.mapNumber parseFloat) := by
  rw [decodeArgs, decodeArgs, canonical_eq_iff]

/-- Two values that differ, but only by integers that round to one `float64`. -/
def RoundTogether (one other : Json GoInteger) : Prop :=
  Same (one.mapNumber parseFloat) (other.mapNumber parseFloat) ∧ ¬Same one other

theorem same_rounded (same : Same one other) : Same (one.mapNumber parseFloat) (other.mapNumber parseFloat) := by
  rw [← canonical_eq_iff, canonical_mapNumber, canonical_mapNumber, canonical_eq_iff.mpr same]

theorem not_roundTogether (exact : ∀ value ∈ one.numbers, parseFloat value = value.value)
    (exact' : ∀ value ∈ other.numbers, parseFloat value = value.value) : ¬RoundTogether one other := by
  rintro ⟨rounded, differ⟩
  have injective : Function.Injective GoInteger.value := fun first second same => by
    cases first
    cases second
    cases same
    rfl
  have inhabited : Nonempty GoInteger := ⟨⟨0, by decide⟩⟩
  rw [← canonical_eq_iff, mapNumber_congr one exact, mapNumber_congr other exact', canonical_mapNumber,
    canonical_mapNumber, (mapNumber_injective injective).eq_iff, canonical_eq_iff] at rounded
  exact differ rounded

def afterArgs (tail : List String) : List Char :=
  if tail = [] then [] else uniqueKeySeparator.toList ++ (uniqueKeySeparator.intercalate tail).toList

theorem toList_intercalate_cons (first : String) (tail : List String) :
    (uniqueKeySeparator.intercalate (first :: tail)).toList = first.toList ++ afterArgs tail := by
  cases tail with
  | nil => simp [afterArgs]
  | cons => simp [afterArgs, String.toList_intercalate, List.intercalate]

section
variable {truncated : Int → Int → String} {opts : UniqueOpts} {queue : String} {now now' : Int}

def otherParts (truncated : Int → Int → String) (opts : UniqueOpts) (queue : String) (now : Int) : List String :=
  (if opts.byQueue then ["q=" ++ queue] else []) ++
    if opts.byPeriod > 0 then ["p=" ++ truncated now opts.byPeriod] else []

theorem key_toList (byArgs : opts.byArgs = true) {encoded : Json GoInteger} {key : String}
    (built : opts.key truncated (.ok (uniqueArgs encoded)) queue now = .ok key) :
    key.toList = "a=".toList ++ (uniqueArgs encoded).toList ++ afterArgs (otherParts truncated opts queue now) := by
  have parts : ["a=" ++ uniqueArgs encoded] ++ (if opts.byQueue then ["q=" ++ queue] else []) ++
      (if opts.byPeriod > 0 then ["p=" ++ truncated now opts.byPeriod] else []) =
        ("a=" ++ uniqueArgs encoded) :: otherParts truncated opts queue now :=
    append_assoc ..
  rw [UniqueOpts.key, if_pos byArgs] at built
  change (checkUniqueKey (if _ ++ _ ++ _ = [] then "*" else uniqueKeySeparator.intercalate (_ ++ _ ++ _)) >>= fun _ => _) = _ at built
  rw [parts, if_neg (cons_ne_nil _ _)] at built
  cases checked : checkUniqueKey (uniqueKeySeparator.intercalate
      (("a=" ++ uniqueArgs encoded) :: otherParts truncated opts queue now)) with
  | error failure =>
    rw [checked] at built
    cases built
  | ok done =>
    rw [checked] at built
    cases built
    rw [toList_intercalate_cons, String.toList_append]

/-- A key by args tells apart args that are different values, unless they
round together. -/
theorem unique_key_identifies_args (byArgs : opts.byArgs = true)
    (period : opts.byPeriod > 0 → truncated now opts.byPeriod = truncated now' opts.byPeriod)
    {one other : Json GoInteger} {key key' : String} (built : opts.key truncated (.ok (uniqueArgs one)) queue now = .ok key)
    (built' : opts.key truncated (.ok (uniqueArgs other)) queue now' = .ok key') :
    (key = key' ↔ Same one other) ↔ ¬RoundTogether one other := by
  have parts : otherParts truncated opts queue now = otherParts truncated opts queue now' := by
    unfold otherParts
    by_cases positive : opts.byPeriod > 0
    · rw [period positive]
    · simp only [if_neg positive]
  have keys : key = key' ↔ Same (one.mapNumber parseFloat) (other.mapNumber parseFloat) := by
    calc
      key = key' ↔ key.toList = key'.toList := String.toList_inj.symm
      _ ↔ (uniqueArgs one).toList = (uniqueArgs other).toList := by
        rw [key_toList byArgs built, key_toList byArgs built', ← parts, append_left_inj, append_right_inj]
      _ ↔ decodeArgs one = decodeArgs other := by rw [String.toList_inj, uniqueArgs_eq_iff]
      _ ↔ Same (one.mapNumber parseFloat) (other.mapNumber parseFloat) := decodeArgs_eq_iff
  rw [keys, RoundTogether, not_and_not_right]
  exact ⟨Iff.mp, fun apart => ⟨apart, same_rounded⟩⟩

end

def idArgs (id : Int) (inRange : -2 ^ 63 ≤ id ∧ id < 2 ^ 64) : Json GoInteger :=
  .object [("id", .number ⟨id, inRange⟩)]

theorem unique_key_identifies_args_far :
    "a=\x7b\"id\":9223372036854776000\x7d\nq=mail" = "a=\x7b\"id\":9223372036854778000\x7d\nq=mail" ↔
      Same (idArgs (2 ^ 63) (by decide)) (idArgs (2 ^ 63 + 2048) (by decide)) := by
  have built : UniqueOpts.key (fun _ _ => "") { byArgs := true, byQueue := true } (.ok (uniqueArgs (idArgs (2 ^ 63) (by decide))))
      "mail" 0 = .ok "a=\x7b\"id\":9223372036854776000\x7d\nq=mail" := by rfl
  have built' : UniqueOpts.key (fun _ _ => "") { byArgs := true, byQueue := true } (.ok (uniqueArgs (idArgs (2 ^ 63 + 2048) (by decide))))
      "mail" 5 = .ok "a=\x7b\"id\":9223372036854778000\x7d\nq=mail" := by rfl
  refine (unique_key_identifies_args rfl (fun _ => rfl) built built').mpr (not_roundTogether ?_ ?_)
  · decide +kernel
  · decide +kernel

/-- Two integers that round to one float. -/
theorem distinct_args_share_key :
    UniqueOpts.key (fun _ _ => "") { byArgs := true } (.ok (uniqueArgs (idArgs (2 ^ 53) (by decide)))) "mail" 0 =
        .ok "a=\x7b\"id\":9007199254740992\x7d" ∧
      UniqueOpts.key (fun _ _ => "") { byArgs := true } (.ok (uniqueArgs (idArgs (2 ^ 53 + 1) (by decide)))) "mail" 0 =
        .ok "a=\x7b\"id\":9007199254740992\x7d" ∧
      ¬Same (idArgs (2 ^ 53) (by decide)) (idArgs (2 ^ 53 + 1) (by decide)) := by
  refine ⟨rfl, rfl, fun same => ?_⟩
  cases same with
  | object names each => cases each "id" _ _ rfl rfl

end Hopper.Guarantees
