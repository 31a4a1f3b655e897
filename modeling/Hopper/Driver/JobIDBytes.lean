import Hopper.Kernel.JsonText

/-! Job IDs as their sixteen bytes: how one is minted at a time, and its text. -/

namespace Hopper.Driver

open List Kernel

structure JobIDBytes where
  bytes : Bytes
  length : bytes.length = 16
deriving DecidableEq

/-- `binary.BigEndian`: the low bytes of a word, the highest first. -/
def bigEndian : Nat → Nat → Bytes
  | 0, _ => []
  | count + 1, word => UInt8.ofNat (word >>> (8 * count)) :: bigEndian count word

@[simp] theorem length_bigEndian (count word : Nat) : (bigEndian count word).length = count := by
  induction count with
  | zero => rfl
  | succ count ih => rw [bigEndian, length_cons, ih]

/-- The first eight bytes of an ID minted at a time, in nanoseconds from 1970. -/
def timeWord (now : Int) : Nat :=
  let ms := (max (now / 1000000) 0).toNat
  let fraction := (now % 1000000000).toNat % 1000000 * 4096 / 1000000
  (ms <<< 16 ||| 0x7000 ||| fraction) % 2 ^ 64

def newID (now : Int) (random : Fin 8 → UInt8) : JobIDBytes where
  bytes := bigEndian 8 (timeWord now) ++ (random 0 &&& 0x3f ||| 0x80) :: List.ofFn fun i : Fin 7 => random i.succ
  length := by simp

def hexDigit (value : Nat) : UInt8 :=
  UInt8.ofNat (if value < 10 then 48 + value else 87 + value)

def hexEncode (bytes : Bytes) : Bytes :=
  bytes.flatMap fun byte => [hexDigit (byte.toNat / 16), hexDigit (byte.toNat % 16)]

def hexDecode : Bytes → Option Bytes
  | high :: low :: rest => do
    let high ← hexValue? high
    let low ← hexValue? low
    let rest ← hexDecode rest
    some (UInt8.ofNat (16 * high + low) :: rest)
  | [] => some []
  | _ => none

/-- `s[from:to]`. -/
def slice (first last : Nat) (text : Bytes) : Bytes :=
  (text.drop first).take (last - first)

namespace JobIDBytes

/-- The canonical text, 8-4-4-4-12. -/
def string (id : JobIDBytes) : Bytes :=
  hexEncode (slice 0 4 id.bytes) ++ 45 :: hexEncode (slice 4 6 id.bytes) ++ 45 :: hexEncode (slice 6 8 id.bytes) ++
    45 :: hexEncode (slice 8 10 id.bytes) ++ 45 :: hexEncode (slice 10 16 id.bytes)

end JobIDBytes

def parseJobID (text : Bytes) : Option JobIDBytes :=
  if text.length ≠ 36 ∨ text[8]? ≠ some 45 ∨ text[13]? ≠ some 45 ∨ text[18]? ≠ some 45 ∨ text[23]? ≠ some 45 then none
  else (hexDecode (slice 0 8 text ++ slice 9 13 text ++ slice 14 18 text ++ slice 19 23 text ++ slice 24 36 text)).bind
    fun bytes => if length : bytes.length = 16 then some ⟨bytes, length⟩ else none

/-! Order. -/

theorem bigEndian_lt {count first second : Nat} (less : first % 256 ^ count < second % 256 ^ count) :
    bigEndian count first < bigEndian count second := by
  induction count with
  | zero => simp [Nat.mod_one] at less
  | succ count ih =>
    have high (word : Nat) : (UInt8.ofNat (word >>> (8 * count))).toNat = word / 256 ^ count % 256 := by
      rw [UInt8.toNat_ofNat', Nat.shiftRight_eq_div_pow, Nat.pow_mul]
    rw [bigEndian, bigEndian, cons_lt_cons_iff, UInt8.lt_iff_toNat_lt, ← UInt8.toNat_inj, high, high]
    rw [Nat.pow_succ, Nat.mod_mul, Nat.mod_mul] at less
    rcases Nat.lt_trichotomy (first / 256 ^ count % 256) (second / 256 ^ count % 256) with below | same | above
    · exact .inl below
    · rw [same, Nat.add_lt_add_iff_right] at less
      exact .inr ⟨same, ih less⟩
    · have small := Nat.mod_lt second (Nat.pow_pos (n := count) (show 0 < 256 by decide))
      have wide := Nat.mul_le_mul_left (256 ^ count) (Nat.succ_le_of_lt above)
      rw [Nat.mul_succ] at wide
      omega

variable {now : Int}

theorem timeWord_eq (from1970 : 0 ≤ now) (fits : now / 1000000 < 2 ^ 48) :
    timeWord now = (now / 1000000).toNat * 65536 + (28672 + now.toNat % 1000000 * 4096 / 1000000) := by
  have fraction : (now % 1000000000).toNat % 1000000 = now.toNat % 1000000 := by omega
  have ms : (max (now / 1000000) 0).toNat = (now / 1000000).toNat := by omega
  have version (fraction : Nat) (small : fraction < 4096) : 28672 ||| fraction = 28672 + fraction :=
    (Nat.two_pow_add_eq_or_of_lt (i := 12) small 7).symm
  rw [timeWord, fraction, ms, Nat.or_assoc, version _ (by omega), Nat.shiftLeft_eq, Nat.mul_comm,
    ← Nat.two_pow_add_eq_or_of_lt (i := 16) (by omega) _, Nat.mod_eq_of_lt (by omega)]

variable {first second : Int}

theorem timeWord_lt (from1970 : 0 ≤ first) (fits : second / 1000000 < 2 ^ 48)
    (firstWhole : first % 1000 = 0) (secondWhole : second % 1000 = 0) (earlier : first < second) :
    timeWord first < timeWord second := by
  rw [timeWord_eq from1970 (by omega), timeWord_eq (by omega) fits]
  omega

theorem append_lt_append_iff {front front' : Bytes} (same : front.length = front'.length) (back back' : Bytes) :
    front ++ back < front' ++ back' ↔ front < front' ∨ front = front' ∧ back < back' := by
  induction front generalizing front' with
  | nil =>
    obtain rfl := eq_nil_of_length_eq_zero same.symm
    simp
  | cons byte front ih =>
    obtain ⟨byte', front', rfl⟩ := exists_cons_of_length_eq_add_one same.symm
    rw [cons_append, cons_append, cons_lt_cons_iff, ih (by simpa using same), cons_lt_cons_iff, cons.injEq]
    tauto

theorem hexDigit_lt {low high : Nat} (less : low < high) (small : high < 16) : hexDigit low < hexDigit high := by
  have ordered : ∀ high : Fin 16, ∀ low : Fin high, hexDigit low < hexDigit high := by decide
  exact ordered ⟨high, small⟩ ⟨low, less⟩

theorem hexEncode_lt {first second : Bytes} (less : first < second) : hexEncode first < hexEncode second := by
  induction first generalizing second with
  | nil =>
    cases second with
    | nil => exact less
    | cons byte second => exact nil_lt_cons _ _
  | cons byte first ih =>
    obtain _ | ⟨byte', second⟩ := second
    · exact absurd less (not_lt_nil _)
    rw [cons_lt_cons_iff] at less
    simp only [hexEncode, flatMap_cons, cons_append, nil_append, cons_lt_cons_iff]
    rcases less with below | ⟨rfl, below⟩
    · rw [UInt8.lt_iff_toNat_lt] at below
      have small := byte'.toNat_lt
      rcases Nat.lt_or_eq_of_le (Nat.div_le_div_right (c := 16) below.le) with high | high
      · exact .inl (hexDigit_lt high (by omega))
      · exact .inr ⟨by rw [high], .inl (hexDigit_lt (by omega) (by omega))⟩
    · exact .inr ⟨rfl, .inr ⟨rfl, ih below⟩⟩

theorem hexDecode_hexEncode (bytes : Bytes) : hexDecode (hexEncode bytes) = some bytes := by
  have digit : ∀ value : Fin 16, hexValue? (hexDigit value) = some value.val := by decide
  induction bytes with
  | nil => rfl
  | cons byte bytes ih =>
    have small := byte.toNat_lt
    have high := digit ⟨byte.toNat / 16, by omega⟩
    have low := digit ⟨byte.toNat % 16, by omega⟩
    simp only [hexEncode, flatMap_cons, cons_append, nil_append, hexDecode] at ih ⊢
    simp only [high, low, ih, Option.bind_eq_bind, Option.bind_some, Nat.div_add_mod, UInt8.ofNat_toNat]

theorem length_hexEncode (bytes : Bytes) : (hexEncode bytes).length = 2 * bytes.length := by
  simp [hexEncode, Nat.mul_comm]

namespace JobIDBytes

theorem string_lt {first second : JobIDBytes} (less : first.bytes < second.bytes) : first.string < second.string := by
  -- One group of the text: the groups before it are the same, or the texts already differ.
  have group {front front' back back' text text' : Bytes} (same : front.length = front'.length)
      (rest : back < back' → text < text') (less : front ++ back < front' ++ back') :
      hexEncode front ++ 45 :: text < hexEncode front' ++ 45 :: text' := by
    rw [append_lt_append_iff same] at less
    rw [append_lt_append_iff (by rw [length_hexEncode, length_hexEncode, same])]
    exact less.imp hexEncode_lt fun ⟨equal, below⟩ => ⟨by rw [equal], cons_lt_cons_iff.mpr (.inr ⟨rfl, rest below⟩)⟩
  have length (first last : Nat) (id : JobIDBytes) : (slice first last id.bytes).length = min (last - first) (16 - first) := by
    simp [slice, id.length]
  have split (id : JobIDBytes) : slice 0 4 id.bytes ++ (slice 4 6 id.bytes ++ (slice 6 8 id.bytes ++
      (slice 8 10 id.bytes ++ slice 10 16 id.bytes))) = id.bytes := by
    have cut {first last : Nat} (le : first ≤ last) : slice first last id.bytes ++ id.bytes.drop last = id.bytes.drop first := by
      obtain ⟨count, rfl⟩ := Nat.exists_eq_add_of_le le
      rw [slice, Nat.add_sub_cancel_left, ← drop_drop, take_append_drop]
    rw [show slice 10 16 id.bytes = id.bytes.drop 10 from take_of_length_le (by simp [id.length]), cut (by decide), cut (by decide),
      cut (by decide), cut (by decide), drop_zero]
  rw [← split first, ← split second] at less
  simp only [string, append_assoc, cons_append]
  exact group (by simp only [length]) (group (by simp only [length]) (group (by simp only [length])
    (group (by simp only [length]) hexEncode_lt))) less

theorem parseJobID_string (id : JobIDBytes) : parseJobID id.string = some id := by
  obtain ⟨bytes, length⟩ := id
  -- With the sixteen bytes named, the groups and their cuts compute.
  rcases bytes with _ | ⟨b0, _ | ⟨b1, _ | ⟨b2, _ | ⟨b3, _ | ⟨b4, _ | ⟨b5, _ | ⟨b6, _ | ⟨b7, _ | ⟨b8, _ | ⟨b9, _ | ⟨b10, _ | ⟨b11, _ |
    ⟨b12, _ | ⟨b13, _ | ⟨b14, _ | ⟨b15, _ | ⟨b16, bytes⟩⟩⟩⟩⟩⟩⟩⟩⟩⟩⟩⟩⟩⟩⟩⟩⟩ <;> simp at length
  rw [parseJobID, if_neg (by simp [string, hexEncode, slice])]
  change (hexDecode (hexEncode [b0, b1, b2, b3, b4, b5, b6, b7, b8, b9, b10, b11, b12, b13, b14, b15])).bind _ = _
  rw [hexDecode_hexEncode]
  rfl

/-- The UUID version: the high half of the seventh byte. -/
def version (id : JobIDBytes) : UInt8 := id.bytes.getD 6 0 >>> 4

/-- The UUID variant: the two high bits of the ninth byte. -/
def variant (id : JobIDBytes) : UInt8 := id.bytes.getD 8 0 >>> 6

end JobIDBytes

theorem version_newID (from1970 : 0 ≤ now) (fits : now / 1000000 < 2 ^ 48) (random : Fin 8 → UInt8) :
    (newID now random).version = 7 := by
  have high (ms fraction : Nat) (small : fraction < 4096) : (ms * 65536 + (28672 + fraction)) / 2 ^ 8 % 2 ^ 8 / 2 ^ 4 = 7 := by
    omega
  change UInt8.ofNat (timeWord now >>> 8) >>> 4 = 7
  rw [timeWord_eq from1970 fits, ← UInt8.toNat_inj, UInt8.toNat_shiftRight, UInt8.toNat_ofNat', Nat.shiftRight_eq_div_pow,
    Nat.shiftRight_eq_div_pow]
  exact high _ _ (by omega)

theorem variant_newID (now : Int) (random : Fin 8 → UInt8) : (newID now random).variant = 2 := by
  have marked : ∀ byte : Fin 256, (UInt8.ofFin byte &&& 0x3f ||| 0x80) >>> 6 = 2 := by decide +kernel
  exact marked (random 0).toFin

/-- IDs of later instants are greater, as bytes and as text, and an ID's text parses as that ID. -/
theorem newID_sorts_by_time (from1970 : 0 ≤ first) (fits : second / 1000000 < 2 ^ 48)
    (firstWhole : first % 1000 = 0) (secondWhole : second % 1000 = 0) (earlier : first < second)
    (random random' : Fin 8 → UInt8) :
    (newID first random).bytes < (newID second random').bytes ∧
      (newID first random).string < (newID second random').string ∧
      ∀ id ∈ [newID first random, newID second random'],
        id.version = 7 ∧ id.variant = 2 ∧ parseJobID id.string = some id := by
  have less : (newID first random).bytes < (newID second random').bytes := by
    have word := timeWord_lt from1970 fits firstWhole secondWhole earlier
    have below (now : Int) : timeWord now < 256 ^ 8 := Nat.mod_lt _ (by decide)
    refine (append_lt_append_iff (by simp) _ _).mpr (.inl (bigEndian_lt ?_))
    rwa [Nat.mod_eq_of_lt (below first), Nat.mod_eq_of_lt (below second)]
  refine ⟨less, JobIDBytes.string_lt less, fun id listed => ⟨?_, ?_, id.parseJobID_string⟩⟩
  · rcases mem_pair.mp listed with rfl | rfl
    · exact version_newID from1970 (by omega) random
    · exact version_newID (by omega) fits random'
  · rcases mem_pair.mp listed with rfl | rfl
    · exact variant_newID first random
    · exact variant_newID second random'

theorem newID_sorts_adjacent_microseconds :
    (newID 1700000000000000000 fun _ => 255).string < (newID 1700000000000001000 fun _ => 0).string :=
  (newID_sorts_by_time (by decide) (by decide) (by decide) (by decide) (by decide) _ _).2.1

end Hopper.Driver
