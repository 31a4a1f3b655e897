import Hopper.Kernel.Number

/-! The grammar of JSON texts, as bytes. A tree keeps its text as it is written:
the white space, the escapes in its strings, and its numbers. -/

namespace Hopper.Kernel

open Bytes

def isSpace (byte : UInt8) : Bool :=
  byte = 32 || byte = 9 || byte = 10 || byte = 13

structure Spaces where
  bytes : Bytes
  all : ∀ byte ∈ bytes, isSpace byte = true

def hexValue? (byte : UInt8) : Option Nat :=
  if 48 ≤ byte ∧ byte ≤ 57 then some (byte.toNat - 48)
  else if 97 ≤ byte ∧ byte ≤ 102 then some (byte.toNat - 87)
  else if 65 ≤ byte ∧ byte ≤ 70 then some (byte.toNat - 55)
  else none

def hexadecimal (digits : Bytes) : Nat :=
  digits.foldl (fun value digit => 16 * value + (hexValue? digit).getD 0) 0

/-- A piece of a string: a byte, a short escape or an escaped code unit. -/
inductive Piece where
  | plain (byte : UInt8) (printable : 32 ≤ byte) (noQuote : byte ≠ 34) (noBackslash : byte ≠ 92)
  | short (letter : UInt8) (known : letter ∈ ascii "\"\\/bfnrt")
  | unit (digits : Bytes) (four : digits.length = 4) (hex : ∀ digit ∈ digits, (hexValue? digit).isSome = true)

namespace Piece

def text : Piece → Bytes
  | plain byte _ _ _ => [byte]
  | short letter _ => [92, letter]
  | unit digits _ _ => 92 :: 117 :: digits

def unit? : Piece → Option Nat
  | unit digits _ _ => some (hexadecimal digits)
  | _ => none

def isHigh (piece : Piece) : Prop :=
  ∃ unit ∈ piece.unit?, 0xd800 ≤ unit ∧ unit < 0xdc00

def isLow (piece : Piece) : Prop :=
  ∃ unit ∈ piece.unit?, 0xdc00 ≤ unit ∧ unit < 0xe000

end Piece

def piecesText (pieces : List Piece) : Bytes :=
  pieces.flatMap Piece.text

def stringText (pieces : List Piece) : Bytes :=
  34 :: (piecesText pieces ++ [34])

mutual

inductive JsonTree where
  | null
  | bool (value : Bool)
  | number (number : Number)
  | string (pieces : List Piece)
  | array (space : Spaces) (items : JsonItems)
  | object (space : Spaces) (members : JsonMembers)

inductive JsonItems where
  | nil
  | cons (before : Spaces) (item : JsonTree) (after : Spaces) (rest : JsonItems)

inductive JsonMembers where
  | nil
  | cons (before : Spaces) (name : List Piece) (between : Spaces) (beyond : Spaces) (value : JsonTree) (after : Spaces)
      (rest : JsonMembers)

end

mutual

def JsonTree.text : JsonTree → Bytes
  | .null => ascii "null"
  | .bool true => ascii "true"
  | .bool false => ascii "false"
  | .number number => number.text
  | .string pieces => stringText pieces
  | .array space items => 91 :: (space.bytes ++ (items.text ++ [93]))
  | .object space members => 123 :: (space.bytes ++ (members.text ++ [125]))

def JsonItems.text : JsonItems → Bytes
  | .nil => []
  | .cons before item after .nil => before.bytes ++ (item.text ++ after.bytes)
  | .cons before item after rest => before.bytes ++ (item.text ++ (after.bytes ++ 44 :: rest.text))

def JsonMembers.text : JsonMembers → Bytes
  | .nil => []
  | .cons before name between beyond value after .nil =>
    before.bytes ++ (stringText name ++ (between.bytes ++ 58 :: (beyond.bytes ++ (value.text ++ after.bytes))))
  | .cons before name between beyond value after rest =>
    before.bytes ++
      (stringText name ++ (between.bytes ++ 58 :: (beyond.bytes ++ (value.text ++ (after.bytes ++ 44 :: rest.text)))))

end

mutual

/-- The strings of a tree, with the names of its members. -/
def JsonTree.strings : JsonTree → List (List Piece)
  | .string pieces => [pieces]
  | .array _ items => items.strings
  | .object _ members => members.strings
  | _ => []

def JsonItems.strings : JsonItems → List (List Piece)
  | .nil => []
  | .cons _ item _ rest => item.strings ++ rest.strings

def JsonMembers.strings : JsonMembers → List (List Piece)
  | .nil => []
  | .cons _ name _ _ value _ rest => name :: (value.strings ++ rest.strings)

end

mutual

def JsonTree.numbers : JsonTree → List Number
  | .number number => [number]
  | .array _ items => items.numbers
  | .object _ members => members.numbers
  | _ => []

def JsonItems.numbers : JsonItems → List Number
  | .nil => []
  | .cons _ item _ rest => item.numbers ++ rest.numbers

def JsonMembers.numbers : JsonMembers → List Number
  | .nil => []
  | .cons _ _ _ _ value _ rest => value.numbers ++ rest.numbers

end

/-- A JSON text: one value, with white space around it. -/
structure JsonText where
  before : Spaces
  tree : JsonTree
  after : Spaces

def JsonText.bytes (text : JsonText) : Bytes :=
  text.before.bytes ++ (text.tree.text ++ text.after.bytes)

end Hopper.Kernel
