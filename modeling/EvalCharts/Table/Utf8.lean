/-
Module: EvalCharts.Table.Utf8
Purpose: Decoding of UTF-8. A text that is not valid is refused with the number of bytes that its
  leading valid characters take.
Main exports: Utf8.decode
-/

namespace EvalCharts.Utf8

/-- A character whose first bytes have been read: how many continuation bytes it still needs, between
    which bounds the next of them must lie, and the bits collected so far. -/
structure Pending where
  owed : Nat
  least : Nat
  greatest : Nat
  code : Nat
deriving DecidableEq, Repr

/-- The first byte of a character. The bounds of the second byte rule out encodings that are longer
    than necessary, surrogates, and code points above `0x10FFFF`. -/
def lead? (byte : Nat) : Option Pending :=
  if byte < 0x80 then some ⟨0, 0x80, 0xBF, byte⟩
  else if byte < 0xC2 then none
  else if byte < 0xE0 then some ⟨1, 0x80, 0xBF, byte - 0xC0⟩
  else if byte < 0xF0 then
    some ⟨2, if byte = 0xE0 then 0xA0 else 0x80, if byte = 0xED then 0x9F else 0xBF, byte - 0xE0⟩
  else if byte < 0xF5 then
    some ⟨3, if byte = 0xF0 then 0x90 else 0x80, if byte = 0xF4 then 0x8F else 0xBF, byte - 0xF0⟩
  else none

/-- A continuation byte of a character. -/
def Pending.follow? (pending : Pending) (byte : Nat) : Option Pending :=
  if pending.least ≤ byte ∧ byte ≤ pending.greatest then
    some ⟨pending.owed - 1, 0x80, 0xBF, pending.code * 64 + (byte - 0x80)⟩
  else none

/-- Decode the rest of a text. `valid` counts the bytes of the characters before, and `pending?` is
    the character in progress with the number of its bytes read so far. -/
def decodeFrom : List UInt8 → Nat → Option (Pending × Nat) → Except Nat (List Char)
  | [], valid, pending? => if pending?.isNone then .ok [] else .error valid
  | byte :: bytes, valid, pending? =>
    let (next?, taken) :=
      match pending? with
      | none => (lead? byte.toNat, 1)
      | some (pending, taken) => (pending.follow? byte.toNat, taken + 1)
    match next? with
    | none => .error valid
    | some next =>
      if next.owed = 0 then
        (decodeFrom bytes (valid + taken) none).map fun chars => Char.ofNat next.code :: chars
      else decodeFrom bytes valid (some (next, taken))

/-- The characters of a text, or the number of bytes before its first invalid sequence. -/
def decode (bytes : List UInt8) : Except Nat (List Char) :=
  decodeFrom bytes 0 none

end EvalCharts.Utf8
