/-
Module: EvalCharts.Gzip.Member
Purpose: Decompressing a gzip file: a header, deflated data, and a checksum and length of the content.
  Only the first member of a file is read.
Main exports: skipHeader, member, decompress
-/
import EvalCharts.ByteStream
import EvalCharts.Gzip.Checksum
import EvalCharts.Gzip.Inflate

namespace EvalCharts.Gzip

-- Powers of whole numbers are those of the core library, whichever other powers are in scope.
attribute [local instance (20000)] instPowNat

/-- The bytes behind a field that is preceded by its length. -/
def skipCounted : List UInt8 → Except Fault (List UInt8)
  | low :: high :: rest =>
    let length := low.toNat + 256 * high.toNat
    if length ≤ rest.length then .ok (rest.drop length) else .error .cut
  | _ => .error .cut

/-- The bytes behind a text that ends with a zero. -/
def skipText : List UInt8 → Except Fault (List UInt8)
  | [] => .error .cut
  | byte :: rest => if byte = 0 then .ok rest else skipText rest

/-- The bytes behind the checksum of a header. -/
def skipHeaderChecksum (header : List UInt8) : List UInt8 → Except Fault (List UInt8)
  | low :: high :: rest =>
    if checksum header % 2 ^ (16 : Nat) = low.toNat + 256 * high.toNat then .ok rest
    else .error .wrongHeaderChecksum
  | _ => .error .cut

/-- The bytes behind the header of a member. Its optional parts are announced by bits of a flag byte:
    an extra field, a file name, a comment, and a checksum of all that precedes it. -/
def skipHeader (file : List UInt8) : Except Fault (List UInt8) :=
  match file with
  | first :: second :: method :: flags :: _ :: _ :: _ :: _ :: _ :: _ :: rest => do
    let announced (place : Nat) := flags.toNat.testBit place
    if first ≠ 0x1F ∨ second ≠ 0x8B ∨ method ≠ 8 then throw .notGzip
    let rest ← if announced 2 then skipCounted rest else pure rest
    let rest ← if announced 3 then skipText rest else pure rest
    let rest ← if announced 4 then skipText rest else pure rest
    if announced 1 then skipHeaderChecksum (file.take (file.length - rest.length)) rest
    else pure rest
  | _ => .error .cut

/-- Deflated data, and the checksum and the length of what they decode to. -/
def member (bitCount : Nat) : Decoder Unit := do
  blocks bitCount bitCount
  align
  let announcedChecksum ← number 32
  let announcedLength ← number 32
  let content := (← get).output
  if checksum content.toList ≠ announcedChecksum then throw .wrongChecksum
  if content.size % 2 ^ (32 : Nat) ≠ announcedLength then throw .wrongLength

/-- How much of the output is handed over before a fault. Damaged data spoil the window of 32 KiB that
    is being filled, and a wrong end spoils the portion of 8 KiB that would be handed over with it. -/
def Fault.delivered (fault : Fault) (size : Nat) : Nat :=
  match fault with
  | .damaged => size / 2 ^ (15 : Nat) * 2 ^ (15 : Nat)
  | .wrongChecksum | .wrongLength => size / 2 ^ (13 : Nat) * 2 ^ (13 : Nat)
  | _ => size

/-- The content of a gzip file. Where the file itself breaks off, so does its content, and what stands
    behind the first member is ignored. -/
def decompress (file : ByteStream) : ByteStream :=
  let broken (output : List UInt8) (fault : Fault) : ByteStream :=
    .broken (output.take (fault.delivered output.length))
      (if fault = .cut then file.failure?.getD fault.message else fault.message)
  match skipHeader file.bytes with
  | .error fault => broken [] fault
  | .ok body =>
    let bits := bitsOf body
    match (member bits.length).run ⟨bits, #[]⟩ with
    | .ok _ state => .whole state.output.toList
    | .error fault state => broken state.output.toList fault

end EvalCharts.Gzip
