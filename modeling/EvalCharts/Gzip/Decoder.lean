/-
Module: EvalCharts.Gzip.Decoder
Purpose: Decoders that take bits from a stream and append bytes to an output. A decoder that fails
  leaves the output as far as it has come.
Main exports: Fault, State, Decoder, bitsOf, bit, number, align, emit, copy
-/

namespace EvalCharts.Gzip

/-- Why a compressed file is not decoded to its end. -/
inductive Fault where
  /-- The file ends too early. -/
  | cut
  | notGzip
  | wrongHeaderChecksum
  /-- The compressed data have no meaning. -/
  | damaged
  | wrongChecksum
  | wrongLength
deriving DecidableEq, Repr

/-- The sentence that reports a fault. -/
def Fault.message : Fault → String
  | .cut => "unexpected end of file"
  | .notGzip => "Invalid gzip header"
  | .wrongHeaderChecksum => "CRC computed for header does not match"
  | .damaged => "deflate decompression error"
  | .wrongChecksum => "CRC computed does not match"
  | .wrongLength => "amount of bytes read does not match"

/-- The bits that are still to be read, and the bytes that have been produced. -/
structure State where
  bits : List Bool
  output : Array UInt8

/-- A step of decoding. -/
abbrev Decoder (α : Type) := EStateM Fault State α

/-- The bits of bytes in the order of reading: the lowest bit of a byte comes first. -/
def bitsOf (bytes : List UInt8) : List Bool :=
  bytes.flatMap fun byte => (List.range 8).map fun place => byte.toNat.testBit place

/-- Take one bit. -/
def bit : Decoder Bool := do
  let state ← get
  match state.bits with
  | [] => throw .cut
  | bit :: bits =>
    set { state with bits := bits }
    return bit

/-- Take a number of a given width. Its lowest bit comes first. -/
def number : Nat → Decoder Nat
  | 0 => return 0
  | width + 1 => do
    let low ← bit
    let high ← number width
    return 2 * high + low.toNat

/-- Drop the rest of a byte that has been read in part. The stream ends with a whole byte, so the
    number of bits left tells how much of a byte is left. -/
def align : Decoder Unit :=
  modify fun state => { state with bits := state.bits.drop (state.bits.length % 8) }

/-- Append one byte. -/
def emit (byte : UInt8) : Decoder Unit :=
  modify fun state => { state with output := state.output.push byte }

/-- Append the byte that stands `distance` bytes before the end of the output. Zeros stand in front of
    its first byte. -/
def copyByte (distance : Nat) : Decoder Unit :=
  modify fun state =>
    let place := state.output.size - distance
    let byte := if distance ≤ state.output.size then state.output[place]?.getD 0 else 0
    { state with output := state.output.push byte }

/-- Repeat bytes that stand before the end of the output; a copy may run into its own result. -/
def copy (distance : Nat) : Nat → Decoder Unit
  | 0 => return ()
  | length + 1 => do
    copyByte distance
    copy distance length

end EvalCharts.Gzip
