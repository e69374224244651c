/-
Module: EvalCharts.Gzip.Inflate
Purpose: Decoding of deflated data: a sequence of blocks that hold bytes as they are, or in prefix
  codes that are fixed or described in the block, with references to earlier output.
Main exports: storedBlock, compressedBlock, blocks
-/
import EvalCharts.Gzip.PrefixCode

namespace EvalCharts.Gzip

/-- Take bytes as they are. -/
def storedBytes : Nat → Decoder Unit
  | 0 => return ()
  | count + 1 => do
    let byte ← number 8
    emit (UInt8.ofNat byte)
    storedBytes count

/-- A block of bytes as they are. Their number is given twice, the second time inverted. -/
def storedBlock : Decoder Unit := do
  align
  let length ← number 16
  let inverted ← number 16
  if length + inverted = 0xFFFF then storedBytes length else throw .damaged

/-- For each symbol of a length, the least length and the width of the number to be added to it. -/
def lengthRanges : List (Nat × Nat) :=
  [(3, 0), (4, 0), (5, 0), (6, 0), (7, 0), (8, 0), (9, 0), (10, 0), (11, 1), (13, 1), (15, 1),
    (17, 1), (19, 2), (23, 2), (27, 2), (31, 2), (35, 3), (43, 3), (51, 3), (59, 3), (67, 4),
    (83, 4), (99, 4), (115, 4), (131, 5), (163, 5), (195, 5), (227, 5), (258, 0)]

/-- For each symbol of a distance, the least distance and the width of the number to be added. -/
def distanceRanges : List (Nat × Nat) :=
  [(1, 0), (2, 0), (3, 0), (4, 0), (5, 1), (7, 1), (9, 2), (13, 2), (17, 3), (25, 3), (33, 4),
    (49, 4), (65, 5), (97, 5), (129, 6), (193, 6), (257, 7), (385, 7), (513, 8), (769, 8),
    (1025, 9), (1537, 9), (2049, 10), (3073, 10), (4097, 11), (6145, 11), (8193, 12), (12289, 12),
    (16385, 13), (24577, 13)]

/-- Take the rest of a value whose symbol has been read. -/
def rangedValue (ranges : List (Nat × Nat)) (symbol : Nat) : Decoder Nat :=
  match ranges[symbol]? with
  | none => throw .damaged
  | some (least, width) => do
    let excess ← number width
    return least + excess

/-- The symbol that ends a block. Smaller symbols are bytes, and larger ones are lengths. -/
def endOfBlock : Nat := 256

/-- Take symbols until the block ends. Every symbol takes at least one bit, so if the fuel is the
    number of bits, it cannot run out before they do. -/
def compressedSymbols (literals distances : PrefixCode) : Nat → Decoder Unit
  | 0 => throw .cut
  | fuel + 1 => do
    let symbol ← literals.symbol
    if symbol = endOfBlock then return ()
    else if symbol < endOfBlock then
      emit (UInt8.ofNat symbol)
      compressedSymbols literals distances fuel
    else
      let length ← rangedValue lengthRanges (symbol - (endOfBlock + 1))
      let distance ← distances.symbol
      let distance ← rangedValue distanceRanges distance
      copy distance length
      compressedSymbols literals distances fuel

/-- The codes of blocks that describe none. -/
def fixedLiterals : PrefixCode :=
  .ofLengths (List.replicate 144 8 ++ List.replicate 112 9 ++ List.replicate 24 7
    ++ List.replicate 8 8)

def fixedDistances : PrefixCode :=
  .ofLengths (List.replicate 32 5)

/-- The order in which the lengths of the code for lengths are given. -/
def lengthOrder : List Nat :=
  [16, 17, 18, 0, 8, 7, 9, 6, 10, 5, 11, 4, 12, 3, 13, 2, 14, 1, 15]

/-- Take several numbers of one width. -/
def numbers (width : Nat) : Nat → Decoder (List Nat)
  | 0 => return []
  | count + 1 => do
    let first ← number width
    let rest ← numbers width count
    return first :: rest

/-- Take the lengths of code words until there are `wanted`. Symbols up to 15 are lengths, 16 repeats
    the length before it, and 17 and 18 stand for zeros. Each step adds a length, so fuel of one more
    than the wanted number suffices. -/
def wordLengths (code : PrefixCode) (wanted : Nat) : Nat → List Nat → Decoder (List Nat)
  | 0, _ => throw .damaged
  | fuel + 1, lengths => do
    if lengths.length = wanted then return lengths
    else if wanted < lengths.length then throw .damaged
    else
      let symbol ← code.symbol
      let more ←
        if symbol < 16 then pure [symbol]
        else if symbol = 16 then do
          let count ← number 2
          match lengths.getLast? with
          | none => throw .damaged
          | some length => pure (List.replicate (3 + count) length)
        else if symbol = 17 then do
          let count ← number 3
          pure (List.replicate (3 + count) 0)
        else do
          let count ← number 7
          pure (List.replicate (11 + count) 0)
      wordLengths code wanted fuel (lengths ++ more)

/-- A described code must be complete, except that it may have a single symbol or none. -/
def describedCode (lengths : List Nat) : Decoder PrefixCode :=
  let code := PrefixCode.ofLengths lengths
  if code.isComplete || code.size ≤ 1 then return code else throw .damaged

/-- The codes that a block describes, for literals and lengths and for distances. -/
def describedCodes : Decoder (PrefixCode × PrefixCode) := do
  let literalCount := 257 + (← number 5)
  let distanceCount := 1 + (← number 5)
  let lengthCount := 4 + (← number 4)
  let given := lengthOrder.zip (← numbers 3 lengthCount)
  let code := PrefixCode.ofLengths ((List.range 19).map fun symbol => (given.lookup symbol).getD 0)
  if !code.isComplete then throw .damaged
  let wanted := literalCount + distanceCount
  let lengths ← wordLengths code wanted (wanted + 1) []
  let literals ← describedCode (lengths.take literalCount)
  let distances ← describedCode (lengths.drop literalCount)
  return (literals, distances)

/-- One block, behind the bit that says whether it is the last. -/
def block (fuel : Nat) : Decoder Unit := do
  match ← number 2 with
  | 0 => storedBlock
  | 1 => compressedSymbols fixedLiterals fixedDistances fuel
  | 2 =>
    let (literals, distances) ← describedCodes
    compressedSymbols literals distances fuel
  | _ => throw .damaged

/-- Blocks up to the last one. The fuel is the number of bits, of which each block takes some. -/
def blocks (bitCount : Nat) : Nat → Decoder Unit
  | 0 => throw .cut
  | fuel + 1 => do
    let last ← bit
    block bitCount
    if last then return () else blocks bitCount fuel

end EvalCharts.Gzip
