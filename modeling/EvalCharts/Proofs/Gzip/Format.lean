/-
Module: EvalCharts.Proofs.Gzip.Format
Purpose: What a gzip file is, told from its content and without a decoder: the words of a prefix code,
  blocks of bytes as they are or in such words, and the header and the trailer around them.
Main exports: lowFirst, word, Ranged, Symbols, Lengths, Described, Block, Blocks, Deflated, Front, trailer,
  Member
-/
import EvalCharts.Gzip.Checksum
import EvalCharts.Gzip.Inflate
import Mathlib.Algebra.Group.Nat.Defs

namespace EvalCharts.Gzip

/-! ### Numbers and words -/

/-- The bits of a number, the lowest one first. -/
def lowFirst : Nat → Nat → List Bool
  | 0, _ => []
  | width + 1, number => decide (number % 2 = 1) :: lowFirst width (number / 2)

/-- The length of a symbol's word in a code. It is zero for symbols that have none. -/
def wordLength (lengths : List Nat) (symbol : Nat) : Nat :=
  lengths[symbol]?.getD 0

/-- How many of the strings of some width begin with a word of a code. -/
def taken : List Nat → Nat → Nat
  | [], _ => 0
  | length :: lengths, width =>
    (if 0 < length ∧ length ≤ width then 2 ^ (width - length) else 0) + taken lengths width

/-- A symbol's word. Read with the highest bit first, it is a number: the words of one length follow
    all strings that begin with a shorter word, in the order of their symbols. -/
def word (lengths : List Nat) (symbol : Nat) : List Bool :=
  let length := wordLength lengths symbol
  let number := 2 * taken lengths (length - 1) + (lengths.take symbol).count length
  (lowFirst length number).reverse

/-- Every long string begins with just one word. -/
def IsComplete (lengths : List Nat) : Prop :=
  taken lengths PrefixCode.longest = 2 ^ PrefixCode.longest

/-- A code for content is complete, or has a single word or none. -/
def IsUsable (lengths : List Nat) : Prop :=
  IsComplete lengths ∨ lengths.countP (0 < ·) ≤ 1

/-! ### Content -/

/-- A number is written as the word of its range, and the excess over the range's least number. The
    symbols of the ranges follow each other from `first` on. -/
inductive Ranged (ranges : List (Nat × Nat)) (first : Nat) (lengths : List Nat) :
    Nat → List Bool → Prop where
  | intro {place least width excess : Nat} (range : ranges[place]? = some (least, width))
      (fits : excess < 2 ^ width) (known : 0 < wordLength lengths (first + place)) :
      Ranged ranges first lengths (least + excess)
        (word lengths (first + place) ++ lowFirst width excess)

/-- An output after bytes are repeated that stand some distance before its end. -/
def extend (distance : Nat) : Nat → List UInt8 → List UInt8
  | 0, output => output
  | length + 1, output => extend distance length (output ++ [output.getD (output.length - distance) 0])

/-- Bits that turn an output into a longer one, in codes for literals and lengths and for distances: they
    stand for single bytes and for repetitions, up to the word that ends a block. -/
inductive Symbols (literals distances : List Nat) : List UInt8 → List Bool → List UInt8 → Prop where
  | stop {output : List UInt8} (known : 0 < wordLength literals endOfBlock) :
      Symbols literals distances output (word literals endOfBlock) output
  | literal {output after : List UInt8} {bits : List Bool} (byte : UInt8)
      (known : 0 < wordLength literals byte.toNat)
      (rest : Symbols literals distances (output ++ [byte]) bits after) :
      Symbols literals distances output (word literals byte.toNat ++ bits) after
  | repetition {output after : List UInt8} {length distance : Nat}
      {lengthBits distanceBits bits : List Bool}
      (hlength : Ranged lengthRanges (endOfBlock + 1) literals length lengthBits)
      (hdistance : Ranged distanceRanges 0 distances distance distanceBits)
      (inside : distance ≤ output.length)
      (rest : Symbols literals distances (extend distance length output) bits after) :
      Symbols literals distances output (lengthBits ++ (distanceBits ++ bits)) after

/-- Bits that give word lengths, behind those already given: each one by itself, as repetitions of the one
    before, or as several zeros. -/
inductive Lengths (alphabet : List Nat) : List Nat → List Bool → List Nat → Prop where
  | stop {given : List Nat} : Lengths alphabet given [] given
  | single {given all : List Nat} {bits : List Bool} (length : Nat) (small : length < 16)
      (known : 0 < wordLength alphabet length) (rest : Lengths alphabet (given ++ [length]) bits all) :
      Lengths alphabet given (word alphabet length ++ bits) all
  | again {given all : List Nat} {bits : List Bool} {length : Nat} (excess : Nat) (small : excess < 2 ^ 2)
      (known : 0 < wordLength alphabet 16) (before : given.getLast? = some length)
      (rest : Lengths alphabet (given ++ List.replicate (3 + excess) length) bits all) :
      Lengths alphabet given (word alphabet 16 ++ (lowFirst 2 excess ++ bits)) all
  | zeros {given all : List Nat} {bits : List Bool} (excess : Nat) (small : excess < 2 ^ 3)
      (known : 0 < wordLength alphabet 17)
      (rest : Lengths alphabet (given ++ List.replicate (3 + excess) 0) bits all) :
      Lengths alphabet given (word alphabet 17 ++ (lowFirst 3 excess ++ bits)) all
  | manyZeros {given all : List Nat} {bits : List Bool} (excess : Nat) (small : excess < 2 ^ 7)
      (known : 0 < wordLength alphabet 18)
      (rest : Lengths alphabet (given ++ List.replicate (11 + excess) 0) bits all) :
      Lengths alphabet given (word alphabet 18 ++ (lowFirst 7 excess ++ bits)) all

/-- Bits that describe two codes: how many word lengths each has, and the lengths themselves in a code
    that is described first, by lengths of three bits in a fixed order, of which the last may be left out
    if they are zero. -/
inductive Described : List Bool → List Nat → List Nat → Prop where
  | intro {literals distances alphabet : List Nat} {count : Nat} {bits : List Bool}
      (literalCount : 257 ≤ literals.length ∧ literals.length < 257 + 2 ^ 5)
      (distanceCount : 1 ≤ distances.length ∧ distances.length < 1 + 2 ^ 5)
      (lengthCount : 4 ≤ count ∧ count ≤ lengthOrder.length)
      (size : alphabet.length = lengthOrder.length) (small : ∀ length ∈ alphabet, length < 2 ^ 3)
      (leftOut : ∀ symbol ∈ lengthOrder.drop count, wordLength alphabet symbol = 0)
      (complete : IsComplete alphabet)
      (lengths : Lengths alphabet [] bits (literals ++ distances))
      (literalsUsable : IsUsable literals) (distancesUsable : IsUsable distances) :
      Described
        (lowFirst 5 (literals.length - 257) ++ (lowFirst 5 (distances.length - 1) ++
          (lowFirst 4 (count - 4) ++
            ((lengthOrder.take count).flatMap (fun symbol => lowFirst 3 (wordLength alphabet symbol)) ++
              bits))))
        literals distances

/-- The word lengths of the codes that need no description. -/
def fixedLiteralLengths : List Nat :=
  List.replicate 144 8 ++ List.replicate 112 9 ++ List.replicate 24 7 ++ List.replicate 8 8

def fixedDistanceLengths : List Nat :=
  List.replicate 32 5

/-- The bits of a block that turns an output into a longer one. So many bits stand before the block, and
    bytes that are stored as they are begin at a multiple of eight bits. -/
inductive Block (position : Nat) (output : List UInt8) : List Bool → List UInt8 → Prop where
  | stored {padding : List Bool} {bytes : List UInt8} (short : padding.length < 8)
      (aligned : (position + 2 + padding.length) % 8 = 0) (fits : bytes.length < 2 ^ 16) :
      Block position output
        (lowFirst 2 0 ++ (padding ++ (lowFirst 16 bytes.length ++
          (lowFirst 16 (2 ^ 16 - 1 - bytes.length) ++ bitsOf bytes))))
        (output ++ bytes)
  | fixed {bits : List Bool} {after : List UInt8}
      (symbols : Symbols fixedLiteralLengths fixedDistanceLengths output bits after) :
      Block position output (lowFirst 2 1 ++ bits) after
  | described {literals distances : List Nat} {description bits : List Bool} {after : List UInt8}
      (codes : Described description literals distances)
      (symbols : Symbols literals distances output bits after) :
      Block position output (lowFirst 2 2 ++ (description ++ bits)) after

/-- The bits of several blocks. Each says in front whether it is the last. -/
inductive Blocks : Nat → List UInt8 → List Bool → List UInt8 → Prop where
  | last {position : Nat} {output after : List UInt8} {bits : List Bool}
      (block : Block (position + 1) output bits after) : Blocks position output (true :: bits) after
  | more {position : Nat} {output middle after : List UInt8} {bits bits' : List Bool}
      (block : Block (position + 1) output bits middle)
      (rest : Blocks (position + 1 + bits.length) middle bits' after) :
      Blocks position output (false :: (bits ++ bits')) after

/-- Bytes that hold a content in blocks, the last byte being filled up. -/
def Deflated (data content : List UInt8) : Prop :=
  ∃ bits padding, Blocks 0 [] bits content ∧ bitsOf data = bits ++ padding ∧ padding.length < 8

/-- A fixed block, in which eight bytes repeat what precedes them at a distance of two. -/
theorem deflated_repetition :
    Deflated [0xCB, 0xB6, 0xCE, 0x86, 0x41, 0x2E, 0x00]
      [0x6B, 0x3B, 0x6B, 0x3B, 0x6B, 0x3B, 0x6B, 0x3B, 0x6B, 0x3B, 0x6B, 0x0A] := by
  have hlength : Ranged lengthRanges (endOfBlock + 1) fixedLiteralLengths (8 + 0) _ :=
    @Ranged.intro _ _ _ 5 8 0 0 rfl (by decide) (by decide)
  have hdistance : Ranged distanceRanges 0 fixedDistanceLengths (2 + 0) _ :=
    @Ranged.intro _ _ _ 1 2 0 0 rfl (by decide) (by decide)
  have hsymbols := @Symbols.literal fixedLiteralLengths fixedDistanceLengths [] _ _ 0x6B (by decide)
    (.literal 0x3B (by decide) (.literal 0x6B (by decide)
      (.repetition hlength hdistance (by decide) (.literal 0x0A (by decide) (.stop (by decide))))))
  have hblocks := @Blocks.last 0 _ _ _ (.fixed hsymbols)
  exact ⟨_, [false, false], hblocks, by decide +kernel, by decide⟩

/-! ### Members -/

/-- A number as bytes, the lowest one first. -/
def littleEndian : Nat → Nat → List UInt8
  | 0, _ => []
  | count + 1, number => UInt8.ofNat (number % 256) :: littleEndian count (number / 256)

/-- What stands before the data: a time and other remarks of six bytes, and optional parts. -/
structure Front where
  isText : Bool
  remarks : List UInt8
  extra? : Option (List UInt8)
  name? : Option (List UInt8)
  comment? : Option (List UInt8)
  isChecked : Bool
  remarks_length : remarks.length = 6
  extra_length : ∀ extra ∈ extra?, extra.length < 2 ^ 16
  name_text : ∀ name ∈ name?, 0 ∉ name
  comment_text : ∀ comment ∈ comment?, 0 ∉ comment

namespace Front

/-- The byte that announces the optional parts. -/
def flags (front : Front) : Nat :=
  front.isText.toNat + 2 * front.isChecked.toNat + 4 * front.extra?.isSome.toNat +
    8 * front.name?.isSome.toNat + 16 * front.comment?.isSome.toNat

/-- A part that is preceded by its length. -/
def counted : Option (List UInt8) → List UInt8
  | none => []
  | some part => littleEndian 2 part.length ++ part

/-- A part that is ended by a zero. -/
def ended : Option (List UInt8) → List UInt8
  | none => []
  | some part => part ++ [0]

/-- All but the checksum. -/
def unchecked (front : Front) : List UInt8 :=
  [0x1F, 0x8B, 8, UInt8.ofNat front.flags] ++ front.remarks ++ counted front.extra? ++
    ended front.name? ++ ended front.comment?

def bytes (front : Front) : List UInt8 :=
  front.unchecked ++ if front.isChecked then littleEndian 2 (checksum front.unchecked) else []

end Front

/-- What stands behind the data of a content: its checksum and its length. -/
def trailer (content : List UInt8) : List UInt8 :=
  littleEndian 4 (checksum content) ++ littleEndian 4 content.length

/-- A file that holds a content, with nothing behind it. -/
inductive Member : List UInt8 → List UInt8 → Prop where
  | intro {data content : List UInt8} (front : Front) (deflated : Deflated data content) :
      Member (front.bytes ++ data ++ trailer content) content

end EvalCharts.Gzip
