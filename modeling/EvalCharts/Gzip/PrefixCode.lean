/-
Module: EvalCharts.Gzip.PrefixCode
Purpose: Prefix codes that are determined by the lengths of their code words. Among the words of one
  length, those of smaller symbols come first, and shorter words come before longer ones.
Main exports: PrefixCode, PrefixCode.ofLengths, PrefixCode.isComplete, PrefixCode.symbol
-/
import EvalCharts.Gzip.Decoder

namespace EvalCharts.Gzip

-- Powers of whole numbers are those of the core library, whichever other powers are in scope.
attribute [local instance (20000)] instPowNat

/-- The symbols of a code by the length of their words: first those with words of one bit, then those
    of two, and so on, each in ascending order. -/
abbrev PrefixCode := List (List Nat)

namespace PrefixCode

/-- The largest length of a code word. -/
def longest : Nat := 15

/-- The code in which each symbol's word has the given length. Symbols of length zero have none. -/
def ofLengths (lengths : List Nat) : PrefixCode :=
  (List.range' 1 longest).map fun (length : Nat) =>
    (lengths.zipIdx.filter fun (entry : Nat × Nat) => entry.1 == length).map Prod.snd

/-- The number of symbols that have words. -/
def size (code : PrefixCode) : Nat :=
  code.flatten.length

/-- How much of all bit strings begins with a word of the code, in units of which a word of the first
    level takes `2 ^ (room - 1)`, and a word of each further level half as much. -/
def share : Nat → PrefixCode → Nat
  | _, [] => 0
  | room, level :: deeper => level.length * 2 ^ (room - 1) + share (room - 1) deeper

/-- Whether the words take all bit strings, so that every long one begins with exactly one word. -/
def isComplete (code : PrefixCode) : Bool :=
  share longest code == 2 ^ longest

/-- Take the rest of a code word. Among the strings that are as long as what has been read, those that
    do not begin with a word are numbered in ascending order, and `offset` is the number of the one that
    has been read. With one more bit each of them has two continuations, of which the first ones are
    the words of that length. -/
def symbolFrom : PrefixCode → Nat → Decoder Nat
  | [], _ => throw .damaged
  | level :: deeper, offset => do
    let next ← bit
    let place := 2 * offset + next.toNat
    match level[place]? with
    | some symbol => return symbol
    | none => symbolFrom deeper (place - level.length)

/-- Take one code word and give its symbol. -/
def symbol (code : PrefixCode) : Decoder Nat :=
  symbolFrom code 0

end PrefixCode

end EvalCharts.Gzip
