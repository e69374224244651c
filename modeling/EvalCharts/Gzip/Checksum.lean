/-
Module: EvalCharts.Gzip.Checksum
Purpose: The cyclic redundancy check of 32 bits that gzip members carry.
Main exports: checksum
-/

namespace EvalCharts.Gzip

/-- Divide by `x` modulo the generator polynomial. The lowest bit stands for the highest power. -/
def divideByX (register : UInt32) : UInt32 :=
  if register % 2 = 1 then (register >>> 1) ^^^ 0xEDB88320 else register >>> 1

/-- Take one more byte into the register. -/
def absorb (register : UInt32) (byte : UInt8) : UInt32 :=
  Nat.repeat divideByX 8 (register ^^^ byte.toUInt32)

/-- The checksum of some bytes. The register is inverted before and after. -/
def checksum (bytes : List UInt8) : Nat :=
  (bytes.foldl absorb 0xFFFFFFFF ^^^ 0xFFFFFFFF).toNat

/-- The check value of the code, which is that of the nine digits from `1` to `9`. -/
example : checksum [0x31, 0x32, 0x33, 0x34, 0x35, 0x36, 0x37, 0x38, 0x39] = 0xCBF43926 := by
  decide +kernel

end EvalCharts.Gzip
