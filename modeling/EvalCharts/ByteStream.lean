/-
Module: EvalCharts.ByteStream
Purpose: What reading a file yields: bytes, and possibly a failure where more bytes were expected.
Main exports: ByteStream, ByteStream.whole, ByteStream.broken
-/

namespace EvalCharts

/-- The bytes that can be read from somewhere, and why reading fails behind them, if it does. -/
structure ByteStream where
  bytes : List UInt8
  failure? : Option String
deriving DecidableEq, Repr

/-- A stream that ends where its content ends. -/
def ByteStream.whole (bytes : List UInt8) : ByteStream := ⟨bytes, none⟩

/-- A stream that fails behind the given bytes. -/
def ByteStream.broken (bytes : List UInt8) (failure : String) : ByteStream := ⟨bytes, some failure⟩

end EvalCharts
