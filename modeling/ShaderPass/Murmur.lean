import ShaderPass.Text.Basic

/-!
The 32-bit Murmur2 hash, which keys compiled passes.

Four bytes at a time are read with the least significant byte first, mixed by odd multiplications and
shifted differences, and folded into the state; up to three bytes are left for the end.
-/
namespace ShaderPass.Murmur

def multiplier : UInt32 := 0x5bd1e995

def xorShift (n h : UInt32) : UInt32 :=
  h ^^^ (h >>> n)

def word (a b c d : UInt8) : UInt32 :=
  a.toUInt32 ||| (b.toUInt32 <<< 8) ||| (c.toUInt32 <<< 16) ||| (d.toUInt32 <<< 24)

def mix (h k : UInt32) : UInt32 :=
  (h * multiplier) ^^^ (xorShift 24 (k * multiplier) * multiplier)

def absorb (h : UInt32) : List UInt8 → UInt32
  | a :: b :: c :: d :: rest => absorb (mix h (word a b c d)) rest
  | [a, b, c] => (h ^^^ (c.toUInt32 <<< 16) ^^^ (b.toUInt32 <<< 8) ^^^ a.toUInt32) * multiplier
  | [a, b] => (h ^^^ (b.toUInt32 <<< 8) ^^^ a.toUInt32) * multiplier
  | [a] => (h ^^^ a.toUInt32) * multiplier
  | [] => h

def finish (h : UInt32) : UInt32 :=
  xorShift 15 (xorShift 13 h * multiplier)

def hash (bytes : List UInt8) (seed : UInt32) : UInt32 :=
  finish (absorb (seed ^^^ bytes.length.toUInt32) bytes)

def passSeed : UInt32 := 666

def utf8 (t : Text) : List UInt8 :=
  t.flatMap String.utf8EncodeChar

def hashSources (sources : List Text) : UInt32 :=
  hash (utf8 sources.flatten) passSeed

end ShaderPass.Murmur
