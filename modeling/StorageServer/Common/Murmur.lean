import Mathlib.Data.Nat.Notation

/-! The 32-bit hash of file names. Characters are signed and the words of a name are read in
little-endian order; `unsigned int` arithmetic is that of `UInt32`. -/
namespace StorageServer.Common

abbrev HashValue := UInt32

def defaultMm2HashSeed : HashValue := 0

/-- The multiplier `m` of the hash. -/
def murmurM : HashValue := 0x5bd1e995

/-- A `char` promoted to `int`, as the bits of the result. -/
def promoteChar (c : UInt8) : HashValue :=
  if c < 128 then c.toUInt32 else c.toUInt32 ||| 0xFFFFFF00

/-- Four characters read through an `unsigned int` pointer. -/
def loadWord (a b c d : UInt8) : HashValue :=
  a.toUInt32 ||| (b.toUInt32 <<< 8) ||| (c.toUInt32 <<< 16) ||| (d.toUInt32 <<< 24)

def mixWord (h k : HashValue) : HashValue :=
  let k := k * murmurM
  let k := k ^^^ (k >>> 24)
  let k := k * murmurM
  (h * murmurM) ^^^ k

/-- The word loop and the `switch` on the last characters, whose cases fall through. -/
def mixString (h : HashValue) : List UInt8 → HashValue
  | a::b::c::d::string => mixString (mixWord h (loadWord a b c d)) string
  | [a,b,c] =>
    (h ^^^ (promoteChar c <<< 16) ^^^ (promoteChar b <<< 8) ^^^ promoteChar a) * murmurM
  | [a,b] => (h ^^^ (promoteChar b <<< 8) ^^^ promoteChar a) * murmurM
  | [a] => (h ^^^ promoteChar a) * murmurM
  | [] => h

/-- The hash of a name. Its length is passed as an `int`; a negative one hashes nothing. -/
def hashString (string : List UInt8) : HashValue :=
  let len := UInt32.ofNat string.length
  let h := defaultMm2HashSeed ^^^ len
  let h := if len < 0x80000000 then mixString h (string.take len.toNat) else h
  let h := h ^^^ (h >>> 13)
  let h := h * murmurM
  h ^^^ (h >>> 15)

end StorageServer.Common
