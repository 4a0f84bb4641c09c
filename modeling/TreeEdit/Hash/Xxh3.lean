/-!
# The XXH3 hash of a byte string

The 64-bit variant with seed zero and the standard secret. Short inputs of up to 16 bytes are
mixed directly; up to 240 bytes are folded sixteen at a time against the secret; anything longer
runs through eight accumulators over stripes of 64 bytes, scrambled after every block of sixteen
stripes. All arithmetic is modulo 2^64.
-/

namespace TreeEdit.Xxh3

/-- The standard secret, 192 bytes. -/
def secret : Array UInt8 := #[
  0xb8, 0xfe, 0x6c, 0x39, 0x23, 0xa4, 0x4b, 0xbe, 0x7c, 0x01, 0x81, 0x2c, 0xf7, 0x21, 0xad, 0x1c,
  0xde, 0xd4, 0x6d, 0xe9, 0x83, 0x90, 0x97, 0xdb, 0x72, 0x40, 0xa4, 0xa4, 0xb7, 0xb3, 0x67, 0x1f,
  0xcb, 0x79, 0xe6, 0x4e, 0xcc, 0xc0, 0xe5, 0x78, 0x82, 0x5a, 0xd0, 0x7d, 0xcc, 0xff, 0x72, 0x21,
  0xb8, 0x08, 0x46, 0x74, 0xf7, 0x43, 0x24, 0x8e, 0xe0, 0x35, 0x90, 0xe6, 0x81, 0x3a, 0x26, 0x4c,
  0x3c, 0x28, 0x52, 0xbb, 0x91, 0xc3, 0x00, 0xcb, 0x88, 0xd0, 0x65, 0x8b, 0x1b, 0x53, 0x2e, 0xa3,
  0x71, 0x64, 0x48, 0x97, 0xa2, 0x0d, 0xf9, 0x4e, 0x38, 0x19, 0xef, 0x46, 0xa9, 0xde, 0xac, 0xd8,
  0xa8, 0xfa, 0x76, 0x3f, 0xe3, 0x9c, 0x34, 0x3f, 0xf9, 0xdc, 0xbb, 0xc7, 0xc7, 0x0b, 0x4f, 0x1d,
  0x8a, 0x51, 0xe0, 0x4b, 0xcd, 0xb4, 0x59, 0x31, 0xc8, 0x9f, 0x7e, 0xc9, 0xd9, 0x78, 0x73, 0x64,
  0xea, 0xc5, 0xac, 0x83, 0x34, 0xd3, 0xeb, 0xc3, 0xc5, 0x81, 0xa0, 0xff, 0xfa, 0x13, 0x63, 0xeb,
  0x17, 0x0d, 0xdd, 0x51, 0xb7, 0xf0, 0xda, 0x49, 0xd3, 0x16, 0x55, 0x26, 0x29, 0xd4, 0x68, 0x9e,
  0x2b, 0x16, 0xbe, 0x58, 0x7d, 0x47, 0xa1, 0xfc, 0x8f, 0xf8, 0xb8, 0xd1, 0x7a, 0xd0, 0x31, 0xce,
  0x45, 0xcb, 0x3a, 0x8f, 0x95, 0x16, 0x04, 0x28, 0xaf, 0xd7, 0xfb, 0xca, 0xbb, 0x4b, 0x40, 0x7e]

def prime32a : UInt64 := 0x9E3779B1
def prime32b : UInt64 := 0x85EBCA77
def prime32c : UInt64 := 0xC2B2AE3D
def prime64a : UInt64 := 0x9E3779B185EBCA87
def prime64b : UInt64 := 0xC2B2AE3D27D4EB4F
def prime64c : UInt64 := 0x165667B19E3779F9
def prime64d : UInt64 := 0x85EBCA77C2B2AE63
def prime64e : UInt64 := 0x27D4EB2F165667C5
def mixer : UInt64 := 0x165667919E3779F9
def shortMixer : UInt64 := 0x9FB21C651E98DF25

/-- The byte at an index, zero beyond the end, as a word. -/
def byteAt (bytes : Array UInt8) (i : Nat) : UInt64 := (bytes.getD i 0).toUInt64

/-- The four bytes from an index on, least significant first. -/
def read32 (bytes : Array UInt8) (i : Nat) : UInt64 :=
  byteAt bytes i ||| (byteAt bytes (i + 1) <<< 8) ||| (byteAt bytes (i + 2) <<< 16) |||
    (byteAt bytes (i + 3) <<< 24)

/-- The eight bytes from an index on, least significant first. -/
def read64 (bytes : Array UInt8) (i : Nat) : UInt64 :=
  read32 bytes i ||| (read32 bytes (i + 4) <<< 32)

/-- A word of the secret. -/
def key (i : Nat) : UInt64 := read64 secret i

/-- Rotation to the left by `k` bits, for `0 < k < 64`. -/
def rotateLeft (x : UInt64) (k : UInt64) : UInt64 := (x <<< k) ||| (x >>> (64 - k))

/-- The eight bytes of a word in reverse order. -/
def swapBytes (x : UInt64) : UInt64 :=
  (List.range 8).foldl (fun acc i => (acc <<< 8) ||| ((x >>> (8 * i).toUInt64) &&& 0xFF)) 0

/-- The 128-bit product of two words, its halves combined by exclusive or. -/
def foldedProduct (x y : UInt64) : UInt64 :=
  let product := x.toNat * y.toNat
  product.toUInt64 ^^^ (product >>> 64).toUInt64

/-- The final mix of inputs of up to three bytes. -/
def avalancheShort (h : UInt64) : UInt64 :=
  let h := (h ^^^ (h >>> 33)) * prime64b
  let h := (h ^^^ (h >>> 29)) * prime64c
  h ^^^ (h >>> 32)

/-- The final mix of inputs of nine bytes or more. -/
def avalanche (h : UInt64) : UInt64 :=
  let h := (h ^^^ (h >>> 37)) * mixer
  h ^^^ (h >>> 32)

/-- The final mix of inputs of four to eight bytes. -/
def avalancheSized (h : UInt64) (size : Nat) : UInt64 :=
  let h := (h ^^^ rotateLeft h 49 ^^^ rotateLeft h 24) * shortMixer
  let h := (h ^^^ ((h >>> 35) + size.toUInt64)) * shortMixer
  h ^^^ (h >>> 28)

/-- Sixteen bytes of the input mixed with sixteen bytes of the secret. -/
def mixPair (bytes : Array UInt8) (i k : Nat) : UInt64 :=
  foldedProduct (read64 bytes i ^^^ key k) (read64 bytes (i + 8) ^^^ key (k + 8))

/-- Inputs of one to three bytes. -/
def hashTiny (bytes : Array UInt8) : UInt64 :=
  let size := bytes.size
  let combined := (byteAt bytes 0 <<< 16) ||| (byteAt bytes (size / 2) <<< 24) |||
    byteAt bytes (size - 1) ||| (size.toUInt64 <<< 8)
  avalancheShort (combined ^^^ (read32 secret 0 ^^^ read32 secret 4))

/-- Inputs of four to eight bytes. -/
def hashSmall (bytes : Array UInt8) : UInt64 :=
  let size := bytes.size
  let joined := read32 bytes (size - 4) + (read32 bytes 0 <<< 32)
  avalancheSized (joined ^^^ (key 8 ^^^ key 16)) size

/-- Inputs of nine to sixteen bytes. -/
def hashMedium (bytes : Array UInt8) : UInt64 :=
  let size := bytes.size
  let low := read64 bytes 0 ^^^ (key 24 ^^^ key 32)
  let high := read64 bytes (size - 8) ^^^ (key 40 ^^^ key 48)
  avalanche (size.toUInt64 + swapBytes low + high + foldedProduct low high)

/-- Inputs of 17 to 128 bytes: pairs from both ends towards the middle. -/
def hashPairs (bytes : Array UInt8) : UInt64 :=
  let size := bytes.size
  let rounds := (size - 1) / 32 + 1
  avalanche ((List.range rounds).foldl
    (fun acc r => acc + mixPair bytes (16 * r) (32 * r) +
      mixPair bytes (size - 16 * (r + 1)) (32 * r + 16))
    (size.toUInt64 * prime64a))

/-- Inputs of 129 to 240 bytes. -/
def hashRounds (bytes : Array UInt8) : UInt64 :=
  let size := bytes.size
  let first := avalanche ((List.range 8).foldl
    (fun acc r => acc + mixPair bytes (16 * r) (16 * r)) (size.toUInt64 * prime64a))
  let rest := (List.range (size / 16 - 8)).foldl
    (fun acc r => acc + mixPair bytes (16 * (r + 8)) (16 * r + 3)) first
  avalanche (rest + mixPair bytes (size - 16) 119)

/-- The eight accumulators of a long input. -/
structure Lanes where
  a0 : UInt64
  a1 : UInt64
  a2 : UInt64
  a3 : UInt64
  a4 : UInt64
  a5 : UInt64
  a6 : UInt64
  a7 : UInt64

namespace Lanes

def start : Lanes :=
  ⟨prime32c, prime64a, prime64b, prime64c, prime64d, prime32b, prime64e, prime32a⟩

/-- The product of the two halves of a keyed word. -/
def halves (x : UInt64) : UInt64 := (x &&& (0xFFFFFFFF : UInt64)) * (x >>> (32 : UInt64))

/-- One stripe of 64 bytes: each word is added to its neighbour's lane, and the product of the
halves of the keyed word to its own. -/
def accumulate (l : Lanes) (bytes : Array UInt8) (i k : Nat) : Lanes :=
  let word (j : Nat) : UInt64 := read64 bytes (i + 8 * j)
  let keyed (j : Nat) : UInt64 := halves (word j ^^^ key (k + 8 * j))
  ⟨l.a0 + word 1 + keyed 0, l.a1 + word 0 + keyed 1,
   l.a2 + word 3 + keyed 2, l.a3 + word 2 + keyed 3,
   l.a4 + word 5 + keyed 4, l.a5 + word 4 + keyed 5,
   l.a6 + word 7 + keyed 6, l.a7 + word 6 + keyed 7⟩

/-- The scrambling after a full block. -/
def scramble (l : Lanes) : Lanes :=
  let lane (j : Nat) (x : UInt64) : UInt64 := ((x ^^^ (x >>> 47)) ^^^ key (128 + 8 * j)) * prime32a
  ⟨lane 0 l.a0, lane 1 l.a1, lane 2 l.a2, lane 3 l.a3,
   lane 4 l.a4, lane 5 l.a5, lane 6 l.a6, lane 7 l.a7⟩

/-- Several stripes in a row, each against the secret eight bytes further on. -/
def stripes (l : Lanes) (bytes : Array UInt8) (i count : Nat) : Lanes :=
  (List.range count).foldl (fun l r => l.accumulate bytes (i + 64 * r) (8 * r)) l

/-- The accumulators merged into one word. -/
def merge (l : Lanes) (size : Nat) : UInt64 :=
  avalanche (size.toUInt64 * prime64a +
    foldedProduct (l.a0 ^^^ key 11) (l.a1 ^^^ key 19) +
    foldedProduct (l.a2 ^^^ key 27) (l.a3 ^^^ key 35) +
    foldedProduct (l.a4 ^^^ key 43) (l.a5 ^^^ key 51) +
    foldedProduct (l.a6 ^^^ key 59) (l.a7 ^^^ key 67))

end Lanes

/-- Inputs of more than 240 bytes. -/
def hashLong (bytes : Array UInt8) : UInt64 :=
  let size := bytes.size
  let blocks := (size - 1) / 1024
  let full := (List.range blocks).foldl
    (fun l b => (l.stripes bytes (1024 * b) 16).scramble) Lanes.start
  let rest := full.stripes bytes (1024 * blocks) ((size - 1 - 1024 * blocks) / 64)
  (rest.accumulate bytes (size - 64) 121).merge size

/-- The hash of a byte string. Nothing that is said of fingerprints depends on how it is worked out. -/
@[irreducible] def hash (input : List UInt8) : UInt64 :=
  let bytes := input.toArray
  if bytes.size = 0 then avalancheShort (key 56 ^^^ key 64)
  else if bytes.size ≤ 3 then hashTiny bytes
  else if bytes.size ≤ 8 then hashSmall bytes
  else if bytes.size ≤ 16 then hashMedium bytes
  else if bytes.size ≤ 128 then hashPairs bytes
  else if bytes.size ≤ 240 then hashRounds bytes
  else hashLong bytes

end TreeEdit.Xxh3
