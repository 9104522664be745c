import Wikistream.Python.Json

/-!
# `Python.Sha256` — `hashlib.sha256(b).hexdigest()`

The message is padded to blocks of sixteen words. `compress` runs the sixty-four rounds over one block; the
message schedule is not stored but kept as a window of its next sixteen words.
-/

namespace Py
namespace Sha256

/-- The fractional parts of the cube roots of the first sixty-four primes. -/
def roundConstants : List UInt32 :=
  [0x428a2f98, 0x71374491, 0xb5c0fbcf, 0xe9b5dba5, 0x3956c25b, 0x59f111f1, 0x923f82a4, 0xab1c5ed5,
    0xd807aa98, 0x12835b01, 0x243185be, 0x550c7dc3, 0x72be5d74, 0x80deb1fe, 0x9bdc06a7, 0xc19bf174,
    0xe49b69c1, 0xefbe4786, 0x0fc19dc6, 0x240ca1cc, 0x2de92c6f, 0x4a7484aa, 0x5cb0a9dc, 0x76f988da,
    0x983e5152, 0xa831c66d, 0xb00327c8, 0xbf597fc7, 0xc6e00bf3, 0xd5a79147, 0x06ca6351, 0x14292967,
    0x27b70a85, 0x2e1b2138, 0x4d2c6dfc, 0x53380d13, 0x650a7354, 0x766a0abb, 0x81c2c92e, 0x92722c85,
    0xa2bfe8a1, 0xa81a664b, 0xc24b8b70, 0xc76c51a3, 0xd192e819, 0xd6990624, 0xf40e3585, 0x106aa070,
    0x19a4c116, 0x1e376c08, 0x2748774c, 0x34b0bcb5, 0x391c0cb3, 0x4ed8aa4a, 0x5b9cca4f, 0x682e6ff3,
    0x748f82ee, 0x78a5636f, 0x84c87814, 0x8cc70208, 0x90befffa, 0xa4506ceb, 0xbef9a3f7, 0xc67178f2]

/-- The eight words between two rounds. -/
structure Words where
  a : UInt32
  b : UInt32
  c : UInt32
  d : UInt32
  e : UInt32
  f : UInt32
  g : UInt32
  h : UInt32

def initial : Words :=
  ⟨0x6a09e667, 0xbb67ae85, 0x3c6ef372, 0xa54ff53a, 0x510e527f, 0x9b05688c, 0x1f83d9ab, 0x5be0cd19⟩

def Words.toList (s : Words) : List UInt32 := [s.a, s.b, s.c, s.d, s.e, s.f, s.g, s.h]

def Words.add (s t : Words) : Words :=
  ⟨s.a + t.a, s.b + t.b, s.c + t.c, s.d + t.d, s.e + t.e, s.f + t.f, s.g + t.g, s.h + t.h⟩

def rotr (x n : UInt32) : UInt32 := (x >>> n) ||| (x <<< (32 - n))

/-- The word that enters the schedule when the window's first one leaves it. -/
def nextWord (window : List UInt32) : UInt32 :=
  let x := window.getD 1 0
  let y := window.getD 14 0
  window.getD 0 0 + (rotr x 7 ^^^ rotr x 18 ^^^ (x >>> 3)) + window.getD 9 0 +
    (rotr y 17 ^^^ rotr y 19 ^^^ (y >>> 10))

/-- One round with the constant `k` and the schedule word `w`. -/
def round (s : Words) (k w : UInt32) : Words :=
  let t1 := s.h + (rotr s.e 6 ^^^ rotr s.e 11 ^^^ rotr s.e 25) + ((s.e &&& s.f) ^^^ (~~~s.e &&& s.g)) +
    k + w
  let t2 := (rotr s.a 2 ^^^ rotr s.a 13 ^^^ rotr s.a 22) +
    ((s.a &&& s.b) ^^^ (s.a &&& s.c) ^^^ (s.b &&& s.c))
  ⟨t1 + t2, s.a, s.b, s.c, s.d + t1, s.e, s.f, s.g⟩

/-- The rounds that are left, for a schedule whose next words are `window`. -/
def rounds : List UInt32 → Words → List UInt32 → Words
  | [], s, _ => s
  | k :: ks, s, window => rounds ks (round s k (window.getD 0 0)) (window.tail ++ [nextWord window])

def compress (s : Words) (block : List UInt32) : Words := s.add (rounds roundConstants s block)

/-- A big-endian number as `width` bytes. -/
def bigEndian : (width n : Nat) → Bytes
  | 0, _ => []
  | width + 1, n => bigEndian width (n / 256) ++ [UInt8.ofNat n]

/-- The message, a one bit, zeros up to the end of a block, and the message's length in bits. -/
def pad (message : Bytes) : Bytes :=
  message ++ 0x80 :: List.replicate ((119 - message.length % 64) % 64) 0 ++
    bigEndian 8 (message.length * 8)

/-- The big-endian words of a padded message. -/
def words : Bytes → List UInt32
  | b0 :: b1 :: b2 :: b3 :: rest =>
      UInt32.ofNat (((b0.toNat * 256 + b1.toNat) * 256 + b2.toNat) * 256 + b3.toNat) :: words rest
  | _ => []

/-- `blocks` blocks of sixteen words, one after the other. -/
def compressAll : (blocks : Nat) → Words → List UInt32 → Words
  | 0, s, _ => s
  | blocks + 1, s, ws => compressAll blocks (compress s (ws.take 16)) (ws.drop 16)

def digest (message : Bytes) : Bytes :=
  let ws := words (pad message)
  (compressAll (ws.length / 16) initial ws).toList.flatMap (fun w => bigEndian 4 w.toNat)

/-- `hashlib.sha256(message).hexdigest()`. -/
def hexdigest (message : Bytes) : Str :=
  (digest message).flatMap (fun b => [hexChr (b.toNat / 16), hexChr (b.toNat % 16)])

example : hexdigest [0x61, 0x62, 0x63] =
    lit "ba7816bf8f01cfea414140de5dae2223b00361a396177a9cb410ff61f20015ad" := by
  decide +kernel

end Sha256
end Py
