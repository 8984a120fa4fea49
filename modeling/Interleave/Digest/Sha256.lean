set_option autoImplicit false

namespace Interleave.Sha256

structure Chain where
  a : UInt32
  b : UInt32
  c : UInt32
  d : UInt32
  e : UInt32
  f : UInt32
  g : UInt32
  h : UInt32

/-- Fractional parts of the square roots of the first eight primes. -/
def initial : Chain :=
  ⟨0x6a09e667, 0xbb67ae85, 0x3c6ef372, 0xa54ff53a, 0x510e527f, 0x9b05688c, 0x1f83d9ab, 0x5be0cd19⟩

/-- Fractional parts of the cube roots of the first 64 primes. -/
def roundConstants : Array UInt32 := #[
  0x428a2f98, 0x71374491, 0xb5c0fbcf, 0xe9b5dba5, 0x3956c25b, 0x59f111f1, 0x923f82a4, 0xab1c5ed5,
  0xd807aa98, 0x12835b01, 0x243185be, 0x550c7dc3, 0x72be5d74, 0x80deb1fe, 0x9bdc06a7, 0xc19bf174,
  0xe49b69c1, 0xefbe4786, 0x0fc19dc6, 0x240ca1cc, 0x2de92c6f, 0x4a7484aa, 0x5cb0a9dc, 0x76f988da,
  0x983e5152, 0xa831c66d, 0xb00327c8, 0xbf597fc7, 0xc6e00bf3, 0xd5a79147, 0x06ca6351, 0x14292967,
  0x27b70a85, 0x2e1b2138, 0x4d2c6dfc, 0x53380d13, 0x650a7354, 0x766a0abb, 0x81c2c92e, 0x92722c85,
  0xa2bfe8a1, 0xa81a664b, 0xc24b8b70, 0xc76c51a3, 0xd192e819, 0xd6990624, 0xf40e3585, 0x106aa070,
  0x19a4c116, 0x1e376c08, 0x2748774c, 0x34b0bcb5, 0x391c0cb3, 0x4ed8aa4a, 0x5b9cca4f, 0x682e6ff3,
  0x748f82ee, 0x78a5636f, 0x84c87814, 0x8cc70208, 0x90befffa, 0xa4506ceb, 0xbef9a3f7, 0xc67178f2]

def rotr (x : UInt32) (n : UInt32) : UInt32 := (x >>> n) ||| (x <<< (32 - n))

def nextWord (w16 w15 w7 w2 : UInt32) : UInt32 :=
  let s0 := rotr w15 7 ^^^ rotr w15 18 ^^^ (w15 >>> 3)
  let s1 := rotr w2 17 ^^^ rotr w2 19 ^^^ (w2 >>> 10)
  w16 + s0 + w7 + s1

def schedule (block : Array UInt32) : Array UInt32 :=
  (List.range 48).foldl
    (fun w i =>
      w.push (nextWord (w.getD i 0) (w.getD (i + 1) 0) (w.getD (i + 9) 0) (w.getD (i + 14) 0)))
    block

def mixRound (s : Chain) (k w : UInt32) : Chain :=
  let s1 := rotr s.e 6 ^^^ rotr s.e 11 ^^^ rotr s.e 25
  let choice := (s.e &&& s.f) ^^^ (~~~s.e &&& s.g)
  let t1 := s.h + s1 + choice + k + w
  let s0 := rotr s.a 2 ^^^ rotr s.a 13 ^^^ rotr s.a 22
  let majority := (s.a &&& s.b) ^^^ (s.a &&& s.c) ^^^ (s.b &&& s.c)
  ⟨t1 + (s0 + majority), s.a, s.b, s.c, s.d + t1, s.e, s.f, s.g⟩

def compress (chain : Chain) (block : Array UInt32) : Chain :=
  let w := schedule block
  let r := (List.range 64).foldl
    (fun s i => mixRound s (roundConstants.getD i 0) (w.getD i 0)) chain
  ⟨chain.a + r.a, chain.b + r.b, chain.c + r.c, chain.d + r.d,
    chain.e + r.e, chain.f + r.f, chain.g + r.g, chain.h + r.h⟩

def bigEndian (count n : Nat) : List UInt8 :=
  (List.range count).map fun i => UInt8.ofNat (n / Nat.pow 256 (count - 1 - i))

def pad (message : ByteArray) : ByteArray :=
  let zeros := (119 - message.size % 64) % 64
  let tail := 0x80 :: List.replicate zeros 0 ++ bigEndian 8 (8 * message.size)
  tail.foldl ByteArray.push message

def byteAt (bytes : ByteArray) (i : Nat) : UInt32 :=
  if h : i < bytes.size then bytes[i].toUInt32 else 0

def wordAt (bytes : ByteArray) (i : Nat) : UInt32 :=
  (byteAt bytes i <<< 24) ||| (byteAt bytes (i + 1) <<< 16)
    ||| (byteAt bytes (i + 2) <<< 8) ||| byteAt bytes (i + 3)

def block (bytes : ByteArray) (i : Nat) : Array UInt32 :=
  (Array.range 16).map fun j => wordAt bytes (64 * i + 4 * j)

def chain (message : ByteArray) : Chain :=
  let padded := pad message
  (List.range (padded.size / 64)).foldl (fun s i => compress s (block padded i)) initial

def digest (message : ByteArray) : ByteArray :=
  let s := chain message
  [s.a, s.b, s.c, s.d, s.e, s.f, s.g, s.h].foldl
    (fun out word => (bigEndian 4 word.toNat).foldl ByteArray.push out) ByteArray.empty

end Interleave.Sha256
