import WalletExchange.Bytes

/-!
# SHA-2

One algorithm, generic in the width of its words: `Sha2.sha256` and `Sha2.sha512` differ in the
number of bits of a word, the rotation amounts, the round constants and the initial registers.
`hmacSha512` is the keyed digest built from the wider of the two.
-/

namespace WalletExchange

namespace Sha2

/-- The eight registers of the compression function. -/
structure Registers (w : Nat) where
  a : BitVec w
  b : BitVec w
  c : BitVec w
  d : BitVec w
  e : BitVec w
  f : BitVec w
  g : BitVec w
  h : BitVec w

/-- What tells one member of the family from another. -/
structure Variant (w : Nat) where
  /-- Registers before the first block. -/
  initial : Registers w
  /-- One constant for each round. -/
  constants : List (BitVec w)
  /-- The three rotations mixed into the first sum. -/
  sumA : Nat × Nat × Nat
  /-- The three rotations mixed into the second sum. -/
  sumE : Nat × Nat × Nat
  /-- Two rotations and a shift for the word fifteen places back in the schedule. -/
  scheduleFar : Nat × Nat × Nat
  /-- Two rotations and a shift for the word two places back in the schedule. -/
  scheduleNear : Nat × Nat × Nat

/-- Exclusive or of three rotations. -/
def rotations {w : Nat} (amounts : Nat × Nat × Nat) (x : BitVec w) : BitVec w :=
  x.rotateRight amounts.1 ^^^ x.rotateRight amounts.2.1 ^^^ x.rotateRight amounts.2.2

/-- Exclusive or of two rotations and a shift. -/
def rotationsAndShift {w : Nat} (amounts : Nat × Nat × Nat) (x : BitVec w) : BitVec w :=
  x.rotateRight amounts.1 ^^^ x.rotateRight amounts.2.1 ^^^ x >>> amounts.2.2

/-- One round, with the schedule word and the round constant already added up. -/
def round {w : Nat} (v : Variant w) (r : Registers w) (input : BitVec w) : Registers w :=
  let choice := (r.e &&& r.f) ^^^ (~~~r.e &&& r.g)
  let majority := (r.a &&& r.b) ^^^ (r.a &&& r.c) ^^^ (r.b &&& r.c)
  let first := r.h + rotations v.sumE r.e + choice + input
  let second := rotations v.sumA r.a + majority
  ⟨first + second, r.a, r.b, r.c, r.d + first, r.e, r.f, r.g⟩

/-- The schedule seen through a window of sixteen words: drop the oldest, append the next. -/
def advance {w : Nat} (v : Variant w) (window : List (BitVec w)) : List (BitVec w) :=
  let next := rotationsAndShift v.scheduleNear (window.getD 14 0) + window.getD 9 0 +
    rotationsAndShift v.scheduleFar (window.getD 1 0) + window.getD 0 0
  window.tail ++ [next]

/-- Add the registers of two states word by word. -/
def Registers.add {w : Nat} (x y : Registers w) : Registers w :=
  ⟨x.a + y.a, x.b + y.b, x.c + y.c, x.d + y.d, x.e + y.e, x.f + y.f, x.g + y.g, x.h + y.h⟩

/-- The registers in order. -/
def Registers.toList {w : Nat} (r : Registers w) : List (BitVec w) :=
  [r.a, r.b, r.c, r.d, r.e, r.f, r.g, r.h]

/-- Absorb one block of sixteen words. -/
def compress {w : Nat} (v : Variant w) (state : Registers w) (block : List (BitVec w)) :
    Registers w :=
  let final := v.constants.foldl
    (fun (window, r) constant => (advance v window, round v r (window.getD 0 0 + constant)))
    (block, state)
  state.add final.2

/-- The message, a bit that is set, zeros up to a whole number of blocks, and the length in bits. -/
def pad (w : Nat) (message : Bytes) : Bytes :=
  let block := 2 * w
  let used := message.length + 1 + w / 4
  message ++ 0x80 :: List.replicate ((block - used % block) % block) 0 ++
    Bytes.ofNat (w / 4) (8 * message.length)

/-- The digest of a message: all eight registers after the last block. -/
def digest {w : Nat} (v : Variant w) (message : Bytes) : Block (8 * (w / 8)) :=
  let words := (chunks (w / 8) (pad w message)).map fun word => BitVec.ofNat w (Bytes.toNat word)
  let final := (chunks 16 words).foldl (compress v) v.initial
  ⟨final.toList.flatMap fun word => Bytes.ofNat (w / 8) word.toNat, by
    simp only [Registers.toList, List.length_flatMap, List.map_cons, List.map_nil,
      Bytes.length_ofNat, List.sum_cons, List.sum_nil]
    omega⟩

/-- The variant with words of 32 bits. -/
def variant256 : Variant 32 where
  initial := ⟨
    0x6a09e667, 0xbb67ae85, 0x3c6ef372, 0xa54ff53a,
    0x510e527f, 0x9b05688c, 0x1f83d9ab, 0x5be0cd19⟩
  constants := [
    0x428a2f98, 0x71374491, 0xb5c0fbcf, 0xe9b5dba5, 0x3956c25b, 0x59f111f1, 0x923f82a4,
    0xab1c5ed5, 0xd807aa98, 0x12835b01, 0x243185be, 0x550c7dc3, 0x72be5d74, 0x80deb1fe,
    0x9bdc06a7, 0xc19bf174, 0xe49b69c1, 0xefbe4786, 0x0fc19dc6, 0x240ca1cc, 0x2de92c6f,
    0x4a7484aa, 0x5cb0a9dc, 0x76f988da, 0x983e5152, 0xa831c66d, 0xb00327c8, 0xbf597fc7,
    0xc6e00bf3, 0xd5a79147, 0x06ca6351, 0x14292967, 0x27b70a85, 0x2e1b2138, 0x4d2c6dfc,
    0x53380d13, 0x650a7354, 0x766a0abb, 0x81c2c92e, 0x92722c85, 0xa2bfe8a1, 0xa81a664b,
    0xc24b8b70, 0xc76c51a3, 0xd192e819, 0xd6990624, 0xf40e3585, 0x106aa070, 0x19a4c116,
    0x1e376c08, 0x2748774c, 0x34b0bcb5, 0x391c0cb3, 0x4ed8aa4a, 0x5b9cca4f, 0x682e6ff3,
    0x748f82ee, 0x78a5636f, 0x84c87814, 0x8cc70208, 0x90befffa, 0xa4506ceb, 0xbef9a3f7,
    0xc67178f2]
  sumA := (2, 13, 22)
  sumE := (6, 11, 25)
  scheduleFar := (7, 18, 3)
  scheduleNear := (17, 19, 10)

/-- The variant with words of 64 bits. -/
def variant512 : Variant 64 where
  initial := ⟨
    0x6a09e667f3bcc908, 0xbb67ae8584caa73b,
    0x3c6ef372fe94f82b, 0xa54ff53a5f1d36f1,
    0x510e527fade682d1, 0x9b05688c2b3e6c1f,
    0x1f83d9abfb41bd6b, 0x5be0cd19137e2179⟩
  constants := [
    0x428a2f98d728ae22, 0x7137449123ef65cd, 0xb5c0fbcfec4d3b2f, 0xe9b5dba58189dbbc,
    0x3956c25bf348b538, 0x59f111f1b605d019, 0x923f82a4af194f9b, 0xab1c5ed5da6d8118,
    0xd807aa98a3030242, 0x12835b0145706fbe, 0x243185be4ee4b28c, 0x550c7dc3d5ffb4e2,
    0x72be5d74f27b896f, 0x80deb1fe3b1696b1, 0x9bdc06a725c71235, 0xc19bf174cf692694,
    0xe49b69c19ef14ad2, 0xefbe4786384f25e3, 0x0fc19dc68b8cd5b5, 0x240ca1cc77ac9c65,
    0x2de92c6f592b0275, 0x4a7484aa6ea6e483, 0x5cb0a9dcbd41fbd4, 0x76f988da831153b5,
    0x983e5152ee66dfab, 0xa831c66d2db43210, 0xb00327c898fb213f, 0xbf597fc7beef0ee4,
    0xc6e00bf33da88fc2, 0xd5a79147930aa725, 0x06ca6351e003826f, 0x142929670a0e6e70,
    0x27b70a8546d22ffc, 0x2e1b21385c26c926, 0x4d2c6dfc5ac42aed, 0x53380d139d95b3df,
    0x650a73548baf63de, 0x766a0abb3c77b2a8, 0x81c2c92e47edaee6, 0x92722c851482353b,
    0xa2bfe8a14cf10364, 0xa81a664bbc423001, 0xc24b8b70d0f89791, 0xc76c51a30654be30,
    0xd192e819d6ef5218, 0xd69906245565a910, 0xf40e35855771202a, 0x106aa07032bbd1b8,
    0x19a4c116b8d2d0c8, 0x1e376c085141ab53, 0x2748774cdf8eeb99, 0x34b0bcb5e19b48a8,
    0x391c0cb3c5c95a63, 0x4ed8aa4ae3418acb, 0x5b9cca4f7763e373, 0x682e6ff3d6b2b8a3,
    0x748f82ee5defb2fc, 0x78a5636f43172f60, 0x84c87814a1f0ab72, 0x8cc702081a6439ec,
    0x90befffa23631e28, 0xa4506cebde82bde9, 0xbef9a3f7b2c67915, 0xc67178f2e372532b,
    0xca273eceea26619c, 0xd186b8c721c0c207, 0xeada7dd6cde0eb1e, 0xf57d4f7fee6ed178,
    0x06f067aa72176fba, 0x0a637dc5a2c898a6, 0x113f9804bef90dae, 0x1b710b35131c471b,
    0x28db77f523047d84, 0x32caab7b40c72493, 0x3c9ebe0a15c9bebc, 0x431d67c49c100d4c,
    0x4cc5d4becb3e42b6, 0x597f299cfc657e2a, 0x5fcb6fab3ad6faec, 0x6c44198c4a475817]
  sumA := (28, 34, 39)
  sumE := (14, 18, 41)
  scheduleFar := (1, 8, 7)
  scheduleNear := (19, 61, 6)

/-- SHA-256. -/
def sha256 (message : Bytes) : Block 32 := digest variant256 message

/-- SHA-512. -/
def sha512 (message : Bytes) : Block 64 := digest variant512 message

/-- SHA-256 of the SHA-256 digest. -/
def sha256d (message : Bytes) : Block 32 := sha256 (sha256 message).bytes

/-- A key of the length of a block: a longer one is digested, a shorter one is filled with zeros. -/
def blockKey512 (key : Bytes) : Bytes :=
  let key := if key.length > 128 then (sha512 key).bytes else key
  key ++ List.replicate (128 - key.length) 0

/-- HMAC with SHA-512. -/
def hmacSha512 (key message : Bytes) : Block 64 :=
  let key := blockKey512 key
  sha512 (key.map (· ^^^ 0x5c) ++ (sha512 (key.map (· ^^^ 0x36) ++ message)).bytes)

end Sha2

end WalletExchange
