import WalletExchange.Bytes

/-!
# RIPEMD-160

Two lines of eighty rounds run over the same block of sixteen little-endian words, and their
results are added crosswise to the registers.
-/

namespace WalletExchange

namespace Ripemd160

/-- The five registers. -/
structure Registers where
  a : BitVec 32
  b : BitVec 32
  c : BitVec 32
  d : BitVec 32
  e : BitVec 32

/-- Registers before the first block. -/
def initial : Registers := ⟨0x67452301, 0xefcdab89, 0x98badcfe, 0x10325476, 0xc3d2e1f0⟩

/-- The five Boolean functions of the rounds. -/
inductive Mixer where
  | parity
  | choice
  | orNot
  | choiceBack
  | notOr

/-- What a Boolean function makes of three registers. -/
def Mixer.apply (m : Mixer) (x y z : BitVec 32) : BitVec 32 :=
  match m with
  | .parity => x ^^^ y ^^^ z
  | .choice => (x &&& y) ||| (~~~x &&& z)
  | .orNot => (x ||| ~~~y) ^^^ z
  | .choiceBack => (x &&& z) ||| (y &&& ~~~z)
  | .notOr => x ^^^ (y ||| ~~~z)

/-- Sixteen rounds with one Boolean function and one constant. -/
structure Phase where
  mixer : Mixer
  constant : BitVec 32
  /-- Which word of the block each round takes, and how far it rotates. -/
  schedule : List (Nat × Nat)

/-- One round on a line. -/
def round (phase : Phase) (block : List (BitVec 32)) (r : Registers) (step : Nat × Nat) :
    Registers :=
  let mixed := r.a + phase.mixer.apply r.b r.c r.d + block.getD step.1 0 + phase.constant
  ⟨r.e, mixed.rotateLeft step.2 + r.e, r.b, r.c.rotateLeft 10, r.d⟩

/-- The left line. -/
def leftLine : List Phase :=
  [⟨.parity, 0x00000000, [(0, 11), (1, 14), (2, 15), (3, 12), (4, 5), (5, 8), (6, 7), (7, 9),
      (8, 11), (9, 13), (10, 14), (11, 15), (12, 6), (13, 7), (14, 9), (15, 8)]⟩,
   ⟨.choice, 0x5a827999, [(7, 7), (4, 6), (13, 8), (1, 13), (10, 11), (6, 9), (15, 7), (3, 15),
      (12, 7), (0, 12), (9, 15), (5, 9), (2, 11), (14, 7), (11, 13), (8, 12)]⟩,
   ⟨.orNot, 0x6ed9eba1, [(3, 11), (10, 13), (14, 6), (4, 7), (9, 14), (15, 9), (8, 13), (1, 15),
      (2, 14), (7, 8), (0, 13), (6, 6), (13, 5), (11, 12), (5, 7), (12, 5)]⟩,
   ⟨.choiceBack, 0x8f1bbcdc, [(1, 11), (9, 12), (11, 14), (10, 15), (0, 14), (8, 15), (12, 9),
      (4, 8), (13, 9), (3, 14), (7, 5), (15, 6), (14, 8), (5, 6), (6, 5), (2, 12)]⟩,
   ⟨.notOr, 0xa953fd4e, [(4, 9), (0, 15), (5, 5), (9, 11), (7, 6), (12, 8), (2, 13), (10, 12),
      (14, 5), (1, 12), (3, 13), (8, 14), (11, 11), (6, 8), (15, 5), (13, 6)]⟩]

/-- The right line. -/
def rightLine : List Phase :=
  [⟨.notOr, 0x50a28be6, [(5, 8), (14, 9), (7, 9), (0, 11), (9, 13), (2, 15), (11, 15), (4, 5),
      (13, 7), (6, 7), (15, 8), (8, 11), (1, 14), (10, 14), (3, 12), (12, 6)]⟩,
   ⟨.choiceBack, 0x5c4dd124, [(6, 9), (11, 13), (3, 15), (7, 7), (0, 12), (13, 8), (5, 9), (10, 11),
      (14, 7), (15, 7), (8, 12), (12, 7), (4, 6), (9, 15), (1, 13), (2, 11)]⟩,
   ⟨.orNot, 0x6d703ef3, [(15, 9), (5, 7), (1, 15), (3, 11), (7, 8), (14, 6), (6, 6), (9, 14),
      (11, 12), (8, 13), (12, 5), (2, 14), (10, 13), (0, 13), (4, 7), (13, 5)]⟩,
   ⟨.choice, 0x7a6d76e9, [(8, 15), (6, 5), (4, 8), (1, 11), (3, 14), (11, 14), (15, 6), (0, 14),
      (5, 6), (12, 9), (2, 12), (13, 9), (9, 12), (7, 5), (10, 15), (14, 8)]⟩,
   ⟨.parity, 0x00000000, [(12, 8), (15, 5), (10, 12), (4, 9), (1, 12), (5, 5), (8, 14), (7, 6),
      (6, 8), (2, 13), (13, 6), (14, 5), (0, 15), (3, 13), (9, 11), (11, 11)]⟩]

/-- Run one line over a block. -/
def runLine (line : List Phase) (block : List (BitVec 32)) (r : Registers) : Registers :=
  line.foldl (fun r phase => phase.schedule.foldl (round phase block) r) r

/-- Absorb one block of sixteen words. -/
def compress (r : Registers) (block : List (BitVec 32)) : Registers :=
  let x := runLine leftLine block r
  let y := runLine rightLine block r
  ⟨r.b + x.c + y.d, r.c + x.d + y.e, r.d + x.e + y.a, r.e + x.a + y.b, r.a + x.b + y.c⟩

/-- The message, a bit that is set, zeros up to a whole number of blocks, and the length in bits,
least significant byte first. -/
def pad (message : Bytes) : Bytes :=
  message ++ 0x80 :: List.replicate ((64 - (message.length + 9) % 64) % 64) 0 ++
    (Bytes.ofNat 8 (8 * message.length)).reverse

/-- The registers in order. -/
def Registers.toList (r : Registers) : List (BitVec 32) := [r.a, r.b, r.c, r.d, r.e]

/-- The digest of a message. -/
def digest (message : Bytes) : Block 20 :=
  let words := (chunks 4 (pad message)).map fun word => BitVec.ofNat 32 (Bytes.toNat word.reverse)
  let final := (chunks 16 words).foldl compress initial
  ⟨final.toList.flatMap fun word => (Bytes.ofNat 4 word.toNat).reverse,
    by simp [Registers.toList]⟩

end Ripemd160

end WalletExchange
