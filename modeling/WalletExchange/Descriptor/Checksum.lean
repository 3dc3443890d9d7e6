/-!
# Checksums of descriptors

Eight characters that follow a descriptor after a `#`.  Each character of the text is split into a
symbol of five bits and a class; the classes of three characters make one more symbol.  The symbols
are the coefficients of a polynomial over the field of 32 elements, and the checksum is its
remainder.
-/

namespace WalletExchange.Checksum

/-- The characters that a checksum can be made of, in the order of their numbers. -/
def inputAlphabet : List Char :=
  ("0123456789()[],'/*abcdefgh@:$%\x7b\x7dIJKLMNOPQRSTUVWXYZ&+-.;<=>?!^_|~" ++
    "ijklmnopqrstuvwxyzABCDEFGH`#\"\\ ").toList

/-- The characters of checksums. -/
def outputAlphabet : List Char := "qpzry9x8gf2tvdw0s3jn54khce6mua7l".toList

/-- The generator, one number for each of the five bits that leave the register. -/
def generators : List Nat :=
  [0xf5dee51989, 0xa9fdca3312, 0x1bab10e32d, 0x3706b1677a, 0x644d626ffd]

/-- Move one symbol into the register of forty bits. -/
def step (register symbol : Nat) : Nat :=
  let top := register >>> 35
  let shifted := ((register &&& 0x7ffffffff) <<< 5) ^^^ symbol
  generators.zipIdx.foldl (fun acc (g, i) => if top.testBit i then acc ^^^ g else acc) shifted

/-- The number of each character, unless one has none. -/
def positions? (text : List Char) : Option (List Nat) :=
  text.mapM fun c => inputAlphabet.idxOf? c

/-- The symbols of a text given by the numbers of its characters: after three of them, and after the
last one or two, comes the symbol of their classes. -/
def symbols : List Nat → List Nat
  | a :: b :: c :: rest =>
    a % 32 :: b % 32 :: c % 32 :: (9 * (a / 32) + 3 * (b / 32) + c / 32) :: symbols rest
  | [a, b] => [a % 32, b % 32, 3 * (a / 32) + b / 32]
  | [a] => [a % 32, a / 32]
  | [] => []

/-- The register after the symbols of a text and eight zeros. -/
def remainder (positions : List Nat) : Nat :=
  (symbols positions ++ List.replicate 8 0).foldl step 1 ^^^ 1

/-- The eight characters of a register. -/
def render (register : Nat) : List Char :=
  (List.range 8).map fun i => outputAlphabet.getD ((register >>> (5 * (7 - i))) % 32) 'q'

/-- The checksum of a text, unless it has a character that is not in the alphabet. -/
def ofText? (text : List Char) : Option (List Char) :=
  (positions? text).map fun positions => render (remainder positions)

end WalletExchange.Checksum
