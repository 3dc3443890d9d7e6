import WalletExchange.Bytes
import WalletExchange.Text.Split

/-!
# Bech32

A text with a readable head, a `1`, and symbols of five bits of which the last six are a check.  The
check comes in two kinds that differ in the number it must leave.
-/

namespace WalletExchange.Bech32

/-- The kind of the check. -/
inductive Kind where
  | bech32
  | bech32m
  deriving DecidableEq, Repr

/-- The remainder that a correct text of each kind leaves. -/
def Kind.remainder : Kind → Nat
  | .bech32 => 1
  | .bech32m => 0x2bc830a3

/-- The characters of the thirty-two symbols. -/
def alphabet : List Char := "qpzry9x8gf2tvdw0s3jn54khce6mua7l".toList

/-- The generator of the check, one number for each of the five bits that leave the register. -/
def generators : List Nat := [0x3b6a57b2, 0x26508e6d, 0x1ea119fa, 0x3d4233dd, 0x2a1462b3]

/-- Move one symbol into the register of thirty bits. -/
def step (register symbol : Nat) : Nat :=
  let top := register >>> 25
  let shifted := ((register &&& 0x1ffffff) <<< 5) ^^^ symbol
  generators.zipIdx.foldl (fun acc (g, i) => if top.testBit i then acc ^^^ g else acc) shifted

/-- The remainder of a list of symbols. -/
def remainder (symbols : List Nat) : Nat := symbols.foldl step 1

/-- The symbols that stand for the head: high bits, a zero, low bits. -/
def headSymbols (head : List Char) : List Nat :=
  head.map (fun c => c.toNat >>> 5) ++ 0 :: head.map fun c => c.toNat &&& 31

/-- The six symbols that complete the data. -/
def checkSymbols (kind : Kind) (head : List Char) (data : List Nat) : List Nat :=
  let r := remainder (headSymbols head ++ data ++ List.replicate 6 0) ^^^ kind.remainder
  (List.range 6).map fun i => (r >>> (5 * (5 - i))) &&& 31

/-- The text of a head and data. -/
def encode (kind : Kind) (head : List Char) (data : List Nat) : List Char :=
  head ++ '1' :: (data ++ checkSymbols kind head data).map fun s => alphabet.getD s 'q'

/-- Read a text in one letter case: the head in lower case, the data without the check, and the
kind of the check. -/
def decode? (text : List Char) : Option (List Char × List Nat × Kind) := do
  let (head, body) ← Text.splitLast? '1' text
  if text.any Char.isLower && text.any Char.isUpper then none
  let head := head.map Char.toLower
  let symbols ← body.mapM fun c => alphabet.idxOf? c.toLower
  let kind ← [Kind.bech32, Kind.bech32m].find? fun kind =>
    remainder (headSymbols head ++ symbols) == kind.remainder
  if symbols.length < 6 then none
  return (head, symbols.take (symbols.length - 6), kind)

/-- The bits of a number, the highest of `width` first. -/
def bits (width n : Nat) : List Bool := (List.range width).map fun i => n.testBit (width - 1 - i)

/-- The number that bits spell. -/
def ofBits (bs : List Bool) : Nat := bs.foldl (fun n b => 2 * n + b.toNat) 0

/-- The symbols of a byte string; zero bits fill up the last one. -/
def ofBytes (bytes : Bytes) : List Nat :=
  let all := bytes.flatMap fun b => bits 8 b.toNat
  let filled := all ++ List.replicate ((5 - all.length % 5) % 5) false
  (chunks 5 filled).map ofBits

/-- The bytes in a list of symbols; the bits that are left over are zero and fewer than five. -/
def toBytes? (symbols : List Nat) : Option Bytes :=
  let all := symbols.flatMap (bits 5)
  let rest := all.drop (all.length / 8 * 8)
  if rest.length < 5 ∧ rest.all (· == false) then
    some ((chunks 8 all).map fun bs => UInt8.ofNat (ofBits bs))
  else none

end WalletExchange.Bech32
