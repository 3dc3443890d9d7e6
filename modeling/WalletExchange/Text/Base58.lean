import WalletExchange.Hash.Sha2

/-!
# Base 58 with a check

A byte string is written as the digits in base 58 of the number it spells, with a `1` for each
leading zero byte.  In the checked form four bytes of a digest follow the data.
-/

namespace WalletExchange.Base58

/-- The digits. -/
def alphabet : List Char :=
  "123456789ABCDEFGHJKLMNPQRSTUVWXYZabcdefghijkmnopqrstuvwxyz".toList

/-- At most `fuel` digits of `n` in some base, the last one first, up to the first that is not
zero. -/
def digits (base : Nat) : (fuel n : Nat) → List Nat
  | 0, _ => []
  | fuel + 1, n => if n = 0 then [] else n % base :: digits base fuel (n / base)

/-- The digits of a byte string; a byte takes less than two of them. -/
def encode (bytes : Bytes) : List Char :=
  let zeros := (bytes.takeWhile (· == 0)).length
  let rest := (digits 58 (2 * bytes.length) (Bytes.toNat bytes)).reverse
  List.replicate zeros '1' ++ rest.map fun d => alphabet.getD d '1'

/-- The number that digits spell. -/
def value? (text : List Char) : Option Nat :=
  text.foldlM (fun n c => (alphabet.idxOf? c).map fun d => 58 * n + d) 0

/-- The bytes that digits spell; a digit stands for less than a byte. -/
def decode? (text : List Char) : Option Bytes := do
  let n ← value? text
  let zeros := (text.takeWhile (· == '1')).length
  let rest := (digits 256 text.length n).reverse
  return List.replicate zeros 0 ++ rest.map UInt8.ofNat

/-- The four bytes that check the data. -/
def check (data : Bytes) : Bytes := (Sha2.sha256d data).bytes.take 4

/-- The digits of the data and its check. -/
def encodeChecked (data : Bytes) : List Char := encode (data ++ check data)

/-- The data, if its check follows it. -/
def decodeChecked? (text : List Char) : Option Bytes := do
  let bytes ← decode? text
  let data := bytes.take (bytes.length - 4)
  if 4 ≤ bytes.length ∧ bytes.drop (bytes.length - 4) = check data then some data else none

end WalletExchange.Base58
