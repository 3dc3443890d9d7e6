import WalletExchange.Bytes
import WalletExchange.Cbor.Float
import WalletExchange.Cbor.Value

/-!
# Writing CBOR

Every head is as short as its number admits, every length is definite, and a floating-point number
takes the fewest of 16, 32 and 64 bits that keep it.
-/

namespace WalletExchange.Cbor

/-- A first byte with its argument: major type and number. -/
def head (major n : Nat) : Bytes :=
  let first (low : Nat) : UInt8 := UInt8.ofNat (32 * major + low)
  if n < 24 then [first n]
  else if n < UInt8.size then first 24 :: Bytes.ofNat 1 n
  else if n < UInt16.size then first 25 :: Bytes.ofNat 2 n
  else if n < UInt32.size then first 26 :: Bytes.ofNat 4 n
  else first 27 :: Bytes.ofNat 8 n

/-- A floating-point number in its shortest form. -/
def encodeFloat (bits : UInt64) : Bytes :=
  match Float.half.narrow? bits with
  | some short => 0xf9 :: Bytes.ofNat 2 short
  | none =>
    match Float.single.narrow? bits with
    | some short => 0xfa :: Bytes.ofNat 4 short
    | none => 0xfb :: Bytes.ofNat 8 bits.toNat

mutual

/-- The bytes of a value. -/
def Value.encode : Value → Bytes
  | .unsigned n => head 0 n.toNat
  | .negative n => head 1 n.toNat
  | .bytes data => head 2 data.length ++ data
  | .text data => head 3 data.utf8ByteSize ++ data.toUTF8.toList
  | .array items => head 4 items.length ++ encodeItems items
  | .map entries => head 5 entries.length ++ encodeEntries entries
  | .tag number content => head 6 number.toNat ++ content.encode
  | .bool false => [0xf4]
  | .bool true => [0xf5]
  | .null => [0xf6]
  | .float bits => encodeFloat bits

/-- The bytes of the items of an array. -/
def encodeItems : List Value → Bytes
  | [] => []
  | item :: rest => item.encode ++ encodeItems rest

/-- The bytes of the entries of a map. -/
def encodeEntries : List (Value × Value) → Bytes
  | [] => []
  | (key, value) :: rest => key.encode ++ value.encode ++ encodeEntries rest

end

end WalletExchange.Cbor
