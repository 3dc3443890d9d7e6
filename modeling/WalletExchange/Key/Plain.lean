import WalletExchange.Curve.Secp256k1
import WalletExchange.Hash.Hash160
import WalletExchange.Text.Base58
import WalletExchange.Text.Hex
import WalletExchange.UseInfo

/-!
# Public and private keys

A public key is a point of the curve together with the serialized form it is used in.  A private key
is a secret with the form of its public key and a network; as text it is checked base 58.
-/

namespace WalletExchange

open Secp256k1 (Point Secret)

/-- A public key and the form in which it is serialized. -/
structure PublicKey where
  point : Point
  isCompressed : Bool
  deriving DecidableEq, Repr

/-- Why bytes are no public key. -/
inductive PublicKeyError where
  /-- A key of 65 bytes begins with something else than 4. -/
  | invalidHead (first : UInt8)
  /-- No point of the curve has the coordinates. -/
  | noPoint
  /-- Neither 33 nor 65 bytes. -/
  | invalidLength (length : Nat)
  deriving DecidableEq, Repr

/-- The text of the error. -/
def PublicKeyError.message : PublicKeyError → String
  | invalidHead first => s!"key prefix invalid: {first.toNat}"
  | noPoint => "key secp256k1 error"
  | invalidLength length => s!"key base58 error: invalid length {length}"

namespace PublicKey

/-- The serialized form. -/
def toBytes (k : PublicKey) : Bytes :=
  if k.isCompressed then k.point.compress else k.point.expand

/-- Read a serialized public key. -/
def ofBytes? (bytes : Bytes) : Except PublicKeyError PublicKey :=
  if bytes.length = 33 then
    match Point.ofBytes? bytes with
    | some p => .ok ⟨p, true⟩
    | none => .error .noPoint
  else if bytes.length = 65 then
    if bytes.head? = some 0x04 then
      match Point.ofBytes? bytes with
      | some p => .ok ⟨p, false⟩
      | none => .error .noPoint
    else .error (.invalidHead (bytes.headD 0))
  else .error (.invalidLength bytes.length)

/-- The digest that stands for the key in scripts. -/
def hash (k : PublicKey) : Block 20 := hash160 k.toBytes

end PublicKey

/-- A secret, the form of its public key, and the network it is for. -/
structure PrivateKey where
  secret : Secret
  isCompressed : Bool
  network : BitcoinNetwork
  deriving DecidableEq

namespace PrivateKey

/-- The public key. -/
def toPublic (k : PrivateKey) : PublicKey := ⟨k.secret.point, k.isCompressed⟩

/-- The first byte of the text, by network. -/
def version : BitcoinNetwork → UInt8
  | .bitcoin => 0x80
  | .testnet | .signet | .regtest => 0xef

/-- The network of a first byte. -/
def networkOfVersion? (first : UInt8) : Option BitcoinNetwork :=
  if first = 0x80 then some .bitcoin
  else if first = 0xef then some .testnet
  else none

/-- The key as text: version, secret, and a byte more if the public key is compressed. -/
def render (k : PrivateKey) : List Char :=
  Base58.encodeChecked
    (version k.network :: k.secret.toBytes ++ if k.isCompressed then [0x01] else [])

/-- Read a key; the byte after the secret is not looked at. -/
def parse? (text : List Char) : Option PrivateKey := do
  let data ← Base58.decodeChecked? text
  if data.length ≠ 33 ∧ data.length ≠ 34 then none
  let network ← networkOfVersion? (data.headD 0)
  let secret ← Secret.ofBytes? ((data.drop 1).take 32)
  return ⟨secret, data.length = 34, network⟩

end PrivateKey

end WalletExchange
