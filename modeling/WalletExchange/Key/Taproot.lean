import WalletExchange.Curve.Secp256k1
import WalletExchange.Hash.Sha2

/-!
# Taproot outputs

The key of a taproot output that can be spent by a key only: the key with an even second coordinate,
moved by a digest of itself.
-/

namespace WalletExchange

open Secp256k1 (Point Secret)

/-- A digest for one purpose: the digest of the purpose goes in front twice. -/
def taggedHash (purpose : String) (message : Bytes) : Block 32 :=
  let tag := (Sha2.sha256 purpose.toUTF8.toList).bytes
  Sha2.sha256 (tag ++ tag ++ message)

/-- The first coordinate of the output key of an internal key. -/
def taprootOutput? (internal : Point) : Option Bytes := do
  let x := Bytes.ofNat 32 internal.x
  let even ← Point.lift? internal.x false
  let tweak ← Secret.ofBytes? (taggedHash "TapTweak" x).bytes
  let output ← even.add? tweak.point
  return Bytes.ofNat 32 output.x

end WalletExchange
