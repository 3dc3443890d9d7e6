import WalletExchange.Path.Codec
import WalletExchange.Path.Text
import WalletExchange.UseInfo

/-!
# Requests for keys

A request asks for the key at the end of a path, for an asset on a network.
-/

namespace WalletExchange

open Cbor (Value DecodeError Fields)

/-- Whether a private or a public key is asked for. -/
inductive KeyType where
  | privateKey
  | publicKey
  deriving DecidableEq, Repr

namespace KeyType

def isPrivate : KeyType → Bool
  | privateKey => true
  | publicKey => false

def ofIsPrivate (isPrivate : Bool) : KeyType := if isPrivate then privateKey else publicKey

/-- The name of the type. -/
def name : KeyType → String
  | privateKey => "private"
  | publicKey => "public"

end KeyType

/-- A request for a key. -/
structure KeyRequest where
  keyType : KeyType
  path : Path
  useInfo : UseInfo
  /-- Further keys are to be derived from the key. -/
  isDerivable : Bool
  deriving DecidableEq, Repr

namespace KeyRequest

/-- The type under 1, the path under 2, use information under 3 unless it is standard, and a `false`
under 4 if the key need not be derivable. -/
def toCborContent (r : KeyRequest) : Value :=
  .ofFields ([(1, .bool r.keyType.isPrivate), (2, r.path.toCbor)] ++ r.useInfo.field 3 ++
    if r.isDerivable then [] else [(4, .bool false)])

/-- The tagged value. -/
def toCbor (r : KeyRequest) : Value := .tag Cbor.Tag.keyRequest r.toCborContent

/-- Read the map. -/
def ofCborContent? (v : Value) : Except DecodeError KeyRequest := do
  let fields ← v.asFields
  let isPrivate ← (← fields.require 1).asBool
  let path ← Path.ofCbor? (← fields.require 2)
  let useInfo ← UseInfo.ofField? fields 3
  let isDerivable ← fields.getOr 4 Value.asBool true
  return { keyType := .ofIsPrivate isPrivate, path, useInfo, isDerivable }

/-- Read the tagged value. -/
def ofCbor? (v : Value) : Except DecodeError KeyRequest := do
  ofCborContent? (← v.untag Cbor.Tag.keyRequest)

end KeyRequest

end WalletExchange
