import WalletExchange.Key.Expression
import WalletExchange.Path.Codec

/-!
# Keys in CBOR

A plain key is a map with the data of the key under 3; a private one says so under 2, its network
and the form of its public key under 4 and 5.  An extended key has a chain code under 4, use
information under 5, an origin under 6, children under 7 and the fingerprint of its parent under 8.
Depth and child number are those of the origin: a key without an origin that is no master key is
given a path of one step for them.  An origin without a fingerprint is dropped when it is read.
-/

namespace WalletExchange

open Cbor (Value DecodeError Fields)
open Secp256k1 (Point Secret)

namespace XKey

/-- Use information for the network of the key. -/
def useInfo (k : XKey) : UseInfo := .ofNetwork (.ofBitcoin k.network)

end XKey

namespace KeyExpression

/-- The origin as it is written for an extended key. -/
def writtenOrigin? (k : KeyExpression) (key : XKey) : Option Path :=
  match k.origin with
  | some origin => some (origin.setDepth key.depth)
  | none =>
    if key.depth = 0 then none
    else some ((Path.ofChildNumbers [key.child]).setDepth key.depth)

/-- The map of an extended key. -/
def hdToCborContent (k : KeyExpression) (key : HdKey) : Value :=
  let data : List (UInt64 × Value) :=
    [(3, .bytes key.key.keyBytes), (4, .bytes key.key.chainCode.bytes)] ++ key.key.useInfo.field 5
  if key.key.isPrivate && key.key.isMaster && k.origin.isNone && key.children.isNone then
    .ofFields ((1, .bool true) :: data)
  else
    .ofFields ((if key.key.isPrivate then [(2, .bool true)] else []) ++ data ++
      ((k.writtenOrigin? key.key).toList.map fun origin => (6, origin.toCbor)) ++
      (key.children.toList.map fun children => (7, children.toCbor)) ++
      if key.key.parent = 0 then [] else [(8, .unsigned key.key.parent.toUInt64)])

/-- The tag of the expression. -/
def cborTag (k : KeyExpression) : UInt64 :=
  match k.material with
  | .hd _ => Cbor.Tag.hdKey
  | _ => Cbor.Tag.ecKey

/-- The map of the expression. -/
def toCborContent (k : KeyExpression) : Value :=
  match k.material with
  | .plain key => .ofFields [(3, .bytes key.toBytes)]
  | .wif key =>
    .ofFields ([(2, .bool true), (3, .bytes key.secret.toBytes)] ++
      (UseInfo.ofNetwork (.ofBitcoin key.network)).field 4 ++
      if key.isCompressed then [] else [(5, .bool false)])
  | .hd key => k.hdToCborContent key

/-- The tagged value. -/
def toCbor (k : KeyExpression) : Value := .tag k.cborTag k.toCborContent

/-- A secret, or the error for a number out of range. -/
def secretOfBytes? (data : Bytes) : Except DecodeError Secret :=
  match Secret.ofBytes? data with
  | some s => .ok s
  | none => .error (.invalidValue "malformed or out-of-range secret key")

/-- Read the map of a plain key. -/
def ecOfCborContent? (v : Value) : Except DecodeError KeyExpression := do
  let fields ← v.asFields
  let isPrivate ← fields.getOr 2 Value.asBool false
  let data ← (← fields.require 3).asBytes
  if isPrivate && data.length == 32 then
    let isCompressed ← fields.getOr 5 Value.asBool true
    let use ← UseInfo.ofField? fields 4
    let secret ← secretOfBytes? data
    return .ofMaterial (.wif ⟨secret, isCompressed, use.network.toBitcoin⟩)
  else if !isPrivate && (data.length == 33 || data.length == 65) then
    match PublicKey.ofBytes? data with
    | .ok key => return .ofMaterial (.plain key)
    | .error e => throw (.invalidValue e.message)
  else throw (.invalidValue s!"wrong EC key data length {data.length}")

/-- The child number of a key with a given origin: the last step, where it is fixed, in the external
branch. -/
def childOfOrigin (origin : Option Path) : ChildNumber :=
  ((origin.bind fun p => p.steps.getLast?).bind (Step.resolve none .external)).getD ⟨.zero, false⟩

/-- The key of an extended key from its place in the tree, its kind and its data. -/
def xkeyOfData? (isPrivate : Bool) (data : Bytes) (place : Extended Unit) :
    Except DecodeError XKey :=
  if isPrivate then
    if data.length = 33 ∧ data.head? = some 0 then do
      let secret ← secretOfBytes? data.tail
      return .xprv { place with key := secret }
    else .error (.invalidValue "private key data must be 33 bytes starting with zero")
  else
    match Point.ofBytes? data with
    | some p => .ok (.xpub { place with key := p })
    | none => .error (.invalidValue "malformed public key")

/-- An origin that was read: without a fingerprint it is none, and its depth is the number of its
steps modulo 256. -/
def keptOrigin? (origin : Option Path) : Option Path :=
  (origin.filter fun p => p.fingerprint.isSome).map fun p =>
    p.setDepth (UInt8.ofNat p.steps.length)

/-- A chain code, or the error for another number of bytes. -/
def chainCodeOfBytes? (data : Bytes) : Except DecodeError (Block 32) :=
  match Block.ofBytes? data with
  | some chainCode => .ok chainCode
  | none => .error (.invalidValue "chain code must be 32 bytes")

/-- Read the map of an extended key. -/
def hdOfCborContent? (v : Value) : Except DecodeError KeyExpression := do
  let fields ← v.asFields
  let isMaster ← fields.getOr 1 Value.asBool false
  let isPrivate ← if isMaster then pure true else fields.getOr 2 Value.asBool false
  let data ← (← fields.require 3).asBytes
  let chainCode ← chainCodeOfBytes? (← (← fields.require 4).asBytes)
  let use ← UseInfo.ofField? fields 5
  let origin ← fields.optional 6 Path.ofCbor?
  let children ← fields.optional 7 Path.ofCbor?
  let parent ← fields.getOr 8 Value.asUInt32 0
  let key ← xkeyOfData? isPrivate data
    { network := use.network.toBitcoin
      depth := origin.elim 0 Path.depth
      parent
      child := childOfOrigin origin
      chainCode
      key := () }
  return ⟨keptOrigin? origin, .hd ⟨key, children⟩⟩

/-- Read the content under a tag. -/
def ofCborContent? (number : UInt64) (content : Value) : Except DecodeError KeyExpression :=
  if number = Cbor.Tag.ecKey then ecOfCborContent? content
  else if number = Cbor.Tag.hdKey then hdOfCborContent? content
  else .error (.unknownTag number)

/-- Read the tagged value. -/
def ofCbor? : Value → Except DecodeError KeyExpression
  | .tag number content => ofCborContent? number content
  | _ => .error (.unexpectedType .taggedKey)

end KeyExpression

end WalletExchange
