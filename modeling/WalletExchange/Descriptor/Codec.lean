import WalletExchange.Descriptor.Node
import WalletExchange.Key.Codec

/-!
# Script functions in CBOR

Each function has a tag of its own.  Under it stands a tagged key, a tagged function, the map of a
multisignature, the bytes of a script, or the map of an address.
-/

namespace WalletExchange

open Cbor (Value DecodeError Fields)

/-- The tag of a function of one key. -/
def KeyFunction.cborTag : KeyFunction → UInt64
  | pk => Cbor.Tag.publicKey
  | pkh => Cbor.Tag.publicKeyHash
  | wpkh => Cbor.Tag.witnessPublicKeyHash
  | tr => Cbor.Tag.taproot
  | combo => Cbor.Tag.combo
  | cosigner => Cbor.Tag.cosigner

namespace Multisig

/-- The tag of a multisignature. -/
def cborTag (m : Multisig) : UInt64 :=
  if m.isSorted then Cbor.Tag.sortedMultisig else Cbor.Tag.multisig

/-- The threshold under 1 and the keys under 2. -/
def toCborContent (m : Multisig) : Value :=
  .ofFields [(1, .unsigned m.threshold), (2, .array (m.keys.map KeyExpression.toCbor))]

/-- Read a threshold and as many keys at least. -/
def ofCborContent? (isSorted : Bool) (v : Value) : Except DecodeError Multisig := do
  let fields ← v.asFields
  let threshold ← (← fields.require 1).asUInt64
  let keys ← (← (← fields.require 2).asArray).mapM KeyExpression.ofCbor?
  if threshold = 0 ∨ keys.length < threshold.toNat ∨ maxKeys < keys.length then
    throw (.invalidValue s!"invalid {threshold.toNat}-of-{keys.length} multisig")
  return ⟨threshold, keys, isSorted⟩

end Multisig

namespace Node

/-- The tag of the function. -/
def cborTag : Node → UInt64
  | raw _ => Cbor.Tag.rawScript
  | key f _ => f.cborTag
  | multi m => m.cborTag
  | wsh _ => Cbor.Tag.witnessScriptHash
  | sh _ => Cbor.Tag.scriptHash
  | addr _ => Cbor.Tag.address

/-- What stands under the tag. -/
def toCborContent : Node → Value
  | raw script => .bytes script.bytes
  | key _ k => k.toCbor
  | multi m => m.toCborContent
  | wsh inner => .tag inner.cborTag inner.toCborContent
  | sh inner => .tag inner.cborTag inner.toCborContent
  | addr address => address.toCborContent

/-- The tagged value. -/
def toCbor (n : Node) : Value := .tag n.cborTag n.toCborContent

/-- The function of one key that a tag stands for. -/
def keyFunctionOfTag? (number : UInt64) : Option KeyFunction :=
  [KeyFunction.pk, .pkh, .wpkh, .combo, .tr, .cosigner].find? fun f => f.cborTag == number

/-- Read the key of a function; the key of a taproot output has to be compressed. -/
def keyOfCbor? (f : KeyFunction) (v : Value) : Except DecodeError Node := do
  let k ← KeyExpression.ofCbor? v
  if f = .tr ∧ k.isUncompressed then throw (.invalidValue "taproot key must be compressed")
  return .key f k

/-- The function, if its kind is allowed inside the parent. -/
def checkInside (parent : NodeKind) (n : Node) : Except DecodeError Node :=
  if n.kind.allowedInside parent then .ok n
  else .error (.invalidValue s!"`{n.kind.name}` is not allowed inside `{parent.name}`")

mutual

/-- Read what stands under a tag. -/
def ofCborContent? (number : UInt64) (content : Value) : Except DecodeError Node :=
  if number = Cbor.Tag.scriptHash then do
    return .sh (← checkInside .sh (← ofCbor? content))
  else if number = Cbor.Tag.witnessScriptHash then do
    return .wsh (← checkInside .wsh (← ofCbor? content))
  else if number = Cbor.Tag.multisig then return .multi (← Multisig.ofCborContent? false content)
  else if number = Cbor.Tag.sortedMultisig then
    return .multi (← Multisig.ofCborContent? true content)
  else if number = Cbor.Tag.rawScript then return .raw ⟨← content.asBytes⟩
  else if number = Cbor.Tag.address then return .addr (← Address.ofCborContent? content)
  else
    match keyFunctionOfTag? number with
    | some f => keyOfCbor? f content
    | none => .error (.unknownTag number)
termination_by (sizeOf content, 1)

/-- Read the tagged value. -/
def ofCbor? (v : Value) : Except DecodeError Node :=
  match v with
  | .tag number content => ofCborContent? number content
  | _ => .error (.unexpectedType .taggedScriptFunction)
termination_by (sizeOf v, 0)

end

end Node

end WalletExchange
