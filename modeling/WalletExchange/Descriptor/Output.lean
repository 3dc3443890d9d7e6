import WalletExchange.Descriptor.Node
import WalletExchange.Key.Resolve
import WalletExchange.Key.Taproot

/-!
# Scripts of descriptors

The script to which a descriptor pays in a context.  There is none if a key cannot be resolved, if a
witness would commit to a key that is not compressed, if no form is chosen for a combination, and
for the place of a cosigner.
-/

namespace WalletExchange

/-- The script of a function of one key, given the key it stands for. -/
def KeyFunction.output? (f : KeyFunction) (k : PublicKey) : Option Script :=
  match f with
  | .pk => some (.payToKey k)
  | .pkh => some (.payToKeyHash k.hash)
  | .wpkh => if k.isCompressed then some (.payToWitness 0 k.hash.bytes) else none
  | .tr =>
    if k.isCompressed then (taprootOutput? k.point).map (Script.payToWitness 1) else none
  | .combo | .cosigner => none

/-- The script of one form of a combination. -/
def ComboOutput.output? (form : ComboOutput) (k : PublicKey) : Option Script :=
  match form with
  | .pk => KeyFunction.pk.output? k
  | .pkh => KeyFunction.pkh.output? k
  | .wpkh => KeyFunction.wpkh.output? k
  | .shWpkh => (KeyFunction.wpkh.output? k).map fun s => .payToScriptHash s.hash

/-- Byte strings in lexicographic order. -/
def Bytes.le : Bytes → Bytes → Bool
  | [], _ => true
  | _ :: _, [] => false
  | a :: as, b :: bs => a < b || a == b && le as bs

/-- Keys in the order of their serialized forms. -/
def PublicKey.sort (keys : List PublicKey) : List PublicKey :=
  keys.mergeSort fun a b => Bytes.le a.toBytes b.toBytes

/-- The public keys that expressions stand for; resolving stops at the first one that stands for
none. -/
def KeyExpression.resolveAll (c : ScriptContext) : List KeyExpression → Resolution (List PublicKey)
  | [] => pure []
  | k :: rest => do
    let key ← k.resolve c
    let keys ← resolveAll c rest
    return key :: keys

/-- The script of a multisignature. -/
def Multisig.script (m : Multisig) (c : ScriptContext) : Resolution Script := do
  let keys ← KeyExpression.resolveAll c m.keys
  return .multisig m.threshold.toInt64.toInt (if m.isSorted then PublicKey.sort keys else keys)

/-- The script that a descriptor pays to in a context. -/
def Node.script (c : ScriptContext) : Node → Resolution Script
  | .raw script => pure script
  | .key .cosigner _ => .ofOption none
  | .key .combo k => do
    let form ← .ofOption c.combo
    let key ← k.resolve c
    .ofOption (form.output? key)
  | .key f k => do
    let key ← k.resolve c
    .ofOption (f.output? key)
  | .multi m => m.script c
  | .wsh inner =>
    if inner.hasUncompressedKey then .ofOption none
    else do
      let witness ← inner.script c
      return .payToWitness 0 witness.witnessHash.bytes
  | .sh inner => do
    let redeem ← inner.script c
    return .payToScriptHash redeem.hash
  | .addr address => pure address.script

end WalletExchange
