import WalletExchange.Key.Extended
import WalletExchange.Path.Text

/-!
# Key expressions

A key as it stands in a descriptor: a public key, a private key, or an extended key with a path of
children below it.  In front of it there may be the origin of the key: the master key and the path
from there.
-/

namespace WalletExchange

/-- An extended key and the path of children below it. -/
structure HdKey where
  key : XKey
  children : Option Path
  deriving DecidableEq

/-- The key of a key expression.  Compressed and uncompressed public keys are one kind, told apart by
the flag of the key.  So a key whose kind and flag disagree cannot be built; every reader takes the
kind from the length of the bytes, as the flag is. -/
inductive KeyMaterial where
  /-- A public key of 33 bytes if it is compressed, and else of 65. -/
  | plain (key : PublicKey)
  | wif (key : PrivateKey)
  | hd (key : HdKey)
  deriving DecidableEq

/-- A key with its origin. -/
structure KeyExpression where
  origin : Option Path
  material : KeyMaterial
  deriving DecidableEq

/-- The extended key, and the children with slashes in front. -/
def HdKey.render (k : HdKey) : List Char :=
  k.key.render ++ (k.children.elim [] Path.renderChildren)

instance : ToString HdKey := ⟨fun k => String.ofList k.render⟩

namespace KeyMaterial

def render : KeyMaterial → List Char
  | plain key => Hex.encode key.toBytes
  | wif key => key.render
  | hd key => key.render

/-- The name of the kind of key. -/
def kind : KeyMaterial → String
  | plain key => if key.isCompressed then "compressed" else "uncompressed"
  | wif _ => "wif"
  | hd _ => "hd"

end KeyMaterial

instance : ToString KeyMaterial := ⟨fun k => String.ofList k.render⟩

namespace KeyExpression

/-- A key without an origin. -/
def ofMaterial (material : KeyMaterial) : KeyExpression := ⟨none, material⟩

/-- The origin in brackets, and the key. -/
def render (k : KeyExpression) : List Char :=
  k.origin.elim [] (fun origin => '[' :: origin.render ++ [']']) ++ k.material.render

/-- The key stands for many keys until an index is put in. -/
def needsWildcard (k : KeyExpression) : Bool :=
  match k.material with
  | .hd ⟨_, some children⟩ => children.hasWildcard
  | _ => false

def isHd (k : KeyExpression) : Bool :=
  match k.material with
  | .hd _ => true
  | _ => false

/-- The expression holds a secret. -/
def isPrivate (k : KeyExpression) : Bool :=
  match k.material with
  | .plain _ => false
  | .wif _ => true
  | .hd key => key.key.isPrivate

/-- The public key is serialized without compression. -/
def isUncompressed (k : KeyExpression) : Bool :=
  match k.material with
  | .plain key => !key.isCompressed
  | .wif key => !key.isCompressed
  | .hd _ => false

/-- The fingerprint of the master key: that of the origin, or else of the extended key itself. -/
def masterFingerprint? (k : KeyExpression) : Option Fingerprint :=
  match k.origin.bind Path.fingerprint with
  | some fingerprint => some fingerprint
  | none =>
    match k.material with
    | .hd key => some key.key.fingerprint
    | _ => none

end KeyExpression

instance : ToString KeyExpression := ⟨fun k => String.ofList k.render⟩

end WalletExchange
