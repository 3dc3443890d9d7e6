import WalletExchange.Key.Plain
import WalletExchange.Path.Basic

/-!
# Extended keys

A key together with a chain code, from which the keys of children are derived, and with its place in
the tree of keys.  `Extended.child?` on a private key derives any child; on a public key it derives
only children that are not hardened.  As text, both are checked base 58 of 78 bytes.
-/

namespace WalletExchange

open Secp256k1 (Point Secret)

/-- A key with its chain code and its place in the tree. -/
structure Extended (κ : Type) where
  network : BitcoinNetwork
  depth : UInt8
  /-- The fingerprint of the parent, zero for a master key. -/
  parent : Fingerprint
  child : ChildNumber
  chainCode : Block 32
  key : κ
  deriving DecidableEq

/-- An extended public key. -/
abbrev ExtendedPublic := Extended Point

/-- An extended private key. -/
abbrev ExtendedPrivate := Extended Secret

/-- Why a child has no key. -/
inductive DerivationError where
  | hardenedFromPublic
  /-- The depth of the child would not fit its byte. -/
  | tooDeep
  /-- The digest is out of range or the sum of the keys is neutral. -/
  | outOfRange
  deriving DecidableEq, Repr

/-- The text of the error. -/
def DerivationError.message : DerivationError → String
  | hardenedFromPublic => "cannot derive hardened key from public key"
  | tooDeep => "maximum derivation depth exceeded"
  | outOfRange => "secp256k1 error"

/-- The first four bytes of the digest of a key. -/
def fingerprintOfPoint (p : Point) : Fingerprint :=
  UInt32.ofNat (Bytes.toNat ((hash160 p.compress).bytes.take 4))

/-- The two halves of the digest from which a child is made: a number, if it is in range, and a
chain code. -/
def childDigest (chainCode : Block 32) (data : Bytes) (n : ChildNumber) :
    Option Secret × Block 32 :=
  let digest := Sha2.hmacSha512 chainCode.bytes (data ++ Bytes.ofNat 4 n.toUInt32.toNat)
  (Secret.ofBytes? (digest.bytes.take 32), digest.drop 32)

/-- The place of a child of a key with a given fingerprint.  The depth is one byte, so at depth 255
there is no place for a child; adding one to the depth unchecked would overflow there. -/
def Extended.place {κ : Type} (parent : Extended κ) (fingerprint : Fingerprint) (n : ChildNumber)
    (chainCode : Block 32) (key : κ) : Except DerivationError (Extended κ) :=
  if parent.depth = 255 then .error .tooDeep
  else .ok
    { network := parent.network
      depth := parent.depth + 1
      parent := fingerprint
      child := n
      chainCode := chainCode
      key := key }

namespace ExtendedPublic

def fingerprint (k : ExtendedPublic) : Fingerprint := fingerprintOfPoint k.key

/-- The key of a child that is not hardened. -/
def child? (k : ExtendedPublic) (n : ChildNumber) : Except DerivationError ExtendedPublic :=
  if n.isHardened then .error .hardenedFromPublic
  else
    match childDigest k.chainCode k.key.compress n with
    | (some tweak, chainCode) =>
      match tweak.point.add? k.key with
      | some p => Extended.place k k.fingerprint n chainCode p
      | none => .error .outOfRange
    | (none, _) => .error .outOfRange

/-- The key at the end of a path of children. -/
def descendant? (k : ExtendedPublic) (numbers : List ChildNumber) :
    Except DerivationError ExtendedPublic :=
  numbers.foldlM child? k

end ExtendedPublic

namespace ExtendedPrivate

/-- The extended key without its secret. -/
def toPublic (k : ExtendedPrivate) : ExtendedPublic :=
  { network := k.network
    depth := k.depth
    parent := k.parent
    child := k.child
    chainCode := k.chainCode
    key := k.key.point }

def fingerprint (k : ExtendedPrivate) : Fingerprint := fingerprintOfPoint k.key.point

/-- What the digest of a child is taken of: the secret for a hardened one, else the point. -/
def childData (k : ExtendedPrivate) (n : ChildNumber) : Bytes :=
  if n.isHardened then 0 :: k.key.toBytes else k.key.point.compress

/-- The key of a child. -/
def child? (k : ExtendedPrivate) (n : ChildNumber) : Except DerivationError ExtendedPrivate :=
  match childDigest k.chainCode (k.childData n) n with
  | (some tweak, chainCode) =>
    match tweak.add? k.key.value with
    | some s => Extended.place k k.fingerprint n chainCode s
    | none => .error .outOfRange
  | (none, _) => .error .outOfRange

/-- The key at the end of a path of children. -/
def descendant? (k : ExtendedPrivate) (numbers : List ChildNumber) :
    Except DerivationError ExtendedPrivate :=
  numbers.foldlM child? k

end ExtendedPrivate

/-- An extended key of either kind. -/
inductive XKey where
  | xpub (k : ExtendedPublic)
  | xprv (k : ExtendedPrivate)
  deriving DecidableEq

namespace XKey

def isPrivate : XKey → Bool
  | .xpub _ => false
  | .xprv _ => true

/-- The extended public key. -/
def toPublic : XKey → ExtendedPublic
  | .xpub k => k
  | .xprv k => k.toPublic

/-- The fingerprint of the key itself. -/
def fingerprint (k : XKey) : Fingerprint := k.toPublic.fingerprint

def network : XKey → BitcoinNetwork
  | .xpub k => k.network
  | .xprv k => k.network

def depth : XKey → UInt8
  | .xpub k => k.depth
  | .xprv k => k.depth

def parent : XKey → Fingerprint
  | .xpub k => k.parent
  | .xprv k => k.parent

def child : XKey → ChildNumber
  | .xpub k => k.child
  | .xprv k => k.child

def chainCode : XKey → Block 32
  | .xpub k => k.chainCode
  | .xprv k => k.chainCode

/-- The key of 33 bytes: a point, or a zero and a secret. -/
def keyBytes : XKey → Bytes
  | .xpub k => k.key.compress
  | .xprv k => 0 :: k.key.toBytes

/-- A key at depth zero. -/
def isMaster (k : XKey) : Bool := k.depth == 0

/-- The first four bytes of the text: the network and the kind of the key. -/
def version (isPrivate : Bool) (network : BitcoinNetwork) : Bytes :=
  match isPrivate, network with
  | false, .bitcoin => [0x04, 0x88, 0xb2, 0x1e]
  | true, .bitcoin => [0x04, 0x88, 0xad, 0xe4]
  | false, _ => [0x04, 0x35, 0x87, 0xcf]
  | true, _ => [0x04, 0x35, 0x83, 0x94]

/-- The 78 bytes of the key. -/
def toBytes (k : XKey) : Bytes :=
  version k.isPrivate k.network ++ k.depth :: Bytes.ofNat 4 k.parent.toNat ++
    Bytes.ofNat 4 k.child.toUInt32.toNat ++ k.chainCode.bytes ++ k.keyBytes

/-- The key as text. -/
def render (k : XKey) : List Char := Base58.encodeChecked k.toBytes

/-- The network of the first four bytes. -/
def networkOfVersion? (isPrivate : Bool) (first : Bytes) : Option BitcoinNetwork :=
  [BitcoinNetwork.bitcoin, .testnet].find? fun network => version isPrivate network == first

/-- Read the fields of the 78 bytes around a key. -/
def fieldsOfBytes? {κ : Type} (isPrivate : Bool) (readKey : Bytes → Option κ) (data : Bytes) :
    Option (Extended κ) := do
  if data.length ≠ 78 then none
  let network ← networkOfVersion? isPrivate (data.take 4)
  let chainCode ← Block.ofBytes? ((data.drop 13).take 32)
  let key ← readKey (data.drop 45)
  return {
    network
    depth := data.getD 4 0
    parent := UInt32.ofNat (Bytes.toNat ((data.drop 5).take 4))
    child := .ofUInt32 (UInt32.ofNat (Bytes.toNat ((data.drop 9).take 4)))
    chainCode
    key }

/-- Read an extended public key. -/
def parsePublic? (text : List Char) : Option XKey := do
  let data ← Base58.decodeChecked? text
  return .xpub (← fieldsOfBytes? false Point.ofBytes? data)

/-- Read an extended private key; the byte before the secret is not looked at. -/
def parsePrivate? (text : List Char) : Option XKey := do
  let data ← Base58.decodeChecked? text
  return .xprv (← fieldsOfBytes? true (fun key => Secret.ofBytes? (key.drop 1)) data)

end XKey

instance : ToString XKey := ⟨fun k => String.ofList k.render⟩

end WalletExchange
