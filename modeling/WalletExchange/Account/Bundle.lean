import WalletExchange.Account.OutputType

/-!
# Bundles of account descriptors

The descriptors of several kinds of accounts of one master key.  A bundle is made only if every one
of them is; what is exchanged is the fingerprint of the master key and the list of descriptors.
-/

namespace WalletExchange

open Cbor (Value DecodeError Fields)

/-- The descriptors of the accounts of a master key. -/
structure AccountDescriptors where
  masterFingerprint : Fingerprint
  descriptors : List OutputDescriptor

namespace AccountDescriptors

/-- The fingerprints are equal, and so are the descriptors one by one. -/
def same (a b : AccountDescriptors) : Bool :=
  a.masterFingerprint == b.masterFingerprint &&
    a.descriptors.length == b.descriptors.length &&
    (a.descriptors.zip b.descriptors).all fun (x, y) => x.same y

/-- The fingerprint under 1 and the descriptors under 2. -/
def toCborContent (a : AccountDescriptors) : Value :=
  .ofFields [(1, .unsigned a.masterFingerprint.toUInt64),
    (2, .array (a.descriptors.map OutputDescriptor.toCbor))]

/-- The tagged value. -/
def toCbor (a : AccountDescriptors) : Value := .tag Cbor.Tag.account a.toCborContent

/-- Read the map. -/
def ofCborContent? (v : Value) : Except DecodeError AccountDescriptors := do
  let fields ← v.asFields
  let masterFingerprint ← (← fields.require 1).asUInt32
  let descriptors ← (← (← fields.require 2).asArray).mapM OutputDescriptor.ofCbor?
  return { masterFingerprint, descriptors }

/-- Read the tagged value. -/
def ofCbor? (v : Value) : Except DecodeError AccountDescriptors := do
  ofCborContent? (← v.untag Cbor.Tag.account)

end AccountDescriptors

/-- Descriptors under their kinds of accounts, in the order of the kinds. -/
abbrev DescriptorIndex := List (OutputType × OutputDescriptor)

namespace DescriptorIndex

/-- Put a descriptor under a kind, in place of the one that is there. -/
def insert (ty : OutputType) (descriptor : OutputDescriptor) : DescriptorIndex → DescriptorIndex
  | [] => [(ty, descriptor)]
  | entry :: rest =>
    match compare ty entry.1 with
    | .lt => (ty, descriptor) :: entry :: rest
    | .eq => (ty, descriptor) :: rest
    | .gt => entry :: insert ty descriptor rest

/-- The descriptor under a kind. -/
def find? (ty : OutputType) : DescriptorIndex → Option OutputDescriptor
  | [] => none
  | entry :: rest =>
    match compare ty entry.1 with
    | .lt => none
    | .eq => some entry.2
    | .gt => find? ty rest

/-- The index of some entries; of two entries of one kind the later one stays. -/
def ofList (entries : List (OutputType × OutputDescriptor)) : DescriptorIndex :=
  entries.foldl (fun index entry => insert entry.1 entry.2 index) []

end DescriptorIndex

/-- Descriptors of several kinds of accounts with one number. -/
structure Bundle where
  master : XKey
  network : Network
  account : UInt32
  /-- The descriptors in the order of their kinds in the list they were made for. -/
  descriptors : List OutputDescriptor
  /-- The descriptors under their kinds. -/
  index : DescriptorIndex

namespace Bundle

/-- The descriptors of all kinds, or the first error. -/
def deriveAll (master : XKey) (network : Network) (account : UInt32) :
    List OutputType → Except AccountError (List OutputDescriptor) × Journal
  | [] => (.ok [], [])
  | ty :: rest =>
    match ty.accountDescriptor master network account with
    | (.error e, journal) => (.error e, journal)
    | (.ok descriptor, journal) =>
      let (descriptors, more) := deriveAll master network account rest
      (descriptors.map (descriptor :: ·), journal ++ more)

/-- The entry of a journal for a bundle that is not made. -/
def refusal (reason : String) : Entry :=
  ⟨.warn, s!"Unable to bundle account descriptors: {reason}"⟩

/-- The bundle of some kinds of accounts, if there is a kind and all of them have a descriptor. -/
def make (master : XKey) (network : Network) (account : UInt32) (types : List OutputType) :
    Option Bundle × Journal :=
  if types.isEmpty then (none, [refusal "no output types given"])
  else if !master.isMaster then (none, [refusal "not a master key"])
  else
    match deriveAll master network account types with
    | (.error e, journal) => (none, journal ++ [refusal e.message])
    | (.ok descriptors, journal) =>
      let index := DescriptorIndex.ofList (types.zip descriptors)
      let done : String :=
        s!"Bundled {descriptors.length} descriptors for {network.name} account #{account.toNat}"
      (some ⟨master, network, account, descriptors, index⟩, journal ++ [⟨.debug, done⟩])

/-- The descriptor of a kind. -/
def descriptorFor? (b : Bundle) (ty : OutputType) : Option OutputDescriptor := b.index.find? ty

/-- The fingerprint of the master key. -/
def masterFingerprint (b : Bundle) : Fingerprint := b.master.fingerprint

/-- What is exchanged of the bundle. -/
def toAccountDescriptors (b : Bundle) : AccountDescriptors := ⟨b.masterFingerprint, b.descriptors⟩

/-- The tagged value. -/
def toCbor (b : Bundle) : Value := b.toAccountDescriptors.toCbor

/-- What the text of a resource begins with. -/
def scheme : String := "ur:crypto-account/"

/-- The bytes of the value under the tag, in hexadecimal after the scheme. -/
def toResource (b : Bundle) : String :=
  scheme ++ Hex.text b.toAccountDescriptors.toCborContent.encode

end Bundle

end WalletExchange
