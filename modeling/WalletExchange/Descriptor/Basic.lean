import WalletExchange.Descriptor.Checksum
import WalletExchange.Descriptor.Codec
import WalletExchange.Descriptor.Output
import WalletExchange.Descriptor.Parser

/-!
# Output descriptors

A descriptor is a tree of script functions with the text it was read from.  Two descriptors are the
same if their trees are.  A descriptor is exchanged as text, which may end with a checksum, as a
tagged CBOR value, or as the text of a uniform resource that holds the bytes of the value.
-/

namespace WalletExchange

open Cbor (Value DecodeError Fields)

/-- A tree of script functions and the text it was read from. -/
structure OutputDescriptor where
  /-- The text, without a checksum. -/
  source : String
  node : Node

namespace OutputDescriptor

/-- A descriptor that is not read from text. -/
def ofNode (node : Node) : OutputDescriptor := ⟨toString node, node⟩

/-- The trees are equal. -/
def same (a b : OutputDescriptor) : Bool := a.node = b.node

/-- The canonical text. -/
def render (d : OutputDescriptor) : List Char := d.node.render

/-- The checksum of the canonical text. -/
def checksum? (d : OutputDescriptor) : Option (List Char) := Checksum.ofText? d.render

/-- The canonical text with its checksum. -/
def renderWithChecksum (d : OutputDescriptor) : List Char :=
  d.render ++ d.checksum?.elim [] ('#' :: ·)

/-- Compare the checksum at the end of a text with that of the source in front of it. -/
def verifyChecksum (text source : String) (found : List Char) : Except ParseError Unit :=
  match Checksum.ofText? source.toList with
  | none => .error (.atStart .noChecksum text)
  | some expected =>
    if found = expected then .ok ()
    else .error
      { fault := .wrongChecksum (String.ofList found) (String.ofList expected)
        position := 0
        offset := source.utf8ByteSize + 1
        source := text }

/-- The source and the checksum after the last `#`. -/
def splitChecksum (text : String) : String × Option (List Char) :=
  match Text.splitLast? '#' text.toList with
  | some (source, checksum) => (String.ofList source, some checksum)
  | none => (text, none)

/-- Read a descriptor with or without a checksum, and keep a journal.  The source is read first. -/
def read (text : String) : Except ParseError OutputDescriptor × Journal :=
  let (source, checksum) := splitChecksum text
  let (result, journal) := Parser.runFrom Parser.wholeScript source
  (do
    let node ← result
    match checksum with
    | some found => verifyChecksum text source found
    | none => pure ()
    return ⟨source, node⟩,
   journal)

/-- Read a descriptor with or without a checksum. -/
def ofString (text : String) : Except ParseError OutputDescriptor := (read text).1

/-- The script that the descriptor pays to. -/
def script (d : OutputDescriptor) (c : ScriptContext) : Resolution Script := d.node.script c

/-- The address of the script on a network, if it has one. -/
def address? (d : OutputDescriptor) (c : ScriptContext) (network : BitcoinNetwork) :
    Option Address :=
  (d.script c).value?.bind fun s => (Address.ofScript? network s).toOption

/-- Some key is an extended one. -/
def isDerivable (d : OutputDescriptor) : Bool := d.node.keys.any KeyExpression.isHd

/-- The first key. -/
def baseKey? (d : OutputDescriptor) : Option KeyExpression := d.node.keys.head?

/-- The tagged value. -/
def toCbor (d : OutputDescriptor) : Value := .tag Cbor.Tag.output d.node.toCbor

/-- Read the value under the tag. -/
def ofCborContent? (v : Value) : Except DecodeError OutputDescriptor := (Node.ofCbor? v).map ofNode

/-- Read the tagged value. -/
def ofCbor? (v : Value) : Except DecodeError OutputDescriptor := do
  ofCborContent? (← v.untag Cbor.Tag.output)

/-- What the text of a resource begins with. -/
def scheme : String := "ur:crypto-output/"

/-- The bytes of the value under the tag, in hexadecimal after the scheme. -/
def toResource (d : OutputDescriptor) : String := scheme ++ Hex.text d.node.toCbor.encode

/-- Read the text of a resource in any letter case. -/
def ofResource (text : String) : Except DecodeError OutputDescriptor := do
  match Text.afterHead? scheme.toList (text.toList.map Char.toLower) with
  | none => throw (.malformed (.missingScheme scheme))
  | some digits =>
    match Hex.decode? digits with
    | none => throw (.malformed .encoding)
    | some bytes => ofCborContent? (← Value.decode? bytes)

end OutputDescriptor

instance : ToString OutputDescriptor := ⟨fun d => String.ofList d.render⟩

end WalletExchange
