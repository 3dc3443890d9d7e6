import WalletExchange.Cbor.Fields
import WalletExchange.Script.Basic
import WalletExchange.Text.Bech32

/-!
# Addresses

An address stands for a script that pays to the digest of a key, to the digest of a script or to a
witness program.  `Address.script` is the script, `Address.ofScript?` the address of a script that
has one, `Address.render` and `Address.parse?` its text: checked base 58, or bech32 for witness
programs.  In CBOR the most common kinds are a type and a digest, and all others are the script.
-/

namespace WalletExchange

open Cbor (Value DecodeError Fields)

/-- A version and a program that a witness can have: there are seventeen versions, programs have 2
to 40 bytes, and those of version zero are the digest of a key or of a script. -/
structure WitnessProgram where
  version : Nat
  program : Bytes
  version_le : version ≤ 16
  two_le_length : 2 ≤ program.length
  length_le : program.length ≤ 40
  length_of_zero : version = 0 → program.length = 20 ∨ program.length = 32
  deriving DecidableEq, Repr

namespace WitnessProgram

/-- A version and a program, if a witness can have them. -/
def of? (version : Nat) (program : Bytes) : Option WitnessProgram :=
  if h : version ≤ 16 ∧ 2 ≤ program.length ∧ program.length ≤ 40 ∧
      (version = 0 → program.length = 20 ∨ program.length = 32) then
    some ⟨version, program, h.1, h.2.1, h.2.2.1, h.2.2.2⟩
  else none

@[simp] theorem of?_self (w : WitnessProgram) : of? w.version w.program = some w := by
  simp [of?, w.version_le, w.two_le_length, w.length_le]
  exact w.length_of_zero

/-- The program of version zero that is the digest of a key. -/
def ofKeyHash (hash : Block 20) : WitnessProgram :=
  ⟨0, hash.bytes, by simp, by simp [hash.length_bytes], by simp [hash.length_bytes],
    by simp [hash.length_bytes]⟩

end WitnessProgram

/-- What an address stands for. -/
inductive Payload where
  | keyHash (hash : Block 20)
  | scriptHash (hash : Block 20)
  | witness (program : WitnessProgram)
  deriving DecidableEq, Repr

/-- A payload on a network. -/
structure Address where
  payload : Payload
  network : BitcoinNetwork
  deriving DecidableEq, Repr

/-- Why a script has no address. -/
inductive NoAddress where
  | unrecognizedScript
  /-- A program of version zero has neither 20 nor 32 bytes. -/
  | programLength (length : Nat)
  deriving DecidableEq, Repr

/-- The text of the error. -/
def NoAddress.message : NoAddress → String
  | unrecognizedScript => "script is not a p2pkh, p2sh or witness program"
  | programLength length =>
    s!"a v0 witness program must be either of length 20 or 32 bytes: length={length}"

namespace Payload

/-- The script that the payload stands for. -/
def script : Payload → Script
  | keyHash hash => .payToKeyHash hash
  | scriptHash hash => .payToScriptHash hash
  | witness w => .payToWitness w.version w.program

/-- The version of a witness program by the first byte of its script. -/
def witnessVersion? (first : UInt8) : Option Nat :=
  if first = 0 then some 0
  else if 0x51 ≤ first ∧ first ≤ 0x60 then some (first.toNat - 0x50)
  else none

/-- The program in a script of a version and one push of 2 to 40 bytes. -/
def witnessProgram? : Bytes → Option (Nat × Bytes)
  | first :: length :: program =>
    if 2 ≤ length ∧ length ≤ 40 ∧ program.length = length.toNat then
      (witnessVersion? first).map fun version => (version, program)
    else none
  | _ => none

/-- The digest in a script that pays to the digest of a key. -/
def keyHash? (s : Script) : Option (Block 20) :=
  (Block.ofBytes? ((s.bytes.drop 3).take 20)).filter fun hash => s = .payToKeyHash hash

/-- The digest in a script that pays to the digest of a script. -/
def scriptHash? (s : Script) : Option (Block 20) :=
  (Block.ofBytes? ((s.bytes.drop 2).take 20)).filter fun hash => s = .payToScriptHash hash

/-- The payload that a script stands for. -/
def ofScript? (s : Script) : Except NoAddress Payload :=
  match keyHash? s, scriptHash? s, witnessProgram? s.bytes with
  | some hash, _, _ => .ok (.keyHash hash)
  | none, some hash, _ => .ok (.scriptHash hash)
  | none, none, some (version, program) =>
    match WitnessProgram.of? version program with
    | some w => .ok (.witness w)
    | none => .error (.programLength program.length)
  | none, none, none => .error .unrecognizedScript

end Payload

namespace Address

/-- The script that the address stands for. -/
def script (a : Address) : Script := a.payload.script

/-- The address of a script on a network. -/
def ofScript? (network : BitcoinNetwork) (s : Script) : Except NoAddress Address :=
  (Payload.ofScript? s).map fun payload => ⟨payload, network⟩

/-- The head of the text of a witness program. -/
def head : BitcoinNetwork → List Char
  | .bitcoin => ['b', 'c']
  | .testnet | .signet => ['t', 'b']
  | .regtest => ['b', 'c', 'r', 't']

/-- The kind of the check for a version. -/
def checkKind (version : Nat) : Bech32.Kind := if version = 0 then .bech32 else .bech32m

/-- The address as text. -/
def render (a : Address) : List Char :=
  match a.payload with
  | .keyHash hash => Base58.encodeChecked ((if a.network = .bitcoin then 0 else 111) :: hash.bytes)
  | .scriptHash hash =>
    Base58.encodeChecked ((if a.network = .bitcoin then 5 else 196) :: hash.bytes)
  | .witness w =>
    Bech32.encode (checkKind w.version) (head a.network) (w.version :: Bech32.ofBytes w.program)

/-- The text before the last `1`, or all of it. -/
def headOf (text : List Char) : List Char :=
  match Text.splitLast? '1' text with
  | some (head, _) => head
  | none => text

/-- The network of the head of a text, in lower or in upper case. -/
def networkOfHead? (text : List Char) : Option BitcoinNetwork :=
  [BitcoinNetwork.bitcoin, .testnet, .regtest].find? fun network =>
    text == head network || text == (head network).map Char.toUpper

/-- Read a witness program on a network. -/
def parseWitness? (network : BitcoinNetwork) (text : List Char) : Option Address := do
  let (_, symbols, kind) ← Bech32.decode? text
  match symbols with
  | [] => none
  | version :: rest =>
    let w ← WitnessProgram.of? version (← Bech32.toBytes? rest)
    if kind = checkKind version then return ⟨.witness w, network⟩ else none

/-- Read the digest of a key or of a script. -/
def parseHash? (text : List Char) : Option Address := do
  if 50 < text.length then none
  let data ← Base58.decodeChecked? text
  let hash ← Block.ofBytes? data.tail
  match data.headD 0 with
  | 0 => return ⟨.keyHash hash, .bitcoin⟩
  | 5 => return ⟨.scriptHash hash, .bitcoin⟩
  | 111 => return ⟨.keyHash hash, .testnet⟩
  | 196 => return ⟨.scriptHash hash, .testnet⟩
  | _ => none

/-- Read an address: a text with the head of a network is a witness program and nothing else. -/
def parse? (text : List Char) : Option Address :=
  match networkOfHead? (headOf text) with
  | some network => parseWitness? network text
  | none => parseHash? text

/-- The map of the address: use information under 1, a type under 2, and under 3 a digest or, where
there is no type, a script. -/
def toCborContent (a : Address) : Value :=
  let use := (UseInfo.ofNetwork (.ofBitcoin a.network)).field 1
  match a.payload with
  | .keyHash hash => .ofFields (use ++ [(2, .unsigned 0), (3, .bytes hash.bytes)])
  | .scriptHash hash => .ofFields (use ++ [(2, .unsigned 1), (3, .bytes hash.bytes)])
  | .witness w =>
    if w.version = 0 ∧ w.program.length = 20 then
      .ofFields (use ++ [(2, .unsigned 2), (3, .bytes w.program)])
    else .ofFields (use ++ [(3, .bytes a.script.bytes)])

/-- The tagged value. -/
def toCbor (a : Address) : Value := .tag Cbor.Tag.address a.toCborContent

/-- Twenty bytes, or the error that says how many there are. -/
def hashOfBytes? (data : Bytes) : Except DecodeError (Block 20) :=
  match Block.ofBytes? data with
  | some hash => .ok hash
  | none => .error (.invalidValue s!"bad slice length {data.length} (expected 20)")

/-- The payload of a type and data. -/
def payloadOfType? (type : UInt64) (data : Bytes) : Except DecodeError Payload :=
  if type = 0 then (hashOfBytes? data).map .keyHash
  else if type = 1 then (hashOfBytes? data).map .scriptHash
  else if type = 2 then
    match Block.ofBytes? data with
    | some hash => .ok (.witness (.ofKeyHash hash))
    | none => .error (.invalidValue "P2WPKH program must be 20 bytes")
  else .error (.invalidValue s!"unknown address type {type.toNat}")

/-- Read the map of an address. -/
def ofCborContent? (v : Value) : Except DecodeError Address := do
  let fields ← v.asFields
  let use ← UseInfo.ofField? fields 1
  let network := use.network.toBitcoin
  let data ← (← fields.require 3).asBytes
  match ← fields.optional 2 Value.asUInt64 with
  | some type => return ⟨← payloadOfType? type data, network⟩
  | none =>
    match ofScript? network ⟨data⟩ with
    | .ok a => return a
    | .error e => throw (.invalidValue e.message)

/-- Read the tagged value. -/
def ofCbor? (v : Value) : Except DecodeError Address := do
  ofCborContent? (← v.untag Cbor.Tag.address)

end Address

instance : ToString Address := ⟨fun a => String.ofList a.render⟩

end WalletExchange
