import Mathlib.Data.List.Basic
import WalletExchange.Account.Bundle
import WalletExchange.Account.Request
import WalletExchange.Proofs.Checked.Basic

/-!
# Proofs — decoders that look at what they take

A decoder takes a list of places apart into pieces of two, takes the four places of a pair, a chain
code of 32 bytes, and the first byte and the others of the data of a private key.  Tests of lengths
come before each of these, some of them at a distance.  Here the decoders that do so, and all
decoders that they are a part of, look at what is there.

Main statements:

* `Checked.mapM_stepOfPiece?` — of an even number of places, each piece has two.
* `Checked.xkeyOfData?_eq`, `Checked.chainCodeOfBytes?_eq` — keys and chain codes have the bytes
  that are taken.
* `Checked.nodeOfCbor?_eq` — no decoder of a descriptor faults on any value.
-/

namespace WalletExchange.Checked

open Cbor (Value DecodeError Fields)

variable {α : Type}

/-! ### Parts of values -/

/-- The value of an entry that may be absent, decoded. -/
def optional (fields : Fields) (key : UInt64) (decode : Value → Guarded DecodeError α) :
    Guarded DecodeError (Option α) := do
  match fields.find? key with
  | some value => return some (← decode value)
  | none => return none

/-- The value of an entry, decoded, or a default if it is absent. -/
def getOr (fields : Fields) (key : UInt64) (decode : Value → Guarded DecodeError α) (default : α) :
    Guarded DecodeError α := do
  return (← optional fields key decode).getD default

theorem optional_eq {decode : Value → Guarded DecodeError α} {plain : Value → Except DecodeError α}
    (h : ∀ v, decode v = total (plain v)) (fields : Fields) (key : UInt64) :
    optional fields key decode = total (fields.optional key plain) := by
  rw [optional, Fields.optional]
  cases fields.find? key with
  | none => rfl
  | some v =>
      dsimp only
      rw [h]
      cases plain v <;> rfl

theorem getOr_eq {decode : Value → Guarded DecodeError α} {plain : Value → Except DecodeError α}
    (h : ∀ v, decode v = total (plain v)) (fields : Fields) (key : UInt64) (default : α) :
    getOr fields key decode default = total (fields.getOr key plain default) := by
  rw [getOr, optional_eq h, Fields.getOr]
  cases fields.optional key plain <;> rfl

/-! ### Use information -/

/-- Read the tagged value of use information, of which nothing is taken by its place. -/
def useInfoOfCbor? (v : Value) : Guarded DecodeError UseInfo := do
  let content ← total (v.untag Cbor.Tag.coinInfo)
  total (UseInfo.ofCborContent? content)

theorem useInfoOfCbor?_eq (v : Value) : useInfoOfCbor? v = total (UseInfo.ofCbor? v) := by
  rw [useInfoOfCbor?, UseInfo.ofCbor?, total_bind]

theorem useInfoOfField?_eq (fields : Fields) (key : UInt64) :
    getOr fields key useInfoOfCbor? .standard = total (UseInfo.ofField? fields key) :=
  getOr_eq useInfoOfCbor?_eq fields key .standard

/-! ### Paths -/

/-- The pieces of two items; the last one may have one. -/
def pieces : List α → List (List α)
  | first :: second :: rest => [first, second] :: pieces rest
  | [first] => [[first]]
  | [] => []

/-- Read a single step of which the first place is known. -/
def singleOfPiece? (first : Value) (piece : List Value) : Guarded DecodeError Step := do
  let second ← lift (item piece 1)
  total ((SingleStep.ofCbor? first second).map .single)

/-- Read a pair from its four places, which are taken one by one. -/
def pairOfParts? (parts : List Value) : Guarded DecodeError PairStep := do
  let a ← lift (item parts 0)
  let b ← lift (item parts 1)
  let external ← total (SingleStep.ofCbor? a b)
  let c ← lift (item parts 2)
  let d ← lift (item parts 3)
  let internal ← total (SingleStep.ofCbor? c d)
  total (match PairStep.ofSteps? external internal with
    | .ok p => .ok p
    | .error e => .error (.invalidValue e.message))

/-- Read a step from its piece. -/
def stepOfPiece? (piece : List Value) : Guarded DecodeError Step := do
  let first ← lift (item piece 0)
  match first with
  | .array parts =>
    if parts.length = 4 then
      let second ← lift (item piece 1)
      let _ ← total second.asBool
      return .pair (← pairOfParts? parts)
    else singleOfPiece? (.array parts) piece
  | first => singleOfPiece? first piece

/-- Read the array of all steps. -/
def stepsOfCbor? (v : Value) : Guarded DecodeError (List Step) := do
  let places ← total v.asArray
  if places.length % 2 = 0 then (pieces places).mapM stepOfPiece?
  else throw (.invalidValue "path components must come in index/hardened pairs")

/-- Read the tagged value of a path. -/
def pathOfCbor? (v : Value) : Guarded DecodeError Path := do
  let content ← total (v.untag Cbor.Tag.keyPath)
  let fields ← total content.asFields
  let entry ← total (fields.require 1)
  let steps ← stepsOfCbor? entry
  total do
    let fingerprint ← fields.optional 2 Value.asUInt32
    let depth ← fields.optional 3 Path.depthOfCbor?
    let path : Path := ⟨fingerprint, steps, none⟩
    let path := match depth with
      | some depth => path.setDepth depth
      | none => path
    match path.check .lastStepWildcard with
    | .ok () => .ok path
    | .error e => .error (.invalidValue e.message)

theorem pairOfParts?_eq (a b c d : Value) :
    pairOfParts? [a, b, c, d] = total (PairStep.ofCbor? a b c d) := by
  rw [PairStep.ofCbor?]
  simp only [total_bind]
  rfl

theorem stepOfPiece?_eq (first second : Value) :
    stepOfPiece? [first, second] = total (Step.ofCbor? first second) := by
  have hsingle : singleOfPiece? first [first, second] =
      total ((SingleStep.ofCbor? first second).map .single) := rfl
  rw [stepOfPiece?, item_of_getElem? (a := first) rfl, lift_ok, pure_bind]
  cases first with
  | array parts =>
      dsimp only
      split
      · next hlength =>
        obtain ⟨a, b, c, d, rfl⟩ := List.length_eq_four.mp hlength
        rw [pairOfParts?_eq, Step.ofCbor?]
        simp only [total_bind]
        rfl
      · next hlength =>
        rw [hsingle, Step.ofCbor?.eq_def]
        split
        · next a b c d heq =>
          cases heq
          exact absurd rfl hlength
        · rfl
  | _ => exact hsingle

/-- Of an even number of places, each piece has two. -/
theorem mapM_stepOfPiece? {places : List Value} (h : places.length % 2 = 0) :
    (pieces places).mapM stepOfPiece? = total (Step.listOfCbor? places) := by
  induction places using pieces.induct with
  | case1 first second rest ih =>
      have hrest : rest.length % 2 = 0 := by
        rw [List.length_cons, List.length_cons] at h
        omega
      rw [pieces, List.mapM_cons, stepOfPiece?_eq, Step.listOfCbor?, ih hrest]
      simp only [total_bind]
      rfl
  | case2 first => cases h
  | case3 => rfl

theorem stepsOfCbor?_eq (v : Value) : stepsOfCbor? v = total (Path.stepsOfCbor? v) := by
  rw [stepsOfCbor?, Path.stepsOfCbor?, total_bind]
  refine bind_congr fun places => ?_
  split
  · next h => exact mapM_stepOfPiece? h
  · rfl

theorem pathOfCbor?_eq (v : Value) : pathOfCbor? v = total (Path.ofCbor? v) := by
  rw [pathOfCbor?, Path.ofCbor?, total_bind]
  refine bind_congr fun content => ?_
  rw [Path.ofCborContent?, total_bind]
  refine bind_congr fun fields => ?_
  rw [total_bind]
  refine bind_congr fun entry => ?_
  rw [stepsOfCbor?_eq]
  exact (total_bind _ _).symm

/-! ### Keys -/

/-- A chain code, which has to have 32 bytes. -/
def chainCodeOfBytes? (data : Bytes) : Guarded DecodeError (Block 32) :=
  if data.length ≠ 32 then throw (.invalidValue "chain code must be 32 bytes")
  else lift (block 32 data)

/-- The fingerprint that a number stands for, through its four bytes. -/
def fingerprintOfNumber (n : UInt32) : Checked Fingerprint := do
  let b ← block 4 (Bytes.ofNat 4 n.toNat)
  return UInt32.ofNat (Bytes.toNat b.bytes)

/-- The key of an extended key from its place in the tree, its kind and its data, of which the first
byte is looked at in a private key. -/
def xkeyOfData? (isPrivate : Bool) (data : Bytes) (place : Extended Unit) :
    Guarded DecodeError XKey :=
  if isPrivate then
    if data.length ≠ 33 then
      throw (.invalidValue "private key data must be 33 bytes starting with zero")
    else do
      let first ← lift (item data 0)
      if first ≠ 0 then
        throw (.invalidValue "private key data must be 33 bytes starting with zero")
      else
        let rest ← lift (itemsFrom data 1)
        let secret ← total (KeyExpression.secretOfBytes? rest)
        return .xprv { place with key := secret }
  else total (KeyExpression.xkeyOfData? false data place)

/-- Read the map of an extended key. -/
def hdOfCborContent? (v : Value) : Guarded DecodeError KeyExpression := do
  let fields ← total v.asFields
  let isMaster ← total (fields.getOr 1 Value.asBool false)
  let isPrivate ← if isMaster then pure true else total (fields.getOr 2 Value.asBool false)
  let entry ← total (fields.require 3)
  let data ← total entry.asBytes
  let entry ← total (fields.require 4)
  let bytes ← total entry.asBytes
  let chainCode ← chainCodeOfBytes? bytes
  let use ← getOr fields 5 useInfoOfCbor? .standard
  let origin ← optional fields 6 pathOfCbor?
  let children ← optional fields 7 pathOfCbor?
  let number ← total (fields.getOr 8 Value.asUInt32 0)
  let parent ← lift (fingerprintOfNumber number)
  let key ← xkeyOfData? isPrivate data
    { network := use.network.toBitcoin
      depth := origin.elim 0 Path.depth
      parent
      child := KeyExpression.childOfOrigin origin
      chainCode
      key := () }
  return ⟨KeyExpression.keptOrigin? origin, .hd ⟨key, children⟩⟩

/-- Read the tagged value of a key. -/
def keyOfCbor? : Value → Guarded DecodeError KeyExpression
  | .tag number content =>
    if number = Cbor.Tag.ecKey then total (KeyExpression.ecOfCborContent? content)
    else if number = Cbor.Tag.hdKey then hdOfCborContent? content
    else throw (.unknownTag number)
  | _ => throw (.unexpectedType .taggedKey)

theorem chainCodeOfBytes?_eq (data : Bytes) :
    chainCodeOfBytes? data = total (KeyExpression.chainCodeOfBytes? data) := by
  rw [chainCodeOfBytes?, KeyExpression.chainCodeOfBytes?]
  by_cases h : data.length = 32
  · rw [block_of_length h, Block.ofBytes?, dif_pos h, if_neg fun hne => hne h]
    rfl
  · rw [Block.ofBytes?, dif_neg h, if_pos h]
    rfl

theorem fingerprintOfNumber_eq (n : UInt32) : fingerprintOfNumber n = .ok n := by
  have hcapacity : n.toNat < Bytes.capacity 4 := n.toNat_lt
  rw [fingerprintOfNumber, block_of_length (Bytes.length_ofNat 4 n.toNat), ok_bind,
    Bytes.toNat_ofNat hcapacity, UInt32.ofNat_toNat]
  rfl

theorem xkeyOfData?_eq (isPrivate : Bool) (data : Bytes) (place : Extended Unit) :
    xkeyOfData? isPrivate data place = total (KeyExpression.xkeyOfData? isPrivate data place) := by
  cases isPrivate with
  | false => rfl
  | true =>
      rw [xkeyOfData?, if_pos rfl, KeyExpression.xkeyOfData?, if_pos rfl]
      by_cases hlength : data.length = 33
      · obtain ⟨first, rest, rfl⟩ := List.exists_cons_of_length_eq_add_one hlength
        rw [if_neg fun hne => hne hlength, item_of_getElem? (a := first) rfl, lift_ok, pure_bind,
          itemsFrom_of_le (Nat.le_add_left _ _)]
        by_cases hfirst : first = 0
        · rw [if_neg fun hne => hne hfirst, if_pos ⟨hlength, congrArg some hfirst⟩, total_bind]
          rfl
        · rw [if_pos hfirst, if_neg fun h => hfirst (Option.some.inj h.2)]
          rfl
      · rw [if_pos hlength, if_neg fun h => hlength h.1]
        rfl

theorem hdOfCborContent?_eq (v : Value) :
    hdOfCborContent? v = total (KeyExpression.hdOfCborContent? v) := by
  have hpath := optional_eq pathOfCbor?_eq
  simp only [hdOfCborContent?, KeyExpression.hdOfCborContent?, chainCodeOfBytes?_eq,
    useInfoOfField?_eq, hpath, fingerprintOfNumber_eq, xkeyOfData?_eq, total_bind, lift_ok,
    pure_bind]
  refine bind_congr fun fields => bind_congr fun isMaster => ?_
  cases isMaster with
  | false =>
      rw [if_neg Bool.false_ne_true, if_neg Bool.false_ne_true]
      simp only [total_bind]
      rfl
  | true =>
      rw [if_pos rfl, if_pos rfl]
      simp only [total_bind]
      rfl

theorem keyOfCbor?_eq (v : Value) : keyOfCbor? v = total (KeyExpression.ofCbor? v) := by
  cases v with
  | tag number content =>
      rw [keyOfCbor?, KeyExpression.ofCbor?, KeyExpression.ofCborContent?]
      split
      · rfl
      · split
        · exact hdOfCborContent?_eq content
        · rfl
  | _ => rfl

/-! ### Script functions -/

/-- Read a threshold and as many keys at least. -/
def multisigOfCborContent? (isSorted : Bool) (v : Value) : Guarded DecodeError Multisig := do
  let fields ← total v.asFields
  let entry ← total (fields.require 1)
  let threshold ← total entry.asUInt64
  let entry ← total (fields.require 2)
  let items ← total entry.asArray
  let keys ← items.mapM keyOfCbor?
  total do
    if threshold = 0 ∨ keys.length < threshold.toNat ∨ Multisig.maxKeys < keys.length then
      throw (.invalidValue s!"invalid {threshold.toNat}-of-{keys.length} multisig")
    return ⟨threshold, keys, isSorted⟩

/-- Read the key of a function. -/
def keyFunctionOfCbor? (f : KeyFunction) (v : Value) : Guarded DecodeError Node := do
  let k ← keyOfCbor? v
  total do
    if f = .tr ∧ k.isUncompressed then throw (.invalidValue "taproot key must be compressed")
    return .key f k

mutual

/-- Read what stands under a tag. -/
def nodeOfCborContent? (number : UInt64) (content : Value) : Guarded DecodeError Node :=
  if number = Cbor.Tag.scriptHash then do
    let inner ← nodeOfCbor? content
    total (do return .sh (← Node.checkInside .sh inner))
  else if number = Cbor.Tag.witnessScriptHash then do
    let inner ← nodeOfCbor? content
    total (do return .wsh (← Node.checkInside .wsh inner))
  else if number = Cbor.Tag.multisig then
    return .multi (← multisigOfCborContent? false content)
  else if number = Cbor.Tag.sortedMultisig then
    return .multi (← multisigOfCborContent? true content)
  else if number = Cbor.Tag.rawScript then total (do return .raw ⟨← content.asBytes⟩)
  else if number = Cbor.Tag.address then
    total (do return .addr (← Address.ofCborContent? content))
  else
    match Node.keyFunctionOfTag? number with
    | some f => keyFunctionOfCbor? f content
    | none => throw (.unknownTag number)
termination_by (sizeOf content, 1)

/-- Read the tagged value of a function. -/
def nodeOfCbor? (v : Value) : Guarded DecodeError Node :=
  match v with
  | .tag number content => nodeOfCborContent? number content
  | _ => throw (.unexpectedType .taggedScriptFunction)
termination_by (sizeOf v, 0)

end

theorem multisigOfCborContent?_eq (isSorted : Bool) (v : Value) :
    multisigOfCborContent? isSorted v = total (Multisig.ofCborContent? isSorted v) := by
  simp only [multisigOfCborContent?, Multisig.ofCborContent?, mapM_total keyOfCbor?_eq, total_bind]

theorem keyFunctionOfCbor?_eq (f : KeyFunction) (v : Value) :
    keyFunctionOfCbor? f v = total (Node.keyOfCbor? f v) := by
  rw [keyFunctionOfCbor?, Node.keyOfCbor?, total_bind, keyOfCbor?_eq]

mutual

theorem nodeOfCborContent?_eq (number : UInt64) (content : Value) :
    nodeOfCborContent? number content = total (Node.ofCborContent? number content) := by
  have hkey : (match Node.keyFunctionOfTag? number with
      | some f => keyFunctionOfCbor? f content
      | none => throw (.unknownTag number)) =
      total (match Node.keyFunctionOfTag? number with
        | some f => Node.keyOfCbor? f content
        | none => .error (.unknownTag number)) := by
    cases Node.keyFunctionOfTag? number with
    | none => rfl
    | some f => exact keyFunctionOfCbor?_eq f content
  rw [nodeOfCborContent?, Node.ofCborContent?, hkey]
  simp only [apply_ite total, nodeOfCbor?_eq content, multisigOfCborContent?_eq, total_bind]
  rfl
termination_by (sizeOf content, 1)

/-- No decoder of a descriptor faults on any value. -/
theorem nodeOfCbor?_eq (v : Value) : nodeOfCbor? v = total (Node.ofCbor? v) := by
  rw [nodeOfCbor?.eq_def, Node.ofCbor?.eq_def]
  cases v with
  | tag number content => exact nodeOfCborContent?_eq number content
  | _ => rfl
termination_by (sizeOf v, 0)

end

/-! ### Descriptors, accounts and requests -/

/-- Read the tagged value of a descriptor. -/
def descriptorOfCbor? (v : Value) : Guarded DecodeError OutputDescriptor := do
  let content ← total (v.untag Cbor.Tag.output)
  let node ← nodeOfCbor? content
  return .ofNode node

/-- Read the tagged value of the descriptors of accounts. -/
def accountOfCbor? (v : Value) : Guarded DecodeError AccountDescriptors := do
  let content ← total (v.untag Cbor.Tag.account)
  let fields ← total content.asFields
  let entry ← total (fields.require 1)
  let masterFingerprint ← total entry.asUInt32
  let entry ← total (fields.require 2)
  let items ← total entry.asArray
  let descriptors ← items.mapM descriptorOfCbor?
  return { masterFingerprint, descriptors }

/-- Read the tagged value of a request. -/
def requestOfCbor? (v : Value) : Guarded DecodeError KeyRequest := do
  let content ← total (v.untag Cbor.Tag.keyRequest)
  let fields ← total content.asFields
  let entry ← total (fields.require 1)
  let isPrivate ← total entry.asBool
  let entry ← total (fields.require 2)
  let path ← pathOfCbor? entry
  let useInfo ← getOr fields 3 useInfoOfCbor? .standard
  total do
    let isDerivable ← fields.getOr 4 Value.asBool true
    return { keyType := .ofIsPrivate isPrivate, path, useInfo, isDerivable }

theorem descriptorOfCbor?_eq (v : Value) :
    descriptorOfCbor? v = total (OutputDescriptor.ofCbor? v) := by
  simp only [descriptorOfCbor?, OutputDescriptor.ofCbor?, OutputDescriptor.ofCborContent?,
    nodeOfCbor?_eq, total_bind]
  refine bind_congr fun content => ?_
  cases Node.ofCbor? content <;> rfl

theorem accountOfCbor?_eq (v : Value) :
    accountOfCbor? v = total (AccountDescriptors.ofCbor? v) := by
  simp only [accountOfCbor?, AccountDescriptors.ofCbor?, AccountDescriptors.ofCborContent?,
    mapM_total descriptorOfCbor?_eq, total_bind]
  rfl

theorem requestOfCbor?_eq (v : Value) : requestOfCbor? v = total (KeyRequest.ofCbor? v) := by
  simp only [requestOfCbor?, KeyRequest.ofCbor?, KeyRequest.ofCborContent?, pathOfCbor?_eq,
    useInfoOfField?_eq, total_bind]

end WalletExchange.Checked
