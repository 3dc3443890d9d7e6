import WalletExchange.Cbor.Fields
import WalletExchange.Cbor.Tags
import WalletExchange.Path.Basic

/-!
# Paths in CBOR

A path is a map: the steps under 1, the fingerprint of the master key under 2, a recorded depth
under 3.  The steps are one flat array in which each step takes two places: a single step its index
and its hardening, a pair an array of its two steps and a `false`.  A wildcard is an empty array.
-/

namespace WalletExchange

open Cbor (Value DecodeError Fields)

namespace IndexSpec

def toCbor : IndexSpec → Value
  | index i => .unsigned i.value.toUInt64
  | wildcard => .array []

/-- Read an index below the bound, or an empty array. -/
def ofCbor? (v : Value) : Except DecodeError IndexSpec :=
  match v with
  | .array [] => .ok wildcard
  | .array (_ :: _) => .error (.invalidValue "index ranges are not supported")
  | v => do
    let n ← v.asUInt32
    match ChildIndex.ofUInt32? n with
    | .ok i => .ok (index i)
    | .error e => .error (.invalidValue e.message)

end IndexSpec

/-- Read a single step from its two places; the hardening is looked at first. -/
def SingleStep.ofCbor? (spec hardened : Value) : Except DecodeError SingleStep := do
  let isHardened ← hardened.asBool
  let spec ← IndexSpec.ofCbor? spec
  return ⟨spec, isHardened⟩

namespace PairStep

def toCbor (p : PairStep) : Value :=
  .array [p.external.spec.toCbor, .bool p.external.isHardened,
    p.internal.spec.toCbor, .bool p.internal.isHardened]

/-- Read a pair from the four places of its array. -/
def ofCbor? (a b c d : Value) : Except DecodeError PairStep := do
  let external ← SingleStep.ofCbor? a b
  let internal ← SingleStep.ofCbor? c d
  match ofSteps? external internal with
  | .ok p => .ok p
  | .error e => .error (.invalidValue e.message)

end PairStep

namespace Step

/-- The two places of a step. -/
def toCbor : Step → List Value
  | single s => [s.spec.toCbor, .bool s.isHardened]
  | pair p => [p.toCbor, .bool false]

/-- Read a step from its two places. -/
def ofCbor? (first second : Value) : Except DecodeError Step :=
  match first with
  | .array [a, b, c, d] => do
    let _ ← second.asBool
    return .pair (← PairStep.ofCbor? a b c d)
  | first => (SingleStep.ofCbor? first second).map single

/-- Read steps that take two places each. -/
def listOfCbor? : List Value → Except DecodeError (List Step)
  | first :: second :: rest => do
    let step ← ofCbor? first second
    let steps ← listOfCbor? rest
    return step :: steps
  | _ => .ok []

end Step

namespace Path

/-- The array of all steps. -/
def stepsToCbor (p : Path) : Value := .array (p.steps.flatMap Step.toCbor)

/-- Read the array of all steps. -/
def stepsOfCbor? (v : Value) : Except DecodeError (List Step) := do
  let places ← v.asArray
  if places.length % 2 = 0 then Step.listOfCbor? places
  else .error (.invalidValue "path components must come in index/hardened pairs")

/-- The map of a path. -/
def toCborContent (p : Path) : Value :=
  .ofFields ((1, p.stepsToCbor) ::
    (p.fingerprint.toList.map fun f => (2, .unsigned f.toUInt64)) ++
    p.explicitDepth.toList.map fun d => (3, .unsigned d.toUInt64))

/-- The tagged value. -/
def toCbor (p : Path) : Value := .tag Cbor.Tag.keyPath p.toCborContent

/-- Read a depth. -/
def depthOfCbor? (v : Value) : Except DecodeError UInt8 := do
  let n ← v.asUInt64
  if n.toNat < 256 then .ok n.toUInt8 else .error (.invalidValue "key depth exceeds 255")

/-- Read the map of a path and check its steps. -/
def ofCborContent? (v : Value) : Except DecodeError Path := do
  let fields ← v.asFields
  let steps ← stepsOfCbor? (← fields.require 1)
  let fingerprint ← fields.optional 2 Value.asUInt32
  let depth ← fields.optional 3 depthOfCbor?
  let path : Path := ⟨fingerprint, steps, none⟩
  let path := match depth with
    | some depth => path.setDepth depth
    | none => path
  match path.check .lastStepWildcard with
  | .ok () => .ok path
  | .error e => .error (.invalidValue e.message)

/-- Read the tagged value. -/
def ofCbor? (v : Value) : Except DecodeError Path := do
  ofCborContent? (← v.untag Cbor.Tag.keyPath)

end Path

end WalletExchange
