import WalletExchange.Path.Text
import WalletExchange.Record.Value

/-!
# Paths as records

Records of indexes, steps and paths hold whatever fits the types: whether an index is in range, a
pair is fixed or a path may be used anywhere is not looked at.
-/

namespace WalletExchange

open Record (Value)

namespace ChildIndex

def toRecord (i : ChildIndex) : Value := .ofUInt32 i.value

def ofRecord? (v : Value) : Option ChildIndex := v.asUInt32?.map fun n => ⟨n⟩

end ChildIndex

namespace IndexSpec

def toRecord : IndexSpec → Value
  | index i => .fields [("index", i.toRecord)]
  | wildcard => .text "wildcard"

def ofRecord? (v : Value) : Option IndexSpec :=
  match v.choice? with
  | some ("index", some content) => (ChildIndex.ofRecord? content).map index
  | _ => v.oneOf? [("wildcard", wildcard)]

end IndexSpec

namespace Branch

/-- The names of the branches. -/
def names : List (String × Branch) := [("external", external), ("internal", internal)]

def toRecord (b : Branch) : Value := .text b.name

def ofRecord? (v : Value) : Option Branch := v.oneOf? names

end Branch

namespace SingleStep

def toRecord (s : SingleStep) : Value :=
  .fields [("spec", s.spec.toRecord), ("isHardened", .bool s.isHardened)]

def ofRecord? (v : Value) : Option SingleStep := do
  match ← v.structure? ["spec", "isHardened"] with
  | [some spec, some isHardened] =>
    return ⟨← IndexSpec.ofRecord? spec, ← isHardened.asBool?⟩
  | _ => none

end SingleStep

namespace PairStep

def toRecord (p : PairStep) : Value :=
  .fields [("external", p.external.toRecord), ("internal", p.internal.toRecord)]

def ofRecord? (v : Value) : Option PairStep := do
  match ← v.structure? ["external", "internal"] with
  | [some external, some internal] =>
    return ⟨← SingleStep.ofRecord? external, ← SingleStep.ofRecord? internal⟩
  | _ => none

end PairStep

namespace Step

def toRecord : Step → Value
  | single s => .fields [("basic", s.toRecord)]
  | pair p => .fields [("pair", p.toRecord)]

def ofRecord? (v : Value) : Option Step :=
  match v.choice? with
  | some ("basic", some content) => (SingleStep.ofRecord? content).map single
  | some ("pair", some content) => (PairStep.ofRecord? content).map pair
  | _ => none

end Step

namespace Path

/-- The record of a fingerprint that may be unknown. -/
def originToRecord : Option Fingerprint → Value
  | none => .text "none"
  | some fingerprint => .fields [("fingerprint", .ofUInt32 fingerprint)]

/-- Read the record of a fingerprint that may be unknown. -/
def originOfRecord? (v : Value) : Option (Option Fingerprint) :=
  match v.choice? with
  | some ("fingerprint", some content) => content.asUInt32?.map some
  | _ => v.oneOf? [("none", none)]

def toRecord (p : Path) : Value :=
  .fields
    [("origin", originToRecord p.fingerprint), ("steps", .list (p.steps.map Step.toRecord)),
      ("depth", p.explicitDepth.elim .null fun d => .int d.toNat)]

/-- Read a depth that may be absent. -/
def depthOfRecord? : Option Value → Option (Option UInt8)
  | none | some .null => some none
  | some v => v.asUInt8?.map some

def ofRecord? (v : Value) : Option Path := do
  match ← v.structure? ["origin", "steps", "depth"] with
  | [some origin, some steps, depth] =>
    let fingerprint ← originOfRecord? origin
    let steps ← (← steps.asList?).mapM Step.ofRecord?
    return ⟨fingerprint, steps, ← depthOfRecord? depth⟩
  | _ => none

end Path

end WalletExchange
