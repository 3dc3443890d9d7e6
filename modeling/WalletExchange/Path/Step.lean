import WalletExchange.Path.Index
import WalletExchange.Text.Split

/-!
# Derivation steps

A step of a path is a single index or wildcard, hardened or not, or a pair of such indexes for the
two branches of an account, as in `<0;1>`.
-/

namespace WalletExchange

/-- One index or wildcard with its hardening. -/
structure SingleStep where
  spec : IndexSpec
  isHardened : Bool
  deriving DecidableEq, Ord, Repr

namespace SingleStep

/-- A step with a given index that is not hardened. -/
def normal (i : ChildIndex) : SingleStep := ⟨.index i, false⟩

/-- The step that a child number fixes. -/
def ofChildNumber (n : ChildNumber) : SingleStep := ⟨.index n.index, n.isHardened⟩

def isWildcard (s : SingleStep) : Bool := s.spec.isWildcard

/-- The child number, with an index put in for a wildcard. -/
def resolve (substitute : Option ChildIndex) (s : SingleStep) : Option ChildNumber :=
  (s.spec.resolve substitute).map fun i => ⟨i, s.isHardened⟩

/-- The index or wildcard, followed by a quote if it is hardened. -/
def render (s : SingleStep) : List Char := s.spec.render ++ if s.isHardened then ['\''] else []

/-- The marks that follow a hardened index. -/
def isHardenedMark (c : Char) : Bool := c = '\'' || c = 'h' || c = 'H'

/-- Read an index or wildcard with or without a mark of hardening. -/
def parse (text : List Char) : Except PathError SingleStep :=
  match Text.beforeLast? isHardenedMark text with
  | some spec => (IndexSpec.parse spec).map fun s => ⟨s, true⟩
  | none => (IndexSpec.parse text).map fun s => ⟨s, false⟩

end SingleStep

instance : ToString SingleStep := ⟨fun s => String.ofList s.render⟩

/-- Two steps of which the branch takes one.  `PairStep.ofSteps?` and `PairStep.parse` make only
pairs of fixed indexes. -/
structure PairStep where
  external : SingleStep
  internal : SingleStep
  deriving DecidableEq, Ord, Repr

namespace PairStep

/-- A pair of two fixed steps. -/
def ofSteps? (external internal : SingleStep) : Except PathError PairStep :=
  if external.isWildcard || internal.isWildcard then .error .wildcardInPair
  else .ok ⟨external, internal⟩

/-- The pair of addresses to receive on and addresses for change. -/
def receiveChange : PairStep := ⟨.normal .zero, .normal .one⟩

/-- The step of a branch. -/
def select (branch : Branch) (p : PairStep) : SingleStep :=
  match branch with
  | .external => p.external
  | .internal => p.internal

def render (p : PairStep) : List Char :=
  '<' :: p.external.render ++ ';' :: p.internal.render ++ ['>']

/-- The text between angle brackets. -/
def inside? : List Char → Option (List Char)
  | '<' :: rest => Text.beforeLast? (· = '>') rest
  | _ => none

/-- Read two steps between angle brackets with a semicolon between them. -/
def parse (text : List Char) : Except PathError PairStep :=
  match (inside? text).bind (Text.splitFirst? ';') with
  | some (external, internal) => do
    let external ← SingleStep.parse external
    let internal ← SingleStep.parse internal
    ofSteps? external internal
  | none => .error (.invalidPair (String.ofList text))

theorem ofSteps?_eq_ok_iff {external internal : SingleStep} {p : PairStep} :
    ofSteps? external internal = .ok p ↔
      external.isWildcard = false ∧ internal.isWildcard = false ∧ p = ⟨external, internal⟩ := by
  unfold ofSteps?
  cases external.isWildcard <;> cases internal.isWildcard <;> simp [eq_comm]

end PairStep

instance : ToString PairStep := ⟨fun p => String.ofList p.render⟩

/-- A step of a path. -/
inductive Step where
  | single (s : SingleStep)
  | pair (p : PairStep)
  deriving DecidableEq, Ord, Repr

namespace Step

/-- The step that a child number fixes. -/
def ofChildNumber (n : ChildNumber) : Step := .single (.ofChildNumber n)

def isWildcard : Step → Bool
  | single s => s.isWildcard
  | pair _ => false

def isPair : Step → Bool
  | single _ => false
  | pair _ => true

/-- The step is a child number as it stands. -/
def isFixed (s : Step) : Bool := !s.isWildcard && !s.isPair

/-- Some index in the step is hardened. -/
def isHardened : Step → Bool
  | single s => s.isHardened
  | pair p => p.external.isHardened || p.internal.isHardened

/-- The step, unless it is a pair. -/
def single? : Step → Option SingleStep
  | single s => some s
  | pair _ => none

/-- The child number, with an index put in for a wildcard and a branch chosen from a pair. -/
def resolve (substitute : Option ChildIndex) (branch : Branch) : Step → Option ChildNumber
  | single s => s.resolve substitute
  | pair p => (p.select branch).resolve none

def render : Step → List Char
  | single s => s.render
  | pair p => p.render

/-- Read a pair if the text begins with an angle bracket, and else a single step. -/
def parse (text : List Char) : Except PathError Step :=
  if text.head? = some '<' then (PairStep.parse text).map pair
  else (SingleStep.parse text).map single

end Step

instance : ToString Step := ⟨fun s => String.ofList s.render⟩

end WalletExchange
