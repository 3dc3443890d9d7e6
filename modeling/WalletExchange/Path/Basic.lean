import WalletExchange.Path.Step

/-!
# Derivation paths

A path leads from a master key, whose fingerprint may be known, to a key below it.  It may hold
steps that are still to be resolved: a wildcard as the last step and a pair of branches.

The depth of the key that a path leads to is the number of steps unless another depth is recorded;
`Path.setDepth` records only a depth that differs.
-/

namespace WalletExchange

/-- The first four bytes of the digest of a key, as a number. -/
abbrev Fingerprint := UInt32

/-- A path from a master key. -/
structure Path where
  /-- The master key, if known. -/
  fingerprint : Option Fingerprint
  steps : List Step
  /-- The recorded depth, if there is one; else the depth is the number of steps. -/
  explicitDepth : Option UInt8
  deriving DecidableEq, Ord, Repr

/-- Which steps the use of a path admits. -/
inductive StepPolicy where
  /-- Child numbers only, as in the origin of a key. -/
  | fixedOnly
  /-- A wildcard as the last step, and one pair, as below a key. -/
  | lastStepWildcard
  deriving DecidableEq, Repr

namespace Path

/-- A path from an unknown master key. -/
def ofSteps (steps : List Step) : Path := ⟨none, steps, none⟩

/-- A path from a known master key. -/
def fromMaster (fingerprint : Fingerprint) (steps : List Step) : Path :=
  ⟨some fingerprint, steps, none⟩

/-- The path of a master key. -/
def master : Path := ofSteps []

/-- The path of fixed steps with given child numbers. -/
def ofChildNumbers (numbers : List ChildNumber) : Path := ofSteps (numbers.map .ofChildNumber)

/-- The depth of the key that the path leads to. -/
def depth (p : Path) : UInt8 := p.explicitDepth.getD (UInt8.ofNat p.steps.length)

/-- Record the depth of the key that the path leads to. -/
def setDepth (depth : UInt8) (p : Path) : Path :=
  { p with explicitDepth := if depth.toNat = p.steps.length then none else some depth }

/-- Replace the master key. -/
def setOrigin (fingerprint : Option Fingerprint) (p : Path) : Path :=
  { p with fingerprint := fingerprint }

/-- Add a step at the end. -/
def push (step : Step) (p : Path) : Path := { p with steps := p.steps ++ [step] }

/-- The path that goes on with the steps of another one; a recorded depth is dropped. -/
def extended (p other : Path) : Path := ⟨p.fingerprint, p.steps ++ other.steps, none⟩

def isFixed (p : Path) : Bool := p.steps.all Step.isFixed

def hasWildcard (p : Path) : Bool := p.steps.any Step.isWildcard

def hasPair (p : Path) : Bool := p.steps.any Step.isPair

def hasHardenedSteps (p : Path) : Bool := p.steps.any Step.isHardened

/-- Check steps against a policy. -/
def checkSteps (policy : StepPolicy) (steps : List Step) : Except PathError Unit :=
  match policy with
  | .fixedOnly => if steps.all Step.isFixed then .ok () else .error .notFixed
  | .lastStepWildcard =>
    if steps.dropLast.any Step.isWildcard then .error .wildcardNotLast
    else if 1 < steps.countP Step.isPair then .error .multiplePairs
    else .ok ()

/-- Check the steps of a path against a policy. -/
def check (policy : StepPolicy) (p : Path) : Except PathError Unit := checkSteps policy p.steps

/-- The child numbers of the path, with an index put in for wildcards and a branch chosen from
pairs. -/
def childNumbers? (substitute : Option ChildIndex) (branch : Branch) (p : Path) :
    Option (List ChildNumber) :=
  p.steps.mapM (Step.resolve substitute branch)

/-- A step of a pattern admits a step: a wildcard admits every fixed index of the same hardening,
and any other step admits itself. -/
def stepAdmits : Step → Step → Bool
  | .single pattern, .single step =>
    pattern.isHardened == step.isHardened &&
      match pattern.spec, step.spec with
      | .wildcard, .index _ => true
      | .index i, .index j => i == j
      | _, .wildcard => false
  | .pair pattern, .pair step => pattern == step
  | _, _ => false

/-- The path, taken as a pattern, admits another path step by step. -/
def admits (pattern other : Path) : Bool :=
  pattern.steps.length == other.steps.length &&
    (pattern.steps.zip other.steps).all fun (p, s) => stepAdmits p s

end Path

end WalletExchange
