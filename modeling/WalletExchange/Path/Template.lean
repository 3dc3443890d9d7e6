import WalletExchange.Path.Text

/-!
# Templates of account paths

A template is a path whose steps may also be placeholders for the coin type and the account number.
`PathTemplate.instantiate` puts numbers in for the placeholders, and `PathTemplate.admits` tells
whether a path could have come from that: a placeholder for the coin type admits 0 and 1 only, a
placeholder for the account and a wildcard admit every index.
-/

namespace WalletExchange

/-- The index of a step of a template. -/
inductive TemplateIndex where
  | fixed (i : ChildIndex)
  | wildcard
  | coinType
  | account
  deriving DecidableEq, Ord, Repr

namespace TemplateIndex

/-- The placeholder for the coin type. -/
def coinTypeName : List Char := "COIN_TYPE".toList

/-- The placeholder for the account number. -/
def accountName : List Char := "ACCOUNT".toList

def render : TemplateIndex → List Char
  | fixed i => i.render
  | wildcard => ['*']
  | coinType => coinTypeName
  | account => accountName

/-- Read a placeholder, an asterisk or an index. -/
def parse (text : List Char) : Except PathError TemplateIndex :=
  if text = coinTypeName then .ok coinType
  else if text = accountName then .ok account
  else if text = ['*'] then .ok wildcard
  else (ChildIndex.parse text).map fixed

/-- The index is one that the place in the template admits. -/
def admits (t : TemplateIndex) (i : ChildIndex) : Bool :=
  match t with
  | fixed j => i == j
  | coinType => i == .zero || i == .one
  | account | wildcard => true

/-- Put numbers in for the placeholders; a wildcard stays. -/
def instantiate (coinType account : ChildIndex) : TemplateIndex → IndexSpec
  | fixed i => .index i
  | wildcard => .wildcard
  | .coinType => .index coinType
  | .account => .index account

end TemplateIndex

instance : ToString TemplateIndex := ⟨fun i => String.ofList i.render⟩

/-- A step of a template. -/
structure TemplateStep where
  index : TemplateIndex
  isHardened : Bool
  deriving DecidableEq, Ord, Repr

namespace TemplateStep

/-- A step of a path fits: it is a fixed index that the place admits, hardened alike. -/
def admits (t : TemplateStep) : Step → Bool
  | .single ⟨.index i, isHardened⟩ => isHardened == t.isHardened && t.index.admits i
  | _ => false

def render (t : TemplateStep) : List Char := t.index.render ++ if t.isHardened then ['\''] else []

/-- The marks that follow a hardened index; a capital letter is none. -/
def isHardenedMark (c : Char) : Bool := c = '\'' || c = 'h'

/-- Read an index or placeholder with or without a mark of hardening. -/
def parse (text : List Char) : Except PathError TemplateStep :=
  match Text.beforeLast? isHardenedMark text with
  | some index => (TemplateIndex.parse index).map fun i => ⟨i, true⟩
  | none => (TemplateIndex.parse text).map fun i => ⟨i, false⟩

end TemplateStep

instance : ToString TemplateStep := ⟨fun t => String.ofList t.render⟩

/-- A path with placeholders. -/
structure PathTemplate where
  steps : List TemplateStep
  deriving DecidableEq, Ord, Repr

namespace PathTemplate

/-- The path with given numbers in place of the placeholders. -/
def instantiate (t : PathTemplate) (coinType account : UInt32) : Except IndexOverflow Path := do
  let coinType ← ChildIndex.ofUInt32? coinType
  let account ← ChildIndex.ofUInt32? account
  return .ofSteps (t.steps.map fun s =>
    .single ⟨s.index.instantiate coinType account, s.isHardened⟩)

/-- The path fits step by step. -/
def admits (t : PathTemplate) (p : Path) : Bool :=
  t.steps.length == p.steps.length && (t.steps.zip p.steps).all fun (t, s) => t.admits s

def render (t : PathTemplate) : List Char := Text.join '/' (t.steps.map TemplateStep.render)

/-- Read a step that a slash or the end of the text delimits. -/
def parseComponent (text : List Char) : Except PathError TemplateStep :=
  if text = [] then .error .emptyStep else TemplateStep.parse text

/-- Read steps with slashes between them, with or without `m/` in front. -/
def parse (text : List Char) : Except PathError PathTemplate := do
  let text := (Text.afterHead? ['m', '/'] text).getD text
  if text = [] then return ⟨[]⟩
  return ⟨← (text.splitOn '/').mapM parseComponent⟩

/-- Read a template from a string. -/
def ofString (text : String) : Except PathError PathTemplate := parse text.toList

end PathTemplate

instance : ToString PathTemplate := ⟨fun t => String.ofList t.render⟩

end WalletExchange
