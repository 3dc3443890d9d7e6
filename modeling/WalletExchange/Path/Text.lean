import WalletExchange.Path.Basic
import WalletExchange.Text.Blank
import WalletExchange.Text.Hex

/-!
# Paths as text

A path is written as its steps with slashes between them, after the fingerprint of the master key if
it is known.  Eight hexadecimal digits in the first place read as a fingerprint, so a path from an
unknown master key whose first step looks like one is written with `m/` in front.
-/

namespace WalletExchange

/-- Eight hexadecimal digits. -/
def looksLikeFingerprint (text : List Char) : Bool :=
  text.length == 8 && text.all Hex.isDigit

/-- The eight hexadecimal digits of a fingerprint. -/
def renderFingerprint (fingerprint : Fingerprint) : List Char :=
  Hex.encode (Bytes.ofNat 4 fingerprint.toNat)

/-- Read eight hexadecimal digits. -/
def parseFingerprint? (text : List Char) : Option Fingerprint :=
  if looksLikeFingerprint text then
    (Hex.decode? text).map fun bytes => UInt32.ofNat (Bytes.toNat bytes)
  else none

namespace Path

/-- The steps, each with a slash in front. -/
def renderChildren (p : Path) : List Char := p.steps.flatMap fun s => '/' :: s.render

/-- The path as text. -/
def render (p : Path) : List Char :=
  let steps := p.steps.map Step.render
  match p.fingerprint, steps with
  | some fingerprint, _ => Text.join '/' (renderFingerprint fingerprint :: steps)
  | none, [] => ['m']
  | none, first :: _ =>
    (if looksLikeFingerprint first then ['m', '/'] else []) ++ Text.join '/' steps

/-- Read a step that a slash or the end of the text delimits. -/
def parseComponent (text : List Char) : Except PathError Step :=
  if text = [] then .error .emptyStep else Step.parse text

/-- Read the steps of a path and check them. -/
def parseSteps (fingerprint : Option Fingerprint) (components : List (List Char)) :
    Except PathError Path := do
  let steps ← components.mapM parseComponent
  checkSteps .lastStepWildcard steps
  return ⟨fingerprint, steps, none⟩

/-- Read a path with no blanks around it. -/
def parseTrimmed (text : List Char) : Except PathError Path :=
  if text = [] ∨ text = ['m'] then .ok master
  else
    match Text.afterHead? ['m', '/'] text with
    | some rest => parseSteps none (rest.splitOn '/')
    | none =>
      let components := text.splitOn '/'
      match components.head?.bind parseFingerprint? with
      | some fingerprint => parseSteps (some fingerprint) components.tail
      | none => parseSteps none components

/-- Read a path: `m`, or steps after `m/` or an optional fingerprint. -/
def parse (text : List Char) : Except PathError Path := parseTrimmed (Text.trim text)

/-- Read a path from a string. -/
def ofString (text : String) : Except PathError Path := parse text.toList

end Path

instance : ToString Path := ⟨fun p => String.ofList p.render⟩

end WalletExchange
