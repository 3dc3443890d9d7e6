import WalletExchange.Proofs.Checked.Codec
import WalletExchange.Proofs.Checked.Parser
import WalletExchange.Proofs.Checked.Text

/-!
# Proofs — no reader faults

A checksum takes its characters out of a table of 32, by numbers of five bits.  With that, all
readers of texts and of values are put together from operations that look at their domains, and each
of them agrees with the reader itself: whatever it is given, it has the same result or the same
error, and never a fault.

Main statements:

* `Checked.renderChecksum_eq` — five bits are a place in the table.
* `Checked.readers_eq` — no reader faults on any text or value.
-/

namespace WalletExchange.Checked

open Cbor (Value DecodeError)

/-! ### Checksums -/

/-- The eight characters of a register, of which each is taken out of the table. -/
def renderChecksum (register : Nat) : Checked (List Char) :=
  (List.range 8).mapM fun i => do
    let group ← difference 7 i
    item Checksum.outputAlphabet ((register >>> (5 * group)) % 32)

/-- The checksum of a text, unless it has a character that is not in the alphabet. -/
def checksumOfText? (text : List Char) : Checked (Option (List Char)) := do
  match Checksum.positions? text with
  | some positions => return some (← renderChecksum (Checksum.remainder positions))
  | none => return none

/-- Five bits are a place in the table. -/
theorem renderChecksum_eq (register : Nat) :
    renderChecksum register = .ok (Checksum.render register) := by
  rw [renderChecksum, mapM_eq_ok_iff, Checksum.render, List.map_map]
  refine List.map_congr_left fun i hi => ?_
  have hgroup : difference 7 i = .ok (7 - i) :=
    difference_of_le (Nat.le_of_lt_succ (List.mem_range.mp hi))
  have hplace : (register >>> (5 * (7 - i))) % 32 < Checksum.outputAlphabet.length :=
    Nat.mod_lt _ (by decide)
  rw [hgroup, ok_bind]
  refine item_of_getElem? ?_
  dsimp only
  rw [List.getD_eq_getElem?_getD, List.getElem?_eq_getElem hplace, Option.getD_some]

theorem checksumOfText?_eq (text : List Char) :
    checksumOfText? text = .ok (Checksum.ofText? text) := by
  rw [checksumOfText?, Checksum.ofText?]
  cases Checksum.positions? text with
  | none => rfl
  | some positions =>
      dsimp only
      rw [renderChecksum_eq]
      rfl

/-! ### Descriptors -/

/-- Compare the checksum at the end of a text with that of the source in front of it. -/
def verifyChecksum (text source : String) (found : List Char) : Guarded ParseError Unit := do
  match ← lift (checksumOfText? source.toList) with
  | none => throw (.atStart .noChecksum text)
  | some expected =>
    if found = expected then return ()
    else
      throw
        { fault := .wrongChecksum (String.ofList found) (String.ofList expected)
          position := 0
          offset := source.utf8ByteSize + 1
          source := text }

/-- The source and the checksum after the last `#`. -/
def splitChecksum (text : String) : Checked (String × Option (List Char)) := do
  match ← splitLast? '#' text.toList with
  | some (source, checksum) => return (String.ofList source, some checksum)
  | none => return (text, none)

/-- Read a descriptor with or without a checksum, and keep a journal. -/
def readDescriptor (text : String) : Checked (Except ParseError OutputDescriptor × Journal) := do
  let (source, checksum) ← splitChecksum text
  let (result, journal) ← runFrom wholeScript source
  let descriptor : Guarded ParseError OutputDescriptor := do
    let node ← total result
    match checksum with
    | some found => verifyChecksum text source found
    | none => pure ()
    return ⟨source, node⟩
  return (← descriptor.run, journal)

theorem verifyChecksum_eq (text source : String) (found : List Char) :
    verifyChecksum text source found =
      total (OutputDescriptor.verifyChecksum text source found) := by
  rw [verifyChecksum, OutputDescriptor.verifyChecksum, checksumOfText?_eq, lift_ok, pure_bind]
  cases Checksum.ofText? source.toList with
  | none => rfl
  | some expected =>
      dsimp only
      split <;> rfl

theorem splitChecksum_eq (text : String) :
    splitChecksum text = .ok (OutputDescriptor.splitChecksum text) := by
  rw [splitChecksum, splitLast?_eq, ok_bind, OutputDescriptor.splitChecksum]
  cases Text.splitLast? '#' text.toList <;> rfl

theorem readDescriptor_eq (text : String) :
    readDescriptor text = .ok (OutputDescriptor.read text) := by
  rw [readDescriptor, OutputDescriptor.read, wholeScript_eq, splitChecksum_eq, ok_bind]
  obtain ⟨source, checksum⟩ := OutputDescriptor.splitChecksum text
  dsimp only
  rw [runFrom_eq, ok_bind]
  obtain ⟨result, journal⟩ := Parser.runFrom Parser.wholeScript source
  cases result with
  | error e => rfl
  | ok node =>
      cases checksum with
      | none => rfl
      | some found =>
          dsimp only
          rw [verifyChecksum_eq]
          cases OutputDescriptor.verifyChecksum text source found <;> rfl

/-! ### All readers -/

/-- No reader faults on any text or value: with operations that look at their domains, each has the
result or the error that it has without. -/
theorem readers_eq :
    (∀ text : String,
      lex text = total (Token.lex text) ∧
      runFrom wholeScript text = .ok (Parser.runFrom Parser.wholeScript text) ∧
      readDescriptor text = .ok (OutputDescriptor.read text) ∧
      pathOfText text = total (Path.ofString text) ∧
      templateOfText text = total (PathTemplate.ofString text) ∧
      checksumOfText? text.toList = .ok (Checksum.ofText? text.toList)) ∧
    ∀ v : Value,
      useInfoOfCbor? v = total (UseInfo.ofCbor? v) ∧
      pathOfCbor? v = total (Path.ofCbor? v) ∧
      keyOfCbor? v = total (KeyExpression.ofCbor? v) ∧
      nodeOfCbor? v = total (Node.ofCbor? v) ∧
      descriptorOfCbor? v = total (OutputDescriptor.ofCbor? v) ∧
      accountOfCbor? v = total (AccountDescriptors.ofCbor? v) ∧
      requestOfCbor? v = total (KeyRequest.ofCbor? v) := by
  refine ⟨fun text => ⟨lex_eq text, ?script, readDescriptor_eq text, pathOfText_eq text,
    templateOfText_eq text, checksumOfText?_eq text.toList⟩, fun v => ⟨useInfoOfCbor?_eq v,
    pathOfCbor?_eq v, keyOfCbor?_eq v, nodeOfCbor?_eq v, descriptorOfCbor?_eq v,
    accountOfCbor?_eq v, requestOfCbor?_eq v⟩⟩
  case script => rw [wholeScript_eq, runFrom_eq]

end WalletExchange.Checked
