import WalletExchange.Path.Template
import WalletExchange.Proofs.Checked.Basic

/-!
# Proofs — cutting texts at marks

A path is read from pieces of its text: what follows `m/`, what stands between slashes, what is
in front of a mark of hardening, what is inside of brackets.  Each piece is taken out by offsets in
bytes, and what is left out has as many bytes as the marks or blanks there.  The characters between
them may have any number of bytes.

Main statements:

* `Checked.splitFrom_eq` — the offsets of a search go from one piece to the next.
* `Checked.pathOfText_eq`, `Checked.templateOfText_eq` — no path and no template is cut inside of a
  character.
-/

namespace WalletExchange.Checked

variable {mark : Char} {test : Char → Bool}

/-! ### Ends -/

/-- What follows a given head, if the text begins with it. -/
def afterHead? (head text : List Char) : Checked (Option (List Char)) := do
  if head.isPrefixOf text then return some (← textFrom text (size head)) else return none

/-- The text without its last character, if that character satisfies a test. -/
def beforeLast? (test : Char → Bool) (text : List Char) : Checked (Option (List Char)) := do
  match text.getLast? with
  | some c =>
    if test c then
      let stop ← difference (size text) c.utf8Size
      return some (← textBetween text 0 stop)
    else return none
  | none => return none

/-- The text without the blanks at its two ends. -/
def trim (text : List Char) : Checked (List Char) := do
  let start := size (text.takeWhile Text.isBlank)
  let blanks := (text.dropWhile Text.isBlank).reverse.takeWhile Text.isBlank
  let stop ← difference (size text) (size blanks)
  textBetween text start stop

theorem size_reverse (text : List Char) : size text.reverse = size text := by
  induction text with
  | nil => rfl
  | cons c text ih =>
      rw [List.reverse_cons, size_append, ih, size_cons, size_cons, size_nil, Nat.add_zero,
        Nat.add_comm]

theorem textBetween_zero_size (before after : List Char) :
    textBetween (before ++ after) 0 (size before) = .ok before := by
  have hcut := textBetween_size [] before after
  rwa [List.nil_append, size_nil, Nat.zero_add] at hcut

theorem afterHead?_eq (head text : List Char) :
    afterHead? head text = .ok (Text.afterHead? head text) := by
  rw [afterHead?, Text.afterHead?]
  split
  · next h =>
    obtain ⟨rest, rfl⟩ := List.isPrefixOf_iff_prefix.mp h
    rw [textFrom_size, List.drop_left]
    rfl
  · rfl

theorem beforeLast?_eq (test : Char → Bool) (text : List Char) :
    beforeLast? test text = .ok (Text.beforeLast? test text) := by
  rw [beforeLast?, Text.beforeLast?]
  cases hlast : text.getLast? with
  | none => rfl
  | some c =>
      obtain ⟨before, rfl⟩ := List.getLast?_eq_some_iff.mp hlast
      dsimp only
      split
      · have hstop : difference (size (before ++ [c])) c.utf8Size = .ok (size before) := by
          rw [size_append, size_cons, size_nil, Nat.add_zero,
            difference_of_le (Nat.le_add_left _ _), Nat.add_sub_cancel]
        rw [hstop, ok_bind, textBetween_zero_size, List.dropLast_concat]
        rfl
      · rfl

theorem trim_eq (text : List Char) : trim text = .ok (Text.trim text) := by
  have hfront : text.takeWhile Text.isBlank ++ text.dropWhile Text.isBlank = text :=
    List.takeWhile_append_dropWhile
  have hback : (text.dropWhile Text.isBlank).reverse.takeWhile Text.isBlank ++
      (text.dropWhile Text.isBlank).reverse.dropWhile Text.isBlank =
        (text.dropWhile Text.isBlank).reverse := List.takeWhile_append_dropWhile
  rw [trim, Text.trim]
  generalize text.takeWhile Text.isBlank = front at *
  generalize text.dropWhile Text.isBlank = rest at *
  generalize rest.reverse.takeWhile Text.isBlank = blanks at *
  generalize rest.reverse.dropWhile Text.isBlank = kept at *
  obtain rfl : rest = kept.reverse ++ blanks.reverse := by
    rw [← List.reverse_append, hback, List.reverse_reverse]
  subst hfront
  have hstop : difference (size (front ++ (kept.reverse ++ blanks.reverse))) (size blanks) =
      .ok (size front + size kept.reverse) := by
    rw [size_append, size_append, size_reverse blanks, ← Nat.add_assoc,
      difference_of_le (Nat.le_add_left _ _), Nat.add_sub_cancel]
  rw [hstop, ok_bind, textBetween_size]

/-! ### Cuts at one mark -/

/-- Where the first mark is in a text that begins at an offset. -/
def firstOffset? (mark : Char) : List Char → Nat → Option Nat
  | [], _ => none
  | c :: rest, offset =>
    if c = mark then some offset else firstOffset? mark rest (offset + c.utf8Size)

/-- Where the last mark is in a text that begins at an offset. -/
def lastOffset? (mark : Char) : List Char → Nat → Option Nat
  | [], _ => none
  | c :: rest, offset =>
    match lastOffset? mark rest (offset + c.utf8Size) with
    | some found => some found
    | none => if c = mark then some offset else none

/-- The parts before and after the mark at an offset. -/
def around (mark : Char) (text : List Char) (offset : Nat) : Checked (List Char × List Char) := do
  let before ← textBetween text 0 offset
  let after ← textFrom text (offset + mark.utf8Size)
  return (before, after)

/-- The parts before and after the first mark. -/
def splitFirst? (mark : Char) (text : List Char) : Checked (Option (List Char × List Char)) :=
  (firstOffset? mark text 0).mapM (around mark text)

/-- The parts before and after the last mark. -/
def splitLast? (mark : Char) (text : List Char) : Checked (Option (List Char × List Char)) :=
  (lastOffset? mark text 0).mapM (around mark text)

theorem firstOffset?_eq (text : List Char) (offset : Nat) :
    firstOffset? mark text offset =
      (Text.splitFirst? mark text).map fun parts => offset + size parts.1 := by
  induction text generalizing offset with
  | nil => rfl
  | cons c text ih =>
      rw [firstOffset?, Text.splitFirst?, ih]
      split
      · rfl
      · rw [Option.map_map]
        refine Option.map_congr fun parts _ => ?_
        rw [Function.comp_apply, size_cons, Nat.add_assoc]

theorem lastOffset?_eq (text : List Char) (offset : Nat) :
    lastOffset? mark text offset =
      (Text.splitLast? mark text).map fun parts => offset + size parts.1 := by
  induction text generalizing offset with
  | nil => rfl
  | cons c text ih =>
      rw [lastOffset?, Text.splitLast?, ih]
      cases Text.splitLast? mark text with
      | none =>
          rw [Option.map_none]
          dsimp only
          split <;> rfl
      | some parts =>
          rw [Option.map_some, Option.map_some, size_cons, Nat.add_assoc]

/-- A text is cut in front of a mark and after it. -/
theorem around_eq (before after : List Char) :
    around mark (before ++ mark :: after) (size before) = .ok (before, after) := by
  have hafter := textFrom_size (before ++ [mark]) after
  rw [List.append_cons, around, ← List.append_cons, textBetween_zero_size]
  rw [size_append, size_cons, size_nil, Nat.add_zero, ← List.append_cons] at hafter
  rw [ok_bind, hafter]
  rfl

theorem mapM_around {text : List Char} {found : Option (List Char × List Char)}
    (h : ∀ parts ∈ found, text = parts.1 ++ mark :: parts.2) :
    (found.map fun parts => 0 + size parts.1).mapM (around mark text) = .ok found := by
  cases found with
  | none => rfl
  | some parts =>
      rw [h parts rfl, Option.map_some, Nat.zero_add, Option.mapM_some, around_eq]
      rfl

theorem splitFirst?_eq (text : List Char) :
    splitFirst? mark text = .ok (Text.splitFirst? mark text) := by
  rw [splitFirst?, firstOffset?_eq]
  exact mapM_around fun _ h => Text.eq_of_splitFirst? h

theorem splitLast?_eq (text : List Char) :
    splitLast? mark text = .ok (Text.splitLast? mark text) := by
  rw [splitLast?, lastOffset?_eq]
  exact mapM_around fun _ h => Text.eq_of_splitLast? h

/-! ### Cuts at all marks -/

/-- The pieces of a text from a start on, where an offset has been reached and no mark has been met
since the start. -/
def splitFrom (mark : Char) (text : List Char) (start : Nat) :
    List Char → Nat → Checked (List (List Char))
  | [], offset => return [← textBetween text start offset]
  | c :: rest, offset => do
    let next := offset + c.utf8Size
    if c = mark then
      let piece ← textBetween text start offset
      return piece :: (← splitFrom mark text next rest next)
    else splitFrom mark text start rest next

/-- The pieces of a text between marks. -/
def splitOn (mark : Char) (text : List Char) : Checked (List (List Char)) :=
  splitFrom mark text 0 text 0

theorem modifyHead_nil_append (pieces : List (List Char)) :
    pieces.modifyHead ([] ++ ·) = pieces := by
  cases pieces <;> rfl

/-- The offsets of a search go from one piece to the next. -/
theorem splitFrom_eq (before piece rest : List Char) :
    splitFrom mark (before ++ (piece ++ rest)) (size before) rest (size before + size piece) =
      .ok ((rest.splitOn mark).modifyHead (piece ++ ·)) := by
  induction rest generalizing before piece with
  | nil =>
      rw [splitFrom, textBetween_size, List.splitOn_nil, List.modifyHead_cons, List.append_nil]
      rfl
  | cons c rest ih =>
      have hsize : size before + size piece + c.utf8Size = size before + size (piece ++ [c]) := by
        rw [size_append piece, size_cons, size_nil, Nat.add_zero, Nat.add_assoc]
      rw [splitFrom, List.splitOn_cons_eq_if_modifyHead, hsize]
      by_cases hc : c = mark
      · -- the mark ends the piece, and the next one starts after it
        have hnext := ih (before ++ (piece ++ [c])) []
        rw [List.nil_append, size_nil, Nat.add_zero, size_append, List.append_assoc,
          ← List.append_cons] at hnext
        rw [if_pos hc, textBetween_size, ok_bind, hnext, if_pos (beq_iff_eq.mpr hc),
          modifyHead_nil_append, List.modifyHead_cons, List.append_nil]
        rfl
      · have hnext := ih before (piece ++ [c])
        rw [← List.append_cons] at hnext
        rw [if_neg hc, hnext, if_neg (mt beq_iff_eq.mp hc), List.modifyHead_modifyHead]
        simp only [List.append_assoc, List.singleton_append]
        rfl

theorem splitOn_eq (text : List Char) : splitOn mark text = .ok (text.splitOn mark) := by
  have hsplit := @splitFrom_eq mark [] [] text
  rwa [List.nil_append, List.nil_append, size_nil, Nat.add_zero, modifyHead_nil_append] at hsplit

/-! ### Steps -/

/-- Read an index or wildcard with or without a mark of hardening. -/
def singleOfText (text : List Char) : Guarded PathError SingleStep := do
  match ← lift (beforeLast? SingleStep.isHardenedMark text) with
  | some spec => total ((IndexSpec.parse spec).map fun s => ⟨s, true⟩)
  | none => total ((IndexSpec.parse text).map fun s => ⟨s, false⟩)

/-- The two texts between angle brackets with a semicolon between them. -/
def pairParts? (text : List Char) : Checked (Option (List Char × List Char)) := do
  match ← afterHead? ['<'] text with
  | none => return none
  | some rest =>
    match ← beforeLast? (· = '>') rest with
    | none => return none
    | some inside => splitFirst? ';' inside

/-- Read two steps between angle brackets with a semicolon between them. -/
def pairOfText (text : List Char) : Guarded PathError PairStep := do
  match ← lift (pairParts? text) with
  | some (external, internal) =>
    let external ← singleOfText external
    let internal ← singleOfText internal
    total (PairStep.ofSteps? external internal)
  | none => throw (.invalidPair (String.ofList text))

/-- Read a step that a slash or the end of the text delimits. -/
def stepOfText (text : List Char) : Guarded PathError Step :=
  if text = [] then throw .emptyStep
  else if text.head? = some '<' then return .pair (← pairOfText text)
  else return .single (← singleOfText text)

/-- Read a step of a template that a slash or the end of the text delimits. -/
def templateStepOfText (text : List Char) : Guarded PathError TemplateStep :=
  if text = [] then throw .emptyStep
  else do
    match ← lift (beforeLast? TemplateStep.isHardenedMark text) with
    | some index => total ((TemplateIndex.parse index).map fun i => ⟨i, true⟩)
    | none => total ((TemplateIndex.parse text).map fun i => ⟨i, false⟩)

theorem singleOfText_eq (text : List Char) :
    singleOfText text = total (SingleStep.parse text) := by
  rw [singleOfText, beforeLast?_eq, lift_ok, pure_bind, SingleStep.parse]
  cases Text.beforeLast? SingleStep.isHardenedMark text <;> rfl

theorem inside?_eq (text : List Char) :
    PairStep.inside? text = (Text.afterHead? ['<'] text).bind (Text.beforeLast? (· = '>')) := by
  rw [PairStep.inside?.eq_def]
  split
  · rfl
  · next hne =>
    have hhead : ['<'].isPrefixOf text = false := by
      rw [Bool.eq_false_iff, ne_eq, List.isPrefixOf_iff_prefix]
      rintro ⟨rest, rfl⟩
      exact hne rest rfl
    rw [Text.afterHead?, hhead]
    rfl

theorem pairParts?_eq (text : List Char) :
    pairParts? text = .ok ((PairStep.inside? text).bind (Text.splitFirst? ';')) := by
  rw [pairParts?, afterHead?_eq, ok_bind, inside?_eq]
  cases Text.afterHead? ['<'] text with
  | none => rfl
  | some rest =>
      dsimp only
      rw [beforeLast?_eq, ok_bind, Option.bind_some]
      cases Text.beforeLast? (· = '>') rest with
      | none => rfl
      | some inside => exact splitFirst?_eq inside

theorem pairOfText_eq (text : List Char) : pairOfText text = total (PairStep.parse text) := by
  rw [pairOfText, pairParts?_eq, lift_ok, pure_bind, PairStep.parse]
  cases (PairStep.inside? text).bind (Text.splitFirst? ';') with
  | none => rfl
  | some parts =>
      simp only [singleOfText_eq, total_bind]

theorem stepOfText_eq (text : List Char) :
    stepOfText text = total (Path.parseComponent text) := by
  rw [stepOfText, Path.parseComponent, Step.parse, pairOfText_eq, singleOfText_eq]
  split
  · rfl
  · split
    · cases PairStep.parse text <;> rfl
    · cases SingleStep.parse text <;> rfl

theorem templateStepOfText_eq (text : List Char) :
    templateStepOfText text = total (PathTemplate.parseComponent text) := by
  rw [templateStepOfText, PathTemplate.parseComponent, TemplateStep.parse, beforeLast?_eq, lift_ok,
    pure_bind]
  cases Text.beforeLast? TemplateStep.isHardenedMark text <;> split <;> rfl

/-! ### Paths and templates -/

/-- Read the steps of a path and check them. -/
def stepsOfTexts (fingerprint : Option Fingerprint) (components : List (List Char)) :
    Guarded PathError Path := do
  let steps ← components.mapM stepOfText
  total (Path.checkSteps .lastStepWildcard steps)
  return ⟨fingerprint, steps, none⟩

/-- Read a path: `m`, or steps after `m/` or an optional fingerprint. -/
def pathOfText (text : String) : Guarded PathError Path := do
  let text ← lift (trim text.toList)
  if text = [] ∨ text = ['m'] then return Path.master
  match ← lift (afterHead? ['m', '/'] text) with
  | some rest =>
    let components ← lift (splitOn '/' rest)
    stepsOfTexts none components
  | none =>
    let components ← lift (splitOn '/' text)
    match components.head?.bind parseFingerprint? with
    | some fingerprint => stepsOfTexts (some fingerprint) components.tail
    | none => stepsOfTexts none components

/-- Read a template: steps with slashes between them, with or without `m/` in front. -/
def templateOfText (text : String) : Guarded PathError PathTemplate := do
  let text := (← lift (afterHead? ['m', '/'] text.toList)).getD text.toList
  if text = [] then return ⟨[]⟩
  let components ← lift (splitOn '/' text)
  return ⟨← components.mapM templateStepOfText⟩

theorem stepsOfTexts_eq (fingerprint : Option Fingerprint) (components : List (List Char)) :
    stepsOfTexts fingerprint components = total (Path.parseSteps fingerprint components) := by
  rw [stepsOfTexts, Path.parseSteps, mapM_total stepOfText_eq]
  simp only [total_bind]
  rfl

/-- No path is cut inside of a character. -/
theorem pathOfText_eq (text : String) : pathOfText text = total (Path.ofString text) := by
  rw [pathOfText, trim_eq, lift_ok, pure_bind, Path.ofString, Path.parse, Path.parseTrimmed]
  generalize Text.trim text.toList = text
  split
  · rfl
  · simp only [afterHead?_eq, splitOn_eq, lift_ok, pure_bind, stepsOfTexts_eq]
    cases Text.afterHead? ['m', '/'] text with
    | some rest => rfl
    | none =>
        dsimp only
        cases (text.splitOn '/').head?.bind parseFingerprint? <;> rfl

/-- No template is cut inside of a character. -/
theorem templateOfText_eq (text : String) :
    templateOfText text = total (PathTemplate.ofString text) := by
  rw [templateOfText, PathTemplate.ofString, PathTemplate.parse, afterHead?_eq, lift_ok, pure_bind]
  dsimp only
  generalize (Text.afterHead? ['m', '/'] text.toList).getD text.toList = text
  split
  · rfl
  · rw [splitOn_eq, lift_ok, pure_bind, mapM_total templateStepOfText_eq, total_bind]
    rfl

end WalletExchange.Checked
