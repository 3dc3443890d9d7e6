/-!
# Cutting text

Heads, tails and pieces of a list of characters.
-/

namespace WalletExchange.Text

/-- What follows a given head, if the text begins with it. -/
def afterHead? (head text : List Char) : Option (List Char) :=
  if head.isPrefixOf text then some (text.drop head.length) else none

/-- The text without its last character, if that character satisfies a test. -/
def beforeLast? (test : Char → Bool) (text : List Char) : Option (List Char) :=
  match text.getLast? with
  | some c => if test c then some text.dropLast else none
  | none => none

/-- The parts before and after the first occurrence of a character. -/
def splitFirst? (mark : Char) : List Char → Option (List Char × List Char)
  | [] => none
  | c :: rest =>
    if c = mark then some ([], rest)
    else (splitFirst? mark rest).map fun (before, after) => (c :: before, after)

/-- The parts before and after the last occurrence of a character. -/
def splitLast? (mark : Char) : List Char → Option (List Char × List Char)
  | [] => none
  | c :: rest =>
    match splitLast? mark rest with
    | some (before, after) => some (c :: before, after)
    | none => if c = mark then some ([], rest) else none

/-- The pieces of a text with a separator between them. -/
def join (separator : Char) : List (List Char) → List Char
  | [] => []
  | [piece] => piece
  | piece :: rest => piece ++ separator :: join separator rest

/-- Nothing is lost by a cut at the first mark. -/
theorem eq_of_splitFirst? {mark : Char} {text before after : List Char}
    (h : splitFirst? mark text = some (before, after)) : text = before ++ mark :: after := by
  induction text generalizing before with
  | nil => simp [splitFirst?] at h
  | cons c rest ih =>
    rw [splitFirst?] at h
    split at h
    · simp_all
    · obtain ⟨⟨b, a⟩, hb, heq⟩ := Option.map_eq_some_iff.1 h
      cases heq
      simp [ih hb]

/-- Nothing is lost by a cut at the last mark. -/
theorem eq_of_splitLast? {mark : Char} {text before after : List Char}
    (h : splitLast? mark text = some (before, after)) : text = before ++ mark :: after := by
  induction text generalizing before with
  | nil => simp [splitLast?] at h
  | cons c rest ih =>
    rw [splitLast?] at h
    split at h
    · next b a hb => cases h; simp [ih hb]
    · split at h <;> simp_all

end WalletExchange.Text
