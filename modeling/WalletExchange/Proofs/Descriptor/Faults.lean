import WalletExchange.Proofs.Descriptor.Prediction
import WalletExchange.Proofs.Descriptor.Reprint
import WalletExchange.Proofs.Descriptor.Tiling

/-!
# Proofs — where faults are

The lexer gives the offset of a character, the parser that of a token, and a checksum that is wrong
has an offset in the whole text, where all others are offsets in the source in front of the `#`.
All of them are columns: nothing is stepped over but marks, letters, digits and that `#`, and each
of these is shown and takes one byte.

For the lexer this is an induction along the text.  For the parser it is a property of walks,
`Confined`: a walk among the tokens of a text stays among them, and an error blames one of them or
their end.  `script` steps back to a keyword that may not stand where it stands, but it comes to the
same errors as `predicted`, which steps over tokens only that are there.

Main statements:

* `Token.isColumn_of_lexFrom` — the lexer stops at a column.
* `Parser.confined_wholeScript` — the parser blames a token of the text or its end.
* `OutputDescriptor.error_points_into_source` — where the errors of descriptors point.
-/

namespace WalletExchange

/-! ### Columns -/

namespace Text

variable {c : Char} {m : Mark} {start offset : Nat} {front text : List Char}

/-- The character is shown, and takes one byte. -/
def IsGraphic (c : Char) : Prop := '!' ≤ c ∧ c ≤ '~'

instance (c : Char) : Decidable (IsGraphic c) := inferInstanceAs (Decidable (_ ∧ _))

theorem IsGraphic.utf8Size_eq_one (h : IsGraphic c) : c.utf8Size = 1 :=
  Char.utf8Size_eq_one_iff.mpr (UInt32.le_trans h.2 (by decide))

theorem isGraphic_of_isAlphanum (h : c.isAlphanum = true) : IsGraphic c := by
  have hrange := range_of_isAlphanum h
  have hlow : 33 ≤ c.toNat := by omega
  have hhigh : c.toNat ≤ 126 := by omega
  exact ⟨UInt32.le_iff_toNat_le.mpr hlow, UInt32.le_iff_toNat_le.mpr hhigh⟩

theorem isGraphic_of_mark (h : Mark.ofChar? c = some m) : IsGraphic c := by
  unfold Mark.ofChar? at h
  split at h
  all_goals first | decide | cases h

/-- In a text that begins at one offset, only graphic characters stand in front of the other. -/
def IsColumn (start : Nat) (text : List Char) (offset : Nat) : Prop :=
  ∃ front back, text = front ++ back ∧ offset = start + front.length ∧ ∀ c ∈ front, IsGraphic c

theorem isColumn_start (start : Nat) (text : List Char) : IsColumn start text start :=
  ⟨[], text, rfl, rfl, List.forall_mem_nil _⟩

theorem IsColumn.append (hfront : ∀ c ∈ front, IsGraphic c)
    (h : IsColumn (start + front.length) text offset) : IsColumn start (front ++ text) offset := by
  obtain ⟨between, back, rfl, rfl, hbetween⟩ := h
  refine ⟨front ++ between, back, (List.append_assoc _ _ _).symm, ?_, ?_⟩
  · rw [List.length_append, Nat.add_assoc]
  · exact List.forall_mem_append.mpr ⟨hfront, hbetween⟩

end Text

open Text (IsGraphic IsColumn)

/-! ### Lexer -/

namespace Token

variable {offset : Nat} {word digits text : List Char} {tokens : List Token} {e : LexError}

theorem Cut.isGraphic (h : Cut offset text tokens) : ∀ c ∈ text, IsGraphic c := by
  intro c hc
  rcases h.isAlphanum_or_mark c hc with hc | ⟨m, hc⟩
  · exact Text.isGraphic_of_isAlphanum hc
  · exact Text.isGraphic_of_mark hc

theorem offset_of_readDigits (h : readDigits offset digits = .error e) : e.offset = offset := by
  rw [readDigits] at h
  split at h
  · split at h
    · cases h
    · cases h
      rfl
  · split at h
    · cases h
    · cases h
      rfl

theorem offset_of_readWord (h : readWord offset word = .error e) : e.offset = offset := by
  rw [readWord] at h
  split at h
  · cases h
  · split at h
    · cases h
    · split at h
      · exact offset_of_readDigits h
      · split at h
        · cases h
        · split at h
          · cases h
          · cases h
            rfl

/-- A word that is no token is to blame from its first character on. -/
theorem offset_of_ofWord (h : ofWord offset word = .error e) : e.offset = offset := by
  rw [ofWord] at h
  split at h
  · rcases bind_eq_error_iff.mp h with h | ⟨kind, -, h⟩
    · exact offset_of_readDigits h
    · cases h
  · rcases bind_eq_error_iff.mp h with h | ⟨kind, -, h⟩
    · exact offset_of_readWord h
    · cases h

/-- The lexer stops behind marks, letters and digits. -/
theorem isColumn_of_lexFrom (h : lexFrom offset text = .error e) :
    IsColumn offset text e.offset := by
  induction offset, text using lexFrom.induct with
  | case1 offset =>
      rw [lexFrom] at h
      cases h
  | case2 offset c rest m hmark ih =>
      rw [lexFrom] at h
      simp only [hmark] at h
      rcases bind_eq_error_iff.mp h with h | ⟨tokens, -, h⟩
      · have hfront : ∀ d ∈ [c], IsGraphic d :=
          List.forall_mem_singleton.mpr (Text.isGraphic_of_mark hmark)
        exact (ih h).append hfront
      · cases h
  | case3 offset c rest hmark hc word ih =>
      rw [lexFrom] at h
      simp only [hmark, hc, if_true] at h
      rcases bind_eq_error_iff.mp h with h | ⟨first, -, h⟩
      · rw [offset_of_ofWord h]
        exact Text.isColumn_start offset _
      · rcases bind_eq_error_iff.mp h with h | ⟨tokens, -, h⟩
        · have hword : ∀ d ∈ word, IsGraphic d := fun d hd =>
            Text.isGraphic_of_isAlphanum (Checked.isAlphanum_of_mem_word hc rest d hd)
          have hcolumn := (ih h).append hword
          rwa [List.cons_append, List.takeWhile_append_dropWhile] at hcolumn
        · cases h
  | case4 offset c rest hmark hc =>
      rw [lexFrom] at h
      simp only [hmark, hc] at h
      cases h
      exact Text.isColumn_start offset _

end Token

/-! ### Parser -/

namespace Parser

variable {α β : Type} {p q r : Parser} {e : ParseError} {parent : Option NodeKind}

/-- A walk over the same tokens, at one of them or at their end. -/
structure SameTokens (p q : Parser) : Prop where
  source_eq : q.source = p.source
  tokens_eq : q.tokens = p.tokens
  cursor_le : q.cursor ≤ q.tokens.length

/-- The error is a fault of a token of the walk, or of their end. -/
def Blames (p : Parser) (e : ParseError) : Prop :=
  ∃ q fault, SameTokens p q ∧ fault.IsOfTokens ∧ e = q.errorAt fault

/-- What comes of a walk is among the tokens where it began. -/
def Within (p : Parser) : Except ParseError (α × Parser) → Prop
  | .ok (_, q) => SameTokens p q
  | .error e => Blames p e

/-- A walk that begins among the tokens of a text comes to a place among them, or blames one. -/
def Confined (m : ParserM α) : Prop := ∀ p, p.cursor ≤ p.tokens.length → Within p (outcome m p)

theorem SameTokens.trans (hpq : SameTokens p q) (hqr : SameTokens q r) : SameTokens p r where
  source_eq := hqr.source_eq.trans hpq.source_eq
  tokens_eq := hqr.tokens_eq.trans hpq.tokens_eq
  cursor_le := hqr.cursor_le

theorem SameTokens.silent (h : SameTokens p q) : SameTokens p q.silent :=
  ⟨h.source_eq, h.tokens_eq, h.cursor_le⟩

theorem SameTokens.within {result : Except ParseError (α × Parser)} (hpq : SameTokens p q)
    (h : Within q result) : Within p result := by
  cases result with
  | ok r => exact hpq.trans h
  | error e =>
      obtain ⟨r, fault, hqr, hfault, rfl⟩ := h
      exact ⟨r, fault, hpq.trans hqr, hfault, rfl⟩

theorem sameTokens_self (h : p.cursor ≤ p.tokens.length) : SameTokens p p := ⟨rfl, rfl, h⟩

theorem cursor_lt_of_head? {kind : TokenKind} (h : p.rest.head? = some kind) :
    p.cursor < p.tokens.length := by
  rw [← Nat.not_le, ← rest_eq_nil_iff]
  intro hnil
  rw [hnil] at h
  cases h

theorem sameTokens_next {kind : TokenKind} (h : p.rest.head? = some kind) : SameTokens p p.next :=
  ⟨rfl, rfl, cursor_lt_of_head? h⟩

theorem blames_errorAt {fault : ParseFault} (h : p.cursor ≤ p.tokens.length)
    (hfault : fault.IsOfTokens) : Blames p (p.errorAt fault) :=
  ⟨p, fault, sameTokens_self h, hfault, rfl⟩

theorem confined_pure (a : α) : Confined (pure a) :=
  fun _ hp => (sameTokens_self hp).silent

theorem Confined.bind {m : ParserM α} {f : α → ParserM β} (hm : Confined m)
    (hf : ∀ a, Confined (f a)) : Confined (m >>= f) := by
  intro p hp
  have hfirst := hm p hp
  cases hrun : m p with
  | ok a q =>
      rw [outcome_of_ok hrun] at hfirst
      have hplace : SameTokens p q := ⟨hfirst.source_eq, hfirst.tokens_eq, hfirst.cursor_le⟩
      rw [outcome, bind_of_ok hrun]
      exact hplace.within (hf a q hplace.cursor_le)
  | error e q =>
      rw [outcome_of_error hrun] at hfirst
      rw [outcome_of_error (bind_of_error hrun)]
      exact hfirst

theorem confined_takeIf? (read : TokenKind → Option α) : Confined (takeIf? read) := by
  intro p hp
  rw [outcome_of_ok (takeIf?_eq read)]
  cases hhead : p.rest.head? with
  | none => exact (sameTokens_self hp).silent
  | some kind =>
      rw [Option.bind_some]
      split
      · exact (sameTokens_next hhead).silent
      · exact (sameTokens_self hp).silent

theorem confined_upTo {item : ParserM (Option α)} (hitem : Confined item) (n : Nat) :
    Confined (upTo item n) := by
  induction n with
  | zero => exact confined_pure []
  | succ n ih =>
      refine hitem.bind fun result => ?_
      cases result with
      | none => exact confined_pure []
      | some a => exact ih.bind fun _ => confined_pure _

theorem confined_transaction {m : ParserM (Option α)} (hm : Confined m) :
    Confined (transaction m) := by
  intro p hp
  have hattempt := hm p hp
  rw [outcome_transaction]
  cases hrun : outcome m p with
  | error e =>
      rw [hrun] at hattempt
      exact hattempt
  | ok r =>
      obtain ⟨result, q⟩ := r
      rw [hrun] at hattempt
      cases result with
      | some a => exact hattempt
      | none => exact ⟨hattempt.source_eq, hattempt.tokens_eq, hattempt.tokens_eq ▸ hp⟩

/-- All that the parsers of arguments are put together from stays among the tokens. -/
theorem compositional_confined : Compositional Confined where
  result := confined_pure
  failure hfault _ hp := blames_errorAt hp hfault
  look _ hp := (sameTokens_self hp).silent
  take := confined_takeIf?
  sequence := Confined.bind
  repetition hitem p := confined_upTo hitem (p.tokens.length - p.cursor) p
  attempt := confined_transaction

theorem confined_parenthesized {m : ParserM Node} (hm : Confined m) : Confined (parenthesized m) :=
  (compositional_confined.expect .openParen).bind fun _ => hm.bind fun _ =>
    (compositional_confined.expect .closeParen).bind fun _ => confined_pure _

/-- One function inside another: the token that names it is there, so stepping over it leads to
another token or to the end. -/
theorem confined_predicted (parent : Option NodeKind) : Confined (predicted parent) := by
  have hinner : ∀ (kind : NodeKind) (nests : kind.nests = true)
      (allowed : kind.allowedIn parent = true), Confined (predicted (some kind)) := by
    intro kind nests allowed
    have := room_lt nests allowed
    exact confined_predicted (some kind)
  intro p hp
  by_cases hnext : ∃ keyword, p.rest.head? = some (.keyword keyword)
  · obtain ⟨keyword, hnext⟩ := hnext
    rw [outcome_predicted hnext]
    split
    · next allowed =>
      have hplace := sameTokens_next hnext
      refine hplace.within (confined_parenthesized ?_ p.next hplace.cursor_le)
      exact compositional_confined.argument keyword fun nests => hinner _ nests allowed
    · exact blames_errorAt hp trivial
  · rw [outcome_predicted_of_ne fun keyword h => hnext ⟨keyword, h⟩]
    exact blames_errorAt hp trivial
termination_by room parent

theorem confined_script (parent : Option NodeKind) : Confined (script parent) := by
  intro p hp
  rw [script_eq_scriptIn, outcome_scriptIn (fun _ _ => mem_priority) parent p]
  exact confined_predicted parent p hp

theorem confined_wholeScript : Confined wholeScript := by
  refine (confined_script none).bind fun node p hp => ?_
  by_cases hleft : p.cursor < p.tokens.length
  · rw [outcome, bind_of_ok get_eq, if_pos hleft]
    exact blames_errorAt hp trivial
  · rw [outcome, bind_of_ok get_eq, if_neg hleft]
    exact (sameTokens_self hp).silent

/-- An error that blames a token of a text is at the start of the token, or at the end of the text
if it blames none. -/
theorem Blames.points {source : String} {tokens : List Token} {journal : Journal}
    (h : Blames ⟨source, tokens, 0, journal⟩ e) :
    e.source = source ∧ e.position ≤ tokens.length ∧
      e.offset = tokens[e.position]?.elim source.utf8ByteSize Token.start ∧ e.fault.IsOfTokens := by
  obtain ⟨q, fault, hplace, hfault, rfl⟩ := h
  obtain ⟨rfl, rfl, hcursor⟩ := hplace
  refine ⟨rfl, hcursor, ?_, hfault⟩
  change q.offset = q.tokens[q.cursor]?.elim _ _
  rw [offset]
  cases q.tokens[q.cursor]? <;> rfl

end Parser

/-! ### Texts of faults -/

namespace ParseFault

variable {head : String} {fault : ParseFault}

/-- No text with this beginning is the one about a source that has no checksum. -/
def Departs (head : String) : Prop := ∀ rest, head ++ rest ≠ noChecksum.message

theorem departs (head : String) (h : ¬ head.toList <+: noChecksum.message.toList) :
    Departs head := by
  intro rest heq
  rw [← heq, String.toList_append] at h
  exact h (List.prefix_append _ _)

theorem Departs.append (h : Departs head) (more : String) : Departs (head ++ more) := by
  intro rest
  rw [String.append_assoc]
  exact h (more ++ rest)

theorem Departs.ne (h : Departs head) : head ≠ noChecksum.message := by
  have hne := h ""
  rwa [String.append_empty] at hne

theorem message_ne_of_lexical (cause : LexError) :
    (lexical cause).message ≠ noChecksum.message := by
  cases cause with
  | unexpectedChar offset c =>
      exact ((((departs "unexpected character `" (by decide)).append _).append _).append _).ne
  | unrecognized offset word =>
      exact ((((departs "unrecognized token `" (by decide)).append _).append _).append _).ne
  | intTooLarge offset digits =>
      exact (((((departs "integer `" (by decide)).append _).append _).append _).append _).ne

theorem message_ne_of_path (cause : PathError) : (path cause).message ≠ noChecksum.message := by
  cases cause with
  | wildcardInPair | wildcardNotLast | notFixed | multiplePairs | emptyStep => decide
  | invalidIndex text =>
      exact (((departs "invalid derivation index `" (by decide)).append _).append _).ne
  | overflow cause => exact (((departs "child index " (by decide)).append _).append _).ne
  | invalidPair text =>
      exact (((departs "invalid receive/change index pair `" (by decide)).append _).append _).ne

/-- The parser does not say that a source has no checksum. -/
theorem IsOfTokens.message_ne (h : fault.IsOfTokens) : fault.message ≠ noChecksum.message := by
  have hmark : Departs "expected " := departs _ (by decide)
  have hscript : Departs "expected script function inside `" := departs _ (by decide)
  have hkeyword : Departs "`" := departs _ (by decide)
  have hkeys : Departs "multisig can't have more than " := departs _ (by decide)
  have hthreshold : Departs "multisig threshold " := departs _ (by decide)
  cases fault with
  | lexical | noChecksum | wrongChecksum | note => exact h.elim
  | expectedFingerprint | expectedInteger | expectedStep | expectedKey | expectedKeys
  | expectedAddress | expectedRawScript | invalidScript | wildcardHere | pairHere | afterDescriptor
  | afterKey => decide
  | path cause => exact message_ne_of_path cause
  | expectedMark m => exact (hmark.append _).ne
  | tooManyKeys => exact ((hkeys.append _).append _).ne
  | badThreshold threshold keys => exact (((hthreshold.append _).append _).append _).ne
  | expectedScriptFunction parent =>
      cases parent with
      | none => decide
      | some parent => exact ((hscript.append _).append _).ne
  | misplaced keyword parent =>
      cases parent with
      | none => exact ((hkeyword.append _).append _).ne
      | some parent => exact ((((hkeyword.append _).append _).append _).append _).ne

theorem message_ne_of_wrongChecksum (found expected : String) :
    (wrongChecksum found expected).message ≠ noChecksum.message :=
  (((((departs "invalid checksum `" (by decide)).append _).append _).append _).append _).ne

end ParseFault

/-! ### Descriptors -/

namespace ParseError

variable {e : ParseError}

/-- Where an error is at a column of its source, the caret stands under the text from there on. -/
theorem exists_display (h : IsColumn 0 e.source.toList e.offset) :
    ∃ before after : String, e.source = before ++ after ∧ before.utf8ByteSize = e.offset ∧
      (∀ c ∈ before.toList, IsGraphic c) ∧
      e.display = e.line ++ "\n" ++ (before ++ after) ++ "\n" ++
        String.ofList (before.toList.map (fun _ => ' ') ++ ['^']) := by
  obtain ⟨front, back, hsource, hoffset, hfront⟩ := h
  have hsplit : e.source = String.ofList front ++ String.ofList back := by
    rw [← String.ofList_append, ← hsource, String.ofList_toList]
  refine ⟨.ofList front, .ofList back, hsplit, ?_, ?_, ?_⟩
  · rw [Token.utf8ByteSize_ofList fun c hc => (hfront c hc).utf8Size_eq_one, hoffset, Nat.zero_add]
  · rwa [String.toList_ofList]
  · rw [display, ← hsplit, String.toList_ofList, List.map_const', hoffset, Nat.zero_add]

end ParseError

namespace Parser

variable {α : Type} {source : String} {tokens : List Token} {e : ParseError} {n : Node}

/-- A text that is not read has no tokens, or one of its tokens is to blame, or their end. -/
theorem Confined.of_runFrom_eq_error {walk : ParserM α} (hwalk : Confined walk)
    (h : (runFrom walk source).1 = .error e) :
    (∃ cause, Token.lex source = .error cause ∧ e = .ofLexError cause source) ∨
      ∃ tokens, Token.lex source = .ok tokens ∧ Blames ⟨source, tokens, 0, []⟩ e := by
  rw [runFrom, ofString] at h
  cases hlex : Token.lex source with
  | error cause =>
      rw [hlex] at h
      cases h
      exact .inl ⟨cause, rfl, rfl⟩
  | ok tokens =>
      rw [hlex] at h
      have hwithin := hwalk ⟨source, tokens, 0, []⟩ (Nat.zero_le _)
      cases hrun : walk ⟨source, tokens, 0, []⟩ with
      | ok a q =>
          simp only [hrun] at h
          cases h
      | error e' q =>
          simp only [hrun] at h
          cases h
          rw [outcome_of_error hrun] at hwithin
          exact .inr ⟨tokens, rfl, hwithin⟩

/-- The start of a token is a column, and so is the end of the text. -/
theorem Blames.isColumn (hlex : Token.lex source = .ok tokens)
    (h : Blames ⟨source, tokens, 0, []⟩ e) : IsColumn 0 source.toList e.offset := by
  have hcut := Token.lexFrom_eq_ok_iff.mp hlex
  obtain ⟨-, -, hoffset, -⟩ := h.points
  cases htoken : tokens[e.position]? with
  | none =>
      rw [htoken, Option.elim_none] at hoffset
      refine ⟨source.toList, [], (List.append_nil _).symm, ?_, hcut.isGraphic⟩
      rw [hoffset, Nat.zero_add, ← Token.utf8ByteSize_ofList hcut.utf8Size_eq_one,
        String.ofList_toList]
  | some t =>
      rw [htoken, Option.elim_some] at hoffset
      obtain ⟨front, word, back, htext, hstart, -⟩ :=
        hcut.isPiece t (List.mem_of_getElem? htoken)
      refine ⟨front, word ++ back, htext, hoffset.trans hstart, fun c hc => ?_⟩
      exact hcut.isGraphic c (htext ▸ List.mem_append_left _ hc)

/-- What is read as a function has a checksum. -/
theorem mem_inputAlphabet_of_runFrom (h : (runFrom wholeScript source).1 = .ok n) :
    ∀ c ∈ source.toList, c ∈ Checksum.inputAlphabet := by
  obtain ⟨tokens, hlex, -⟩ := runFrom_wholeScript_eq_ok_iff.mp h
  exact (Token.lexFrom_eq_ok_iff.mp hlex).mem_inputAlphabet

end Parser

namespace OutputDescriptor

variable {text source : String} {e : ParseError} {n : Node} {found : List Char}

/-- The source of a text is all of it, or what stands in front of the last `#`. -/
theorem splitChecksum_cases (text : String) :
    splitChecksum text = (text, none) ∨
      ∃ source suffix, splitChecksum text = (source, some suffix) ∧ '#' ∉ suffix ∧
        text.toList = source.toList ++ '#' :: suffix := by
  rw [splitChecksum]
  cases hsplit : Text.splitLast? '#' text.toList with
  | none => exact .inl rfl
  | some parts =>
      obtain ⟨source, suffix⟩ := parts
      refine .inr ⟨_, suffix, rfl, Text.not_mem_of_splitLast? hsplit, ?_⟩
      rw [String.toList_ofList, Text.eq_of_splitLast? hsplit]

/-- The parser refuses the source, or it accepts it and the checksum is refused. -/
theorem ofString_eq_error (h : ofString text = .error e) :
    (Parser.runFrom Parser.wholeScript (splitChecksum text).1).1 = .error e ∨
      ∃ source found n, splitChecksum text = (source, some found) ∧
        (Parser.runFrom Parser.wholeScript source).1 = .ok n ∧
        verifyChecksum text source found = .error e := by
  rw [ofString, read] at h
  generalize splitChecksum text = parts at h ⊢
  obtain ⟨source, checksum⟩ := parts
  rcases bind_eq_error_iff.mp h with h | ⟨n, hnode, h⟩
  · exact .inl h
  · cases checksum with
    | none => cases h
    | some found =>
        rcases bind_eq_error_iff.mp h with h | ⟨_, -, h⟩
        · exact .inr ⟨source, found, n, rfl, hnode, h⟩
        · cases h

theorem ofString_of_runFrom_eq_error {checksum : Option (List Char)}
    (hsplit : splitChecksum text = (source, checksum))
    (hfails : (Parser.runFrom Parser.wholeScript source).1 = .error e) :
    ofString text = .error e := by
  rw [ofString, read, hsplit]
  simp only [hfails]
  rfl

/-- The checksum of a source that is read is refused only for being another one. -/
theorem verifyChecksum_eq_error (hsource : ∀ c ∈ source.toList, c ∈ Checksum.inputAlphabet)
    (h : verifyChecksum text source found = .error e) :
    ∃ expected, e = ⟨.wrongChecksum (String.ofList found) expected, 0,
      source.utf8ByteSize + 1, text⟩ := by
  obtain ⟨expected, hexpected⟩ :=
    Option.isSome_iff_exists.mp (Checksum.isSome_ofText?_iff.mpr hsource)
  rw [verifyChecksum, hexpected] at h
  dsimp only at h
  split at h
  · cases h
  · cases h
    exact ⟨_, rfl⟩

/-- An error is found by the lexer, by the parser, or where the checksums are compared. -/
theorem ofString_error_cases (h : ofString text = .error e) :
    (∃ cause, Token.lex (splitChecksum text).1 = .error cause ∧
      e = .ofLexError cause (splitChecksum text).1) ∨
    (∃ tokens, Token.lex (splitChecksum text).1 = .ok tokens ∧
      Parser.Blames ⟨(splitChecksum text).1, tokens, 0, []⟩ e) ∨
    ∃ source found expected tokens, splitChecksum text = (source, some found) ∧
      Token.lex source = .ok tokens ∧
      e = ⟨.wrongChecksum (String.ofList found) expected, 0, source.utf8ByteSize + 1, text⟩ := by
  rcases ofString_eq_error h with h | ⟨source, found, n, hsplit, hnode, h⟩
  · rcases Parser.confined_wholeScript.of_runFrom_eq_error h with h | h
    · exact .inl h
    · exact .inr (.inl h)
  · obtain ⟨tokens, hlex, -⟩ := Parser.runFrom_wholeScript_eq_ok_iff.mp hnode
    obtain ⟨expected, he⟩ :=
      verifyChecksum_eq_error (Parser.mem_inputAlphabet_of_runFrom hnode) h
    exact .inr (.inr ⟨source, found, expected, tokens, hsplit, hlex, he⟩)

/-- The source of an error is the text, or what stands in front of its last `#`. -/
theorem source_of_ofString_eq_error (h : ofString text = .error e) :
    e.source = text ∨ ∃ suffix, '#' ∉ suffix ∧ text.toList = e.source.toList ++ '#' :: suffix := by
  have hsource (heq : e.source = (splitChecksum text).1) :
      e.source = text ∨
        ∃ suffix, '#' ∉ suffix ∧ text.toList = e.source.toList ++ '#' :: suffix := by
    rcases splitChecksum_cases text with hsplit | ⟨source, suffix, hsplit, hmark, htext⟩
    · exact .inl (heq.trans (congrArg Prod.fst hsplit))
    · rw [hsplit] at heq
      exact .inr ⟨suffix, hmark, heq ▸ htext⟩
  rcases ofString_error_cases h with ⟨cause, -, rfl⟩ | ⟨tokens, -, hblames⟩ |
    ⟨source, found, expected, tokens, -, -, rfl⟩
  · exact hsource rfl
  · exact hsource hblames.points.1
  · exact .inl rfl

/-- What stands in front of an error was stepped over, by the lexer if by nothing else. -/
theorem isColumn_of_ofString_eq_error (h : ofString text = .error e) :
    IsColumn 0 e.source.toList e.offset := by
  rcases ofString_error_cases h with ⟨cause, hlex, rfl⟩ | ⟨tokens, hlex, hblames⟩ |
    ⟨source, found, expected, tokens, hsplit, hlex, rfl⟩
  · exact Token.isColumn_of_lexFrom hlex
  · rw [hblames.points.1]
    exact hblames.isColumn hlex
  · obtain ⟨source, suffix, hcases, -, htext⟩ :=
      (splitChecksum_cases text).resolve_left (hsplit ▸ nofun)
    obtain ⟨rfl, -⟩ := Prod.mk.inj (hsplit.symm.trans hcases)
    have hcut := Token.lexFrom_eq_ok_iff.mp hlex
    -- the whole source and the `#` stand in front of a checksum
    refine ⟨source.toList ++ ['#'], suffix, ?_, ?_, ?_⟩
    · rw [htext, List.append_assoc, List.singleton_append]
    · rw [List.length_append, ← Token.utf8ByteSize_ofList hcut.utf8Size_eq_one,
        String.ofList_toList, Nat.zero_add, List.length_singleton]
    · exact List.forall_mem_append.mpr
        ⟨hcut.isGraphic, List.forall_mem_singleton.mpr (by decide)⟩

theorem message_of_ofString_eq_error (h : ofString text = .error e) :
    e.message ≠ ParseFault.noChecksum.message := by
  rcases ofString_error_cases h with ⟨cause, -, rfl⟩ | ⟨tokens, -, hblames⟩ |
    ⟨source, found, expected, tokens, -, -, rfl⟩
  · exact ParseFault.message_ne_of_lexical cause
  · exact hblames.points.2.2.2.message_ne
  · exact ParseFault.message_ne_of_wrongChecksum _ _

/-- The errors of descriptors point into the text.  The source of an error is the text with or
without its checksum; its offset is at most the size of the source and at the boundary of a
character; all characters in front of it are shown and take one byte, so that in the line of the
caret there is a space for each of them and the caret comes next.  If the lexer has cut the source
into tokens and the parser fails, the position is that of a token or of their end, and the offset is
the start of the token or the size of the source.  It is never said that a source has no checksum,
since all characters of a source that is read can be part of one. -/
theorem error_points_into_source (h : ofString text = .error e) :
    (e.source = text ∨ ∃ suffix, '#' ∉ suffix ∧ text.toList = e.source.toList ++ '#' :: suffix) ∧
    e.offset ≤ e.source.utf8ByteSize ∧ (String.Pos.Raw.mk e.offset).IsValid e.source ∧
    (∃ before after : String, e.source = before ++ after ∧ before.utf8ByteSize = e.offset ∧
      (∀ c ∈ before.toList, '!' ≤ c ∧ c ≤ '~') ∧
      e.display = e.line ++ "\n" ++ (before ++ after) ++ "\n" ++
        String.ofList (before.toList.map (fun _ => ' ') ++ ['^'])) ∧
    (∀ source checksum tokens e', splitChecksum text = (source, checksum) →
      Token.lex source = .ok tokens →
      (Parser.runFrom Parser.wholeScript source).1 = .error e' →
      e' = e ∧ e.source = source ∧ e.position ≤ tokens.length ∧
      e.offset = tokens[e.position]?.elim source.utf8ByteSize Token.start) ∧
    e.message ≠ "descriptor contains non-checksummable characters" ∧
    ∀ source n, (Parser.runFrom Parser.wholeScript source).1 = .ok n →
      ∀ c ∈ source.toList, c ∈ Checksum.inputAlphabet := by
  obtain ⟨before, after, hsource, hsize, hbefore, hdisplay⟩ :=
    ParseError.exists_display (isColumn_of_ofString_eq_error h)
  refine ⟨source_of_ofString_eq_error h, ?_, ?_, ⟨before, after, hsource, hsize, hbefore, hdisplay⟩,
    ?_, message_of_ofString_eq_error h, fun _ _ => Parser.mem_inputAlphabet_of_runFrom⟩
  · rw [hsource, ← hsize, String.utf8ByteSize_append]
    exact Nat.le_add_right _ _
  · exact String.Pos.Raw.isValid_iff_exists_append.mpr
      ⟨before, after, hsource, congrArg String.Pos.Raw.mk hsize.symm⟩
  · intro source checksum tokens e' hsplit hlex hfails
    obtain rfl : e = e' :=
      Except.error.inj (h.symm.trans (ofString_of_runFrom_eq_error hsplit hfails))
    rcases Parser.confined_wholeScript.of_runFrom_eq_error hfails with
      ⟨cause, hcause, -⟩ | ⟨_, htokens, hblames⟩
    · rw [hlex] at hcause
      cases hcause
    · rw [hlex] at htokens
      cases htokens
      obtain ⟨hsource, hposition, hoffset, -⟩ := hblames.points
      exact ⟨rfl, hsource, hposition, hoffset⟩

/-- A token at which the parser has stepped back, in front of a checksum that is not looked at. -/
theorem error_points_into_source_of_misplaced :
    ∃ e tokens, ofString "sh(wsh(tr(#abc" = .error e ∧ Token.lex "sh(wsh(tr(" = .ok tokens ∧
      tokens.map Token.start = [0, 2, 3, 6, 7, 9] ∧ e.source = "sh(wsh(tr(" ∧ e.position = 4 ∧
      e.offset = tokens[e.position]?.elim 10 Token.start ∧
      e.display = "`tr` is not allowed inside `wsh` (at offset 7)\nsh(wsh(tr(\n       ^" ∧
      (String.Pos.Raw.mk e.offset).IsValid e.source := by
  let e : ParseError := ⟨.misplaced .tr (some .wsh), 4, 7, "sh(wsh(tr("⟩
  have hsplit : splitChecksum "sh(wsh(tr(#abc" = ("sh(wsh(tr(", some ['a', 'b', 'c']) := by
    decide +kernel
  have hfails : (Parser.runFrom Parser.wholeScript "sh(wsh(tr(").1 = .error e := by decide +kernel
  obtain ⟨tokens, hlex, hstarts⟩ := exists_of_any_toOption (x := Token.lex "sh(wsh(tr(")
    (P := fun tokens => tokens.map Token.start = [0, 2, 3, 6, 7, 9]) (by decide +kernel)
  have herror := ofString_of_runFrom_eq_error hsplit hfails
  obtain ⟨-, -, hvalid, -, htoken, -, -⟩ := error_points_into_source herror
  obtain ⟨-, -, -, hoffset⟩ := htoken _ _ tokens e hsplit hlex hfails
  exact ⟨e, tokens, herror, hlex, hstarts, rfl, rfl, hoffset, by decide +kernel, hvalid⟩

end OutputDescriptor

end WalletExchange
