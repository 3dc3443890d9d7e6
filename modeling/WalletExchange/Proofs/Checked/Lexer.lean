import WalletExchange.Descriptor.Token
import WalletExchange.Proofs.Checked.Basic
import WalletExchange.Proofs.Text

/-!
# Proofs — cutting texts by their bytes

The lexer walks over the bytes of a text and takes words, and a character it does not know, out of
the text by offsets.  A byte is looked at by itself, while an offset has to be at the boundary of a
character.  It always is: what the lexer steps over are marks, letters and digits of one byte each,
and the first byte of any other character is none of them.

Main statements:

* `Checked.exists_first_byte` — a character and its first byte are told apart from marks and words
  in the same way.
* `Checked.lex_eq` — the lexer takes no byte that is not there and cuts no character.
-/

namespace WalletExchange.Checked

open Token (hardenedDigits? readDigits readWord)

/-- The byte is that of a letter or digit. -/
def isWordByte (b : UInt8) : Bool := (Char.ofUInt8 b).isAlphanum

/-- Where a word ends that reaches a position at least. -/
def wordEnd (bytes : Bytes) (pos : Nat) : Checked { stop : Nat // pos ≤ stop } :=
  if pos < bytes.length then do
    let b ← item bytes pos
    if isWordByte b then
      let ⟨stop, hstop⟩ ← wordEnd bytes (pos + 1)
      return ⟨stop, Nat.le_of_succ_le hstop⟩
    else return ⟨pos, Nat.le_refl pos⟩
  else return ⟨pos, Nat.le_refl pos⟩
termination_by bytes.length - pos

/-- The one or two tokens of a word. -/
def ofWord (start : Nat) (word : List Char) : Guarded LexError (List Token) := do
  let stop := start + size word
  match hardenedDigits? word with
  | some digits =>
    let kind ← total (readDigits start digits)
    let middle ← lift (difference stop 1)
    return [⟨kind, start, middle⟩, ⟨.mark .hardened, middle, stop⟩]
  | none =>
    let kind ← total (readWord start word)
    return [⟨kind, start, stop⟩]

/-- The tokens of a text with given bytes, from a position on. -/
def lexFrom (text : List Char) (bytes : Bytes) (pos : Nat) : Guarded LexError (List Token) :=
  if pos < bytes.length then do
    let b ← lift (item bytes pos)
    match Mark.ofChar? (Char.ofUInt8 b) with
    | some m =>
      let tokens ← lexFrom text bytes (pos + 1)
      return ⟨.mark m, pos, pos + 1⟩ :: tokens
    | none =>
      if isWordByte b then
        let ⟨stop, _⟩ ← lift (wordEnd bytes (pos + 1))
        let word ← lift (textBetween text pos stop)
        let first ← ofWord pos word
        let tokens ← lexFrom text bytes stop
        return first ++ tokens
      else
        let rest ← lift (textFrom text pos)
        throw (.unexpectedChar pos (rest.headD '\uFFFD'))
  else return []
termination_by bytes.length - pos

/-- The tokens of a text. -/
def lex (text : String) : Guarded LexError (List Token) :=
  lexFrom text.toList text.toUTF8.data.toList 0

/-! ### Bytes and characters -/

/-- The bytes of a text. -/
def encode (text : List Char) : Bytes := text.flatMap String.utf8EncodeChar

theorem encode_toList (text : String) : text.toUTF8.data.toList = encode text.toList := by
  rw [String.toUTF8_eq_toByteArray, ← String.utf8Encode_toList, List.utf8Encode]
  simp [encode]

theorem length_encode (text : List Char) : (encode text).length = size text := by
  induction text with
  | nil => rfl
  | cons c text ih =>
      rw [encode, List.flatMap_cons, List.length_append, String.length_utf8EncodeChar]
      exact congrArg (c.utf8Size + ·) ih

/-- The characters that are told by a mark or belong to a word have one byte. -/
theorem utf8Size_of_mark {c : Char} {m : Mark} (h : Mark.ofChar? c = some m) :
    c.utf8Size = 1 := by
  unfold Mark.ofChar? at h
  split at h
  all_goals first | rfl | cases h

theorem utf8Size_of_isAlphanum {c : Char} (h : c.isAlphanum = true) : c.utf8Size = 1 := by
  have hrange := Text.range_of_isAlphanum h
  have hle : c.toNat ≤ 127 := by omega
  exact Char.utf8Size_eq_one_iff.mpr (UInt32.le_iff_toNat_le.mpr hle)

/-- A character of more than one byte is no mark and belongs to no word. -/
theorem of_utf8Size_ne {c : Char} (h : c.utf8Size ≠ 1) :
    Mark.ofChar? c = none ∧ c.isAlphanum = false := by
  constructor
  · cases hmark : Mark.ofChar? c with
    | none => rfl
    | some m => exact absurd (utf8Size_of_mark hmark) h
  · exact Bool.eq_false_iff.mpr fun halphanum => h (utf8Size_of_isAlphanum halphanum)

/-- The first byte of a character of more than one byte has its highest bit set. -/
theorem exists_high_byte {c : Char} (h : c.utf8Size ≠ 1) :
    ∃ b bytes, String.utf8EncodeChar c = b :: bytes ∧ 128 ≤ b.toNat := by
  have hlarge : ¬ c.val.toNat ≤ 127 := fun hle =>
    h (Char.utf8Size_eq_one_iff.mpr (UInt32.le_iff_toNat_le.mpr hle))
  unfold String.utf8EncodeChar
  simp only [hlarge, if_false]
  split
  · exact ⟨_, _, rfl, by rw [UInt8.toNat_ofNat']; omega⟩
  · split
    · exact ⟨_, _, rfl, by rw [UInt8.toNat_ofNat']; omega⟩
    · exact ⟨_, _, rfl, by rw [UInt8.toNat_ofNat']; omega⟩

/-- A character and its first byte are told apart from marks and words in the same way. -/
theorem exists_first_byte (c : Char) :
    ∃ b bytes, String.utf8EncodeChar c = b :: bytes ∧
      Mark.ofChar? (Char.ofUInt8 b) = Mark.ofChar? c ∧ isWordByte b = c.isAlphanum := by
  by_cases hsize : c.utf8Size = 1
  · have hval : c.val.toNat ≤ 127 := UInt32.le_iff_toNat_le.mp (Char.utf8Size_eq_one_iff.mp hsize)
    have hbyte : Char.ofUInt8 c.val.toUInt8 = c := by
      refine Char.ext (UInt32.toNat_inj.mp ?_)
      change c.val.toUInt8.toUInt32.toNat = c.val.toNat
      rw [UInt8.toNat_toUInt32, UInt32.toNat_toUInt8]
      omega
    exact ⟨c.val.toUInt8, [], String.utf8EncodeChar_eq_singleton hsize, by rw [hbyte],
      by rw [isWordByte, hbyte]⟩
  · obtain ⟨b, bytes, hencode, hb⟩ := exists_high_byte hsize
    have hfirst : (Char.ofUInt8 b).utf8Size ≠ 1 := by
      rw [ne_eq, Char.utf8Size_eq_one_iff, UInt32.le_iff_toNat_le]
      change ¬ b.toUInt32.toNat ≤ 127
      rw [UInt8.toNat_toUInt32]
      omega
    obtain ⟨hmark, halphanum⟩ := of_utf8Size_ne hsize
    obtain ⟨hmark', halphanum'⟩ := of_utf8Size_ne hfirst
    exact ⟨b, bytes, hencode, by rw [hmark, hmark'], by rw [isWordByte, halphanum, halphanum']⟩

/-! ### The walk -/

section Walk

variable (before : List Char)

/-- The byte at the end of some text is the first one of the next character. -/
theorem exists_item (c : Char) (rest : List Char) :
    ∃ b, item (encode (before ++ c :: rest)) (size before) = .ok b ∧
      Mark.ofChar? (Char.ofUInt8 b) = Mark.ofChar? c ∧ isWordByte b = c.isAlphanum := by
  obtain ⟨b, bytes, hencode, hb⟩ := exists_first_byte c
  refine ⟨b, item_of_getElem? ?_, hb⟩
  rw [encode, List.flatMap_append, List.flatMap_cons, hencode, ← length_encode, encode,
    List.getElem?_append_right (Nat.le_refl _), Nat.sub_self]
  rfl

theorem size_lt_length_encode (c : Char) (rest : List Char) :
    size before < (encode (before ++ c :: rest)).length := by
  have hpos := c.utf8Size_pos
  rw [length_encode, size_append, size_cons]
  omega

/-- A word ends behind the letters and digits that come next. -/
theorem wordEnd_eq {pos : Nat} (hpos : size before = pos) (rest : List Char) :
    ∃ h, wordEnd (encode (before ++ rest)) pos =
      .ok ⟨pos + (rest.takeWhile Char.isAlphanum).length, h⟩ := by
  refine ⟨Nat.le_add_right _ _, ?_⟩
  subst hpos
  induction rest generalizing before with
  | nil =>
      rw [wordEnd, if_neg]
      · rfl
      · rw [length_encode, List.append_nil]
        exact Nat.lt_irrefl _
  | cons c rest ih =>
      obtain ⟨b, hitem, -, hword⟩ := exists_item before c rest
      rw [wordEnd, if_pos (size_lt_length_encode before c rest), hitem, ok_bind, hword,
        List.takeWhile_cons]
      cases hc : c.isAlphanum with
      | false => rfl
      | true =>
          have hstep := ih (before ++ [c])
          rw [List.append_assoc, List.singleton_append,
            size_append_singleton (utf8Size_of_isAlphanum hc)] at hstep
          rw [if_pos rfl, hstep, ok_bind]
          refine congrArg Except.ok (Subtype.ext ?_)
          change size before + 1 + _ = size before + (_ + 1)
          omega

theorem size_of_isAlphanum {word : List Char} (h : ∀ c ∈ word, c.isAlphanum = true) :
    size word = word.length := by
  induction word with
  | nil => rfl
  | cons c word ih =>
      obtain ⟨hc, hword⟩ := List.forall_mem_cons.mp h
      rw [size_cons, utf8Size_of_isAlphanum hc, ih hword, List.length_cons, Nat.add_comm]

theorem isAlphanum_of_mem_word {c : Char} (hc : c.isAlphanum = true) (rest : List Char) :
    ∀ d ∈ c :: rest.takeWhile Char.isAlphanum, d.isAlphanum = true :=
  List.forall_mem_cons.mpr ⟨hc, List.all_eq_true.mp List.all_takeWhile⟩

/-- The walk from the second byte of a word ends behind the word. -/
theorem wordEnd_of_isAlphanum {c : Char} (hc : c.isAlphanum = true) (rest : List Char) :
    ∃ h, wordEnd (encode (before ++ c :: rest)) (size before + 1) =
      .ok ⟨size before + size (c :: rest.takeWhile Char.isAlphanum), h⟩ := by
  have hstop : size before + 1 + (rest.takeWhile Char.isAlphanum).length =
      size before + size (c :: rest.takeWhile Char.isAlphanum) := by
    rw [size_of_isAlphanum (isAlphanum_of_mem_word hc rest), List.length_cons]
    omega
  obtain ⟨hle, hend⟩ :=
    wordEnd_eq (before ++ [c]) (size_append_singleton (utf8Size_of_isAlphanum hc)) rest
  rw [List.append_assoc, List.singleton_append] at hend
  refine ⟨hstop ▸ hle, hend.trans ?_⟩
  exact congrArg Except.ok (Subtype.ext hstop)

/-- The mark of hardening is one byte behind the digits. -/
theorem ofWord_eq {start : Nat} {word : List Char} (h : ∀ c ∈ word, c.isAlphanum = true) :
    ofWord start word = total (Token.ofWord start word) := by
  rw [ofWord, Token.ofWord, size_of_isAlphanum h]
  cases hdigits : hardenedDigits? word with
  | none =>
      dsimp only
      rw [total_bind]
      rfl
  | some digits =>
      have hlength : word.length = digits.length + 1 := by
        obtain ⟨hlast, -⟩ := Option.filter_eq_some_iff.mp hdigits
        obtain ⟨c, rfl, -⟩ := Text.beforeLast?_eq_some_iff.mp hlast
        exact List.length_append
      have hmiddle : difference (start + word.length) 1 = .ok (start + digits.length) := by
        rw [difference_of_le (by omega)]
        exact congrArg Except.ok (by omega)
      dsimp only
      rw [hmiddle, total_bind, lift_ok, hlength]
      rfl

theorem lexFrom_eq (rest : List Char) :
    lexFrom (before ++ rest) (encode (before ++ rest)) (size before) =
      total (Token.lexFrom (size before) rest) := by
  -- a word takes off many characters at once, so the induction is on the length
  induction hlength : rest.length using Nat.strongRecOn generalizing before rest with
  | ind n ih =>
    subst hlength
    cases rest with
    | nil =>
        rw [lexFrom, if_neg, Token.lexFrom]
        · rfl
        · rw [length_encode, List.append_nil]
          exact Nat.lt_irrefl _
    | cons c rest =>
        obtain ⟨b, hitem, hmark, hword⟩ := exists_item before c rest
        rw [lexFrom, if_pos (size_lt_length_encode before c rest), hitem, lift_ok, pure_bind,
          Token.lexFrom, hmark]
        cases hm : Mark.ofChar? c with
        | some m =>
            have hrest := ih rest.length (Nat.lt_succ_self _) (before ++ [c]) rest rfl
            rw [List.append_assoc, List.singleton_append,
              size_append_singleton (utf8Size_of_mark hm)] at hrest
            dsimp only
            rw [hrest, total_bind]
            rfl
        | none =>
            dsimp only
            rw [hword]
            cases hc : c.isAlphanum with
            | false =>
                rw [textFrom_size]
                rfl
            | true =>
                let word := c :: rest.takeWhile Char.isAlphanum
                let after := rest.dropWhile Char.isAlphanum
                have hrest : c :: rest = word ++ after :=
                  congrArg (c :: ·) List.takeWhile_append_dropWhile.symm
                have hword : ∀ d ∈ word, d.isAlphanum = true := isAlphanum_of_mem_word hc rest
                obtain ⟨hle, hend⟩ := wordEnd_of_isAlphanum before hc rest
                have htext : textBetween (before ++ c :: rest) (size before)
                    (size before + size word) = .ok word := by
                  rw [hrest, textBetween_size]
                have hshorter : after.length < (c :: rest).length :=
                  Nat.lt_succ_of_le (List.dropWhile_suffix _).length_le
                have hnext := ih after.length hshorter (before ++ word) after rfl
                rw [List.append_assoc, ← hrest, size_append] at hnext
                rw [if_pos rfl, if_pos rfl, hend, lift_ok, pure_bind, htext, lift_ok, pure_bind,
                  ofWord_eq hword, hnext, size_of_isAlphanum hword, total_bind]
                simp only [total_bind]
                rfl

end Walk

/-- The lexer takes no byte that is not there and cuts no character. -/
theorem lex_eq (text : String) : lex text = total (Token.lex text) := by
  rw [lex, encode_toList]
  exact lexFrom_eq [] text.toList

end WalletExchange.Checked
