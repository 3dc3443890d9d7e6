import WalletExchange.Proofs.Descriptor.Grammar
import WalletExchange.Proofs.Descriptor.Lexing
import WalletExchange.Proofs.Text

/-!
# Proofs — the words of a descriptor

The words that a descriptor is written with, and the tokens that they become.  A number in decimal
is an integer or data, as it happens to have an odd or an even number of digits, and either way it
is a numeral; data in hexadecimal is data even where it has no letters.

Main statements:

* `spells_encode` — data in hexadecimal is that data.
* `exists_numeral` — a number in decimal is a numeral of that number.
* `spells_name` — the name of a function is its keyword.
-/

namespace WalletExchange

namespace Hex

theorem exists_digitChar_eq {c : Char} (h : c.isDigit = true) : ∃ n < 16, Nat.digitChar n = c := by
  have hall : ∀ n ∈ List.range 10, Nat.digitChar n = Char.ofNat (n + 48) := by decide
  rw [Char.isDigit, Bool.and_eq_true, decide_eq_true_eq, decide_eq_true_eq] at h
  have hlow : 48 ≤ c.toNat := h.1
  have hhigh : c.toNat ≤ 57 := h.2
  refine ⟨c.toNat - 48, by omega, ?_⟩
  rw [hall _ (List.mem_range.mpr (by omega)), Nat.sub_add_cancel hlow, Char.ofNat_toNat]

/-- A byte is written with its two halves. -/
theorem encode_cons_ofNat {h l : Nat} (hh : h < 16) (hl : l < 16) (rest : Bytes) :
    encode (UInt8.ofNat (16 * h + l) :: rest) =
      Nat.digitChar h :: Nat.digitChar l :: encode rest := by
  have hbyte : (UInt8.ofNat (16 * h + l)).toNat = 16 * h + l := by
    rw [UInt8.toNat_ofNat', Nat.mod_eq_of_lt (by omega)]
  rw [encode, hbyte, show (16 * h + l) / 16 = h by omega, show (16 * h + l) % 16 = l by omega]

/-- An even number of decimal digits is how some bytes are written. -/
theorem exists_encode_eq : ∀ {text : List Char}, (∀ c ∈ text, c.isDigit = true) →
    text.length % 2 = 0 → ∃ bytes, encode bytes = text
  | [], _, _ => ⟨[], rfl⟩
  | [_], _, heven => absurd heven Nat.one_ne_zero
  | high :: low :: rest, hdigits, heven => by
      obtain ⟨hhigh, htail⟩ := List.forall_mem_cons.mp hdigits
      obtain ⟨hlow, hall⟩ := List.forall_mem_cons.mp htail
      obtain ⟨h, hh, rfl⟩ := exists_digitChar_eq hhigh
      obtain ⟨l, hl, rfl⟩ := exists_digitChar_eq hlow
      have hrest : rest.length % 2 = 0 := by
        simp only [List.length_cons] at heven
        omega
      obtain ⟨bytes, rfl⟩ := exists_encode_eq hall hrest
      exact ⟨UInt8.ofNat (16 * h + l) :: bytes, encode_cons_ofNat hh hl bytes⟩

/-- An even number of hexadecimal digits is data of half the length. -/
theorem exists_decode?_eq : ∀ {text : List Char}, (∀ c ∈ text, isDigit c = true) →
    text.length % 2 = 0 → ∃ bytes, decode? text = some bytes ∧ 2 * bytes.length = text.length
  | [], _, _ => ⟨[], rfl, rfl⟩
  | [_], _, heven => absurd heven Nat.one_ne_zero
  | high :: low :: rest, hdigits, heven => by
      obtain ⟨hhigh, htail⟩ := List.forall_mem_cons.mp hdigits
      obtain ⟨hlow, hall⟩ := List.forall_mem_cons.mp htail
      obtain ⟨h, hh⟩ := Option.isSome_iff_exists.mp hhigh
      obtain ⟨l, hl⟩ := Option.isSome_iff_exists.mp hlow
      have hrest : rest.length % 2 = 0 := by
        simp only [List.length_cons] at heven
        omega
      obtain ⟨bytes, hbytes, hlength⟩ := exists_decode?_eq hall hrest
      refine ⟨UInt8.ofNat (16 * h + l) :: bytes, ?_, ?_⟩
      · simp [decode?, hh, hl, hbytes]
      · simp only [List.length_cons]
        omega

/-- What is read as data is an even number of hexadecimal digits. -/
theorem of_decode? : ∀ {text : List Char} {bytes : Bytes}, decode? text = some bytes →
    (∀ c ∈ text, isDigit c = true) ∧ text.length % 2 = 0
  | [], _, _ => ⟨List.forall_mem_nil _, rfl⟩
  | high :: low :: rest, _, h => by
      simp only [decode?, Option.bind_eq_bind, Option.bind_eq_some_iff] at h
      obtain ⟨_, hhigh, _, hlow, _, htail, -⟩ := h
      obtain ⟨hdigits, heven⟩ := of_decode? htail
      refine ⟨List.forall_mem_cons.mpr ⟨Option.isSome_of_mem hhigh,
        List.forall_mem_cons.mpr ⟨Option.isSome_of_mem hlow, hdigits⟩⟩, ?_⟩
      simp only [List.length_cons]
      omega

end Hex

namespace Token

variable {bytes : Bytes}

/-- A word of hexadecimal digits has no mark of hardening at its end. -/
theorem hardenedDigits?_eq_none {word : List Char} (h : ∀ c ∈ word, Hex.isDigit c = true) :
    hardenedDigits? word = none := by
  have hlast : Text.beforeLast? (fun c => c = 'h' || c = 'H') word = none := by
    rw [Text.beforeLast?]
    cases hc : word.getLast? with
    | none => rfl
    | some c =>
        have hdigit := h c (List.mem_of_getLast? hc)
        have hmark : ¬ (decide (c = 'h') || decide (c = 'H')) = true := by
          rw [Bool.or_eq_true, decide_eq_true_eq, decide_eq_true_eq]
          rintro (rfl | rfl)
          · exact absurd hdigit (by decide)
          · exact absurd hdigit (by decide)
        exact if_neg hmark
  rw [hardenedDigits?, hlast]
  rfl

/-- Every keyword has a letter that is no hexadecimal digit. -/
theorem ofName?_eq_none {word : List Char} (h : ∀ c ∈ word, Hex.isDigit c = true) :
    Keyword.ofName? word = none := by
  have hletter : ∀ k ∈ Keyword.all, k.name.toList.all Hex.isDigit = false := by decide
  rw [Keyword.ofName?, List.find?_eq_none]
  intro k hk hname
  have hall := hletter k hk
  rw [beq_iff_eq.mp hname, List.all_eq_true.mpr h] at hall
  cases hall

/-- Hexadecimal digits are read as the data that they spell, in either case. -/
theorem readWord_of_decode? {word : List Char} (hdecode : Hex.decode? word = some bytes)
    (offset : Nat) : readWord offset word = .ok (.data bytes) := by
  obtain ⟨hhex, heven⟩ := Hex.of_decode? hdecode
  have hmark : ¬ (word = ['h'] ∨ word = ['H']) := by
    rintro (rfl | rfl)
    · cases hdecode
    · cases hdecode
  rw [readWord, ofName?_eq_none hhex]
  simp only [if_neg hmark, readDigits, if_pos heven, hdecode, ite_self]

theorem spells_of_decode? {word : List Char} (hne : word ≠ [])
    (hdecode : Hex.decode? word = some bytes) : Spells word [.data bytes] := by
  have hhex := (Hex.of_decode? hdecode).1
  exact .of_readWord hne (fun c hc => Hex.isAlphanum_of_isDigit (hhex c hc))
    (hardenedDigits?_eq_none hhex) (readWord_of_decode? hdecode 0)

/-- Data in hexadecimal is that data. -/
theorem spells_encode (hne : bytes ≠ []) : Spells (Hex.encode bytes) [.data bytes] := by
  have hword : Hex.encode bytes ≠ [] := by
    cases bytes with
    | nil => exact absurd rfl hne
    | cons => exact List.cons_ne_nil _ _
  exact spells_of_decode? hword (Hex.decode?_encode bytes)

/-- Decimal digits are a numeral of the number that they spell. -/
theorem exists_readDigits {digits : List Char} {n : Nat} (hread : Decimal.read? digits = some n)
    (hn : n < UInt64.size) : ∃ kind, readDigits 0 digits = .ok kind ∧ Grammar.Numeral kind n := by
  obtain ⟨-, hdigits, hvalue⟩ := Decimal.read?_eq_some_iff.mp hread
  by_cases heven : digits.length % 2 = 0
  · obtain ⟨bytes, rfl⟩ := Hex.exists_encode_eq (List.all_eq_true.mp hdigits) heven
    refine ⟨.data bytes, ?_, .data hread⟩
    rw [readDigits, if_pos heven, Hex.decode?_encode]
  · refine ⟨.int (UInt64.ofNat n), ?_, ?_⟩
    · rw [readDigits, if_neg heven, hvalue, if_pos hn]
    · have hnumeral := Grammar.Numeral.int (UInt64.ofNat n)
      rwa [UInt64.toNat_ofNat_of_lt' hn] at hnumeral

/-- A word of decimal digits is read as these digits are. -/
theorem readWord_of_all_isDigit {offset : Nat} {digits : List Char}
    (hdigits : digits.all Char.isDigit = true) :
    readWord offset digits = readDigits offset digits := by
  have hhex : ∀ c ∈ digits, Hex.isDigit c = true :=
    fun c hc => Hex.isDigit_of_isDigit (List.all_eq_true.mp hdigits c hc)
  have hmark : ¬ (digits = ['h'] ∨ digits = ['H']) := by
    rintro (rfl | rfl)
    · exact absurd hdigits (by decide)
    · exact absurd hdigits (by decide)
  rw [readWord, ofName?_eq_none hhex]
  simp only [if_neg hmark, hdigits, if_true]

theorem spells_of_readDigits {offset : Nat} {digits : List Char} {kind : TokenKind}
    (hne : digits ≠ []) (hdigits : digits.all Char.isDigit = true)
    (h : readDigits offset digits = .ok kind) : Spells digits [kind] := by
  have hhex : ∀ c ∈ digits, Hex.isDigit c = true :=
    fun c hc => Hex.isDigit_of_isDigit (List.all_eq_true.mp hdigits c hc)
  exact .of_readWord hne (fun c hc => Hex.isAlphanum_of_isDigit (hhex c hc))
    (hardenedDigits?_eq_none hhex) ((readWord_of_all_isDigit hdigits).trans h)

/-- The mark of hardening at the end of a word is one letter. -/
theorem hardenedDigits?_eq_some_iff {word digits : List Char} :
    hardenedDigits? word = some digits ↔
      ∃ c, word = digits ++ [c] ∧ (c = 'h' ∨ c = 'H') ∧ digits ≠ [] ∧
        digits.all Char.isDigit = true := by
  rw [hardenedDigits?, Option.filter_eq_some_iff, Text.beforeLast?_eq_some_iff]
  simp only [Bool.or_eq_true, decide_eq_true_eq, Bool.and_eq_true, Bool.not_eq_true',
    List.isEmpty_eq_false_iff]
  constructor
  · rintro ⟨⟨c, rfl, hc⟩, hdigits⟩
    exact ⟨c, rfl, hc, hdigits⟩
  · rintro ⟨c, rfl, hc, hdigits⟩
    exact ⟨⟨c, rfl, hc⟩, hdigits⟩

/-- Digits with a mark of hardening after them are a number and the mark. -/
theorem spells_digits_hardened {offset : Nat} {digits : List Char} {c : Char} {kind : TokenKind}
    (hne : digits ≠ []) (hdigits : digits.all Char.isDigit = true)
    (h : readDigits offset digits = .ok kind) (hc : SingleStep.isHardenedMark c = true) :
    Spells (digits ++ [c]) [kind, .mark .hardened] := by
  rw [SingleStep.isHardenedMark, Bool.or_assoc, Bool.or_eq_true, Bool.or_eq_true, decide_eq_true_eq,
    decide_eq_true_eq, decide_eq_true_eq] at hc
  rcases hc with rfl | hc
  · exact (spells_of_readDigits hne hdigits h).append_mark rfl .nil
  · have hword : ∀ d ∈ digits ++ [c], d.isAlphanum = true := by
      rw [List.forall_mem_append, List.forall_mem_singleton]
      refine ⟨fun d hd => Hex.isAlphanum_of_isDigit
        (Hex.isDigit_of_isDigit (List.all_eq_true.mp hdigits d hd)), ?_⟩
      rcases hc with rfl | rfl <;> rfl
    have hvalue := ofWord_eq_ok_iff.mpr (.inl ⟨digits, kind,
      hardenedDigits?_eq_some_iff.mpr ⟨c, rfl, hc, hne, hdigits⟩, h, rfl⟩)
    exact Spells.of_ofWord (by simp) hword hvalue

/-- A word of decimal digits is a numeral of the number that it spells. -/
theorem exists_numeral_of_read? {word : List Char} {n : Nat} (hread : Decimal.read? word = some n)
    (hn : n < UInt64.size) : ∃ kind, Spells word [kind] ∧ Grammar.Numeral kind n := by
  obtain ⟨hne, hdigits, -⟩ := Decimal.read?_eq_some_iff.mp hread
  obtain ⟨kind, hkind, hnumeral⟩ := exists_readDigits hread hn
  exact ⟨kind, spells_of_readDigits hne hdigits hkind, hnumeral⟩

/-- A number in decimal is a numeral of that number. -/
theorem exists_numeral {n : Nat} (h : n < UInt64.size) :
    ∃ kind, Spells (Decimal.render n) [kind] ∧ Grammar.Numeral kind n :=
  exists_numeral_of_read? (Decimal.read?_render n) h

/-- The name of a function is its keyword. -/
theorem spells_name (k : Keyword) : Spells k.name.toList [.keyword k] := by
  have hword : k.name.toList ≠ [] ∧ k.name.toList.all Char.isAlphanum = true ∧
      hardenedDigits? k.name.toList = none ∧ Keyword.ofName? k.name.toList = some k := by
    cases k <;> decide
  obtain ⟨hne, halphanum, hdigits, hname⟩ := hword
  have hread : readWord 0 k.name.toList = .ok (.keyword k) := by
    rw [readWord, hname]
  exact .of_readWord hne (List.all_eq_true.mp halphanum) hdigits hread

end Token

end WalletExchange
