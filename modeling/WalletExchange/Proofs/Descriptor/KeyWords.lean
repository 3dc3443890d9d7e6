import WalletExchange.Proofs.Descriptor.Rendering
import WalletExchange.Proofs.Key.Text

/-!
# Proofs — the words of keys

Whether a word is a key or an address is asked last.  No keyword and no mark is one, but a number or
data can be (`Taken`), and then the word is not read as the key that it is.  All other words that
spell a key or an address are one token of it wherever they stand.

The text of an extended key begins with a letter that is no digit, so it is never taken, and what
other proofs assume of it holds of every extended key.

Main statements:

* `readsAs_iff_not_taken` — a word that spells a key or an address is the token of it, unless it is
  taken.
* `readsAs_render` — the text of an extended key is one token, of the key as it is read back.
-/

namespace WalletExchange.Token

variable {front word : List Char} {kind : TokenKind}

/-! ### Words that are taken -/

/-- The words that are read as numbers or data, whatever else they spell. -/
inductive Taken : List Char → Prop where
  /-- Decimal digits. -/
  | number {word : List Char} (digits : word.all Char.isDigit = true) : Taken word
  /-- Decimal digits with a mark of hardening after them. -/
  | hardened {digits : List Char} {c : Char} (ne_nil : digits ≠ [])
      (isDigit : digits.all Char.isDigit = true) (isMark : c = 'h' ∨ c = 'H') :
      Taken (digits ++ [c])
  /-- An even number of hexadecimal digits. -/
  | data {word : List Char} (isDigit : ∀ c ∈ word, Hex.isDigit c = true)
      (even : word.length % 2 = 0) : Taken word

/-- All characters of a taken word but the last one are hexadecimal digits. -/
theorem Taken.isDigit_of_begins (h : Taken word) (hfront : front <+: word)
    (hlength : front.length < word.length) : ∀ c ∈ front, Hex.isDigit c = true := by
  have hall {digits : List Char} (hdigits : digits.all Char.isDigit = true) :
      ∀ c ∈ digits, Hex.isDigit c = true :=
    fun c hc => Hex.isDigit_of_isDigit (List.all_eq_true.mp hdigits c hc)
  intro c hc
  cases h with
  | number hdigits => exact hall hdigits c (hfront.subset hc)
  | @hardened digits mark _ hdigits _ =>
      rw [List.length_append, List.length_singleton] at hlength
      have hbefore : front <+: digits :=
        List.prefix_of_prefix_length_le hfront (List.prefix_append digits [mark]) (by omega)
      exact hall hdigits c (hbefore.subset hc)
  | data hdigits _ => exact hdigits c (hfront.subset hc)

/-- A word is not taken if among the characters before the last one there is one that is no
hexadecimal digit. -/
theorem not_taken_of_begins (hfront : front <+: word) (hlength : front.length < word.length)
    (hdigits : front.all Hex.isDigit = false) : ¬ Taken word := by
  intro h
  rw [List.all_eq_true.mpr (h.isDigit_of_begins hfront hlength)] at hdigits
  cases hdigits

/-! ### Words that spell a key or an address -/

/-- No keyword and no mark spells a key or an address. -/
theorem not_reserved_of_readKey? (h : readKey? word = some kind) :
    Keyword.ofName? word = none ∧ ¬ (word = ['h'] ∨ word = ['H']) ∧ word ≠ [] := by
  have hnames : ∀ k ∈ Keyword.all, (readKey? k.name.toList).isNone = true := by decide +kernel
  have hmarks : ∀ mark ∈ [['h'], ['H'], []], (readKey? mark).isNone = true := by decide +kernel
  have hword : (readKey? word).isNone = false := by rw [h]; rfl
  refine ⟨List.find?_eq_none.mpr fun k hk hname => ?_, ?_, ?_⟩
  · rw [← beq_iff_eq.mp hname, hnames k hk] at hword
    cases hword
  · rintro (rfl | rfl)
    · rw [hmarks _ (by decide)] at hword
      cases hword
    · rw [hmarks _ (by decide)] at hword
      cases hword
  · rintro rfl
    rw [hmarks _ (by decide)] at hword
    cases hword

/-- Digits are not the token of a key or an address. -/
theorem readDigits_ne_of_readKey? {offset : Nat} {digits : List Char}
    (h : readKey? word = some kind) : readDigits offset digits ≠ .ok kind := by
  intro hdigits
  rw [readDigits] at hdigits
  obtain ⟨_, -, rfl⟩ | ⟨_, rfl⟩ | ⟨_, rfl⟩ := readKey?_cases h <;> split at hdigits <;>
    split at hdigits <;> cases hdigits

/-- A word that spells a key or an address is the token of it, unless it is taken. -/
theorem readsAs_iff_not_taken (hword : ∀ c ∈ word, c.isAlphanum = true)
    (hkey : readKey? word = some kind) : ReadsAs (word, kind) ↔ ¬ Taken word := by
  obtain ⟨hname, hmark, hne⟩ := not_reserved_of_readKey? hkey
  rw [ReadsAs, lex, String.toList_ofList, lexFrom_word hne hword, ofWord_eq_ok_iff]
  constructor
  · rintro (⟨_, _, _, _, heq⟩ | ⟨hhardened, _, hread, heq⟩) htaken
    · exact absurd (congrArg List.length heq) (by simp)
    · rw [Nat.zero_add] at heq
      cases heq
      cases htaken with
      | number hdigits =>
          exact readDigits_ne_of_readKey? hkey ((readWord_of_all_isDigit hdigits).symm.trans hread)
      | hardened hsome hdigits hc =>
          rw [hardenedDigits?_eq_some_iff.mpr ⟨_, rfl, hc, hsome, hdigits⟩] at hhardened
          cases hhardened
      | data hdigits heven =>
          obtain ⟨bytes, hdecode, -⟩ := Hex.exists_decode?_eq hdigits heven
          rw [readWord_of_decode? hdecode] at hread
          cases hread
          obtain ⟨_, -, ⟨⟩⟩ | ⟨_, ⟨⟩⟩ | ⟨_, ⟨⟩⟩ := readKey?_cases hkey
  · intro htaken
    have hhardened : hardenedDigits? word = none := by
      cases h : hardenedDigits? word with
      | none => rfl
      | some digits =>
          obtain ⟨c, rfl, hc, hne, hdigits⟩ := hardenedDigits?_eq_some_iff.mp h
          exact absurd (.hardened hne hdigits hc) htaken
    have hnumber : ¬ word.all Char.isDigit = true := fun hdigits => htaken (.number hdigits)
    have hdata : Hex.decode? word = none := by
      cases h : Hex.decode? word with
      | none => rfl
      | some bytes =>
          obtain ⟨hdigits, heven⟩ := Hex.of_decode? h
          exact absurd (.data hdigits heven) htaken
    refine .inr ⟨hhardened, kind, ?_, by rw [Nat.zero_add]⟩
    rw [readWord, hname]
    simp only [if_neg hmark, if_neg hnumber, hdata, ite_self, hkey]

/-! ### Extended keys -/

theorem beginsWith_heading (isPrivate : Bool) (network : BitcoinNetwork) (rest : List Char) :
    beginsWith ["xpub", "tpub"] ((XKey.heading isPrivate network).toList ++ rest) = !isPrivate ∧
      beginsWith ["xprv", "tprv"] ((XKey.heading isPrivate network).toList ++ rest) =
        isPrivate := by
  cases isPrivate <;> cases network <;> simp [XKey.heading, beginsWith, List.isPrefixOf]

theorem readKey?_render (k : XKey) : readKey? k.render = some (.hdKey k.printed) := by
  obtain ⟨rest, hrest⟩ := k.exists_render_eq
  obtain ⟨hpublic, hprivate⟩ := beginsWith_heading k.isPrivate k.network rest
  rw [← hrest] at hpublic hprivate
  rw [readKey?, hpublic, hprivate]
  cases k with
  | xpub k => simp only [XKey.isPrivate, Bool.not_false, if_true, XKey.parsePublic?_render,
      Option.map_some]
  | xprv k => simp only [XKey.isPrivate, Bool.not_true, Bool.false_eq_true, if_false, if_true,
      XKey.parsePrivate?_render, Option.map_some]

/-- Keys of which a text keeps all have different texts. -/
theorem render_eq_iff {a b : XKey} (ha : a.printed = a) (hb : b.printed = b) :
    a.render = b.render ↔ a = b := by
  refine ⟨fun h => ?_, congrArg XKey.render⟩
  have hread := readKey?_render a
  rw [h, readKey?_render b, ha, hb] at hread
  exact (TokenKind.hdKey.inj (Option.some.inj hread)).symm

/-- The text of an extended key is one token. -/
theorem readsAs_render (k : XKey) : ReadsAs (k.render, .hdKey k.printed) := by
  obtain ⟨rest, hrest⟩ := k.exists_render_eq
  refine (readsAs_iff_not_taken Base58.isAlphanum_of_mem_encode (readKey?_render k)).mpr
    (not_taken_of_begins ⟨rest, hrest.symm⟩ ?_ ?_)
  · have hheading : (XKey.heading k.isPrivate k.network).toList.length = 4 := by
      cases k.isPrivate <;> cases k.network <;> rfl
    have hlength := Base58.length_le_encodeChecked k.toBytes
    rw [k.length_toBytes] at hlength
    rw [hheading]
    exact Nat.lt_of_lt_of_le (by decide) hlength
  · cases k.isPrivate <;> cases k.network <;> rfl

/-- The text of an extended key that a text keeps is one token of this key. -/
theorem readsAs_render_of_printed {k : XKey} (h : k.printed = k) :
    ReadsAs (k.render, .hdKey k) := by
  have hword := readsAs_render k
  rwa [h] at hword

end WalletExchange.Token
