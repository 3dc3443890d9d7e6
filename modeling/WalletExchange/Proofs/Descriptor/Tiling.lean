import Mathlib.Data.List.Chain
import WalletExchange.Proofs.Checked.Lexer
import WalletExchange.Proofs.Descriptor.Words

/-!
# Proofs — tokens tile the text

The lexer counts characters as it goes, over marks, over words, and over a word that it splits into
a number and a mark of hardening.  All that it lets through has one byte a character, so what it
counts are bytes: the tokens stand side by side from the first byte of the text to the last, and
each is what the bytes between its own offsets spell.

`Tiles start tokens stop` is the first part, `Denotes word kind` says in the terms of the readers of
numbers, keys and addresses what a word is read as.

Main statements:

* `Cut.tiles`, `Cut.isPiece` — what one token more does to both.
* `lex_tiles` — the tokens of every text tile it.
-/

namespace WalletExchange.Token

open Checked (size)

variable {offset start middle stop : Nat} {word text : List Char} {kind : TokenKind} {t : Token}
  {tokens ts us : List Token}

/-! ### Side by side -/

/-- The tokens stand side by side from one offset to another, and none of them is empty. -/
def Tiles : (start : Nat) → List Token → (stop : Nat) → Prop
  | start, [], stop => start = stop
  | start, t :: ts, stop => t.start = start ∧ start < t.stop ∧ Tiles t.stop ts stop

namespace Tiles

theorem singleton (h : start < stop) : Tiles start [⟨kind, start, stop⟩] stop := ⟨rfl, h, rfl⟩

theorem append (hts : Tiles start ts middle) (hus : Tiles middle us stop) :
    Tiles start (ts ++ us) stop := by
  induction ts generalizing start with
  | nil =>
      obtain rfl : start = middle := hts
      exact hus
  | cons t ts ih =>
      obtain ⟨hstart, hlt, hrest⟩ := hts
      exact ⟨hstart, hlt, ih hrest⟩

theorem start_lt_stop (h : Tiles start tokens stop) : ∀ t ∈ tokens, t.start < t.stop := by
  induction tokens generalizing start with
  | nil => exact List.forall_mem_nil _
  | cons t ts ih =>
      obtain ⟨hstart, hlt, hrest⟩ := h
      exact List.forall_mem_cons.mpr ⟨hstart ▸ hlt, ih hrest⟩

theorem start_head? (h : Tiles start tokens stop) : ∀ t ∈ tokens.head?, t.start = start := by
  cases tokens with
  | nil => exact nofun
  | cons t ts =>
      rintro _ ⟨⟩
      exact h.1

theorem stop_getLast? (h : Tiles start tokens stop) : ∀ t ∈ tokens.getLast?, t.stop = stop := by
  induction tokens generalizing start with
  | nil => exact nofun
  | cons t ts ih =>
      obtain ⟨-, -, hrest⟩ := h
      cases ts with
      | nil =>
          rintro _ ⟨⟩
          exact hrest
      | cons u us =>
          intro v hv
          rw [List.getLast?_cons_cons] at hv
          exact ih hrest v hv

theorem isChain (h : Tiles start tokens stop) :
    tokens.IsChain fun t u => t.stop = u.start := by
  induction tokens generalizing start with
  | nil => exact .nil
  | cons t ts ih =>
      obtain ⟨-, -, hrest⟩ := h
      exact List.isChain_cons.mpr ⟨fun u hu => (hrest.start_head? u hu).symm, ih hrest⟩

end Tiles

theorem tiles_ofWord (hne : word ≠ []) (h : ofWord offset word = .ok tokens) :
    Tiles offset tokens (offset + word.length) := by
  rcases ofWord_eq_ok_iff.mp h with ⟨digits, kind, hdigits, -, rfl⟩ | ⟨-, kind, -, rfl⟩
  · obtain ⟨c, rfl, -, hdigits, -⟩ := hardenedDigits?_eq_some_iff.mp hdigits
    have hpos : 0 < digits.length := List.length_pos_iff.mpr hdigits
    refine ⟨rfl, Nat.lt_add_of_pos_right hpos, rfl, Nat.lt_succ_self _, ?_⟩
    simp [Tiles, Nat.add_assoc]
  · exact .singleton (Nat.lt_add_of_pos_right (List.length_pos_iff.mpr hne))

theorem Cut.tiles (h : Cut offset text tokens) : Tiles offset tokens (offset + text.length) := by
  induction h with
  | nil => exact rfl
  | @mark offset c m text tokens _ _ ih =>
      refine ⟨rfl, Nat.lt_succ_self _, ?_⟩
      rwa [List.length_cons, Nat.add_comm text.length 1, ← Nat.add_assoc]
  | @word offset word text first tokens hne _ _ hfirst _ ih =>
      rw [List.length_append, ← Nat.add_assoc]
      exact (tiles_ofWord hne hfirst).append ih

/-! ### What words are read as -/

/-- What a word, or a single character, is read as. -/
inductive Denotes : List Char → TokenKind → Prop where
  | keyword (k : Keyword) : Denotes k.name.toList (.keyword k)
  | data {word : List Char} {bytes : Bytes} (digits : Hex.decode? word = some bytes) :
      Denotes word (.data bytes)
  | int {word : List Char} {n : UInt64} (odd : word.length % 2 = 1)
      (digits : Decimal.read? word = some n.toNat) : Denotes word (.int n)
  | wif {word : List Char} {key : PrivateKey} (text : PrivateKey.parse? word = some key) :
      Denotes word (.wif key)
  | hdKey {word : List Char} {key : XKey}
      (text : XKey.parsePublic? word = some key ∨ XKey.parsePrivate? word = some key) :
      Denotes word (.hdKey key)
  | address {word : List Char} {a : Address} (text : Address.parse? word = some a) :
      Denotes word (.address a)
  | mark {c : Char} {m : Mark} (isMark : Mark.ofChar? c = some m) : Denotes [c] (.mark m)
  | hardened {c : Char} (letter : c = 'h' ∨ c = 'H') : Denotes [c] (.mark .hardened)

theorem denotes_of_readDigits {digits : List Char} (hne : digits ≠ [])
    (hdigits : digits.all Char.isDigit = true) (h : readDigits offset digits = .ok kind) :
    Denotes digits kind := by
  rw [readDigits] at h
  split at h
  · split at h
    · next bytes hdecode =>
      cases h
      exact .data hdecode
    · cases h
  · next hodd =>
    split at h
    · next hlt =>
      cases h
      refine .int (Nat.mod_two_ne_zero.mp hodd) ?_
      rw [UInt64.toNat_ofNat_of_lt' hlt]
      exact Decimal.read?_eq_some_iff.mpr ⟨hne, hdigits, rfl⟩
    · cases h

theorem denotes_of_readKey? (h : readKey? word = some kind) : Denotes word kind := by
  rw [readKey?] at h
  split at h
  · obtain ⟨key, hkey, rfl⟩ := Option.map_eq_some_iff.mp h
    exact .hdKey (.inl hkey)
  · split at h
    · obtain ⟨key, hkey, rfl⟩ := Option.map_eq_some_iff.mp h
      exact .hdKey (.inr hkey)
    · split at h
      · next key hkey =>
        cases h
        exact .wif hkey
      · obtain ⟨a, ha, rfl⟩ := Option.map_eq_some_iff.mp h
        exact .address ha

theorem denotes_of_readWord (hne : word ≠ []) (h : readWord offset word = .ok kind) :
    Denotes word kind := by
  rw [readWord] at h
  split at h
  · next k hname =>
    cases h
    have hk := List.find?_some hname
    rw [← beq_iff_eq.mp hk]
    exact .keyword k
  · split at h
    · next hletter =>
      cases h
      rcases hletter with rfl | rfl
      · exact .hardened (.inl rfl)
      · exact .hardened (.inr rfl)
    · split at h
      · next hdigits => exact denotes_of_readDigits hne hdigits h
      · split at h
        · next bytes hdecode =>
          cases h
          split at hdecode
          · exact .data hdecode
          · cases hdecode
        · split at h
          · next hkey =>
            cases h
            exact denotes_of_readKey? hkey
          · cases h

/-- The word is read as this, and alone it is one token. -/
structure Reading (word : List Char) (kind : TokenKind) : Prop where
  denotes : Denotes word kind
  alone : lex (String.ofList word) = .ok [⟨kind, 0, word.length⟩]

theorem reading_of_mark {c : Char} {m : Mark} (h : Mark.ofChar? c = some m) :
    Reading [c] (.mark m) where
  denotes := .mark h
  alone := by
    rw [lex, String.toList_ofList, lexFrom_eq_ok_iff]
    exact .mark h .nil

theorem reading_of_readWord (hne : word ≠ []) (hword : ∀ c ∈ word, c.isAlphanum = true)
    (hdigits : hardenedDigits? word = none) (h : readWord offset word = .ok kind) :
    Reading word kind where
  denotes := denotes_of_readWord hne h
  alone := by
    have hvalue := ofWord_eq_ok_iff.mpr (.inr ⟨hdigits, kind, readWord_offset h 0, rfl⟩)
    have hcut := Cut.word hne hword breaks_nil hvalue .nil
    rw [List.append_nil, List.append_nil, Nat.zero_add] at hcut
    rw [lex, String.toList_ofList]
    exact hcut.lexFrom_eq

theorem reading_hardened {c : Char} (h : c = 'h' ∨ c = 'H') : Reading [c] (.mark .hardened) := by
  rcases h with rfl | rfl
  · exact reading_of_readWord (List.cons_ne_nil _ _) (List.forall_mem_singleton.mpr rfl) rfl
      (show readWord 0 ['h'] = _ from rfl)
  · exact reading_of_readWord (List.cons_ne_nil _ _) (List.forall_mem_singleton.mpr rfl) rfl
      (show readWord 0 ['H'] = _ from rfl)

/-- The number in front of a mark of hardening is read as it is where no mark follows. -/
theorem reading_of_readDigits {digits : List Char} (hne : digits ≠ [])
    (hdigits : digits.all Char.isDigit = true) (h : readDigits offset digits = .ok kind) :
    Reading digits kind := by
  have hhex : ∀ c ∈ digits, Hex.isDigit c = true :=
    fun c hc => Hex.isDigit_of_isDigit (List.all_eq_true.mp hdigits c hc)
  exact reading_of_readWord hne (fun c hc => Hex.isAlphanum_of_isDigit (hhex c hc))
    (hardenedDigits?_eq_none hhex) ((readWord_of_all_isDigit hdigits).trans h)

/-! ### Pieces -/

/-- The token is what a piece of the text is read as, and has the offsets of the piece. -/
def IsPiece (offset : Nat) (text : List Char) (t : Token) : Prop :=
  ∃ front word back, text = front ++ (word ++ back) ∧ t.start = offset + front.length ∧
    t.stop = t.start + word.length ∧ Reading word t.kind

namespace IsPiece

theorem whole (offset : Nat) (h : Reading word kind) :
    IsPiece offset word ⟨kind, offset, offset + word.length⟩ :=
  ⟨[], word, [], by simp, rfl, rfl, h⟩

theorem append_right (h : IsPiece offset text t) (back : List Char) :
    IsPiece offset (text ++ back) t := by
  obtain ⟨front, word, rest, rfl, hstart, hstop, hreading⟩ := h
  exact ⟨front, word, rest ++ back, by simp, hstart, hstop, hreading⟩

theorem append_left (front : List Char) (h : IsPiece (offset + front.length) text t) :
    IsPiece offset (front ++ text) t := by
  obtain ⟨rest, word, back, rfl, hstart, hstop, hreading⟩ := h
  refine ⟨front ++ rest, word, back, by simp, ?_, hstop, hreading⟩
  rw [hstart, List.length_append, Nat.add_assoc]

end IsPiece

theorem isPiece_of_ofWord (hne : word ≠ []) (hword : ∀ c ∈ word, c.isAlphanum = true)
    (h : ofWord offset word = .ok tokens) : ∀ t ∈ tokens, IsPiece offset word t := by
  rcases ofWord_eq_ok_iff.mp h with
    ⟨digits, kind, hdigits, hkind, rfl⟩ | ⟨hdigits, kind, hkind, rfl⟩
  · obtain ⟨c, rfl, hc, hne, hall⟩ := hardenedDigits?_eq_some_iff.mp hdigits
    have hnumber := IsPiece.whole offset (reading_of_readDigits hne hall hkind)
    have hmark := IsPiece.whole (offset + digits.length) (reading_hardened hc)
    exact List.forall_mem_cons.mpr ⟨hnumber.append_right [c],
      List.forall_mem_singleton.mpr (hmark.append_left digits)⟩
  · exact List.forall_mem_singleton.mpr
      (.whole offset (reading_of_readWord hne hword hdigits hkind))

/-- Every token of a text is what a piece of it is read as. -/
theorem Cut.isPiece (h : Cut offset text tokens) : ∀ t ∈ tokens, IsPiece offset text t := by
  induction h with
  | nil => exact List.forall_mem_nil _
  | @mark offset c m text tokens hmark _ ih =>
      have hfirst := IsPiece.whole offset (reading_of_mark hmark)
      exact List.forall_mem_cons.mpr ⟨hfirst.append_right text,
        fun t ht => IsPiece.append_left [c] (ih t ht)⟩
  | @word offset word text first tokens hne hword _ hfirst _ ih =>
      exact List.forall_mem_append.mpr
        ⟨fun t ht => (isPiece_of_ofWord hne hword hfirst t ht).append_right text,
          fun t ht => (ih t ht).append_left word⟩

/-! ### Bytes -/

/-- What is cut into tokens has one byte a character. -/
theorem Cut.utf8Size_eq_one (h : Cut offset text tokens) : ∀ c ∈ text, c.utf8Size = 1 := by
  intro c hc
  rcases h.isAlphanum_or_mark c hc with hc | ⟨m, hc⟩
  · exact Checked.utf8Size_of_isAlphanum hc
  · exact Checked.utf8Size_of_mark hc

theorem utf8ByteSize_ofList (h : ∀ c ∈ text, c.utf8Size = 1) :
    (String.ofList text).utf8ByteSize = text.length := by
  have hsize : size text = text.length := by
    induction text with
    | nil => rfl
    | cons c text ih =>
        obtain ⟨hc, htext⟩ := List.forall_mem_cons.mp h
        rw [Checked.size_cons, hc, ih htext, List.length_cons, Nat.add_comm]
  rw [← hsize, ← Checked.length_encode, ← String.toList_ofList (l := text),
    ← Checked.encode_toList, String.toList_ofList]
  rfl

/-- The tokens of a text are not empty, stand side by side, and reach from its first byte to its
last; there are none exactly if the text is empty.  Each token is what the text between its own
offsets is read as. -/
theorem lex_tiles {source : String} (h : lex source = .ok tokens) :
    (∀ t ∈ tokens, t.start < t.stop) ∧
    (∀ t ∈ tokens.head?, t.start = 0) ∧
    (tokens.IsChain fun t u => t.stop = u.start) ∧
    (∀ t ∈ tokens.getLast?, t.stop = source.utf8ByteSize) ∧
    (tokens = [] ↔ source = "") ∧
    ∀ t ∈ tokens, ∃ front word back : String, source = front ++ word ++ back ∧
      front.utf8ByteSize = t.start ∧ (front ++ word).utf8ByteSize = t.stop ∧
      Denotes word.toList t.kind ∧ lex word = .ok [⟨t.kind, 0, word.utf8ByteSize⟩] := by
  have hcut := lexFrom_eq_ok_iff.mp h
  have hbytes := hcut.utf8Size_eq_one
  have hsize : source.utf8ByteSize = source.toList.length := by
    rw [← utf8ByteSize_ofList hbytes, String.ofList_toList]
  have htiles := hcut.tiles
  rw [Nat.zero_add, ← hsize] at htiles
  refine ⟨htiles.start_lt_stop, htiles.start_head?, htiles.isChain, htiles.stop_getLast?, ?_, ?_⟩
  · constructor
    · intro hnil
      exact String.toList_eq_nil_iff.mp (hcut.eq_nil hnil)
    · rintro rfl
      rw [lex, String.toList_empty, lexFrom] at h
      cases h
      rfl
  · intro t ht
    obtain ⟨front, word, back, htext, hstart, hstop, hreading⟩ := hcut.isPiece t ht
    rw [htext] at hbytes
    obtain ⟨hfront, hrest⟩ := List.forall_mem_append.mp hbytes
    obtain ⟨hword, -⟩ := List.forall_mem_append.mp hrest
    refine ⟨.ofList front, .ofList word, .ofList back, ?_, ?_, ?_, ?_, ?_⟩
    · rw [← String.ofList_append, ← String.ofList_append, List.append_assoc, ← htext,
        String.ofList_toList]
    · rw [utf8ByteSize_ofList hfront, hstart, Nat.zero_add]
    · rw [← String.ofList_append, utf8ByteSize_ofList (List.forall_mem_append.mpr ⟨hfront, hword⟩),
        List.length_append, hstop, hstart, Nat.zero_add]
    · rw [String.toList_ofList]
      exact hreading.denotes
    · rw [utf8ByteSize_ofList hword]
      exact hreading.alone

/-- A number and a mark of hardening in one word, both for an even and for an odd number of digits,
next to a mark that is a quote, data, and a mark that is a word of its own. -/
theorem lex_tiles_of_hardened_numbers :
    ∃ source tokens, lex source = .ok tokens ∧
      source = "sh(44h,1h/1'/d34db33f*H)" ∧
      tokens.map (fun t => (t.start, t.stop)) = [(0, 2), (2, 3), (3, 5), (5, 6), (6, 7), (7, 8),
        (8, 9), (9, 10), (10, 11), (11, 12), (12, 13), (13, 21), (21, 22), (22, 23), (23, 24)] ∧
      (∀ t ∈ tokens, t.start < t.stop) ∧
      (∀ t ∈ tokens.head?, t.start = 0) ∧
      (tokens.IsChain fun t u => t.stop = u.start) ∧
      (∀ t ∈ tokens.getLast?, t.stop = source.utf8ByteSize) ∧
      (tokens = [] ↔ source = "") ∧
      ∀ t ∈ tokens, ∃ front word back : String, source = front ++ word ++ back ∧
        front.utf8ByteSize = t.start ∧ (front ++ word).utf8ByteSize = t.stop ∧
        Denotes word.toList t.kind ∧ lex word = .ok [⟨t.kind, 0, word.utf8ByteSize⟩] := by
  have h : lex "sh(44h,1h/1'/d34db33f*H)" = .ok
      [⟨.keyword .sh, 0, 2⟩, ⟨.mark .openParen, 2, 3⟩, ⟨.data [0x44], 3, 5⟩,
        ⟨.mark .hardened, 5, 6⟩, ⟨.mark .comma, 6, 7⟩, ⟨.int 1, 7, 8⟩, ⟨.mark .hardened, 8, 9⟩,
        ⟨.mark .slash, 9, 10⟩, ⟨.int 1, 10, 11⟩, ⟨.mark .hardened, 11, 12⟩, ⟨.mark .slash, 12, 13⟩,
        ⟨.data [0xd3, 0x4d, 0xb3, 0x3f], 13, 21⟩, ⟨.mark .star, 21, 22⟩, ⟨.mark .hardened, 22, 23⟩,
        ⟨.mark .closeParen, 23, 24⟩] := toOption_eq_some_iff.mp (by decide +kernel)
  exact ⟨_, _, h, rfl, rfl, lex_tiles h⟩

end WalletExchange.Token
