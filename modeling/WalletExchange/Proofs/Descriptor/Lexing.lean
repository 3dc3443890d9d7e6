import WalletExchange.Descriptor.Token
import WalletExchange.Proofs.Except
import WalletExchange.Proofs.Key.Serialized

/-!
# Proofs — cutting texts into tokens

`Cut offset text tokens` is the lexer as a relation: a text is nothing, or a mark with a text after
it, or a word that does not go on with a text after it.  `Spells text kinds` says that a text
becomes tokens of these kinds in every place where the word at its end does not go on, so it can be
put together from parts.

Main statements:

* `lexFrom_eq_ok_iff` — the lexer cuts texts as the relation says.
* `Spells.append` — a text that begins with no letter or digit can be put after any other.
* `spells_of_lex` — what is one token alone is the same token everywhere.
* `spells_append_mark_iff` — a text is cut where its tokens are cut at a mark.
-/

namespace WalletExchange.Token

/-- No word goes on with this text. -/
def Breaks (text : List Char) : Prop := ∀ c ∈ text.head?, c.isAlphanum = false

theorem breaks_nil : Breaks [] := nofun

theorem breaks_cons {c : Char} {text : List Char} (h : c.isAlphanum = false) :
    Breaks (c :: text) := by
  rintro _ ⟨⟩
  exact h

theorem Breaks.append {a b : List Char} (ha : Breaks a) (hb : Breaks b) : Breaks (a ++ b) := by
  cases a with
  | nil => exact hb
  | cons c a => exact ha

theorem Breaks.of_append {a b : List Char} (h : Breaks (a ++ b)) : Breaks a := by
  cases a with
  | nil => exact breaks_nil
  | cons c a => exact h

/-- The tokens that a text is cut into. -/
inductive Cut : (offset : Nat) → List Char → List Token → Prop where
  | nil {offset : Nat} : Cut offset [] []
  | mark {offset : Nat} {c : Char} {m : Mark} {text : List Char} {tokens : List Token}
      (isMark : Mark.ofChar? c = some m) (rest : Cut (offset + 1) text tokens) :
      Cut offset (c :: text) (⟨.mark m, offset, offset + 1⟩ :: tokens)
  | word {offset : Nat} {word text : List Char} {first tokens : List Token} (ne_nil : word ≠ [])
      (isWord : ∀ c ∈ word, c.isAlphanum = true) (breaks : Breaks text)
      (value : ofWord offset word = .ok first) (rest : Cut (offset + word.length) text tokens) :
      Cut offset (word ++ text) (first ++ tokens)

theorem isAlphanum_of_mark {c : Char} {m : Mark} (h : Mark.ofChar? c = some m) :
    c.isAlphanum = false := by
  unfold Mark.ofChar? at h
  split at h
  all_goals first | rfl | cases h

theorem ofChar?_eq_none {c : Char} (h : c.isAlphanum = true) : Mark.ofChar? c = none := by
  cases hm : Mark.ofChar? c with
  | none => rfl
  | some m =>
      rw [isAlphanum_of_mark hm] at h
      cases h

theorem mark_notMem_word {c : Char} {m : Mark} {word : List Char} (hmark : Mark.ofChar? c = some m)
    (hword : ∀ d ∈ word, d.isAlphanum = true) : c ∉ word := by
  intro hc
  have halphanum := hword c hc
  rw [isAlphanum_of_mark hmark] at halphanum
  cases halphanum

theorem takeWhile_word {word text : List Char} (hword : ∀ c ∈ word, c.isAlphanum = true)
    (htext : Breaks text) :
    (word ++ text).takeWhile Char.isAlphanum = word ∧
      (word ++ text).dropWhile Char.isAlphanum = text := by
  induction word with
  | nil =>
      cases text with
      | nil => exact ⟨rfl, rfl⟩
      | cons c text =>
          have hc := htext c rfl
          simp [hc]
  | cons c word ih =>
      obtain ⟨hc, hword⟩ := List.forall_mem_cons.mp hword
      obtain ⟨htake, hdrop⟩ := ih hword
      simp only [List.cons_append, List.takeWhile_cons, List.dropWhile_cons, hc, if_true, htake,
        hdrop, and_self]

theorem breaks_dropWhile (text : List Char) : Breaks (text.dropWhile Char.isAlphanum) := by
  intro c hc
  have hhead := List.head?_dropWhile_not Char.isAlphanum text
  rw [Option.mem_def.mp hc] at hhead
  exact hhead

theorem cut_of_lexFrom {offset : Nat} {text : List Char} {tokens : List Token}
    (h : lexFrom offset text = .ok tokens) : Cut offset text tokens := by
  -- a word takes off many characters at once, so the induction is on the length
  induction hlength : text.length using Nat.strongRecOn generalizing offset text tokens with
  | ind n ih =>
    subst hlength
    cases text with
    | nil =>
        rw [lexFrom] at h
        cases h
        exact .nil
    | cons c text =>
        rw [lexFrom] at h
        split at h
        · next m hmark =>
          obtain ⟨rest, hrest, h⟩ := bind_eq_ok_iff.mp h
          cases h
          exact .mark hmark (ih _ (Nat.lt_succ_self _) hrest rfl)
        · split at h
          · next hc =>
            obtain ⟨first, hfirst, h⟩ := bind_eq_ok_iff.mp h
            obtain ⟨rest, hrest, h⟩ := bind_eq_ok_iff.mp h
            cases h
            have hword : ∀ d ∈ c :: text.takeWhile Char.isAlphanum, d.isAlphanum = true :=
              List.forall_mem_cons.mpr ⟨hc, List.all_eq_true.mp List.all_takeWhile⟩
            have hbreaks := breaks_dropWhile text
            have hsplit : c :: text =
                (c :: text.takeWhile Char.isAlphanum) ++ text.dropWhile Char.isAlphanum := by
              rw [List.cons_append, List.takeWhile_append_dropWhile]
            have hshorter : (text.dropWhile Char.isAlphanum).length < (c :: text).length :=
              Nat.lt_succ_of_le (List.dropWhile_suffix _).length_le
            rw [hsplit]
            exact .word (List.cons_ne_nil _ _) hword hbreaks hfirst (ih _ hshorter hrest rfl)
          · cases h

theorem Cut.lexFrom_eq {offset : Nat} {text : List Char} {tokens : List Token}
    (h : Cut offset text tokens) : lexFrom offset text = .ok tokens := by
  induction h with
  | nil => rw [lexFrom]
  | mark hmark _ ih =>
      rw [lexFrom]
      simp only [hmark, ih, ok_bind]
      rfl
  | @word offset word text first tokens hne hword hbreaks hfirst _ ih =>
      cases word with
      | nil => exact absurd rfl hne
      | cons c word =>
          obtain ⟨hc, hword⟩ := List.forall_mem_cons.mp hword
          obtain ⟨htake, hdrop⟩ := takeWhile_word hword hbreaks
          rw [List.cons_append, lexFrom]
          simp only [ofChar?_eq_none hc, hc, if_true, htake, hdrop, hfirst, ih, ok_bind]
          rfl

/-- The lexer cuts a text as the relation says. -/
theorem lexFrom_eq_ok_iff {offset : Nat} {text : List Char} {tokens : List Token} :
    lexFrom offset text = .ok tokens ↔ Cut offset text tokens := ⟨cut_of_lexFrom, Cut.lexFrom_eq⟩

/-! ### Words -/

variable {offset : Nat} {word : List Char} {kind : TokenKind} {tokens : List Token}

/-- The value of a word does not depend on where it stands. -/
theorem readDigits_offset {digits : List Char} (h : readDigits offset digits = .ok kind)
    (offset' : Nat) : readDigits offset' digits = .ok kind := by
  rw [readDigits] at h ⊢
  split at h
  · next heven =>
    rw [if_pos heven]
    cases hdecode : Hex.decode? digits with
    | some bytes => rw [hdecode] at h; exact h
    | none => rw [hdecode] at h; cases h
  · next hodd =>
    rw [if_neg hodd]
    split at h
    · next hlt => rw [if_pos hlt]; exact h
    · cases h

theorem readWord_offset (h : readWord offset word = .ok kind) (offset' : Nat) :
    readWord offset' word = .ok kind := by
  rw [readWord] at h ⊢
  cases hname : Keyword.ofName? word with
  | some k => rw [hname] at h; exact h
  | none =>
      simp only [hname] at h ⊢
      split at h
      · next hmark => rw [if_pos hmark]; exact h
      · next hmark =>
        rw [if_neg hmark]
        split at h
        · next hdigits => rw [if_pos hdigits]; exact readDigits_offset h offset'
        · next hdigits =>
          rw [if_neg hdigits]
          split at h
          · exact h
          · cases hkey : readKey? word with
            | some key => rw [hkey] at h; exact h
            | none => rw [hkey] at h; cases h

/-- A word is digits with a mark of hardening after them, or one token. -/
theorem ofWord_eq_ok_iff :
    ofWord offset word = .ok tokens ↔
      (∃ digits kind, hardenedDigits? word = some digits ∧ readDigits offset digits = .ok kind ∧
        tokens = [⟨kind, offset, offset + digits.length⟩,
          ⟨.mark .hardened, offset + digits.length, offset + digits.length + 1⟩]) ∨
      (hardenedDigits? word = none ∧ ∃ kind, readWord offset word = .ok kind ∧
        tokens = [⟨kind, offset, offset + word.length⟩]) := by
  rw [ofWord]
  cases hardenedDigits? word with
  | some digits =>
      rw [bind_eq_ok_iff]
      constructor
      · rintro ⟨kind, hkind, ⟨⟩⟩
        exact .inl ⟨digits, kind, rfl, hkind, rfl⟩
      · rintro (⟨_, kind, ⟨⟩, hkind, rfl⟩ | ⟨⟨⟩, _⟩)
        exact ⟨kind, hkind, rfl⟩
  | none =>
      rw [bind_eq_ok_iff]
      constructor
      · rintro ⟨kind, hkind, ⟨⟩⟩
        exact .inr ⟨rfl, kind, hkind, rfl⟩
      · rintro (⟨_, _, ⟨⟩, _⟩ | ⟨-, kind, hkind, rfl⟩)
        exact ⟨kind, hkind, rfl⟩

theorem ofWord_offset (h : ofWord offset word = .ok tokens) (offset' : Nat) :
    ∃ tokens', ofWord offset' word = .ok tokens' ∧
      tokens'.map Token.kind = tokens.map Token.kind := by
  rcases ofWord_eq_ok_iff.mp h with
    ⟨digits, kind, hdigits, hkind, rfl⟩ | ⟨hdigits, kind, hkind, rfl⟩
  · exact ⟨_, ofWord_eq_ok_iff.mpr
      (.inl ⟨digits, kind, hdigits, readDigits_offset hkind offset', rfl⟩), rfl⟩
  · exact ⟨_, ofWord_eq_ok_iff.mpr (.inr ⟨hdigits, kind, readWord_offset hkind offset', rfl⟩), rfl⟩

/-- A word alone is the tokens of the word. -/
theorem lexFrom_word (hne : word ≠ []) (hword : ∀ c ∈ word, c.isAlphanum = true) :
    lexFrom offset word = ofWord offset word := by
  cases word with
  | nil => exact absurd rfl hne
  | cons c word =>
      obtain ⟨hc, hrest⟩ := List.forall_mem_cons.mp hword
      have hcut := takeWhile_word hrest breaks_nil
      rw [List.append_nil] at hcut
      have hend (next : Nat) : lexFrom next [] = .ok [] := by rw [lexFrom]
      rw [lexFrom]
      simp only [ofChar?_eq_none hc, hc, if_true, hcut.1, hcut.2, hend]
      cases ofWord offset (c :: word) with
      | error e => rfl
      | ok tokens => exact congrArg Except.ok (List.append_nil tokens)

/-! ### What texts are cut into -/

theorem Cut.isAlphanum_or_mark {text : List Char} (h : Cut offset text tokens) :
    ∀ c ∈ text, c.isAlphanum = true ∨ ∃ m, Mark.ofChar? c = some m := by
  induction h with
  | nil => exact List.forall_mem_nil _
  | mark hmark _ ih => exact List.forall_mem_cons.mpr ⟨.inr ⟨_, hmark⟩, ih⟩
  | word _ hword _ _ _ ih =>
      intro c hc
      rcases List.mem_append.mp hc with hc | hc
      · exact .inl (hword c hc)
      · exact ih c hc

theorem decode?_ne_some_nil {digits : List Char} (hne : digits ≠ []) :
    Hex.decode? digits ≠ some [] := by
  cases digits with
  | nil => exact absurd rfl hne
  | cons high digits =>
      cases digits with
      | nil => exact nofun
      | cons low rest =>
          simp only [Hex.decode?, Option.bind_eq_bind, ne_eq, Option.bind_eq_some_iff]
          rintro ⟨_, _, _, _, _, _, ⟨⟩⟩

/-- What a token of a text can be: data has bytes, and the child number of an extended key is below
the bound. -/
def Sound : TokenKind → Prop
  | .data bytes => bytes ≠ []
  | .hdKey key => key.child.index.InRange
  | _ => True

theorem sound_of_readDigits {digits : List Char} (hne : digits ≠ [])
    (h : readDigits offset digits = .ok kind) : Sound kind := by
  rw [readDigits] at h
  split at h
  · split at h
    · next bytes hdecode =>
      cases h
      rintro rfl
      exact decode?_ne_some_nil hne hdecode
    · cases h
  · split at h <;> cases h
    trivial

/-- What a key or an address is read as. -/
theorem readKey?_cases (h : readKey? word = some kind) :
    (∃ key, (XKey.parsePublic? word = some key ∨ XKey.parsePrivate? word = some key) ∧
      kind = .hdKey key) ∨ (∃ key, kind = .wif key) ∨ ∃ address, kind = .address address := by
  rw [readKey?] at h
  split at h
  · obtain ⟨key, hkey, rfl⟩ := Option.map_eq_some_iff.mp h
    exact .inl ⟨key, .inl hkey, rfl⟩
  · split at h
    · obtain ⟨key, hkey, rfl⟩ := Option.map_eq_some_iff.mp h
      exact .inl ⟨key, .inr hkey, rfl⟩
    · split at h
      · cases h
        exact .inr (.inl ⟨_, rfl⟩)
      · obtain ⟨address, -, rfl⟩ := Option.map_eq_some_iff.mp h
        exact .inr (.inr ⟨address, rfl⟩)

/-- What a word is read as. -/
theorem readWord_cases (h : readWord offset word = .ok kind) :
    (∃ k, kind = .keyword k) ∨ (kind = .mark .hardened ∧ (word = ['h'] ∨ word = ['H'])) ∨
      (word.all Char.isDigit = true ∧ readDigits offset word = .ok kind) ∨
      (∃ bytes, Hex.decode? word = some bytes ∧ kind = .data bytes) ∨
      readKey? word = some kind := by
  rw [readWord] at h
  split at h
  · cases h
    exact .inl ⟨_, rfl⟩
  · split at h
    · next hmark =>
      cases h
      exact .inr (.inl ⟨rfl, hmark⟩)
    · split at h
      · next hdigits => exact .inr (.inr (.inl ⟨hdigits, h⟩))
      · split at h
        · next bytes hdecode =>
          cases h
          split at hdecode
          · exact .inr (.inr (.inr (.inl ⟨bytes, hdecode, rfl⟩)))
          · cases hdecode
        · split at h
          · next hkey =>
            cases h
            exact .inr (.inr (.inr (.inr hkey)))
          · cases h

theorem sound_of_readWord (hne : word ≠ []) (h : readWord offset word = .ok kind) :
    Sound kind := by
  rcases readWord_cases h with ⟨_, rfl⟩ | ⟨rfl, -⟩ | ⟨-, h⟩ | ⟨bytes, hdecode, rfl⟩ | h
  · trivial
  · trivial
  · exact sound_of_readDigits hne h
  · rintro rfl
    exact decode?_ne_some_nil hne hdecode
  · obtain ⟨key, hkey, rfl⟩ | ⟨_, rfl⟩ | ⟨_, rfl⟩ := readKey?_cases h
    · exact (XKey.of_parse? hkey).1
    · trivial
    · trivial

/-- The tokens of a text are such as a text can have. -/
theorem Cut.sound {text : List Char} (h : Cut offset text tokens) :
    ∀ token ∈ tokens, Sound token.kind := by
  induction h with
  | nil => exact List.forall_mem_nil _
  | mark _ _ ih => exact List.forall_mem_cons.mpr ⟨trivial, ih⟩
  | word hne _ _ hfirst _ ih =>
      refine List.forall_mem_append.mpr ⟨?_, ih⟩
      rcases ofWord_eq_ok_iff.mp hfirst with
        ⟨digits, kind, hdigits, hkind, rfl⟩ | ⟨_, kind, hkind, rfl⟩
      · have hdigits : digits ≠ [] := by
          rintro rfl
          have h := (Option.filter_eq_some_iff.mp hdigits).2
          cases h
        exact List.forall_mem_cons.mpr
          ⟨sound_of_readDigits hdigits hkind, List.forall_mem_singleton.mpr trivial⟩
      · exact List.forall_mem_singleton.mpr (sound_of_readWord hne hkind)

theorem ne_hdKey_of_readDigits {digits : List Char} {key : XKey}
    (h : readDigits offset digits = .ok kind) : kind ≠ .hdKey key := by
  rintro rfl
  rw [readDigits] at h
  split at h
  · split at h <;> cases h
  · split at h <;> cases h

/-- An extended key among the tokens of a text was read from a word of it. -/
theorem Cut.exists_parse? {text : List Char} (h : Cut offset text tokens) :
    ∀ token ∈ tokens, ∀ key, token.kind = .hdKey key →
      ∃ word, XKey.parsePublic? word = some key ∨ XKey.parsePrivate? word = some key := by
  induction h with
  | nil => exact List.forall_mem_nil _
  | mark _ _ ih => exact List.forall_mem_cons.mpr ⟨nofun, ih⟩
  | @word _ word _ _ _ _ _ _ hfirst _ ih =>
      refine List.forall_mem_append.mpr ⟨?_, ih⟩
      rcases ofWord_eq_ok_iff.mp hfirst with
        ⟨digits, kind, -, hkind, rfl⟩ | ⟨_, kind, hkind, rfl⟩
      · exact List.forall_mem_cons.mpr ⟨fun key hkey => absurd hkey (ne_hdKey_of_readDigits hkind),
          List.forall_mem_singleton.mpr nofun⟩
      · refine List.forall_mem_singleton.mpr ?_
        rintro key rfl
        rcases readWord_cases hkind with ⟨_, ⟨⟩⟩ | ⟨⟨⟩, -⟩ | ⟨-, h⟩ | ⟨_, -, ⟨⟩⟩ | h
        · exact absurd rfl (ne_hdKey_of_readDigits h)
        · obtain ⟨_, hkey, ⟨⟩⟩ | ⟨_, ⟨⟩⟩ | ⟨_, ⟨⟩⟩ := readKey?_cases h
          exact ⟨word, hkey⟩

/-- No token is data without bytes. -/
theorem Cut.kind_ne_empty {text : List Char} (h : Cut offset text tokens) :
    ∀ token ∈ tokens, token.kind ≠ .data [] := by
  intro token htoken hkind
  have hsound := h.sound token htoken
  rw [hkind] at hsound
  exact hsound rfl

/-! ### Texts in any place -/

/-- Before any text with which the word at its end does not go on, the text becomes tokens of the
given kinds. -/
def Spells (text : List Char) (kinds : List TokenKind) : Prop :=
  ∀ (offset : Nat) (more : List Char) (tokens : List Token), Breaks more →
    Cut (offset + text.length) more tokens →
    ∃ first, Cut offset (text ++ more) (first ++ tokens) ∧ first.map Token.kind = kinds

namespace Spells

variable {a b : List Char} {ks ls : List TokenKind}

theorem nil : Spells [] [] := fun _ _ _ _ h => ⟨[], h, rfl⟩

theorem mark {c : Char} {m : Mark} (hmark : Mark.ofChar? c = some m) (h : Spells a ks) :
    Spells (c :: a) (.mark m :: ks) := by
  intro offset more tokens hbreaks hcut
  rw [List.length_cons, Nat.add_comm a.length 1, ← Nat.add_assoc] at hcut
  obtain ⟨first, hfirst, hkinds⟩ := h (offset + 1) more tokens hbreaks hcut
  exact ⟨_ :: first, .mark hmark hfirst, congrArg (TokenKind.mark m :: ·) hkinds⟩

theorem append (ha : Spells a ks) (hb : Spells b ls) (hbreaks : Breaks b) :
    Spells (a ++ b) (ks ++ ls) := by
  intro offset more tokens hmore hcut
  rw [List.length_append, ← Nat.add_assoc] at hcut
  -- from the end: what the second text is cut into is what follows the first one
  obtain ⟨second, hsecond, hls⟩ := hb (offset + a.length) more tokens hmore hcut
  obtain ⟨first, hfirst, hks⟩ := ha offset (b ++ more) (second ++ tokens) (hbreaks.append hmore)
    hsecond
  refine ⟨first ++ second, ?_, by rw [List.map_append, hks, hls]⟩
  rwa [List.append_assoc, List.append_assoc]

/-- A mark can be put after any text. -/
theorem append_mark {c : Char} {m : Mark} (ha : Spells a ks) (hmark : Mark.ofChar? c = some m)
    (hb : Spells b ls) : Spells (a ++ c :: b) (ks ++ .mark m :: ls) :=
  ha.append (hb.mark hmark) (breaks_cons (isAlphanum_of_mark hmark))

theorem of_ofWord (hne : word ≠ []) (hword : ∀ c ∈ word, c.isAlphanum = true)
    (h : ofWord offset word = .ok tokens) : Spells word (tokens.map Token.kind) := by
  intro offset' more rest hbreaks hcut
  obtain ⟨first, hfirst, hkinds⟩ := ofWord_offset h offset'
  exact ⟨first, .word hne hword hbreaks hfirst hcut, hkinds⟩

/-- A word is one token if it is no digits with a mark of hardening after them. -/
theorem of_readWord (hne : word ≠ []) (hword : ∀ c ∈ word, c.isAlphanum = true)
    (hdigits : hardenedDigits? word = none) (h : readWord offset word = .ok kind) :
    Spells word [kind] :=
  of_ofWord hne hword (ofWord_eq_ok_iff.mpr (.inr ⟨hdigits, kind, h, rfl⟩))

theorem lexFrom_eq (h : Spells a ks) : ∃ tokens, lexFrom 0 a = .ok tokens ∧
    tokens.map Token.kind = ks := by
  obtain ⟨tokens, hcut, hkinds⟩ := h 0 [] [] breaks_nil .nil
  rw [List.append_nil, List.append_nil] at hcut
  exact ⟨tokens, lexFrom_eq_ok_iff.mpr hcut, hkinds⟩

end Spells

theorem ofWord_ne_nil (h : ofWord offset word = .ok tokens) : tokens ≠ [] := by
  rcases ofWord_eq_ok_iff.mp h with ⟨_, _, _, _, rfl⟩ | ⟨_, _, _, rfl⟩
  · exact nofun
  · exact nofun

theorem Cut.eq_nil {text : List Char} (h : Cut offset text tokens) (hnil : tokens = []) :
    text = [] := by
  cases h with
  | nil => rfl
  | mark => cases hnil
  | word _ _ _ hfirst _ => exact absurd (List.append_eq_nil_iff.mp hnil).1 (ofWord_ne_nil hfirst)

/-- What is one token alone, and no mark, is the same token in every place. -/
theorem spells_of_lex {text : List Char} {stop : Nat} (hkind : ∀ m, kind ≠ .mark m)
    (h : lex (String.ofList text) = .ok [⟨kind, 0, stop⟩]) : Spells text [kind] := by
  rw [lex, String.toList_ofList, lexFrom_eq_ok_iff] at h
  generalize htokens : [Token.mk kind 0 stop] = tokens at h
  cases h with
  | nil => cases htokens
  | mark => cases htokens; exact absurd rfl (hkind _)
  | @word _ word text first rest hne hword _ hfirst hrest =>
      obtain ⟨token, first, rfl⟩ := List.exists_cons_of_ne_nil (ofWord_ne_nil hfirst)
      obtain ⟨rfl, happend⟩ := List.cons.inj htokens
      obtain ⟨rfl, hnil⟩ := List.append_eq_nil_iff.mp happend.symm
      obtain rfl := hrest.eq_nil hnil
      rw [List.append_nil]
      exact Spells.of_ofWord hne hword hfirst

/-! ### Texts that are cut apart -/

theorem Cut.spells {text : List Char} (h : Cut offset text tokens) :
    Spells text (tokens.map Token.kind) := by
  induction h with
  | nil => exact .nil
  | mark hmark _ ih => exact ih.mark hmark
  | word hne hword hbreaks hfirst _ ih =>
      rw [List.map_append]
      exact (Spells.of_ofWord hne hword hfirst).append ih hbreaks

/-- The tokens that a text is cut into are those that it spells. -/
theorem exists_lexFrom_iff {text : List Char} {ks : List TokenKind} :
    (∃ tokens, lexFrom 0 text = .ok tokens ∧ tokens.map Token.kind = ks) ↔ Spells text ks := by
  constructor
  · rintro ⟨tokens, htokens, rfl⟩
    exact (lexFrom_eq_ok_iff.mp htokens).spells
  · exact Spells.lexFrom_eq

theorem Spells.unique {text : List Char} {ks ls : List TokenKind} (hks : Spells text ks)
    (hls : Spells text ls) : ks = ls := by
  obtain ⟨tokens, htokens, rfl⟩ := hks.lexFrom_eq
  obtain ⟨tokens', htokens', rfl⟩ := hls.lexFrom_eq
  rw [htokens] at htokens'
  rw [Except.ok.inj htokens']

theorem ne_mark_of_readDigits {digits : List Char} {m : Mark}
    (h : readDigits offset digits = .ok kind) : kind ≠ .mark m := by
  rintro rfl
  rw [readDigits] at h
  split at h
  · split at h <;> cases h
  · split at h <;> cases h

/-- The only mark that is a word is that of hardening. -/
theorem readWord_eq_mark {m : Mark} (h : readWord offset word = .ok (.mark m)) :
    m = .hardened ∧ (word = ['h'] ∨ word = ['H']) := by
  rcases readWord_cases h with ⟨_, ⟨⟩⟩ | ⟨⟨⟩, hword⟩ | ⟨-, h⟩ | ⟨_, -, ⟨⟩⟩ | h
  · exact ⟨rfl, hword⟩
  · exact absurd rfl (ne_mark_of_readDigits h)
  · obtain ⟨_, -, ⟨⟩⟩ | ⟨_, ⟨⟩⟩ | ⟨_, ⟨⟩⟩ := readKey?_cases h

theorem eq_hardened_of_ofWord {m : Mark} (h : ofWord offset word = .ok tokens)
    (hmem : .mark m ∈ tokens.map Token.kind) : m = .hardened := by
  rcases ofWord_eq_ok_iff.mp h with ⟨_, kind, _, hkind, rfl⟩ | ⟨_, kind, hkind, rfl⟩
  · have hne := ne_mark_of_readDigits (m := m) hkind
    simpa [Ne.symm hne] using hmem
  · obtain rfl : TokenKind.mark m = kind := by simpa using hmem
    exact (readWord_eq_mark hkind).1

/-- Tokens with a mark among them come from a text with that mark in it, and the tokens on both
sides from its two sides. -/
theorem Cut.exists_of_mark {text : List Char} {us vs : List TokenKind} {m : Mark}
    (h : Cut offset text tokens) (hm : m ≠ .hardened)
    (hkinds : tokens.map Token.kind = us ++ .mark m :: vs) :
    ∃ a c b, text = a ++ c :: b ∧ Mark.ofChar? c = some m ∧ Spells a us ∧ Spells b vs := by
  induction h generalizing us with
  | nil => exact absurd hkinds.symm (by simp)
  | @mark _ c m' text tokens hmark hrest ih =>
      rw [List.map_cons] at hkinds
      cases us with
      | nil =>
          obtain ⟨⟨⟩, rfl⟩ := List.cons.inj hkinds
          exact ⟨[], c, text, rfl, hmark, .nil, hrest.spells⟩
      | cons u us =>
          obtain ⟨rfl, htail⟩ := List.cons.inj hkinds
          obtain ⟨a, d, b, rfl, hd, ha, hb⟩ := ih htail
          exact ⟨c :: a, d, b, rfl, hd, ha.mark hmark, hb⟩
  | @word _ word text first tokens hne hword hbreaks hfirst hrest ih =>
      rw [List.map_append] at hkinds
      -- the mark is not in the word, so it is behind it
      obtain ⟨us', rfl, htail⟩ : ∃ us', us = first.map Token.kind ++ us' ∧
          tokens.map Token.kind = us' ++ .mark m :: vs := by
        rcases List.append_eq_append_iff.mp hkinds with ⟨us', rfl, h⟩ | ⟨front, hfront, h⟩
        · exact ⟨us', rfl, h⟩
        · cases front with
          | nil => exact ⟨[], by simpa using hfront.symm, by simpa using h.symm⟩
          | cons k front =>
              obtain ⟨rfl, -⟩ := List.cons.inj h
              exact absurd (eq_hardened_of_ofWord hfirst (by simp [hfront])) hm
      obtain ⟨a, c, b, rfl, hc, ha, hb⟩ := ih htail
      exact ⟨word ++ a, c, b, (List.append_assoc _ _ _).symm, hc,
        (Spells.of_ofWord hne hword hfirst).append ha hbreaks.of_append, hb⟩

theorem eq_of_ofChar? {c d : Char} {m : Mark} (hc : Mark.ofChar? c = some m)
    (hd : Mark.ofChar? d = some m) : c = d := by
  unfold Mark.ofChar? at hc
  split at hc <;> cases hc
  all_goals
    unfold Mark.ofChar? at hd
    split at hd <;> first | rfl | cases hd

/-- A text is cut where its tokens are cut at a mark. -/
theorem spells_append_mark_iff {text : List Char} {us vs : List TokenKind} {c : Char} {m : Mark}
    (hmark : Mark.ofChar? c = some m) (hm : m ≠ .hardened) :
    Spells text (us ++ .mark m :: vs) ↔
      ∃ a b, text = a ++ c :: b ∧ Spells a us ∧ Spells b vs := by
  constructor
  · intro h
    obtain ⟨tokens, htokens, hkinds⟩ := h.lexFrom_eq
    obtain ⟨a, d, b, rfl, hd, ha, hb⟩ :=
      (lexFrom_eq_ok_iff.mp htokens).exists_of_mark hm hkinds
    exact ⟨a, b, by rw [eq_of_ofChar? hmark hd], ha, hb⟩
  · rintro ⟨a, b, rfl, ha, hb⟩
    exact ha.append_mark hmark hb

theorem Spells.eq_nil {text : List Char} (h : Spells text []) : text = [] := by
  obtain ⟨tokens, htokens, hkinds⟩ := h.lexFrom_eq
  exact (lexFrom_eq_ok_iff.mp htokens).eq_nil (List.map_eq_nil_iff.mp hkinds)

/-- A mark is the first token where its character is the first. -/
theorem spells_cons_mark_iff {text : List Char} {ks : List TokenKind} {c : Char} {m : Mark}
    (hmark : Mark.ofChar? c = some m) (hm : m ≠ .hardened) :
    Spells text (.mark m :: ks) ↔ ∃ rest, text = c :: rest ∧ Spells rest ks := by
  rw [← List.nil_append (TokenKind.mark m :: ks), spells_append_mark_iff hmark hm]
  constructor
  · rintro ⟨a, b, rfl, ha, hb⟩
    exact ⟨b, by rw [ha.eq_nil, List.nil_append], hb⟩
  · rintro ⟨rest, rfl, hrest⟩
    exact ⟨[], rest, rfl, .nil, hrest⟩

/-- A text that begins with a mark has it as its first token. -/
theorem Spells.of_cons_mark {text : List Char} {ks : List TokenKind} {c : Char} {m : Mark}
    (h : Spells (c :: text) ks) (hmark : Mark.ofChar? c = some m) :
    ∃ ls, ks = .mark m :: ls ∧ Spells text ls := by
  obtain ⟨tokens, htokens, rfl⟩ := h.lexFrom_eq
  generalize htext : c :: text = whole at htokens
  cases lexFrom_eq_ok_iff.mp htokens with
  | nil => cases htext
  | mark hmark' hrest =>
      cases htext
      rw [hmark] at hmark'
      cases hmark'
      exact ⟨_, rfl, hrest.spells⟩
  | @word _ word _ _ _ hne hword =>
      obtain ⟨d, word, rfl⟩ := List.exists_cons_of_ne_nil hne
      cases htext
      exact absurd List.mem_cons_self (mark_notMem_word hmark hword)

theorem Cut.exists_of_append {a b : List Char} (h : Cut offset (a ++ b) tokens)
    (hb : Breaks b) : ∃ ks ls, tokens.map Token.kind = ks ++ ls ∧ Spells a ks ∧ Spells b ls := by
  generalize htext : a ++ b = text at h
  induction h generalizing a with
  | nil =>
      obtain ⟨rfl, rfl⟩ := List.append_eq_nil_iff.mp htext
      exact ⟨[], [], rfl, .nil, .nil⟩
  | @mark _ c m text tokens hmark hrest ih =>
      cases a with
      | nil =>
          rw [List.nil_append] at htext
          exact ⟨[], _, rfl, .nil, htext ▸ (Cut.mark hmark hrest).spells⟩
      | cons d a =>
          obtain ⟨rfl, hrest⟩ := List.cons.inj htext
          obtain ⟨ks, ls, hkinds, ha, hb⟩ := ih hrest
          exact ⟨.mark m :: ks, ls, congrArg (TokenKind.mark m :: ·) hkinds, ha.mark hmark, hb⟩
  | @word _ word text first tokens hne hword hbreaks hfirst hrest ih =>
      -- no word goes on with the second text, so the first one holds the whole word
      obtain ⟨a, rfl, htail⟩ : ∃ a', a = word ++ a' ∧ a' ++ b = text := by
        rcases List.append_eq_append_iff.mp htext with ⟨front, hfront, h⟩ | ⟨a', rfl, h⟩
        · cases front with
          | nil => exact ⟨[], by simpa using hfront.symm, by simpa using h⟩
          | cons c front =>
              have hc := hword c (by simp [hfront])
              rw [hb c (by simp [h])] at hc
              cases hc
        · exact ⟨a', rfl, h.symm⟩
      obtain ⟨ks, ls, hkinds, ha, hb⟩ := ih htail
      subst htail
      exact ⟨first.map Token.kind ++ ks, ls,
        by rw [List.map_append, hkinds, List.append_assoc],
        (Spells.of_ofWord hne hword hfirst).append ha hbreaks.of_append, hb⟩

/-- A text is cut where no word goes on. -/
theorem Spells.of_append {a b : List Char} {ks ms : List TokenKind} (h : Spells (a ++ b) ms)
    (ha : Spells a ks) (hb : Breaks b) : ∃ ls, ms = ks ++ ls ∧ Spells b ls := by
  obtain ⟨tokens, htokens, rfl⟩ := h.lexFrom_eq
  obtain ⟨ks', ls, hkinds, ha', hb'⟩ := (lexFrom_eq_ok_iff.mp htokens).exists_of_append hb
  exact ⟨ls, by rw [hkinds, ha'.unique ha], hb'⟩

theorem Cut.mark_mem {text : List Char} {c : Char} {m : Mark} (h : Cut offset text tokens)
    (hmark : Mark.ofChar? c = some m) (hc : c ∈ text) : .mark m ∈ tokens.map Token.kind := by
  induction h with
  | nil => exact absurd hc List.not_mem_nil
  | mark hmark' _ ih =>
      rcases List.mem_cons.mp hc with rfl | hc
      · rw [hmark] at hmark'
        cases hmark'
        exact List.mem_cons_self
      · exact List.mem_cons_of_mem _ (ih hc)
  | word _ hword _ _ _ ih =>
      rw [List.map_append]
      rcases List.mem_append.mp hc with hc | hc
      · exact absurd hc (mark_notMem_word hmark hword)
      · exact List.mem_append_right _ (ih hc)

/-- A mark in a text is one of its tokens. -/
theorem Spells.mark_mem {text : List Char} {ks : List TokenKind} {c : Char} {m : Mark}
    (h : Spells text ks) (hmark : Mark.ofChar? c = some m) (hc : c ∈ text) : .mark m ∈ ks := by
  obtain ⟨tokens, htokens, rfl⟩ := h.lexFrom_eq
  exact (lexFrom_eq_ok_iff.mp htokens).mark_mem hmark hc

/-- A token that is no mark comes from a word, which has a mark of hardening at its end or not. -/
theorem Spells.exists_word {text : List Char} {ks : List TokenKind} (h : Spells text (kind :: ks))
    (hkind : ∀ m, kind ≠ .mark m) : ∃ word rest, text = word ++ rest ∧ word ≠ [] ∧
      ((∃ digits ls, hardenedDigits? word = some digits ∧ readDigits 0 digits = .ok kind ∧
        ks = .mark .hardened :: ls ∧ Spells rest ls) ∨
      (readWord 0 word = .ok kind ∧ Spells rest ks)) := by
  obtain ⟨tokens, htokens, hkinds⟩ := h.lexFrom_eq
  cases lexFrom_eq_ok_iff.mp htokens with
  | nil => cases hkinds
  | mark => exact absurd (List.cons.inj hkinds).1.symm (hkind _)
  | @word _ word rest first tokens hne _ _ hfirst hrest =>
      refine ⟨word, rest, rfl, hne, ?_⟩
      rcases ofWord_eq_ok_iff.mp hfirst with
        ⟨digits, kind', hdigits, hread, rfl⟩ | ⟨_, kind', hread, rfl⟩
      · obtain ⟨rfl, rfl⟩ := List.cons.inj hkinds
        exact .inl ⟨digits, _, hdigits, hread, rfl, hrest.spells⟩
      · obtain ⟨rfl, rfl⟩ := List.cons.inj hkinds
        exact .inr ⟨hread, hrest.spells⟩

end WalletExchange.Token
