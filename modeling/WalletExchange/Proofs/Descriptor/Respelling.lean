import Mathlib.Data.List.Chain
import WalletExchange.Proofs.Descriptor.Corruption
import WalletExchange.Proofs.Descriptor.Reprint
import WalletExchange.Proofs.Descriptor.Steps

/-!
# Proofs — marks of hardening

A hardened step is written with a quote or with one of two letters.  A quote is a token of its own;
a letter behind digits is part of their word, and behind an asterisk it is a word.  So another
letter or a quote cuts the text into other words, and still the tokens stay the same.

That they do depends on what is around the mark.  `Settled` says what the grammar puts there: an
index or an asterisk before it, and another mark behind it.

Main statements:

* `Grammar.ScriptFunction.settled` — the tokens around each mark of hardening.
* `Token.Cut.spells_of_respelled` — marks that are written in another way are the same tokens.
* `OutputDescriptor.ofString_of_respelled` — and so the text is read as the same descriptor.
-/

namespace WalletExchange

/-! ### What is around a mark of hardening -/

namespace Grammar

/-- One token may follow another: a mark of hardening only an index or an asterisk, and only another
mark a mark of hardening. -/
def Follows (a b : TokenKind) : Prop :=
  (b = .mark .hardened → a = .mark .star ∨ ∃ n, Numeral a n) ∧
  (a = .mark .hardened → ∃ m, m ≠ .hardened ∧ b = .mark m)

/-- Each token may follow the one before it, and the first one is no mark of hardening. -/
structure Settled (ts : List TokenKind) : Prop where
  isChain : ts.IsChain Follows
  head_ne : ∀ k ∈ ts.head?, k ≠ .mark .hardened

variable {ts us : List TokenKind} {k : TokenKind} {m : Mark} {fixed uncompressed : Bool}

theorem follows_of_ne {a b : TokenKind} (ha : a ≠ .mark .hardened) (hb : b ≠ .mark .hardened) :
    Follows a b := ⟨fun h => absurd h hb, fun h => absurd h ha⟩

theorem follows_mark (a : TokenKind) (hm : m ≠ .hardened) : Follows a (.mark m) :=
  ⟨fun h => absurd (TokenKind.mark.inj h) hm, fun _ => ⟨m, hm, rfl⟩⟩

namespace Settled

theorem nil : Settled [] := ⟨.nil, nofun⟩

theorem cons (hk : k ≠ .mark .hardened) (h : Settled ts) : Settled (k :: ts) where
  isChain := List.isChain_cons.mpr ⟨fun b hb => follows_of_ne hk (h.head_ne b hb), h.isChain⟩
  head_ne := by
    rintro _ ⟨⟩
    exact hk

theorem singleton (hk : k ≠ .mark .hardened) : Settled [k] := nil.cons hk

/-- What begins with a mark may follow everything. -/
theorem append (hts : Settled ts) (hus : Settled us) (hhead : ∀ k ∈ us.head?, ∃ m, k = .mark m) :
    Settled (ts ++ us) where
  isChain := by
    refine List.isChain_append.mpr ⟨hts.isChain, hus.isChain, fun a _ b hb => ?_⟩
    obtain ⟨m, rfl⟩ := hhead b hb
    exact follows_mark a fun hm => hus.head_ne _ hb (congrArg TokenKind.mark hm)
  head_ne := by
    cases ts with
    | nil => exact hus.head_ne
    | cons k ts => exact hts.head_ne

theorem append_mark (hts : Settled ts) (hm : m ≠ .hardened) (hus : Settled us) :
    Settled (ts ++ .mark m :: us) := by
  refine hts.append (hus.cons fun h => hm (TokenKind.mark.inj h)) ?_
  rintro _ ⟨⟩
  exact ⟨m, rfl⟩

end Settled

theorem Numeral.ne_mark {n : Nat} (h : Numeral k n) : k ≠ .mark m := by
  cases h with
  | int | data => exact nofun

theorem Position.ne_hardened {spec : IndexSpec} (h : Position fixed k spec) :
    k ≠ .mark .hardened := by
  cases h with
  | index numeral => exact numeral.ne_mark
  | wildcard => exact nofun

theorem Single.settled {s : SingleStep} (h : Single fixed ts s) : Settled ts := by
  cases h with
  | normal position => exact .singleton position.ne_hardened
  | @hardened kind _ position =>
      refine ⟨List.isChain_pair.mpr ⟨fun _ => ?_, fun h => absurd h position.ne_hardened⟩, ?_⟩
      · cases position with
        | index numeral => exact .inr ⟨_, numeral⟩
        | wildcard => exact .inl rfl
      · rintro _ ⟨⟩
        exact position.ne_hardened

theorem AnyStep.settled {s : Step} (h : AnyStep fixed ts s) : Settled ts := by
  cases h with
  | single step => exact step.settled
  | pair _ external internal =>
      have hinternal := internal.settled.append_mark (m := .closeAngle) (by decide) .nil
      exact (external.settled.append_mark (by decide) hinternal).cons (by simp)

theorem Each.settled {α : Type} {phrase : List TokenKind → α → Prop} {as : List α}
    (hm : m ≠ .hardened) (hphrase : ∀ {ts a}, phrase ts a → Settled ts) (h : Each m phrase ts as) :
    Settled ts ∧ ∀ k ∈ ts.head?, ∃ m, k = .mark m := by
  induction h with
  | nil => exact ⟨.nil, nofun⟩
  | cons head _ ih =>
      refine ⟨((hphrase head).append ih.1 ih.2).cons fun h => hm (TokenKind.mark.inj h), ?_⟩
      rintro _ ⟨⟩
      exact ⟨m, rfl⟩

theorem Steps.settled {steps : List Step} (h : Steps fixed ts steps) : Settled ts :=
  (Each.settled (by decide) AnyStep.settled h).1

theorem Material.settled {material : KeyMaterial} (h : Material uncompressed ts material) :
    Settled ts := by
  cases h with
  | plain | wif => exact .singleton nofun
  | hd path => exact (Steps.settled path).cons nofun

theorem Key.settled {key : KeyExpression} (h : Key uncompressed ts key) : Settled ts := by
  cases h with
  | mk head tail =>
      cases head with
      | absent => exact tail.settled
      | present _ path =>
          have hrest :=
            (Steps.settled path).append_mark (m := .closeBracket) (by decide) tail.settled
          rw [List.cons_append, List.cons_append, List.append_assoc]
          exact Settled.cons (by simp) (Settled.cons nofun hrest)

theorem settled_call {keyword : Keyword} (h : Settled ts) : Settled (call keyword ts) :=
  ((h.append_mark (by decide) .nil).cons (by simp)).cons nofun

/-- A mark of hardening in a script function stands between an index or an asterisk and another
mark. -/
theorem ScriptFunction.settled {parent : Option NodeKind} {n : Node}
    (h : ScriptFunction parent ts n) : Settled ts := by
  induction h with
  | raw | addr => exact settled_call (.singleton nofun)
  | key _ argument => exact settled_call argument.settled
  | multi _ numeral list =>
      have hkeys := (Each.settled (by decide) Key.settled list).1
      exact settled_call (hkeys.cons numeral.ne_mark)
  | wsh _ _ ih | sh _ _ ih => exact settled_call ih

end Grammar

/-! ### The marks of a text -/

namespace Token

open Grammar (Follows)

variable {offset : Nat} {front back text text' word digits : List Char} {c d : Char}
  {kind : TokenKind} {tokens : List Token} {ks : List TokenKind}

/-- The text ends with an asterisk, or with digits that are a word. -/
def EndsWithPosition (front : List Char) : Prop :=
  front.getLast? = some '*' ∨
  ∃ before digits, front = before ++ digits ∧ digits ≠ [] ∧ digits.all Char.isDigit = true ∧
    ∀ c ∈ before.getLast?, c.isAlphanum = false

/-- Between these texts a character is a mark of hardening: a quote anywhere, and a letter behind an
index or an asterisk where no word goes on with what follows. -/
def IsMarker (front : List Char) (c : Char) (back : List Char) : Prop :=
  c = '\'' ∨ ((c = 'h' ∨ c = 'H') ∧ EndsWithPosition front ∧ Breaks back)

/-- A text and the same text with some of its marks of hardening written in another way; the front
is what comes before the first of the two. -/
inductive Respelled : (front : List Char) → List Char → List Char → Prop where
  | nil {front : List Char} : Respelled front [] []
  | keep {front text text' : List Char} {c : Char} (rest : Respelled (front ++ [c]) text text') :
      Respelled front (c :: text) (c :: text')
  | change {front text text' : List Char} {c d : Char} (marker : IsMarker front c text)
      (isMark : SingleStep.isHardenedMark d = true) (rest : Respelled (front ++ [c]) text text') :
      Respelled front (c :: text) (d :: text')

theorem Respelled.keep_append (before : List Char)
    (h : Respelled (front ++ before) text text') :
    Respelled front (before ++ text) (before ++ text') := by
  induction before generalizing front with
  | nil => simpa using h
  | cons c before ih => exact .keep (ih (by simpa using h))

theorem isHardenedMark_iff :
    SingleStep.isHardenedMark d = true ↔ d = '\'' ∨ d = 'h' ∨ d = 'H' := by
  simp [SingleStep.isHardenedMark, or_assoc]

theorem isAlphanum_quote : '\''.isAlphanum = false := rfl

/-- A mark of hardening in a word is a letter at its end, with nothing but digits before it. -/
theorem IsMarker.all_isDigit (h : IsMarker (front ++ word) c back)
    (hword : ∀ e ∈ word ++ [c], e.isAlphanum = true) :
    (c = 'h' ∨ c = 'H') ∧ word.all Char.isDigit = true := by
  have halphanum (e : Char) (he : e ∈ word ++ [c]) (hnot : e.isAlphanum = false) : False := by
    rw [hword e he] at hnot
    cases hnot
  rcases h with rfl | ⟨hc, hposition, -⟩
  · exact absurd isAlphanum_quote (halphanum _ (by simp))
  refine ⟨hc, ?_⟩
  rcases hposition with hstar | ⟨before, digits, heq, -, hdigits, hbefore⟩
  · cases hlast : word.getLast? with
    | none => rw [List.getLast?_eq_none_iff.mp hlast, List.all_nil]
    | some e =>
        rw [List.getLast?_append, hlast, Option.some_or] at hstar
        cases hstar
        exact (halphanum '*' (by simp [List.mem_of_getLast? hlast]) rfl).elim
  · rcases List.append_eq_append_iff.mp heq with ⟨between, rfl, rfl⟩ | ⟨between, rfl, rfl⟩
    · -- the digits do not begin within the word
      cases hlast : between.getLast? with
      | none =>
          rw [List.getLast?_eq_none_iff.mp hlast, List.nil_append]
          exact hdigits
      | some e =>
          have hnot := hbefore e (by rw [List.getLast?_append, hlast, Option.some_or]; rfl)
          exact (halphanum e (by simp [List.mem_of_getLast? hlast]) hnot).elim
    · rw [List.all_append, Bool.and_eq_true] at hdigits
      exact hdigits.2

/-- A word stays what it is, or a mark at its end is written in another way. -/
theorem Respelled.of_word (h : Respelled front (word ++ text) text')
    (hword : ∀ e ∈ word, e.isAlphanum = true) :
    ∃ rest, Respelled (front ++ word) text rest ∧
      (text' = word ++ rest ∨
        ∃ digits c d, word = digits ++ [c] ∧ IsMarker (front ++ digits) c text ∧
          SingleStep.isHardenedMark d = true ∧ text' = digits ++ d :: rest) := by
  induction word generalizing front text' with
  | nil => exact ⟨text', by simpa using h, .inl rfl⟩
  | cons e word ih =>
      obtain ⟨he, hword⟩ := List.forall_mem_cons.mp hword
      cases h with
      | keep respelled =>
          obtain ⟨rest, hrest, rfl | ⟨digits, c, d, rfl, hmarker, hd, rfl⟩⟩ :=
            ih respelled hword
          · exact ⟨rest, by simpa using hrest, .inl rfl⟩
          · exact ⟨rest, by simpa using hrest,
              .inr ⟨e :: digits, c, d, rfl, by simpa using hmarker, hd, rfl⟩⟩
      | @change _ _ rest _ d marker isMark respelled =>
          have hbreaks : Breaks (word ++ text) := by
            rcases marker with rfl | ⟨-, -, hbreaks⟩
            · rw [isAlphanum_quote] at he
              cases he
            · exact hbreaks
          cases word with
          | nil => exact ⟨rest, respelled, .inr ⟨[], e, d, rfl, by simpa using marker, isMark, rfl⟩⟩
          | cons c word =>
              have hc := hword c List.mem_cons_self
              rw [hbreaks c rfl] at hc
              cases hc

/-- What no word goes on with stays so, unless a quote is written as a letter. -/
theorem Respelled.breaks_or (h : Respelled front text text') (hbreaks : Breaks text) :
    Breaks text' ∨ ∃ d rest rest', text = '\'' :: rest ∧ text' = d :: rest' ∧
      (d = 'h' ∨ d = 'H') := by
  cases h with
  | nil => exact .inl breaks_nil
  | keep _ => exact .inl (breaks_cons (hbreaks _ rfl))
  | @change _ rest rest' c d marker isMark _ =>
      rcases marker with rfl | ⟨rfl | rfl, -, -⟩
      · rcases isHardenedMark_iff.mp isMark with rfl | hd
        · exact .inl (breaks_cons isAlphanum_quote)
        · exact .inr ⟨d, rest, rest', rfl, rfl, hd⟩
      · cases hbreaks 'h' rfl
      · cases hbreaks 'H' rfl

/-! ### One mark -/

theorem ofWord_letter (hc : c = 'h' ∨ c = 'H') :
    ofWord offset [c] = .ok [⟨.mark .hardened, offset, offset + 1⟩] := by
  rcases hc with rfl | rfl <;> rfl

/-- A word with a mark of hardening at its end has that mark as its last token, in whatever way it
is written. -/
theorem spells_of_marked (hc : c = 'h' ∨ c = 'H') (hd : SingleStep.isHardenedMark d = true)
    (hdigits : digits.all Char.isDigit = true) (h : ofWord offset (digits ++ [c]) = .ok tokens) :
    Spells (digits ++ [d]) (tokens.map Token.kind) ∧
      .mark .hardened ∈ (tokens.map Token.kind).getLast? := by
  by_cases hne : digits = []
  · subst hne
    rw [List.nil_append, ofWord_letter hc] at h
    cases h
    exact ⟨Grammar.spells_hardened hd, rfl⟩
  · have hhardened := hardenedDigits?_eq_some_iff.mpr ⟨c, rfl, hc, hne, hdigits⟩
    rcases ofWord_eq_ok_iff.mp h with ⟨_, kind, hword, hread, rfl⟩ | ⟨hword, -⟩
    · cases hhardened.symm.trans hword
      exact ⟨spells_digits_hardened hne hdigits hread hd, rfl⟩
    · cases hhardened.symm.trans hword

/-- A word that a mark of hardening may follow is digits. -/
theorem exists_readDigits_of_follows (hne : word ≠ []) (h : ofWord offset word = .ok tokens)
    (hfollows : ∀ a ∈ (tokens.map Token.kind).getLast?, Follows a (.mark .hardened)) :
    ∃ kind, tokens.map Token.kind = [kind] ∧ word.all Char.isDigit = true ∧
      readDigits offset word = .ok kind := by
  rcases ofWord_eq_ok_iff.mp h with ⟨_, kind, -, -, rfl⟩ | ⟨-, kind, hread, rfl⟩
  · obtain ⟨_, hm, ⟨⟩⟩ := (hfollows _ rfl).2 rfl
    exact absurd rfl hm
  · rcases (hfollows _ rfl).1 rfl with rfl | ⟨n, hnumeral⟩
    · cases (readWord_eq_mark hread).1
    · obtain ⟨-, hdigits, -⟩ :=
        Decimal.read?_eq_some_iff.mp (Grammar.read?_of_readWord hne hread hnumeral)
      rw [readWord_of_all_isDigit hdigits] at hread
      exact ⟨kind, rfl, hdigits, hread⟩

/-- A letter that is read as a mark of hardening is a word. -/
theorem Spells.of_cons_letter (hc : c = 'h' ∨ c = 'H')
    (h : Spells (c :: text) (.mark .hardened :: ks)) : Breaks text ∧ Spells text ks := by
  obtain ⟨tokens, htokens, hkinds⟩ := h.lexFrom_eq
  generalize htext : c :: text = whole at htokens
  cases lexFrom_eq_ok_iff.mp htokens with
  | nil => cases htext
  | mark hmark =>
      cases htext
      rcases hc with rfl | rfl <;> cases hmark
  | @word _ word rest first tokens hne hword hbreaks hfirst hrest =>
      rcases ofWord_eq_ok_iff.mp hfirst with ⟨_, kind, -, hread, rfl⟩ | ⟨-, kind, hread, rfl⟩
      · exact absurd (List.cons.inj hkinds).1 (ne_mark_of_readDigits hread)
      · obtain ⟨rfl, rfl⟩ := List.cons.inj hkinds
        rcases (readWord_eq_mark hread).2 with rfl | rfl
        · obtain ⟨-, rfl⟩ := List.cons.inj htext
          exact ⟨hbreaks, hrest.spells⟩
        · obtain ⟨-, rfl⟩ := List.cons.inj htext
          exact ⟨hbreaks, hrest.spells⟩

/-- What begins with another mark than that of hardening begins with no letter or digit. -/
theorem Spells.breaks (h : Spells text ks)
    (hmark : ∀ k ∈ ks.head?, ∃ m, m ≠ .hardened ∧ k = .mark m) : Breaks text := by
  obtain ⟨tokens, htokens, rfl⟩ := h.lexFrom_eq
  cases lexFrom_eq_ok_iff.mp htokens with
  | nil => exact breaks_nil
  | mark hc => exact breaks_cons (isAlphanum_of_mark hc)
  | word hne hword hbreaks hfirst _ =>
      obtain ⟨token, first, rfl⟩ := List.exists_cons_of_ne_nil (ofWord_ne_nil hfirst)
      obtain ⟨m, hm, hkind⟩ := hmark token.kind rfl
      exact absurd (eq_hardened_of_ofWord hfirst (by simp [hkind])) hm

/-! ### All of them -/

/-- Where the marks of hardening stand as the grammar has them, a text with some of them written in
another way has the same tokens. -/
theorem Cut.spells_of_respelled (h : Cut offset text tokens)
    (hchain : (tokens.map Token.kind).IsChain Follows) (hrespelled : Respelled front text text') :
    Spells text' (tokens.map Token.kind) := by
  induction h generalizing front text' with
  | nil =>
      cases hrespelled
      exact .nil
  | mark hmark _ ih =>
      obtain ⟨hhead, hchain⟩ := List.isChain_cons.mp hchain
      cases hrespelled with
      | keep respelled => exact (ih hchain respelled).mark hmark
      | change marker isMark respelled =>
          have hrest := ih hchain respelled
          rcases marker with rfl | ⟨rfl | rfl, -, -⟩
          · cases hmark
            exact (Grammar.spells_hardened isMark).append hrest
              (hrest.breaks fun k hk => (hhead k hk).2 rfl)
          · cases hmark
          · cases hmark
  | @word offset word text first tokens hne hword hbreaks hfirst hcut ih =>
      rw [List.map_append] at hchain ⊢
      obtain ⟨-, hchain, hjoin⟩ := List.isChain_append.mp hchain
      obtain ⟨rest, respelled, hword' | hword'⟩ := hrespelled.of_word hword
      · subst hword'
        have hrest := ih hchain respelled
        rcases respelled.breaks_or hbreaks with hbreaks' | ⟨d, more, more', rfl, rfl, hd⟩
        · exact (Spells.of_ofWord hne hword hfirst).append hrest hbreaks'
        · -- the letter becomes part of the word before it
          obtain ⟨ls, hls, -⟩ := hcut.spells.of_cons_mark rfl
          rw [hls] at hrest hjoin ⊢
          obtain ⟨hbreaks', hmore⟩ := Spells.of_cons_letter hd hrest
          obtain ⟨kind, hkind, hdigits, hread⟩ :=
            exists_readDigits_of_follows hne hfirst fun a ha => hjoin a ha _ rfl
          have hmarked :=
            spells_digits_hardened hne hdigits hread (isHardenedMark_iff.mpr (.inr hd))
          rw [hkind]
          simpa using hmarked.append hmore hbreaks'
      · obtain ⟨digits, c, d, rfl, hmarker, hd, rfl⟩ := hword'
        have hrest := ih hchain respelled
        obtain ⟨hc, hdigits⟩ := hmarker.all_isDigit hword
        obtain ⟨hmarked, hlast⟩ := spells_of_marked hc hd hdigits hfirst
        have hbreaks' := hrest.breaks fun k hk => (hjoin _ hlast k hk).2 rfl
        simpa using hmarked.append hrest hbreaks'

end Token

/-! ### Descriptors -/

namespace OutputDescriptor

open Token (Respelled)

/-- If a text is read as a descriptor and has no checksum, the same text with any of its quotes
written as letters, and any of the letters behind an index or an asterisk as quotes, is read as the
same descriptor. -/
theorem ofString_of_respelled {text text' : String} {d : OutputDescriptor}
    (h : ofString text = .ok d) (hbare : '#' ∉ text.toList)
    (hrespelled : Respelled [] text.toList text'.toList) :
    ∃ d', ofString text' = .ok d' ∧ d'.same d = true := by
  obtain ⟨rfl, hnode⟩ := (ofString_eq_ok_iff_of_bare hbare).mp h
  obtain ⟨tokens, hlex, hphrase⟩ := Parser.runFrom_wholeScript_eq_ok_iff.mp hnode
  have hcut := Token.lexFrom_eq_ok_iff.mp hlex
  have hspells := hcut.spells_of_respelled hphrase.settled.isChain hrespelled
  obtain ⟨tokens', hlex', hkinds⟩ := hspells.lexFrom_eq
  have hbare' : '#' ∉ text'.toList := (Token.lexFrom_eq_ok_iff.mp hlex').mark_not_mem
  have hnode' : (Parser.runFrom Parser.wholeScript text').1 = .ok d.node :=
    Parser.runFrom_wholeScript_eq_ok_iff.mpr ⟨tokens', hlex', hkinds ▸ hphrase⟩
  exact ⟨⟨text', d.node⟩, (ofString_eq_ok_iff_of_bare hbare').mpr ⟨rfl, hnode'⟩, decide_eq_true rfl⟩

/-- Quotes behind numbers with an even and with an odd number of digits, letters behind a number and
behind an asterisk, and a quote that stays. -/
theorem ofString_of_respelled_path :
    let key := "xpub68Gmy5EdvgibQVfPdqkBBCHxA5htiqg55crXYuXoQRKfDBFA1WEjWgP6LHhwBZeNK1VTsfTFUHC" ++
      "drfp1bgwQ9xv5ski8PX9rL2dZXvgGDnw"
    let text := "wpkh([3442193E/44'/5h/6'/7']" ++ key ++ "/10'/*H)"
    let text' := "wpkh([3442193E/44h/5'/6H/7']" ++ key ++ "/10H/*')"
    ∃ d d', ofString text = .ok d ∧ ofString text' = .ok d' ∧ d'.same d = true := by
  intro key text text'
  let middle := "/7']".toList ++ key.toList ++ "/10".toList
  let spell (a b c d e : Char) : List Char :=
    "wpkh([3442193E/44".toList ++ a :: ("/5".toList ++ b ::
      ("/6".toList ++ c :: (middle ++ d :: ("/*".toList ++ e :: [')']))))
  have htext : text.toList = spell '\'' 'h' '\'' '\'' 'H' := by
    simp [text, spell, middle]
  have htext' : text'.toList = spell 'h' '\'' 'H' 'H' '\'' := by
    simp [text', spell, middle]
  have hbare : '#' ∉ text.toList := by decide +kernel
  obtain ⟨d, hread, -⟩ := exists_of_any_toOption (x := ofString text) (P := fun _ => True)
    (by decide +kernel)
  have hrespelled : Respelled [] text.toList text'.toList := by
    have hquote {front back : List Char} : Token.IsMarker front '\'' back := .inl rfl
    rw [htext, htext']
    refine .keep_append _ (.change hquote rfl (.keep_append _ (.change ?_ rfl (.keep_append _
      (.change hquote rfl (.keep_append _ (.change hquote rfl (.keep_append _
      (.change ?_ rfl (.keep .nil))))))))))
    · have hslash : ∀ c ∈ "wpkh([3442193E/44'/".toList.getLast?, c.isAlphanum = false := by
        rintro _ ⟨⟩
        rfl
      exact .inr ⟨.inl rfl, .inr ⟨"wpkh([3442193E/44'/".toList, ['5'], rfl, nofun, rfl, hslash⟩,
        Token.breaks_cons rfl⟩
    · exact .inr ⟨.inr rfl, .inl (List.getLast?_append_cons _ _ _), Token.breaks_cons rfl⟩
  obtain ⟨d', hread', hsame⟩ := ofString_of_respelled hread hbare hrespelled
  exact ⟨d, d', hread, hread', hsame⟩

end OutputDescriptor

end WalletExchange
