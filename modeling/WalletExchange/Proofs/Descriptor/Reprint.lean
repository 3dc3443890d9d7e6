import WalletExchange.Descriptor.Basic
import WalletExchange.Proofs.Descriptor.Checksum
import WalletExchange.Proofs.Descriptor.Language
import WalletExchange.Proofs.Descriptor.Rendering

/-!
# Proofs — descriptors read back from text

The canonical text of a descriptor that was read from some text is read as the same descriptor, with
and without a checksum.  It has a checksum, since all its characters are marks, letters and digits.

Main statements:

* `OutputDescriptor.ofString_eq_ok_iff` — what reading a text amounts to.
* `OutputDescriptor.ofString_render` — the text is read back, and what is read has the same text.
-/

namespace WalletExchange

namespace Token

variable {offset : Nat} {text : List Char} {tokens : List Token}

/-- What has tokens is in the alphabet of checksums. -/
theorem Cut.mem_inputAlphabet (h : Cut offset text tokens) :
    ∀ c ∈ text, c ∈ Checksum.inputAlphabet := by
  intro c hc
  rcases h.isAlphanum_or_mark c hc with halphanum | ⟨m, hmark⟩
  · exact Checksum.mem_inputAlphabet halphanum
  · unfold Mark.ofChar? at hmark
    split at hmark
    all_goals first | decide | cases hmark

/-- What has tokens is not cut in front of a checksum. -/
theorem Cut.mark_not_mem (h : Cut offset text tokens) : '#' ∉ text := by
  intro hmem
  rcases h.isAlphanum_or_mark '#' hmem with halphanum | ⟨m, hmark⟩
  · exact absurd halphanum (by decide)
  · exact absurd hmark (by cases m <;> decide)

end Token

namespace OutputDescriptor

variable {text : String} {d : OutputDescriptor}

theorem verifyChecksum_eq_ok_iff {source : String} {found : List Char} :
    verifyChecksum text source found = .ok () ↔ Checksum.ofText? source.toList = some found := by
  rw [verifyChecksum]
  cases Checksum.ofText? source.toList with
  | none => exact ⟨fun h => (nomatch h), fun h => (nomatch h)⟩
  | some expected =>
      rw [Option.some_inj]
      by_cases heq : found = expected
      · simp only [heq, if_true]
      · simp only [if_neg heq, Ne.symm heq, reduceCtorEq]

/-- A text is read if its source is a whole script function, and if the checksum behind the source,
if there is one, is that of the source. -/
theorem ofString_eq_ok_iff :
    ofString text = .ok d ↔
      ∃ checksum, splitChecksum text = (d.source, checksum) ∧
        (Parser.runFrom Parser.wholeScript d.source).1 = .ok d.node ∧
        ∀ found ∈ checksum, Checksum.ofText? d.source.toList = some found := by
  obtain ⟨source, node⟩ := d
  rw [ofString, read]
  obtain ⟨source', checksum⟩ := splitChecksum text
  dsimp only
  rw [bind_eq_ok_iff]
  cases checksum with
  | none =>
      constructor
      · rintro ⟨_, hnode, ⟨⟩⟩
        exact ⟨none, rfl, hnode, nofun⟩
      · rintro ⟨_, ⟨⟩, hnode, -⟩
        exact ⟨node, hnode, rfl⟩
  | some found =>
      constructor
      · rintro ⟨_, hnode, h⟩
        obtain ⟨⟨⟩, hverified, ⟨⟩⟩ := bind_eq_ok_iff.mp h
        refine ⟨some found, rfl, hnode, ?_⟩
        rintro _ ⟨⟩
        exact verifyChecksum_eq_ok_iff.mp hverified
      · rintro ⟨_, ⟨⟩, hnode, hfound⟩
        refine ⟨node, hnode, ?_⟩
        dsimp only
        rw [verifyChecksum_eq_ok_iff.mpr (hfound found rfl)]
        rfl

/-- What is read of the canonical text, with or without a checksum. -/
theorem ofString_of_lex {source : List Char} {tokens : List Token} {n : Node} {sum : List Char}
    (hlex : Token.lexFrom 0 source = .ok tokens)
    (hphrase : Grammar.ScriptFunction none (tokens.map Token.kind) n)
    (hsum : Checksum.ofText? source = some sum) :
    ∀ text ∈ [source, source ++ '#' :: sum],
      ofString (String.ofList text) = .ok ⟨String.ofList source, n⟩ := by
  have hcut := Token.lexFrom_eq_ok_iff.mp hlex
  have hnode : (Parser.runFrom Parser.wholeScript (String.ofList source)).1 = .ok n := by
    refine Parser.runFrom_wholeScript_eq_ok_iff.mpr ⟨tokens, ?_, hphrase⟩
    rwa [Token.lex, String.toList_ofList]
  rw [List.forall_mem_cons, List.forall_mem_singleton]
  constructor
  · refine ofString_eq_ok_iff.mpr ⟨none, ?_, hnode, by rintro _ ⟨⟩⟩
    rw [splitChecksum, String.toList_ofList, Text.splitLast?_eq_none hcut.mark_not_mem]
  · refine ofString_eq_ok_iff.mpr ⟨some sum, ?_, hnode, ?_⟩
    · rw [splitChecksum, String.toList_ofList,
        Text.splitLast?_append (Checksum.mark_not_mem hsum)]
    · rintro _ ⟨⟩
      rwa [String.toList_ofList]

/-- If the keys and addresses of a descriptor that was read are read back from their own texts, the
canonical text has a checksum, and with the checksum as well as without it the text is read as the
same descriptor, which has the same two texts. -/
theorem ofString_render (h : ofString text = .ok d)
    (hwords : ∀ word ∈ d.node.words, Token.ReadsAs word) :
    (∃ sum, d.checksum? = some sum ∧ d.renderWithChecksum = d.render ++ '#' :: sum) ∧
    ∀ printed ∈ [d.render, d.renderWithChecksum],
      ∃ d', ofString (String.ofList printed) = .ok d' ∧ d'.same d = true ∧
        d'.render = d.render ∧ d'.renderWithChecksum = d.renderWithChecksum := by
  obtain ⟨checksum, -, hnode, -⟩ := ofString_eq_ok_iff.mp h
  obtain ⟨tokens, hlex, hphrase⟩ := Parser.runFrom_wholeScript_eq_ok_iff.mp hnode
  have hdata : .data [] ∉ tokens.map Token.kind := by
    intro hmem
    obtain ⟨token, htoken, hkind⟩ := List.mem_map.mp hmem
    exact (Token.lexFrom_eq_ok_iff.mp hlex).kind_ne_empty token htoken hkind
  obtain ⟨us, hspells, hprinted⟩ := hphrase.exists_spells hdata hwords
  obtain ⟨tokens', hlex', rfl⟩ := hspells.lexFrom_eq
  have hchars := (Token.lexFrom_eq_ok_iff.mp hlex').mem_inputAlphabet
  obtain ⟨sum, hsum⟩ := Option.isSome_iff_exists.mp (Checksum.isSome_ofText?_iff.mpr hchars)
  have hwith : d.renderWithChecksum = d.render ++ '#' :: sum := by
    rw [renderWithChecksum, checksum?, render, hsum, Option.elim_some]
  refine ⟨⟨sum, hsum, hwith⟩, ?_⟩
  rw [hwith]
  intro printed hmem
  exact ⟨_, ofString_of_lex hlex' hprinted hsum printed hmem, decide_eq_true rfl, rfl, hwith⟩

/-- A text that is not canonical becomes so, and after that it does not change. -/
theorem ofString_render_multi :
    ∃ (text : String) (d d' : OutputDescriptor), ofString text = .ok d ∧ d.render ≠ text.toList ∧
      ofString (String.ofList d.renderWithChecksum) = .ok d' ∧
      d'.renderWithChecksum = d.renderWithChecksum := by
  let text :=
    "sh(wsh(multi(01,[3442193E/044h/5H]KwDiBf89QgGbjEhKnhXJuH7LrciVrZi3qYjgd9M7rFU75rwBNqUw)))"
  obtain ⟨d, hread, hne, hwords⟩ := exists_of_any_toOption (x := ofString text)
    (P := fun d => d.render ≠ text.toList ∧ ∀ word ∈ d.node.words, Token.ReadsAs word)
    (by decide +kernel)
  obtain ⟨d', hread', -, -, heq⟩ :=
    (ofString_render hread hwords).2 d.renderWithChecksum (by simp)
  exact ⟨text, d, d', hread, hne, hread', heq⟩

end OutputDescriptor

end WalletExchange
