import WalletExchange.Proofs.Descriptor.Functions

/-!
# Proofs — the language of descriptors

A walk over all tokens of a text succeeds exactly where the grammar has a derivation of them, and
its result is the one script function that they spell.

Main statements:

* `rest_of_wholeScript`, `wholeScript_of_derivation` — a walk over the whole text and a derivation
  of its tokens give each other.
* `accepts_exactly_grammar` — the language of the parser is that of the grammar, which is
  unambiguous.
-/

namespace WalletExchange.Parser

open Grammar

variable {p q : Parser} {n : Node}

theorem wholeScript_eq_ok (h : wholeScript p = .ok n q) :
    ∃ r, script none p = .ok n r ∧ r.tokens.length ≤ r.cursor := by
  obtain ⟨n', r, hscript, h⟩ := bind_eq_ok_iff.mp h
  obtain ⟨_, _, hget, h⟩ := bind_eq_ok_iff.mp h
  cases hget
  by_cases hleft : r.cursor < r.tokens.length
  · rw [if_pos hleft] at h
    exact absurd h fail_bind_ne_ok
  · rw [if_neg hleft] at h
    obtain ⟨_, _, _, h⟩ := bind_eq_ok_iff.mp h
    obtain ⟨rfl, -⟩ := pure_eq_ok_iff.mp h
    exact ⟨r, hscript, Nat.le_of_not_lt hleft⟩

theorem rest_eq_nil_iff : p.rest = [] ↔ p.tokens.length ≤ p.cursor := by
  rw [rest, List.map_eq_nil_iff, List.drop_eq_nil_iff]

/-- What a walk over all that is left returns is derived from it. -/
theorem rest_of_wholeScript (h : wholeScript p = .ok n q) : ScriptFunction none p.rest n := by
  obtain ⟨r, hscript, hend⟩ := wholeScript_eq_ok h
  obtain ⟨used, hphrase, hspan⟩ := (reads_script none).sound hscript
  rwa [hspan.rest_eq, rest_eq_nil_iff.mpr hend, List.append_nil]

/-- A walk over tokens that have a derivation returns what is derived. -/
theorem wholeScript_of_derivation (h : ScriptFunction none p.rest n) :
    ∃ q, wholeScript p = .ok n q := by
  obtain ⟨r, hscript, hspan, hrest⟩ :=
    (reads_script none).run h (List.append_nil _).symm (noneNext_nil [])
  have hend : ¬ r.cursor < r.tokens.length := Nat.not_lt.mpr (rest_eq_nil_iff.mp hrest)
  let text := s!"Parsed {n.kind.name} descriptor `{r.source}`"
  refine ⟨{ r with journal := r.journal ++ [⟨.debug, text⟩] }, ?_⟩
  rw [wholeScript, bind_of_ok hscript, bind_of_ok get_eq, if_neg hend]
  rfl

/-- Where a walk over all that is left returns exactly what is derived from it, a text is read
exactly if its tokens can be derived. -/
theorem runFrom_eq_ok_iff {α : Type} {walk : ParserM α} {phrase : List TokenKind → α → Prop}
    {source : String} {a : α}
    (hwalk : ∀ p : Parser, (∃ q, walk p = .ok a q) ↔ phrase p.rest a) :
    (runFrom walk source).1 = .ok a ↔
      ∃ tokens, Token.lex source = .ok tokens ∧ phrase (tokens.map Token.kind) a := by
  rw [runFrom, ofString]
  cases hlex : Token.lex source with
  | error cause => exact ⟨fun h => (nomatch h), fun ⟨_, h, _⟩ => (nomatch h)⟩
  | ok tokens =>
      dsimp only
      constructor
      · intro h
        cases hwhole : walk ⟨source, tokens, 0, []⟩ with
        | error cause q => rw [hwhole] at h; cases h
        | ok b q =>
            rw [hwhole] at h
            cases h
            exact ⟨tokens, rfl, (hwalk ⟨source, tokens, 0, []⟩).mp ⟨q, hwhole⟩⟩
      · rintro ⟨_, ⟨⟩, h⟩
        obtain ⟨q, hwhole⟩ := (hwalk ⟨source, tokens, 0, []⟩).mpr h
        rw [hwhole]

/-- Exactly the texts are read whole whose tokens can be derived as a script function. -/
theorem runFrom_wholeScript_eq_ok_iff {source : String} :
    (runFrom wholeScript source).1 = .ok n ↔
      ∃ tokens, Token.lex source = .ok tokens ∧
        ScriptFunction none (tokens.map Token.kind) n :=
  runFrom_eq_ok_iff fun _ => ⟨fun ⟨_, h⟩ => rest_of_wholeScript h, wholeScript_of_derivation⟩

/-! ### Keys -/

theorem wholeKey_iff {k : KeyExpression} : (∃ q, wholeKey p = .ok k q) ↔ Key true p.rest k := by
  constructor
  · rintro ⟨q, h⟩
    obtain ⟨k', r, hkey, h⟩ := bind_eq_ok_iff.mp h
    obtain ⟨_, _, hget, h⟩ := bind_eq_ok_iff.mp h
    cases hget
    by_cases hleft : r.cursor < r.tokens.length
    · rw [if_pos hleft] at h
      exact absurd h fail_bind_ne_ok
    · rw [if_neg hleft] at h
      obtain ⟨rfl, -⟩ := pure_eq_ok_iff.mp h
      obtain ⟨used, hphrase, hspan⟩ := (reads_expectKey true).sound hkey
      rwa [hspan.rest_eq, rest_eq_nil_iff.mpr (Nat.le_of_not_lt hleft), List.append_nil]
  · intro h
    obtain ⟨r, hkey, hspan, hrest⟩ :=
      (reads_expectKey true).run h (List.append_nil _).symm (by exact nofun)
    have hend : ¬ r.cursor < r.tokens.length := Nat.not_lt.mpr (rest_eq_nil_iff.mp hrest)
    refine ⟨r, ?_⟩
    rw [wholeKey, bind_of_ok hkey, bind_of_ok get_eq, if_neg hend]
    rfl

/-- Exactly the texts are read as a key whose tokens can be derived as one. -/
theorem ofString_key_eq_ok_iff {source : String} {k : KeyExpression} :
    KeyExpression.ofString source = .ok k ↔
      ∃ tokens, Token.lex source = .ok tokens ∧ Key true (tokens.map Token.kind) k :=
  runFrom_eq_ok_iff fun _ => wholeKey_iff

/-- A parser over a sequence of tokens, with whatever source and journal, succeeds exactly if the
sequence can be derived as a script function at the top, and returns what is derived; no other
script function can be derived from the same tokens. -/
theorem accepts_exactly_grammar (source : String) (tokens : List Token) (journal : Journal) :
    (∀ n, (∃ q, wholeScript ⟨source, tokens, 0, journal⟩ = .ok n q) ↔
      ScriptFunction none (tokens.map Token.kind) n) ∧
    ∀ n n', ScriptFunction none (tokens.map Token.kind) n →
      ScriptFunction none (tokens.map Token.kind) n' → n = n' := by
  have hparse : ∀ n, (∃ q, wholeScript ⟨source, tokens, 0, journal⟩ = .ok n q) ↔
      ScriptFunction none (tokens.map Token.kind) n := by
    intro n
    constructor
    · rintro ⟨q, h⟩
      exact rest_of_wholeScript h
    · intro h
      exact wholeScript_of_derivation (p := ⟨source, tokens, 0, journal⟩) h
  refine ⟨hparse, ?_⟩
  intro n n' h h'
  obtain ⟨q, hn⟩ := (hparse n).mpr h
  obtain ⟨q', hn'⟩ := (hparse n').mpr h'
  rw [hn] at hn'
  exact (EStateM.Result.ok.inj hn').1

end WalletExchange.Parser
