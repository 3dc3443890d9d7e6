import WalletExchange.Proofs.Descriptor.Words
import WalletExchange.Proofs.Path.Text

/-!
# Proofs — two readers of steps

A step of a path is read from text, cut at its slashes, or from tokens, in a descriptor.  The first
reader takes marks off both ends of a text and reads what is left as decimal digits; for the second
an even number of digits is data, digits and an `h` after them are one word, and an asterisk and an
`h` are two tokens.  Both accept the same texts as the same steps.

Main statements:

* `Grammar.parse_step_iff` — a text is read as a step exactly if it spells a derivation of the step.
* `Grammar.parse_components_iff` — and so it is with the steps between slashes.
-/

namespace WalletExchange

namespace Hex

theorem isDigit_digitChar {v : Nat} (hv : v < 16) (h : (Nat.digitChar v).isDigit = true) :
    v < 10 := by
  have hall : ∀ v ∈ List.range 16, (Nat.digitChar v).isDigit = true → v < 10 := by decide
  exact hall v (List.mem_range.mpr hv) h

/-- A digit has a value below sixteen, and it is a decimal one if the value is below ten. -/
theorem digitValue?_cases {c : Char} {v : Nat} (h : digitValue? c = some v) :
    v < 16 ∧ (v < 10 → Nat.digitChar v = c) := by
  by_cases hc : c.isDigit = true
  · obtain ⟨n, hn, rfl⟩ := exists_digitChar_eq hc
    rw [digitValue?_digitChar hn] at h
    cases h
    exact ⟨hn, fun _ => rfl⟩
  · have hletter (base : Nat) (hlow : base ≤ c.toNat) (hhigh : c.toNat < base + 6)
        (hv : c.toNat - base + 10 = v) : v < 16 ∧ (v < 10 → Nat.digitChar v = c) :=
      ⟨by omega, fun _ => by omega⟩
    rw [digitValue?, if_neg hc] at h
    split at h
    · next hlower =>
      cases h
      exact hletter _ hlower.1 (Nat.lt_succ_of_le hlower.2) rfl
    · split at h
      · next hupper =>
        cases h
        exact hletter _ hupper.1 (Nat.lt_succ_of_le hupper.2) rfl
      · cases h

/-- Data in decimal digits has been written in these digits. -/
theorem encode_of_decode? : ∀ {text : List Char} {bytes : Bytes}, decode? text = some bytes →
    (encode bytes).all Char.isDigit = true → encode bytes = text
  | [], _, h, _ => by cases h; rfl
  | [_], _, h, _ => by cases h
  | high :: low :: rest, bytes, hdecode, hdigits => by
      obtain ⟨h, hh, hdecode⟩ := Option.bind_eq_some_iff.mp hdecode
      obtain ⟨l, hl, hdecode⟩ := Option.bind_eq_some_iff.mp hdecode
      obtain ⟨tail, htail, ⟨⟩⟩ := Option.bind_eq_some_iff.mp hdecode
      obtain ⟨hlt, hhigh⟩ := digitValue?_cases hh
      obtain ⟨llt, hlow⟩ := digitValue?_cases hl
      rw [encode_cons_ofNat hlt llt] at hdigits ⊢
      simp only [List.all_cons, Bool.and_eq_true] at hdigits
      obtain ⟨hfirst, hsecond, hrest⟩ := hdigits
      rw [hhigh (isDigit_digitChar hlt hfirst), hlow (isDigit_digitChar llt hsecond),
        encode_of_decode? htail hrest]

end Hex

namespace Grammar

open Token (Spells Breaks)

variable {offset : Nat} {text : List Char} {kind : TokenKind} {n : Nat}

/-! ### Numbers -/

theorem read?_of_readDigits (hne : text ≠ []) (hdigits : text.all Char.isDigit = true)
    (hread : Token.readDigits offset text = .ok kind) (h : Numeral kind n) :
    Decimal.read? text = some n := by
  rw [Token.readDigits] at hread
  split at hread
  · next heven =>
    obtain ⟨bytes, rfl⟩ := Hex.exists_encode_eq (List.all_eq_true.mp hdigits) heven
    rw [Hex.decode?_encode] at hread
    cases hread
    cases h with
    | data hvalue => exact hvalue
  · split at hread
    · next hlt =>
      cases hread
      cases h with
      | int =>
          rw [UInt64.toNat_ofNat_of_lt' hlt]
          exact Decimal.read?_eq_some_iff.mpr ⟨hne, hdigits, rfl⟩
    · cases hread

theorem read?_of_readWord (hne : text ≠ []) (hread : Token.readWord offset text = .ok kind)
    (h : Numeral kind n) : Decimal.read? text = some n := by
  rcases Token.readWord_cases hread with
    ⟨_, rfl⟩ | ⟨rfl, -⟩ | ⟨hdigits, hread⟩ | ⟨bytes, hdecode, rfl⟩ | hkey
  · cases h
  · cases h
  · exact read?_of_readDigits hne hdigits hread h
  · cases h with
    | data hvalue =>
        obtain ⟨-, hall, -⟩ := Decimal.read?_eq_some_iff.mp hvalue
        rwa [← Hex.encode_of_decode? hdecode hall]
  · obtain ⟨_, -, rfl⟩ | ⟨_, rfl⟩ | ⟨_, rfl⟩ := Token.readKey?_cases hkey <;> cases h

/-- A word that is a numeral is decimal digits of its number. -/
theorem read?_of_spells (hspells : Spells text [kind]) (h : Numeral kind n) :
    Decimal.read? text = some n := by
  have hkind : ∀ m, kind ≠ .mark m := by rintro m rfl; cases h
  obtain ⟨word, rest, rfl, hne, ⟨_, _, _, _, ⟨⟩, _⟩ | ⟨hread, hrest⟩⟩ := hspells.exists_word hkind
  rw [hrest.eq_nil, List.append_nil]
  exact read?_of_readWord hne hread h

/-! ### Hardening -/

/-- A mark of hardening is one of three characters. -/
theorem exists_of_spells_hardened (h : Spells text [.mark .hardened]) :
    ∃ c, text = [c] ∧ SingleStep.isHardenedMark c = true := by
  obtain ⟨tokens, htokens, hkinds⟩ := h.lexFrom_eq
  cases Token.lexFrom_eq_ok_iff.mp htokens with
  | nil => cases hkinds
  | @mark _ c m rest tokens hmark hrest =>
      obtain ⟨⟨⟩, hnil⟩ := List.cons.inj hkinds
      rw [hrest.eq_nil (List.map_eq_nil_iff.mp hnil)]
      refine ⟨c, rfl, ?_⟩
      unfold Mark.ofChar? at hmark
      split at hmark
      all_goals first | rfl | cases hmark
  | @word _ word rest first tokens hne _ _ hfirst hrest =>
      rcases Token.ofWord_eq_ok_iff.mp hfirst with
        ⟨_, _, _, _, rfl⟩ | ⟨_, kind, hread, rfl⟩
      · cases hkinds
      · obtain ⟨rfl, hnil⟩ := List.cons.inj hkinds
        rw [hrest.eq_nil (List.map_eq_nil_iff.mp hnil), List.append_nil]
        obtain ⟨-, rfl | rfl⟩ := Token.readWord_eq_mark hread
        · exact ⟨'h', rfl, rfl⟩
        · exact ⟨'H', rfl, rfl⟩

/-- A numeral with a mark of hardening after it is decimal digits with one of the three characters
after them. -/
theorem exists_of_spells_numeral_hardened (hspells : Spells text [kind, .mark .hardened])
    (h : Numeral kind n) : ∃ digits c, text = digits ++ [c] ∧
      SingleStep.isHardenedMark c = true ∧ Decimal.read? digits = some n := by
  have hkind : ∀ m, kind ≠ .mark m := by rintro m rfl; cases h
  obtain ⟨word, rest, rfl, hne, ⟨digits, ls, hdigits, hread, hls, hrest⟩ | ⟨hread, hrest⟩⟩ :=
    hspells.exists_word hkind
  · obtain ⟨-, rfl⟩ := List.cons.inj hls
    obtain ⟨c, rfl, hc, hne, hall⟩ := Token.hardenedDigits?_eq_some_iff.mp hdigits
    refine ⟨digits, c, ?_, ?_, read?_of_readDigits hne hall hread h⟩
    · rw [hrest.eq_nil, List.append_nil]
    · rcases hc with rfl | rfl <;> rfl
  · obtain ⟨c, rfl, hc⟩ := exists_of_spells_hardened hrest
    exact ⟨word, c, rfl, hc, read?_of_readWord hne hread h⟩

theorem exists_spells_hardened {c : Char} (hc : SingleStep.isHardenedMark c = true)
    (hread : Decimal.read? text = some n) (hn : n < UInt64.size) :
    ∃ kind, Spells (text ++ [c]) [kind, .mark .hardened] ∧ Numeral kind n := by
  obtain ⟨kind, hkind, hnumeral⟩ := Token.exists_readDigits hread hn
  obtain ⟨hne, hdigits, -⟩ := Decimal.read?_eq_some_iff.mp hread
  exact ⟨kind, Token.spells_digits_hardened hne hdigits hkind hc, hnumeral⟩

theorem spells_hardened {c : Char} (hc : SingleStep.isHardenedMark c = true) :
    Spells [c] [.mark .hardened] := by
  rw [SingleStep.isHardenedMark, Bool.or_eq_true, Bool.or_eq_true, decide_eq_true_eq,
    decide_eq_true_eq, decide_eq_true_eq] at hc
  rcases hc with (rfl | rfl) | rfl
  · exact .mark rfl .nil
  · exact .of_readWord (List.cons_ne_nil _ _) (List.forall_mem_singleton.mpr rfl) rfl
      (show Token.readWord 0 ['h'] = _ from rfl)
  · exact .of_readWord (List.cons_ne_nil _ _) (List.forall_mem_singleton.mpr rfl) rfl
      (show Token.readWord 0 ['H'] = _ from rfl)

/-! ### Positions -/

theorem value_lt_size (i : ChildIndex) : i.value.toNat < UInt64.size :=
  Nat.lt_trans i.value.toNat_lt (by decide)

theorem spells_star_iff {ts : List TokenKind} :
    Spells text (.mark .star :: ts) ↔ ∃ rest, text = '*' :: rest ∧ Spells rest ts :=
  Token.spells_cons_mark_iff rfl (by decide)

/-- A text is read as an index or a wildcard exactly if it spells this position. -/
theorem parse_spec_iff {spec : IndexSpec} :
    IndexSpec.parse text = .ok spec ↔
      ∃ kind, Spells text [kind] ∧ Position false kind spec := by
  constructor
  · intro h
    cases spec with
    | wildcard =>
        rw [IndexSpec.parse_eq_wildcard_iff.mp h]
        exact ⟨_, spells_star_iff.mpr ⟨_, rfl, .nil⟩, .wildcard rfl⟩
    | index i =>
        obtain ⟨hread, hrange⟩ := IndexSpec.parse_eq_index_iff.mp h
        obtain ⟨kind, hspells, hnumeral⟩ := Token.exists_numeral_of_read? hread (value_lt_size i)
        exact ⟨kind, hspells, .index hnumeral hrange⟩
  · rintro ⟨kind, hspells, hposition⟩
    cases hposition with
    | wildcard =>
        obtain ⟨rest, rfl, hrest⟩ := spells_star_iff.mp hspells
        rw [hrest.eq_nil, IndexSpec.parse_eq_wildcard_iff]
    | index hnumeral hrange =>
        exact IndexSpec.parse_eq_index_iff.mpr ⟨read?_of_spells hspells hnumeral, hrange⟩

/-- And so it is where a mark of hardening follows. -/
theorem exists_parse_hardened_iff {spec : IndexSpec} :
    (∃ front c, text = front ++ [c] ∧ SingleStep.isHardenedMark c = true ∧
      IndexSpec.parse front = .ok spec) ↔
      ∃ kind, Spells text [kind, .mark .hardened] ∧ Position false kind spec := by
  constructor
  · rintro ⟨front, c, rfl, hc, h⟩
    cases spec with
    | wildcard =>
        rw [IndexSpec.parse_eq_wildcard_iff.mp h]
        exact ⟨_, spells_star_iff.mpr ⟨_, rfl, spells_hardened hc⟩, .wildcard rfl⟩
    | index i =>
        obtain ⟨hread, hrange⟩ := IndexSpec.parse_eq_index_iff.mp h
        obtain ⟨kind, hspells, hnumeral⟩ := exists_spells_hardened hc hread (value_lt_size i)
        exact ⟨kind, hspells, .index hnumeral hrange⟩
  · rintro ⟨kind, hspells, hposition⟩
    cases hposition with
    | wildcard =>
        obtain ⟨rest, rfl, hrest⟩ := spells_star_iff.mp hspells
        obtain ⟨c, rfl, hc⟩ := exists_of_spells_hardened hrest
        exact ⟨['*'], c, rfl, hc, IndexSpec.parse_eq_wildcard_iff.mpr rfl⟩
    | index hnumeral hrange =>
        obtain ⟨front, c, rfl, hc, hread⟩ := exists_of_spells_numeral_hardened hspells hnumeral
        exact ⟨front, c, rfl, hc, IndexSpec.parse_eq_index_iff.mpr ⟨hread, hrange⟩⟩

theorem isHardenedMark_eq_false {spec : IndexSpec} (h : IndexSpec.parse text = .ok spec) :
    ∀ c ∈ text, SingleStep.isHardenedMark c = false := by
  intro c hc
  rcases IndexSpec.isDigit_or_of_parse h c hc with hdigit | rfl
  · exact Decimal.of_isDigit (P := fun c => SingleStep.isHardenedMark c = false) (by decide) hdigit
  · rfl

/-! ### Steps -/

theorem parse_single_iff {s : SingleStep} :
    SingleStep.parse text = .ok s ↔ ∃ ts, Spells text ts ∧ Single false ts s := by
  rw [SingleStep.parse]
  constructor
  · intro h
    split at h
    · next front hlast =>
      obtain ⟨c, hc⟩ := Text.beforeLast?_eq_some_iff.mp hlast
      obtain ⟨spec, hspec, rfl⟩ := map_eq_ok_iff.mp h
      obtain ⟨kind, hspells, hposition⟩ :=
        exists_parse_hardened_iff.mp ⟨front, c, hc.1, hc.2, hspec⟩
      exact ⟨_, hspells, .hardened hposition⟩
    · obtain ⟨spec, hspec, rfl⟩ := map_eq_ok_iff.mp h
      obtain ⟨kind, hspells, hposition⟩ := parse_spec_iff.mp hspec
      exact ⟨_, hspells, .normal hposition⟩
  · rintro ⟨ts, hspells, hsingle⟩
    cases hsingle with
    | normal hposition =>
        have hspec := parse_spec_iff.mpr ⟨_, hspells, hposition⟩
        rw [Text.beforeLast?_eq_none (isHardenedMark_eq_false hspec)]
        exact map_eq_ok_iff.mpr ⟨_, hspec, rfl⟩
    | hardened hposition =>
        obtain ⟨front, c, rfl, hc, hspec⟩ := exists_parse_hardened_iff.mpr ⟨_, hspells, hposition⟩
        rw [Text.beforeLast?_append hc]
        exact map_eq_ok_iff.mpr ⟨_, hspec, rfl⟩

theorem position_true_iff {spec : IndexSpec} :
    Position true kind spec ↔ Position false kind spec ∧ spec.isWildcard = false := by
  constructor
  · intro h
    cases h with
    | index hnumeral hrange => exact ⟨.index hnumeral hrange, rfl⟩
    | wildcard loose => cases loose
  · rintro ⟨h, hfixed⟩
    cases h with
    | index hnumeral hrange => exact .index hnumeral hrange
    | wildcard => cases hfixed

theorem single_true_iff {ts : List TokenKind} {s : SingleStep} :
    Single true ts s ↔ Single false ts s ∧ s.isWildcard = false := by
  constructor
  · intro h
    cases h with
    | normal h => exact ⟨.normal (position_true_iff.mp h).1, (position_true_iff.mp h).2⟩
    | hardened h => exact ⟨.hardened (position_true_iff.mp h).1, (position_true_iff.mp h).2⟩
  · rintro ⟨h, hfixed⟩
    cases h with
    | normal h => exact .normal (position_true_iff.mpr ⟨h, hfixed⟩)
    | hardened h => exact .hardened (position_true_iff.mpr ⟨h, hfixed⟩)

/-- The marks in a single step. -/
theorem Single.mark_mem {fixed : Bool} {ts : List TokenKind} {s : SingleStep} {m : Mark}
    (h : Single fixed ts s) (hm : .mark m ∈ ts) : m = .star ∨ m = .hardened := by
  have hposition {kind : TokenKind} {spec : IndexSpec} (h : Position fixed kind spec)
      (heq : .mark m = kind) : m = .star := by
    subst heq
    cases h with
    | index hnumeral => cases hnumeral
    | wildcard => rfl
  cases h with
  | normal h => exact .inl (hposition h (List.mem_singleton.mp hm))
  | hardened h =>
      rcases List.mem_cons.mp hm with hkind | hm
      · exact .inl (hposition h hkind)
      · cases List.mem_singleton.mp hm
        exact .inr rfl

/-- The tokens of a pair are those of a text in angle brackets with a semicolon in it. -/
theorem spells_pair_iff {ts us : List TokenKind} :
    Spells text (.mark .openAngle :: (ts ++ .mark .semicolon :: (us ++ [.mark .closeAngle]))) ↔
      ∃ external internal, text = '<' :: (external ++ ';' :: (internal ++ ['>'])) ∧
        Spells external ts ∧ Spells internal us := by
  rw [Token.spells_cons_mark_iff (c := '<') rfl (by decide)]
  constructor
  · rintro ⟨rest, rfl, hrest⟩
    obtain ⟨external, rest, rfl, hexternal, hrest⟩ :=
      (Token.spells_append_mark_iff (c := ';') rfl (by decide)).mp hrest
    obtain ⟨internal, rest, rfl, hinternal, hrest⟩ :=
      (Token.spells_append_mark_iff (c := '>') rfl (by decide)).mp hrest
    exact ⟨external, internal, by rw [hrest.eq_nil], hexternal, hinternal⟩
  · rintro ⟨external, internal, rfl, hexternal, hinternal⟩
    exact ⟨_, rfl, hexternal.append_mark rfl (hinternal.append_mark rfl .nil)⟩

/-- A text that is taken apart as a pair is two texts in angle brackets with a semicolon between
them. -/
theorem eq_of_inside? {external internal : List Char}
    (h : (PairStep.inside? text).bind (Text.splitFirst? ';') = some (external, internal)) :
    text = '<' :: (external ++ ';' :: (internal ++ ['>'])) := by
  obtain ⟨inner, hinside, hcut⟩ := Option.bind_eq_some_iff.mp h
  obtain ⟨rest, rfl, hlast⟩ : ∃ rest, text = '<' :: rest ∧
      Text.beforeLast? (· = '>') rest = some inner := by
    rw [PairStep.inside?.eq_def] at hinside
    split at hinside
    · exact ⟨_, rfl, hinside⟩
    · cases hinside
  obtain ⟨c, rfl, hc⟩ := Text.beforeLast?_eq_some_iff.mp hlast
  obtain rfl := of_decide_eq_true hc
  rw [Text.eq_of_splitFirst? hcut, List.append_assoc, List.cons_append]

theorem inside?_bind_eq {external internal : List Char} (h : ';' ∉ external) :
    (PairStep.inside? ('<' :: (external ++ ';' :: (internal ++ ['>'])))).bind
      (Text.splitFirst? ';') = some (external, internal) := by
  have happend : external ++ ';' :: (internal ++ ['>']) =
      external ++ ';' :: internal ++ ['>'] := by simp
  rw [PairStep.inside?, happend, Text.beforeLast?_append (by decide), Option.bind_some,
    Text.splitFirst?_append h]

theorem parse_pair_iff {p : PairStep} :
    PairStep.parse text = .ok p ↔ ∃ ts us, Spells text (.mark .openAngle ::
      (ts ++ .mark .semicolon :: (us ++ [.mark .closeAngle]))) ∧
      Single true ts p.external ∧ Single true us p.internal := by
  simp only [spells_pair_iff, single_true_iff]
  rw [PairStep.parse]
  constructor
  · intro h
    split at h
    · next external internal hsplit =>
      obtain ⟨s, hs, h⟩ := bind_eq_ok_iff.mp h
      obtain ⟨t, ht, h⟩ := bind_eq_ok_iff.mp h
      obtain ⟨hsfixed, htfixed, rfl⟩ := PairStep.ofSteps?_eq_ok_iff.mp h
      obtain ⟨ts, hts, hs⟩ := parse_single_iff.mp hs
      obtain ⟨us, hus, ht⟩ := parse_single_iff.mp ht
      exact ⟨ts, us, ⟨external, internal, eq_of_inside? hsplit, hts, hus⟩, ⟨hs, hsfixed⟩, ht,
        htfixed⟩
    · cases h
  · rintro ⟨ts, us, ⟨external, internal, rfl, hts, hus⟩, ⟨hs, hsfixed⟩, ht, htfixed⟩
    have hseparator : ';' ∉ external := by
      intro hmem
      rcases hs.mark_mem (hts.mark_mem rfl hmem) with h | h <;> cases h
    rw [inside?_bind_eq hseparator]
    refine bind_eq_ok_iff.mpr ⟨_, parse_single_iff.mpr ⟨ts, hts, hs⟩, ?_⟩
    refine bind_eq_ok_iff.mpr ⟨_, parse_single_iff.mpr ⟨us, hus, ht⟩, ?_⟩
    exact PairStep.ofSteps?_eq_ok_iff.mpr ⟨hsfixed, htfixed, rfl⟩

/-- A text is read as a step exactly if it spells a derivation of the step. -/
theorem parse_step_iff {s : Step} :
    Step.parse text = .ok s ↔ ∃ ts, Spells text ts ∧ AnyStep false ts s := by
  rw [Step.parse]
  constructor
  · intro h
    split at h
    · obtain ⟨p, hp, rfl⟩ := map_eq_ok_iff.mp h
      obtain ⟨ts, us, hspells, hs, ht⟩ := parse_pair_iff.mp hp
      exact ⟨_, hspells, .pair rfl hs ht⟩
    · obtain ⟨s, hs, rfl⟩ := map_eq_ok_iff.mp h
      obtain ⟨ts, hspells, hs⟩ := parse_single_iff.mp hs
      exact ⟨ts, hspells, .single hs⟩
  · rintro ⟨ts, hspells, hstep⟩
    cases hstep with
    | single hs =>
        have hhead : text.head? ≠ some '<' := by
          intro h
          rcases hs.mark_mem (hspells.mark_mem rfl (List.mem_of_head? h)) with h | h <;> cases h
        rw [if_neg hhead]
        exact map_eq_ok_iff.mpr ⟨_, parse_single_iff.mpr ⟨ts, hspells, hs⟩, rfl⟩
    | pair _ hs ht =>
        obtain ⟨external, internal, htext, -⟩ := spells_pair_iff.mp hspells
        have hhead : text.head? = some '<' := by rw [htext, List.head?_cons]
        rw [if_pos hhead]
        exact map_eq_ok_iff.mpr ⟨_, parse_pair_iff.mpr ⟨_, _, hspells, hs, ht⟩, rfl⟩

/-! ### Steps between slashes -/

/-- The marks that a step is made of. -/
theorem AnyStep.mark_mem {fixed : Bool} {ts : List TokenKind} {s : Step} {m : Mark}
    (h : AnyStep fixed ts s) (hm : .mark m ∈ ts) :
    m ∈ [Mark.star, .hardened, .openAngle, .semicolon, .closeAngle] := by
  have hsingle {fixed : Bool} {ts : List TokenKind} {s : SingleStep} (h : Single fixed ts s)
      (hm : .mark m ∈ ts) : m ∈ [Mark.star, .hardened, .openAngle, .semicolon, .closeAngle] := by
    rcases h.mark_mem hm with rfl | rfl <;> decide
  cases h with
  | single h => exact hsingle h hm
  | pair _ hs ht =>
      simp only [List.mem_cons, List.mem_append, TokenKind.mark.injEq, List.not_mem_nil,
        or_false] at hm
      rcases hm with rfl | hm | rfl | hm | rfl
      · decide
      · exact hsingle hs hm
      · decide
      · exact hsingle ht hm
      · decide

/-- Two texts side by side are cut apart at the first mark of a kind, as their tokens are. -/
theorem spells_of_append {a b : List Char} {us vs : List TokenKind} {c : Char} {m : Mark}
    (hmark : Mark.ofChar? c = some m) (hm : m ≠ .hardened) (ha : c ∉ a) (hb : ∀ d ∈ b.head?, d = c)
    (hus : .mark m ∉ us) (hvs : ∀ k ∈ vs.head?, k = .mark m) (h : Spells (a ++ b) (us ++ vs)) :
    Spells a us ∧ Spells b vs := by
  cases vs with
  | nil =>
      rw [List.append_nil] at h
      cases b with
      | nil => exact ⟨by rwa [List.append_nil] at h, .nil⟩
      | cons d b =>
          obtain rfl := hb d rfl
          exact absurd (h.mark_mem hmark (by simp)) hus
  | cons k vs =>
      obtain rfl := hvs k rfl
      obtain ⟨a', b', happend, ha', hb'⟩ := (Token.spells_append_mark_iff hmark hm).mp h
      have hnot : c ∉ a' := fun hc => hus (ha'.mark_mem hmark hc)
      cases b with
      | nil =>
          rw [List.append_nil] at happend
          exact absurd (happend ▸ by simp) ha
      | cons d b =>
          obtain rfl := hb d rfl
          have hsplit := congrArg (Text.splitFirst? d) happend
          rw [Text.splitFirst?_append ha, Text.splitFirst?_append hnot] at hsplit
          cases hsplit
          exact ⟨ha', hb'.mark hmark⟩

theorem head?_flatMap_slash (pieces : List (List Char)) :
    ∀ c ∈ (pieces.flatMap fun piece => '/' :: piece).head?, c = '/' := by
  cases pieces with
  | nil => exact nofun
  | cons => rintro _ ⟨⟩; rfl

theorem parseComponent_eq_ok_iff {s : Step} :
    Path.parseComponent text = .ok s ↔ Step.parse text = .ok s := by
  rw [Path.parseComponent]
  split
  · next hnil =>
    rw [hnil]
    constructor
    · rintro ⟨⟩
    · rintro ⟨⟩
  · rfl

/-- A text without slashes, with a slash in front and nothing or a slash behind, is the first of the
steps that the whole spells. -/
theorem exists_steps_cons_iff (s : Step) (steps : List Step) {piece rest : List Char}
    (hpiece : '/' ∉ piece) (hrest : ∀ c ∈ rest.head?, c = '/') :
    (∃ ts, Spells ('/' :: (piece ++ rest)) ts ∧ Steps false ts (s :: steps)) ↔
      (∃ us, Spells piece us ∧ AnyStep false us s) ∧
        ∃ vs, Spells rest vs ∧ Steps false vs steps := by
  constructor
  · rintro ⟨ts, hspells, hsteps⟩
    cases hsteps with
    | @cons us vs _ _ hs hsteps =>
        obtain ⟨_, ⟨⟩, hspells⟩ :=
          (Token.spells_cons_mark_iff (c := '/') rfl (by decide)).mp hspells
        have hus : .mark .slash ∉ us := fun hm => absurd (hs.mark_mem hm) (by decide)
        have hvs : ∀ k ∈ vs.head?, k = .mark .slash := by
          cases hsteps with
          | nil => exact nofun
          | cons => rintro _ ⟨⟩; rfl
        obtain ⟨hfirst, hlater⟩ := spells_of_append rfl (by decide) hpiece hrest hus hvs hspells
        exact ⟨⟨us, hfirst, hs⟩, vs, hlater, hsteps⟩
  · rintro ⟨⟨us, hus, hs⟩, vs, hvs, hsteps⟩
    have hbreaks : Breaks rest := by
      intro c hc
      rw [hrest c hc]
      rfl
    exact ⟨_, .mark rfl (hus.append hvs hbreaks), .cons hs hsteps⟩

/-- Texts without slashes are read as steps exactly if they spell these steps where slashes are put
in front of them. -/
theorem parse_components_iff {pieces : List (List Char)} {steps : List Step}
    (hpieces : ∀ piece ∈ pieces, '/' ∉ piece) :
    pieces.mapM Path.parseComponent = .ok steps ↔
      ∃ ts, Spells (pieces.flatMap fun piece => '/' :: piece) ts ∧ Steps false ts steps := by
  induction pieces generalizing steps with
  | nil =>
      rw [List.mapM_nil]
      constructor
      · rintro ⟨⟩
        exact ⟨[], .nil, .nil⟩
      · rintro ⟨ts, hspells, hsteps⟩
        obtain rfl : [] = ts := Spells.nil.unique hspells
        cases hsteps
        rfl
  | cons piece pieces ih =>
      obtain ⟨hpiece, hpieces⟩ := List.forall_mem_cons.mp hpieces
      have hcons (s : Step) (steps : List Step) :=
        exists_steps_cons_iff s steps hpiece (head?_flatMap_slash pieces)
      rw [List.mapM_cons, bind_eq_ok_iff, List.flatMap_cons]
      constructor
      · rintro ⟨s, hs, h⟩
        obtain ⟨steps, hsteps, ⟨⟩⟩ := bind_eq_ok_iff.mp h
        exact (hcons s steps).mpr ⟨parse_step_iff.mp (parseComponent_eq_ok_iff.mp hs),
          (ih hpieces).mp hsteps⟩
      · rintro ⟨ts, hspells, hsteps⟩
        cases steps with
        | nil => cases hsteps; cases hspells.eq_nil
        | cons s steps =>
            obtain ⟨hs, hsteps⟩ := (hcons s steps).mp ⟨ts, hspells, hsteps⟩
            refine ⟨s, parseComponent_eq_ok_iff.mpr (parse_step_iff.mpr hs), ?_⟩
            exact bind_eq_ok_iff.mpr ⟨steps, (ih hpieces).mpr hsteps, rfl⟩

/-- Steps that stand after a slash are not none. -/
theorem Steps.ne_nil {fixed : Bool} {ts : List TokenKind} {steps : List Step} {c : Char}
    (h : Steps fixed ts steps) (hspells : Spells (c :: text) ts) : steps ≠ [] := by
  rintro rfl
  cases h
  cases hspells.eq_nil

theorem Steps.mark_mem {fixed : Bool} {ts : List TokenKind} {steps : List Step} {m : Mark}
    (h : Steps fixed ts steps) (hm : .mark m ∈ ts) :
    m ∈ [Mark.slash, .star, .hardened, .openAngle, .semicolon, .closeAngle] := by
  induction h with
  | nil => cases hm
  | cons hs _ ih =>
      rcases List.mem_cons.mp hm with hslash | hm
      · cases hslash
        decide
      · rcases List.mem_append.mp hm with hm | hm
        · exact List.mem_cons_of_mem _ (hs.mark_mem hm)
        · exact ih hm

theorem anyStep_true_iff {ts : List TokenKind} {s : Step} :
    AnyStep true ts s ↔ AnyStep false ts s ∧ s.isFixed = true := by
  constructor
  · intro h
    cases h with
    | single h =>
        obtain ⟨h, hfixed⟩ := single_true_iff.mp h
        exact ⟨.single h, by simp [Step.isFixed, Step.isWildcard, Step.isPair, hfixed]⟩
    | pair loose => cases loose
  · rintro ⟨h, hfixed⟩
    cases h with
    | @single _ s h =>
        have hwildcard : s.isWildcard = false := by
          simpa [Step.isFixed, Step.isWildcard, Step.isPair] using hfixed
        exact .single (single_true_iff.mpr ⟨h, hwildcard⟩)
    | pair => simp [Step.isFixed, Step.isPair] at hfixed

theorem steps_true_iff {ts : List TokenKind} {steps : List Step} :
    Steps true ts steps ↔ Steps false ts steps ∧ steps.all Step.isFixed = true := by
  constructor
  · intro h
    induction h with
    | nil => exact ⟨.nil, rfl⟩
    | cons hs _ ih =>
        obtain ⟨hs, hfixed⟩ := anyStep_true_iff.mp hs
        exact ⟨.cons hs ih.1, by rw [List.all_cons, hfixed, ih.2]; rfl⟩
  · rintro ⟨h, hfixed⟩
    induction h with
    | nil => exact .nil
    | cons hs _ ih =>
        rw [List.all_cons, Bool.and_eq_true] at hfixed
        exact .cons (anyStep_true_iff.mpr ⟨hs, hfixed.1⟩) (ih hfixed.2)

end Grammar

end WalletExchange
