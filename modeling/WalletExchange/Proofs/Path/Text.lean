import WalletExchange.Path.Text
import WalletExchange.Proofs.Path.Codec
import WalletExchange.Proofs.Text

/-!
# Proofs — paths read back from text

Steps are written with decimal digits and five marks, none of which is a slash, a blank or the `m`
of a master key.  So the components of a path are found again, and the first of them is taken for a
fingerprint exactly if it is one: a first step with eight digits has `m/` in front of it.  A text
has no place for a recorded depth; all the rest comes back, provided that the steps are valid.

Main statements:

* `Step.parse_render_iff` — which steps are read back from their texts, and as what.
* `Path.parseTrimmed_render` — the components of a path are found again.
* `Path.ofString_toString_iff` — which paths are read back from their texts, and as what.
-/

namespace WalletExchange

/-! ### Steps -/

/-- Decimal digits are read as an index if it is below the bound. -/
theorem ChildIndex.parse_eq_ok_iff {text : List Char} {i : ChildIndex} :
    parse text = .ok i ↔ Decimal.read? text = some i.value.toNat ∧ i.InRange := by
  rw [parse]
  cases Decimal.read? text with
  | none => exact ⟨nofun, nofun⟩
  | some n =>
      dsimp only
      by_cases hn : n < UInt32.size
      · have hvalue : i.value = UInt32.ofNat n ↔ n = i.value.toNat := by
          rw [← UInt32.toNat_inj, UInt32.toNat_ofNat_of_lt' hn, eq_comm]
        rw [if_pos hn, Option.some.injEq, ← hvalue, ← ofUInt32?_eq_ok_iff, mapError_eq_ok_iff]
      · rw [if_neg hn]
        refine ⟨nofun, ?_⟩
        rintro ⟨⟨⟩, -⟩
        exact absurd i.value.toNat_lt hn

theorem ChildIndex.parse_render_iff {i j : ChildIndex} :
    parse i.render = .ok j ↔ i.InRange ∧ j = i := by
  have heq : i.value.toNat = j.value.toNat ↔ j = i := by
    rw [UInt32.toNat_inj]
    cases i
    cases j
    simp [eq_comm]
  rw [parse_eq_ok_iff, render, Decimal.read?_render, Option.some.injEq, heq]
  constructor
  · rintro ⟨rfl, hrange⟩
    exact ⟨hrange, rfl⟩
  · rintro ⟨hrange, rfl⟩
    exact ⟨rfl, hrange⟩

namespace IndexSpec

variable {s t : IndexSpec} {c : Char}

theorem parse_eq_wildcard_iff {text : List Char} : parse text = .ok .wildcard ↔ text = ['*'] := by
  rw [parse]
  split
  · next htext => simp [htext]
  · next htext => simp [htext, map_eq_ok_iff]

theorem parse_eq_index_iff {text : List Char} {i : ChildIndex} :
    parse text = .ok (.index i) ↔ Decimal.read? text = some i.value.toNat ∧ i.InRange := by
  rw [parse]
  split
  · next htext =>
    rw [htext]
    exact ⟨nofun, nofun⟩
  · simp [map_eq_ok_iff, ChildIndex.parse_eq_ok_iff]

/-- An index or a wildcard is written with digits or an asterisk. -/
theorem isDigit_or_of_parse {text : List Char} (h : parse text = .ok s) :
    ∀ c ∈ text, c.isDigit = true ∨ c = '*' := by
  cases s with
  | wildcard =>
      rw [parse_eq_wildcard_iff.mp h]
      exact List.forall_mem_singleton.mpr (.inr rfl)
  | index i =>
      obtain ⟨-, hdigits, -⟩ := Decimal.read?_eq_some_iff.mp (parse_eq_index_iff.mp h).1
      exact fun c hc => .inl (List.all_eq_true.mp hdigits c hc)

theorem isDigit_or_of_mem_render (h : c ∈ s.render) : c.isDigit = true ∨ c = '*' := by
  cases s with
  | index i => exact .inl (Decimal.isDigit_of_mem_render h)
  | wildcard => exact .inr (List.mem_singleton.mp h)

theorem render_ne_nil (s : IndexSpec) : s.render ≠ [] := by
  cases s with
  | index i => exact Decimal.render_ne_nil _
  | wildcard => exact List.cons_ne_nil _ _

theorem parse_render_iff : parse s.render = .ok t ↔ s.InRange ∧ t = s := by
  cases s with
  | wildcard => simp [render, parse, InRange, eq_comm]
  | index i =>
      have hne : i.render ≠ ['*'] := by
        intro h
        have hdigit := Decimal.isDigit_of_mem_render (n := i.value.toNat) (c := '*')
          (by rw [← ChildIndex.render, h]; exact List.mem_singleton.mpr rfl)
        exact absurd hdigit (by decide)
      rw [render, parse, if_neg hne]
      exact map_eq_ok_iff_of_unique ChildIndex.parse_render_iff

end IndexSpec

namespace SingleStep

variable {s t : SingleStep} {c : Char}

theorem isDigit_or_of_mem_render (h : c ∈ s.render) :
    c.isDigit = true ∨ c = '*' ∨ c = '\'' := by
  rw [render, List.mem_append] at h
  rcases h with hspec | hmark
  · exact (IndexSpec.isDigit_or_of_mem_render hspec).imp_right .inl
  · split at hmark
    · exact .inr (.inr (List.mem_singleton.mp hmark))
    · exact absurd hmark List.not_mem_nil

theorem parse_render_iff : parse s.render = .ok t ↔ s.spec.InRange ∧ t = s := by
  obtain ⟨spec, isHardened⟩ := s
  have hparse : parse (SingleStep.render ⟨spec, isHardened⟩) =
      (IndexSpec.parse spec.render).map fun r => ⟨r, isHardened⟩ := by
    cases isHardened with
    | true =>
        rw [parse, render, if_pos rfl, Text.beforeLast?_append (by decide)]
    | false =>
        have hunmarked : ∀ c ∈ spec.render, isHardenedMark c = false := by
          intro c hc
          rcases IndexSpec.isDigit_or_of_mem_render hc with hdigit | rfl
          · exact Decimal.of_isDigit (P := fun c => isHardenedMark c = false) (by decide) hdigit
          · decide
        rw [parse, render, if_neg Bool.false_ne_true, List.append_nil,
          Text.beforeLast?_eq_none hunmarked]
  rw [hparse]
  exact map_eq_ok_iff_of_unique IndexSpec.parse_render_iff

end SingleStep

theorem PairStep.parse_render_iff {p q : PairStep} :
    parse p.render = .ok q ↔ (Step.pair p).Valid ∧ q = p := by
  have hseparator : ';' ∉ p.external.render := by
    intro h
    rcases SingleStep.isDigit_or_of_mem_render h with hdigit | heq | heq
    · exact absurd hdigit (by decide)
    · exact absurd heq (by decide)
    · exact absurd heq (by decide)
  have hinside : inside? p.render = some (p.external.render ++ ';' :: p.internal.render) := by
    have hrender : p.render = '<' :: (p.external.render ++ ';' :: p.internal.render ++ ['>']) := by
      simp [render]
    rw [hrender, inside?, Text.beforeLast?_append (by decide)]
  have hparse : parse p.render = (SingleStep.parse p.external.render >>= fun external =>
      SingleStep.parse p.internal.render >>= fun internal => ofSteps? external internal) := by
    rw [parse, hinside, Option.bind_some, Text.splitFirst?_append hseparator]
  rw [hparse, bind_eq_ok_iff]
  constructor
  · rintro ⟨external, hexternal, h⟩
    obtain ⟨internal, hinternal, h⟩ := bind_eq_ok_iff.mp h
    obtain ⟨hrange, rfl⟩ := SingleStep.parse_render_iff.mp hexternal
    obtain ⟨hrange', rfl⟩ := SingleStep.parse_render_iff.mp hinternal
    obtain ⟨hfixed, hfixed', rfl⟩ := ofSteps?_eq_ok_iff.mp h
    exact ⟨⟨⟨hrange, hrange'⟩, hfixed, hfixed'⟩, rfl⟩
  · rintro ⟨⟨⟨hrange, hrange'⟩, hfixed, hfixed'⟩, rfl⟩
    refine ⟨_, SingleStep.parse_render_iff.mpr ⟨hrange, rfl⟩, ?_⟩
    refine bind_eq_ok_iff.mpr ⟨_, SingleStep.parse_render_iff.mpr ⟨hrange', rfl⟩, ?_⟩
    exact ofSteps?_eq_ok_iff.mpr ⟨hfixed, hfixed', rfl⟩

namespace Step

variable {s t : Step} {c : Char}

/-- The marks that steps are written with. -/
def marks : List Char := ['*', '\'', '<', ';', '>']

theorem isDigit_or_mem_marks (h : c ∈ s.render) : c.isDigit = true ∨ c ∈ marks := by
  have hsingle : ∀ {s : SingleStep}, c ∈ s.render → c.isDigit = true ∨ c ∈ marks := by
    intro s h
    rcases SingleStep.isDigit_or_of_mem_render h with hdigit | rfl | rfl
    · exact .inl hdigit
    · exact .inr (by decide)
    · exact .inr (by decide)
  cases s with
  | single s => exact hsingle h
  | pair p =>
      simp only [render, PairStep.render, List.cons_append, List.mem_cons, List.mem_append,
        List.not_mem_nil, or_false] at h
      rcases h with rfl | (hexternal | rfl | hinternal) | rfl
      · exact .inr (by decide)
      · exact hsingle hexternal
      · exact .inr (by decide)
      · exact hsingle hinternal
      · exact .inr (by decide)

theorem render_ne_nil (s : Step) : s.render ≠ [] := by
  cases s with
  | single s => exact fun h => s.spec.render_ne_nil (List.append_eq_nil_iff.mp h).1
  | pair p => exact List.cons_ne_nil _ _

/-- Which steps are read back from their texts, and as what. -/
theorem parse_render_iff : parse s.render = .ok t ↔ s.Valid ∧ t = s := by
  cases s with
  | single s =>
      have hhead : s.render.head? ≠ some '<' := by
        intro h
        rcases SingleStep.isDigit_or_of_mem_render (List.mem_of_head? h) with hdigit | heq | heq
        · exact absurd hdigit (by decide)
        · exact absurd heq (by decide)
        · exact absurd heq (by decide)
      rw [render, parse, if_neg hhead, valid_single_iff]
      exact map_eq_ok_iff_of_unique SingleStep.parse_render_iff
  | pair p =>
      have hhead : p.render.head? = some '<' := rfl
      rw [render, parse, if_pos hhead]
      exact map_eq_ok_iff_of_unique PairStep.parse_render_iff

/-- No step is written with a slash, an `m` or a blank. -/
theorem ordinary_of_mem_render (h : c ∈ s.render) :
    c ≠ '/' ∧ c ≠ 'm' ∧ Text.isBlank c = false := by
  rcases isDigit_or_mem_marks h with hdigit | hmark
  · exact Decimal.of_isDigit (P := fun c => c ≠ '/' ∧ c ≠ 'm' ∧ Text.isBlank c = false)
      (by decide) hdigit
  · have hall : marks.all (fun c => c ≠ '/' ∧ c ≠ 'm' ∧ Text.isBlank c = false) = true := by decide
    exact of_decide_eq_true (List.all_eq_true.mp hall c hmark)

end Step

/-! ### Components -/

theorem ordinary_of_mem_renderFingerprint {f : Fingerprint} :
    ∀ c ∈ renderFingerprint f, c ≠ '/' ∧ c ≠ 'm' ∧ Text.isBlank c = false :=
  Hex.of_mem_encode (by decide)

theorem renderFingerprint_ne_nil (f : Fingerprint) : renderFingerprint f ≠ [] := by
  intro h
  have hlength := congrArg List.length h
  rw [renderFingerprint, Hex.length_encode, Bytes.length_ofNat] at hlength
  cases hlength

theorem parseFingerprint?_renderFingerprint (f : Fingerprint) :
    parseFingerprint? (renderFingerprint f) = some f := by
  have hlooks : looksLikeFingerprint (renderFingerprint f) = true := by
    rw [looksLikeFingerprint, renderFingerprint, Hex.length_encode, Bytes.length_ofNat,
      List.all_eq_true.mpr Hex.isDigit_of_mem_encode]
    rfl
  rw [parseFingerprint?, if_pos hlooks, renderFingerprint, Hex.decode?_encode, Option.map_some,
    Bytes.toNat_ofNat (show f.toNat < Bytes.capacity 4 from f.toNat_lt), UInt32.ofNat_toNat]

namespace Path

/-- What stands between the slashes in the text of a path. -/
def components (p : Path) : List (List Char) :=
  p.fingerprint.toList.map renderFingerprint ++ p.steps.map Step.render

theorem ordinary_of_mem_components {p : Path} {piece : List Char} (h : piece ∈ p.components) :
    piece ≠ [] ∧ ∀ c ∈ piece, c ≠ '/' ∧ c ≠ 'm' ∧ Text.isBlank c = false := by
  rw [components, List.mem_append, List.mem_map, List.mem_map] at h
  rcases h with ⟨f, -, rfl⟩ | ⟨s, -, rfl⟩
  · exact ⟨renderFingerprint_ne_nil f, ordinary_of_mem_renderFingerprint⟩
  · exact ⟨s.render_ne_nil, fun _ => Step.ordinary_of_mem_render⟩

theorem splitOn_components {p : Path} (h : p.components ≠ []) :
    (Text.join '/' p.components).splitOn '/' = p.components :=
  Text.splitOn_join h fun _ hpiece hslash =>
    ((ordinary_of_mem_components hpiece).2 _ hslash).1 rfl

/-- A text that begins with no `m` begins with a component. -/
theorem parseTrimmed_join {p : Path} (h : p.components ≠ []) :
    parseTrimmed (Text.join '/' p.components) =
      (p.components.head?.bind parseFingerprint?).elim (parseSteps none p.components)
        fun fingerprint => parseSteps (some fingerprint) p.components.tail := by
  obtain ⟨c, text, htext, hc⟩ : ∃ c text, Text.join '/' p.components = c :: text ∧ c ≠ 'm' := by
    obtain ⟨first, rest, hcomponents⟩ := List.exists_cons_of_ne_nil h
    obtain ⟨hne, hfirst⟩ :=
      ordinary_of_mem_components (p := p) (hcomponents ▸ List.mem_cons_self)
    obtain ⟨c, tail, rfl⟩ := List.exists_cons_of_ne_nil hne
    rw [hcomponents, Text.join_cons]
    exact ⟨c, _, rfl, (hfirst c List.mem_cons_self).2.1⟩
  have hspecial : ¬ (Text.join '/' p.components = [] ∨ Text.join '/' p.components = ['m']) := by
    rw [htext]
    rintro (hnil | hmaster)
    · exact absurd hnil (List.cons_ne_nil _ _)
    · exact hc (List.cons.inj hmaster).1
  have hafter : Text.afterHead? ['m', '/'] (Text.join '/' p.components) = none := by
    rw [htext, Text.afterHead?, if_neg]
    simp [List.isPrefixOf, Ne.symm hc]
  rw [parseTrimmed, if_neg hspecial, hafter]
  simp only [splitOn_components h]
  cases p.components.head?.bind parseFingerprint? with
  | none => rfl
  | some fingerprint => rfl

/-- The components of a path are found again. -/
theorem parseTrimmed_render (p : Path) :
    parseTrimmed p.render = parseSteps p.fingerprint (p.steps.map Step.render) := by
  obtain ⟨fingerprint, steps, explicitDepth⟩ := p
  cases fingerprint with
  | some f =>
      let p : Path := ⟨some f, steps, explicitDepth⟩
      have hne : p.components ≠ [] := List.cons_ne_nil _ _
      have hhead : p.components.head?.bind parseFingerprint? = some f :=
        parseFingerprint?_renderFingerprint f
      change parseTrimmed (Text.join '/' p.components) = _
      rw [parseTrimmed_join hne, hhead, Option.elim_some]
      rfl
  | none =>
      cases steps with
      | nil => rfl
      | cons first rest =>
          let p : Path := ⟨none, first :: rest, explicitDepth⟩
          have hne : p.components ≠ [] := List.cons_ne_nil _ _
          have hrender : p.render =
              (if looksLikeFingerprint first.render then ['m', '/'] else []) ++
                Text.join '/' p.components := rfl
          change parseTrimmed p.render = parseSteps none p.components
          by_cases hlooks : looksLikeFingerprint first.render
          · rw [hrender, if_pos hlooks, parseTrimmed, if_neg (by simp), Text.afterHead?_append]
            simp only [splitOn_components hne]
          · have hhead : p.components.head?.bind parseFingerprint? = none := if_neg hlooks
            rw [hrender, if_neg hlooks, List.nil_append, parseTrimmed_join hne, hhead,
              Option.elim_none]

/-- What may stand in front of the components. -/
theorem exists_render_eq (p : Path) :
    ∃ head, (∀ c ∈ head, c = 'm' ∨ c = '/') ∧ p.render = head ++ Text.join '/' p.components := by
  obtain ⟨fingerprint, steps, explicitDepth⟩ := p
  cases fingerprint with
  | some f => exact ⟨[], by simp, rfl⟩
  | none =>
      cases steps with
      | nil => exact ⟨['m'], by simp, rfl⟩
      | cons first rest =>
          refine ⟨if looksLikeFingerprint first.render then ['m', '/'] else [], ?_, rfl⟩
          split
          · simp
          · simp

theorem isBlank_of_mem_render {p : Path} : ∀ c ∈ p.render, Text.isBlank c = false := by
  intro c hc
  obtain ⟨head, hhead, hrender⟩ := p.exists_render_eq
  rw [hrender, List.mem_append] at hc
  rcases hc with hc | hc
  · rcases hhead c hc with rfl | rfl
    · decide
    · decide
  · rcases Text.mem_join hc with rfl | ⟨piece, hpiece, hc⟩
    · decide
    · exact ((ordinary_of_mem_components hpiece).2 c hc).2.2

/-! ### Paths -/

theorem mapM_parseComponent_render_iff {steps ts : List Step} :
    (steps.map Step.render).mapM parseComponent = .ok ts ↔
      (∀ s ∈ steps, s.Valid) ∧ ts = steps := by
  induction steps generalizing ts with
  | nil => simp [eq_comm, pure, Except.pure]
  | cons s steps ih =>
      rw [List.map_cons, List.mapM_cons, parseComponent, if_neg s.render_ne_nil, bind_eq_ok_iff,
        List.forall_mem_cons]
      constructor
      · rintro ⟨t, ht, h⟩
        obtain ⟨us, hus, ⟨⟩⟩ := bind_eq_ok_iff.mp h
        obtain ⟨hvalid, rfl⟩ := Step.parse_render_iff.mp ht
        obtain ⟨hall, rfl⟩ := ih.mp hus
        exact ⟨⟨hvalid, hall⟩, rfl⟩
      · rintro ⟨⟨hvalid, hall⟩, rfl⟩
        refine ⟨s, Step.parse_render_iff.mpr ⟨hvalid, rfl⟩, ?_⟩
        exact bind_eq_ok_iff.mpr ⟨steps, ih.mpr ⟨hall, rfl⟩, rfl⟩

theorem parseSteps_render_iff {fingerprint : Option Fingerprint} {steps : List Step} {q : Path} :
    parseSteps fingerprint (steps.map Step.render) = .ok q ↔
      (∀ s ∈ steps, s.Valid) ∧ ChildSteps steps ∧ q = ⟨fingerprint, steps, none⟩ := by
  rw [parseSteps, bind_eq_ok_iff]
  constructor
  · rintro ⟨ts, hts, h⟩
    obtain ⟨hvalid, rfl⟩ := mapM_parseComponent_render_iff.mp hts
    obtain ⟨_, hcheck, ⟨⟩⟩ := bind_eq_ok_iff.mp h
    exact ⟨hvalid, checkSteps_lastStepWildcard_iff.mp hcheck, rfl⟩
  · rintro ⟨hvalid, hchildren, rfl⟩
    refine ⟨steps, mapM_parseComponent_render_iff.mpr ⟨hvalid, rfl⟩, ?_⟩
    rw [checkSteps_lastStepWildcard_iff.mpr hchildren]
    rfl

theorem parse_render_iff {p q : Path} :
    parse p.render = .ok q ↔ p.Valid ∧ q = { p with explicitDepth := none } := by
  rw [parse, Text.trim_eq_self isBlank_of_mem_render, parseTrimmed_render, parseSteps_render_iff]
  exact ⟨fun ⟨hvalid, hchildren, h⟩ => ⟨⟨hvalid, hchildren⟩, h⟩,
    fun ⟨⟨hvalid, hchildren⟩, h⟩ => ⟨hvalid, hchildren, h⟩⟩

/-- Which paths are read back from their texts, and as what: the steps pass the check, indexes are
below the bound, pairs have fixed branches, and nothing is lost but a recorded depth. -/
theorem ofString_toString_iff {p q : Path} :
    ofString (toString p) = .ok q ↔
      p.check .lastStepWildcard = .ok () ∧ (∀ s ∈ p.steps, s.InRange) ∧
        (∀ s ∈ p.steps, s.FixedBranches) ∧ q = { p with explicitDepth := none } := by
  have htext : (toString p).toList = p.render := String.toList_ofList
  rw [ofString, htext, parse_render_iff, valid_iff, and_assoc, and_assoc]

/-- Without fixed branches the text of a path is not read, though the path passes the check, has no
recorded depth and its indexes are below the bound. -/
theorem not_ofString_toString :
    ofRecord? wildcardBranch.toRecord = some wildcardBranch ∧
    wildcardBranch.explicitDepth = none ∧ wildcardBranch.check .lastStepWildcard = .ok () ∧
    (∀ s ∈ wildcardBranch.steps, s.InRange) ∧ toString wildcardBranch = "<*;1>" ∧
    ofString (toString wildcardBranch) = .error .wildcardInPair := by
  have hparse : parse wildcardBranch.render = .error .wildcardInPair := rfl
  have htext : (toString wildcardBranch).toList = wildcardBranch.render := String.toList_ofList
  refine ⟨ofRecord?_wildcardBranch, rfl, rfl, by decide, by decide, ?_⟩
  rw [ofString, htext, hparse]

-- a first step that looks like a fingerprint has an `m` in front of it
example : (ofSteps [.single (.normal ⟨12345678⟩)]).render = "m/12345678".toList := by decide

end Path

end WalletExchange
