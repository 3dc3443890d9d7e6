import WalletExchange.Path.Template
import WalletExchange.Proofs.Path.Text

/-!
# Proofs — texts that are both a path and a template

Steps behind `m/` can be read as a path and as a template, by readers that know nothing of each
other.  Where no component is a placeholder or a pair and a wildcard comes only last, both find the
same steps, and as a pattern the path admits what the template admits.  There is one letter on which
they do not agree: for a path a capital `H` is a mark of hardening as well, and no template has a
component that ends with it.

Main statements:

* `TemplateStep.parse_eq_map`, `TemplateStep.parse_ne_ok_of_capital` — a component as a step of a
  template and as a step of a path.
* `PathTemplate.ofString_agrees_with_path` — when the whole text is a template, and what it admits.
* `PathTemplate.not_ofString_of_capital` — a path that is no template.
-/

namespace WalletExchange

variable {c text : List Char}

/-! ### Components -/

/-- The same place in a template. -/
def TemplateIndex.ofSpec : IndexSpec → TemplateIndex
  | .index i => .fixed i
  | .wildcard => .wildcard

theorem TemplateIndex.parse_eq_map (hcoinType : text ≠ coinTypeName)
    (haccount : text ≠ accountName) :
    parse text = (IndexSpec.parse text).map ofSpec := by
  rw [parse, if_neg hcoinType, if_neg haccount, IndexSpec.parse]
  split
  · rfl
  · cases ChildIndex.parse text <;> rfl

namespace SingleStep

variable {s : SingleStep}

/-- The text of a step is that of its index or wildcard, with or without a mark behind it. -/
theorem exists_of_parse (h : parse text = .ok s) :
    ∃ spec, IndexSpec.parse spec = .ok s.spec ∧
      (text = spec ∨ ∃ mark, isHardenedMark mark = true ∧ text = spec ++ [mark]) := by
  rw [parse] at h
  split at h
  · next spec hmark =>
    obtain ⟨mark, htext, hmark⟩ := Text.beforeLast?_eq_some_iff.mp hmark
    obtain ⟨_, hspec, rfl⟩ := map_eq_ok_iff.mp h
    exact ⟨spec, hspec, .inr ⟨mark, hmark, htext⟩⟩
  · obtain ⟨_, hspec, rfl⟩ := map_eq_ok_iff.mp h
    exact ⟨text, hspec, .inl rfl⟩

theorem not_openAngle_of_parse (h : parse text = .ok s) : '<' ∉ text := by
  obtain ⟨spec, hspec, htext⟩ := exists_of_parse h
  have hnotMem : '<' ∉ spec := by
    intro hmem
    rcases IndexSpec.isDigit_or_of_parse hspec _ hmem with hdigit | hstar
    · exact absurd hdigit (by decide)
    · exact absurd hstar (by decide)
  rcases htext with rfl | ⟨mark, hmark, rfl⟩
  · exact hnotMem
  · intro hmem
    rcases List.mem_append.mp hmem with hmem | hmem
    · exact hnotMem hmem
    · obtain rfl := List.mem_singleton.mp hmem
      exact absurd hmark (by decide)

end SingleStep

namespace TemplateStep

/-- The same step in a template. -/
def ofSingle (s : SingleStep) : TemplateStep := ⟨.ofSpec s.spec, s.isHardened⟩

/-- The component is a name, or a name and a mark of hardening. -/
def Names (name component : List Char) : Prop :=
  component = name ∨ component = name ++ ['\''] ∨ component = name ++ ['h']

instance (name : List Char) : DecidablePred (Names name) :=
  fun _ => inferInstanceAs (Decidable (_ ∨ _))

theorem names_append {name : List Char} {mark : Char} (h : isHardenedMark mark = true) :
    Names name (name ++ [mark]) := by
  rw [isHardenedMark, Bool.or_eq_true, decide_eq_true_eq, decide_eq_true_eq] at h
  rcases h with rfl | rfl
  · exact .inr (.inl rfl)
  · exact .inr (.inr rfl)

/-- Templates and paths know the same marks but for the capital letter. -/
theorem beforeLast?_eq (h : c.getLast? ≠ some 'H') :
    Text.beforeLast? isHardenedMark c = Text.beforeLast? SingleStep.isHardenedMark c := by
  rw [Text.beforeLast?, Text.beforeLast?]
  cases hlast : c.getLast? with
  | none => rfl
  | some x =>
      have hx : x ≠ 'H' := fun hx => h (hx ▸ hlast)
      have htest : isHardenedMark x = SingleStep.isHardenedMark x := by
        simp [isHardenedMark, SingleStep.isHardenedMark, hx]
      simp only [htest]

/-- A component that is no placeholder is read as the step that it is in a path. -/
theorem parse_eq_map (hcoinType : ¬ Names TemplateIndex.coinTypeName c)
    (haccount : ¬ Names TemplateIndex.accountName c) (hcapital : c.getLast? ≠ some 'H') :
    parse c = (SingleStep.parse c).map ofSingle := by
  have hmarks := beforeLast?_eq hcapital
  rw [parse, SingleStep.parse, ← hmarks]
  cases hbefore : Text.beforeLast? isHardenedMark c with
  | none =>
      have hindex :=
        TemplateIndex.parse_eq_map (fun h => hcoinType (.inl h)) fun h => haccount (.inl h)
      rw [hindex]
      cases IndexSpec.parse c <;> rfl
  | some index =>
      obtain ⟨mark, rfl, hmark⟩ := Text.beforeLast?_eq_some_iff.mp hbefore
      have hindex : TemplateIndex.parse index = (IndexSpec.parse index).map .ofSpec :=
        TemplateIndex.parse_eq_map (fun h => hcoinType (h ▸ names_append hmark))
          fun h => haccount (h ▸ names_append hmark)
      dsimp only
      rw [hindex]
      cases IndexSpec.parse index <;> rfl

/-- No step of a template ends with the capital letter. -/
theorem parse_ne_ok_of_capital {s : TemplateStep} (h : c.getLast? = some 'H') :
    parse c ≠ .ok s := by
  have hbefore : Text.beforeLast? isHardenedMark c = none := by
    rw [Text.beforeLast?, h]
    rfl
  have hcoinType : c ≠ TemplateIndex.coinTypeName := by
    rintro rfl
    exact absurd h (by decide)
  have haccount : c ≠ TemplateIndex.accountName := by
    rintro rfl
    exact absurd h (by decide)
  rw [parse, hbefore, TemplateIndex.parse_eq_map hcoinType haccount]
  intro hok
  obtain ⟨_, hindex, -⟩ := map_eq_ok_iff.mp hok
  obtain ⟨spec, hspec, -⟩ := map_eq_ok_iff.mp hindex
  rcases IndexSpec.isDigit_or_of_parse hspec 'H' (List.mem_of_getLast? h) with hdigit | hstar
  · exact absurd hdigit (by decide)
  · exact absurd hstar (by decide)

/-- A wildcard is written as one, in the marks of templates if there is no capital letter. -/
theorem names_of_isWildcard {s : SingleStep} (h : SingleStep.parse c = .ok s)
    (hwildcard : s.isWildcard = true) (hcapital : c.getLast? ≠ some 'H') : Names ['*'] c := by
  obtain ⟨spec, hspec, htext⟩ := SingleStep.exists_of_parse h
  obtain ⟨_ | _, isHardened⟩ := s
  · cases hwildcard
  · obtain rfl := IndexSpec.parse_eq_wildcard_iff.mp hspec
    rcases htext with rfl | ⟨mark, hmark, rfl⟩
    · exact .inl rfl
    · have hne : mark ≠ 'H' := by simpa using hcapital
      refine names_append ?_
      simpa [isHardenedMark, SingleStep.isHardenedMark, hne] using hmark

/-- A step of a path admits what it admits as a step of a template. -/
theorem admits_ofSingle (s : SingleStep) (step : Step) :
    (ofSingle s).admits step = Path.stepAdmits (.single s) step := by
  obtain ⟨spec, isHardened⟩ := s
  match spec, step with
  | _, .pair _ => rfl
  | .index _, .single ⟨.wildcard, _⟩ | .wildcard, .single ⟨.wildcard, _⟩ =>
      exact (Bool.and_false _).symm
  | .index i, .single ⟨.index j, isHardened'⟩ =>
      change (isHardened' == isHardened && j == i) = (isHardened == isHardened' && i == j)
      rw [Bool.beq_comm, BEq.comm (a := j)]
  | .wildcard, .single ⟨.index j, isHardened'⟩ =>
      change (isHardened' == isHardened && true) = (isHardened == isHardened' && true)
      rw [Bool.beq_comm]

end TemplateStep

/-- A component that is no pair is read as a single step. -/
theorem Path.parseComponent_eq_ok_iff {step : Step} (hne : c ≠ [])
    (hpair : ∀ p, PairStep.parse c ≠ .ok p) :
    parseComponent c = .ok step ↔ ∃ s, SingleStep.parse c = .ok s ∧ step = .single s := by
  rw [parseComponent, if_neg hne, Step.parse]
  split
  · next hhead =>
    refine iff_of_false (fun h => ?_) ?_
    · obtain ⟨p, hp, -⟩ := map_eq_ok_iff.mp h
      exact hpair p hp
    · rintro ⟨s, hs, -⟩
      exact SingleStep.not_openAngle_of_parse hs (List.mem_of_head? hhead)
  · rw [map_eq_ok_iff]
    exact exists_congr fun s => and_congr_right fun _ => eq_comm

/-! ### Texts -/

namespace PathTemplate

open TemplateStep (Names)

variable {components : List (List Char)}

/-- Components that may be those of a path and of a template: none of them is empty, a placeholder
or a pair, and a wildcard comes only last. -/
structure Common (components : List (List Char)) : Prop where
  ne_nil : components ≠ []
  component_ne_nil : ∀ c ∈ components, c ≠ []
  slash_notMem : ∀ c ∈ components, '/' ∉ c
  no_placeholder : ∀ c ∈ components,
    ¬ Names TemplateIndex.coinTypeName c ∧ ¬ Names TemplateIndex.accountName c
  no_pair : ∀ c ∈ components, ∀ p, PairStep.parse c ≠ .ok p
  wildcard_last : ∀ c ∈ components.dropLast, ¬ Names ['*'] c

instance {α ε : Type} (x : Except ε α) : Decidable (∀ a, x ≠ .ok a) :=
  match x with
  | .ok a => isFalse fun h => h a rfl
  | .error _ => isTrue nofun

instance : DecidablePred Common := fun _ =>
  decidable_of_iff (_ ∧ _ ∧ _ ∧ _ ∧ _ ∧ _)
    ⟨fun h => ⟨h.1, h.2.1, h.2.2.1, h.2.2.2.1, h.2.2.2.2.1, h.2.2.2.2.2⟩,
      fun h => ⟨h.1, h.2, h.3, h.4, h.5, h.6⟩⟩

/-- No component ends with the capital letter. -/
def Uncapitalised (components : List (List Char)) : Prop := ∀ c ∈ components, c.getLast? ≠ some 'H'

theorem mapM_parseComponent_eq_ok_iff (h : Common components) {steps : List TemplateStep} :
    components.mapM parseComponent = .ok steps ↔ Uncapitalised components ∧
      ∃ ss, components.mapM SingleStep.parse = .ok ss ∧ steps = ss.map .ofSingle := by
  have hstep : ∀ c ∈ components, c.getLast? ≠ some 'H' →
      parseComponent c = (SingleStep.parse c).map .ofSingle := by
    intro c hc hcapital
    obtain ⟨hcoinType, haccount⟩ := h.no_placeholder c hc
    rw [parseComponent, if_neg (h.component_ne_nil c hc),
      TemplateStep.parse_eq_map hcoinType haccount hcapital]
  have hmap : Uncapitalised components → (components.mapM parseComponent = .ok steps ↔
      ∃ ss, components.mapM SingleStep.parse = .ok ss ∧ steps = ss.map .ofSingle) := by
    intro hcapital
    refine mapM_eq_ok_iff_map fun c hc s => ?_
    rw [hstep c hc (hcapital c hc), map_eq_ok_iff]
    exact exists_congr fun s => and_congr_right fun _ => eq_comm
  have hcapital : components.mapM parseComponent = .ok steps → Uncapitalised components := by
    intro hsteps c hc hcapital
    obtain ⟨s, hs⟩ := exists_mapM_eq_ok_iff.mp ⟨steps, hsteps⟩ c hc
    rw [parseComponent, if_neg (h.component_ne_nil c hc)] at hs
    exact TemplateStep.parse_ne_ok_of_capital hcapital hs
  exact ⟨fun hsteps => ⟨hcapital hsteps, (hmap (hcapital hsteps)).mp hsteps⟩,
    fun ⟨hcapital, hsteps⟩ => (hmap hcapital).mpr hsteps⟩

theorem mapM_parseComponent_path_eq_ok_iff (h : Common components) {steps : List Step} :
    components.mapM Path.parseComponent = .ok steps ↔
      ∃ ss, components.mapM SingleStep.parse = .ok ss ∧ steps = ss.map .single :=
  mapM_eq_ok_iff_map fun c hc _ =>
    Path.parseComponent_eq_ok_iff (h.component_ne_nil c hc) (h.no_pair c hc)

/-- Without capital letters the steps are valid below a key. -/
theorem childSteps_of_common (h : Common components) (hcapital : Uncapitalised components)
    {ss : List SingleStep} (hss : components.mapM SingleStep.parse = .ok ss) :
    Path.ChildSteps (ss.map Step.single) where
  wildcard_last := by
    rw [← List.map_dropLast]
    intro step hstep
    obtain ⟨s, hs, rfl⟩ := List.mem_map.mp hstep
    have hdropLast : components.dropLast.map SingleStep.parse = ss.dropLast.map .ok := by
      rw [List.map_dropLast, List.map_dropLast, mapM_eq_ok_iff.mp hss]
    have hmem : Except.ok s ∈ components.dropLast.map SingleStep.parse :=
      hdropLast ▸ List.mem_map_of_mem hs
    obtain ⟨c, hc, hparse⟩ := List.mem_map.mp hmem
    refine Bool.eq_false_iff.mpr fun hwildcard => h.wildcard_last c hc ?_
    exact TemplateStep.names_of_isWildcard hparse hwildcard
      (hcapital c ((List.dropLast_sublist _).subset hc))
  one_pair := by
    have hnone : (ss.map Step.single).countP Step.isPair = 0 := by
      rw [List.countP_eq_zero]
      intro s hs
      obtain ⟨s, -, rfl⟩ := List.mem_map.mp hs
      exact Bool.false_ne_true
    omega

section Text

variable {text : String} (h : Common components)
  (htext : text.toList = ['m', '/'] ++ Text.join '/' components)

include h htext

theorem ofString_eq_ok_iff {t : PathTemplate} :
    ofString text = .ok t ↔ Uncapitalised components ∧
      ∃ ss, components.mapM SingleStep.parse = .ok ss ∧ t = ⟨ss.map .ofSingle⟩ := by
  have hsplit := Text.splitOn_join h.ne_nil h.slash_notMem
  have hjoin : Text.join '/' components ≠ [] := by
    intro hnil
    rw [hnil, List.splitOn_nil] at hsplit
    exact h.component_ne_nil [] (hsplit ▸ List.mem_singleton.mpr rfl) rfl
  rw [ofString, htext, parse, Text.afterHead?_append, Option.getD_some, if_neg hjoin, hsplit,
    bind_eq_ok_iff]
  constructor
  · rintro ⟨steps, hsteps, ⟨⟩⟩
    obtain ⟨hcapital, ss, hss, rfl⟩ := (mapM_parseComponent_eq_ok_iff h).mp hsteps
    exact ⟨hcapital, ss, hss, rfl⟩
  · rintro ⟨hcapital, ss, hss, rfl⟩
    exact ⟨_, (mapM_parseComponent_eq_ok_iff h).mpr ⟨hcapital, ss, hss, rfl⟩, rfl⟩

theorem ofString_path_eq_ok_iff (hblank : Text.trim text.toList = text.toList) {p : Path} :
    Path.ofString text = .ok p ↔ ∃ ss, components.mapM SingleStep.parse = .ok ss ∧
      Path.ChildSteps (ss.map .single) ∧ p = .ofSteps (ss.map .single) := by
  have hsplit := Text.splitOn_join h.ne_nil h.slash_notMem
  have hlong : ¬ (['m', '/'] ++ Text.join '/' components = [] ∨
      ['m', '/'] ++ Text.join '/' components = ['m']) := by simp
  rw [Path.ofString, Path.parse, hblank, htext, Path.parseTrimmed, if_neg hlong,
    Text.afterHead?_append]
  change Path.parseSteps none ((Text.join '/' components).splitOn '/') = .ok p ↔ _
  rw [hsplit, Path.parseSteps, bind_eq_ok_iff]
  constructor
  · rintro ⟨steps, hsteps, hpath⟩
    obtain ⟨⟨⟩, hcheck, ⟨⟩⟩ := bind_eq_ok_iff.mp hpath
    obtain ⟨ss, hss, rfl⟩ := (mapM_parseComponent_path_eq_ok_iff h).mp hsteps
    exact ⟨ss, hss, Path.checkSteps_lastStepWildcard_iff.mp hcheck, rfl⟩
  · rintro ⟨ss, hss, hchildren, rfl⟩
    exact ⟨_, (mapM_parseComponent_path_eq_ok_iff h).mpr ⟨ss, hss, rfl⟩,
      bind_eq_ok_iff.mpr ⟨(), Path.checkSteps_lastStepWildcard_iff.mpr hchildren, rfl⟩⟩

end Text

/-- A template and a path of the same single steps admit the same paths. -/
theorem admits_map_ofSingle (ss : List SingleStep) (q : Path) :
    admits ⟨ss.map .ofSingle⟩ q = (Path.ofSteps (ss.map .single)).admits q := by
  rw [admits, Path.admits, Path.ofSteps, List.length_map, List.length_map, List.zip_map_left,
    List.zip_map_left, List.all_map, List.all_map]
  congr 2
  funext ⟨s, step⟩
  exact TemplateStep.admits_ofSingle s step

/-- Steps behind `m/` that may be those of both are a template exactly if they are a path and no
component ends with a capital `H`; and then the template admits the paths that the path admits as a
pattern. -/
theorem ofString_agrees_with_path {components : List (List Char)} (h : Common components)
    {text : String} (htext : text.toList = ['m', '/'] ++ Text.join '/' components)
    (hblank : Text.trim text.toList = text.toList) :
    ((∃ t, ofString text = .ok t) ↔
      (∃ p, Path.ofString text = .ok p) ∧ ∀ c ∈ components, c.getLast? ≠ some 'H') ∧
    ∀ t p, ofString text = .ok t → Path.ofString text = .ok p →
      ∀ q : Path, t.admits q = p.admits q := by
  constructor
  · constructor
    · rintro ⟨t, ht⟩
      obtain ⟨hcapital, ss, hss, -⟩ := (ofString_eq_ok_iff h htext).mp ht
      exact ⟨⟨_, (ofString_path_eq_ok_iff h htext hblank).mpr
        ⟨ss, hss, childSteps_of_common h hcapital hss, rfl⟩⟩, hcapital⟩
    · rintro ⟨⟨p, hp⟩, hcapital⟩
      obtain ⟨ss, hss, -, -⟩ := (ofString_path_eq_ok_iff h htext hblank).mp hp
      exact ⟨_, (ofString_eq_ok_iff h htext).mpr ⟨hcapital, ss, hss, rfl⟩⟩
  · intro t p ht hp q
    obtain ⟨-, ss, hss, rfl⟩ := (ofString_eq_ok_iff h htext).mp ht
    obtain ⟨ss', hss', -, rfl⟩ := (ofString_path_eq_ok_iff h htext hblank).mp hp
    obtain rfl : ss = ss' := Except.ok.inj (hss.symm.trans hss')
    exact admits_map_ofSingle ss q

/-- Both marks of templates, a zero in front of an index, and a wildcard that is hardened. -/
theorem ofString_agrees_of_account :
    ∃ components text t p, Common components ∧
      text.toList = ['m', '/'] ++ Text.join '/' components ∧
      Text.trim text.toList = text.toList ∧
      ofString text = .ok t ∧ Path.ofString text = .ok p ∧
      (∀ q : Path, t.admits q = p.admits q) ∧
      t.admits (.ofSteps ([44, 0, 7].map fun n => .ofChildNumber ⟨⟨n⟩, true⟩)) = true := by
  let components := ["44'".toList, "00h".toList, "*h".toList]
  have h : Common components := by decide
  have htext : "m/44'/00h/*h".toList = ['m', '/'] ++ Text.join '/' components := by decide
  have hblank : Text.trim "m/44'/00h/*h".toList = "m/44'/00h/*h".toList := by decide
  have hp : Path.ofString "m/44'/00h/*h" = .ok (.ofSteps [.single ⟨.index ⟨44⟩, true⟩,
    .single ⟨.index ⟨0⟩, true⟩, .single ⟨.wildcard, true⟩]) := by rfl
  obtain ⟨hiff, hadmits⟩ := ofString_agrees_with_path h htext hblank
  obtain ⟨t, ht⟩ := hiff.mpr ⟨⟨_, hp⟩, by decide⟩
  have hq := hadmits t _ ht hp
  exact ⟨components, _, t, _, h, htext, hblank, ht, hp, hq, (hq _).trans (by decide)⟩

/-- The purpose of an account, hardened by a capital letter, is a path and no template. -/
theorem not_ofString_of_capital :
    ∃ components text, Common components ∧
      text.toList = ['m', '/'] ++ Text.join '/' components ∧
      Text.trim text.toList = text.toList ∧
      ¬ ((∃ t, ofString text = .ok t) ↔ ∃ p, Path.ofString text = .ok p) := by
  have h : Common ["44H".toList] := by decide
  have htext : "m/44H".toList = ['m', '/'] ++ Text.join '/' ["44H".toList] := by decide
  refine ⟨["44H".toList], "m/44H", h, htext, by decide, fun hiff => ?_⟩
  have hp : Path.ofString "m/44H" = .ok (.ofSteps [.single ⟨.index ⟨44⟩, true⟩]) := by rfl
  obtain ⟨t, ht⟩ := hiff.mpr ⟨_, hp⟩
  have hcapital := ((ofString_eq_ok_iff h htext).mp ht).1
  exact hcapital _ (List.mem_singleton.mpr rfl) (by decide)

end PathTemplate

end WalletExchange
