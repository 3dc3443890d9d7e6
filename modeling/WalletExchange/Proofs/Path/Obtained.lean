import WalletExchange.Path.Template
import WalletExchange.Proofs.Key.Text
import WalletExchange.Proofs.Path.Choices
import WalletExchange.Proofs.Path.Records
import WalletExchange.Proofs.Path.Text

/-!
# Proofs — indexes, pairs and paths however they are made

An index is meant to be below the bound, and the branches of a pair are meant to be fixed.  Nothing
in the types says so: constructors, conversions and readers see to it, each for itself.  `Obtained`
lists all ways in which a value is made.  Records are one of them, and the only one that does not
look at what it takes, so the predicates have the records that are read as a parameter.

What holds of the steps of a path is what its child numbers live on: numbers that differ are written
as different numbers of 32 bits, and a path stands for no numbers only for want of an index for its
wildcard.

Main statements:

* `Path.valid_of_obtained` — with sound records, steps are valid however a path is made.
* `Path.childNumbers?_eq_none_iff`, `ChildNumber.toUInt32_inj` — what validity is good for.
* `Path.obtained_valid_iff` — the invariants hold exactly if the records are sound, and a record
  may hold anything.
-/

namespace WalletExchange

open Record (Value)

/-! ### Ways to make a value -/

variable (R : Value → Prop)

/-- The ways to make an index, where the records that are read satisfy `R`.  A child number comes
from elsewhere, with an index in range. -/
inductive ChildIndex.Obtained : ChildIndex → Prop where
  | zero : Obtained .zero
  | one : Obtained .one
  | ofUInt8 (n : UInt8) : Obtained (.ofUInt8 n)
  | ofUInt16 (n : UInt16) : Obtained (.ofUInt16 n)
  | ofUInt32 {n : UInt32} {i : ChildIndex} (h : ofUInt32? n = .ok i) : Obtained i
  | ofChildNumber {n : ChildNumber} (h : n.index.InRange) : Obtained n.index
  | parsed {text : List Char} {i : ChildIndex} (h : parse text = .ok i) : Obtained i
  | recorded {v : Value} {i : ChildIndex} (hv : R v) (h : ofRecord? v = some i) : Obtained i

/-- The ways to make an index or wildcard. -/
inductive IndexSpec.Obtained : IndexSpec → Prop where
  | index {i : ChildIndex} (h : i.Obtained R) : Obtained (.index i)
  | wildcard : Obtained .wildcard
  | parsed {text : List Char} {s : IndexSpec} (h : parse text = .ok s) : Obtained s
  | recorded {v : Value} {s : IndexSpec} (hv : R v) (h : ofRecord? v = some s) : Obtained s

/-- The ways to make a single step. -/
inductive SingleStep.Obtained : SingleStep → Prop where
  | mk {spec : IndexSpec} (h : spec.Obtained R) (isHardened : Bool) : Obtained ⟨spec, isHardened⟩
  | ofChildNumber {n : ChildNumber} (h : n.index.InRange) : Obtained (.ofChildNumber n)
  | parsed {text : List Char} {s : SingleStep} (h : parse text = .ok s) : Obtained s
  | recorded {v : Value} {s : SingleStep} (hv : R v) (h : ofRecord? v = some s) : Obtained s

/-- The ways to make a pair. -/
inductive PairStep.Obtained : PairStep → Prop where
  | ofSteps {external internal : SingleStep} {p : PairStep} (hexternal : external.Obtained R)
      (hinternal : internal.Obtained R) (h : ofSteps? external internal = .ok p) : Obtained p
  | receiveChange : Obtained .receiveChange
  | parsed {text : List Char} {p : PairStep} (h : parse text = .ok p) : Obtained p
  | recorded {v : Value} {p : PairStep} (hv : R v) (h : ofRecord? v = some p) : Obtained p

/-- The ways to make a step. -/
inductive Step.Obtained : Step → Prop where
  | single {s : SingleStep} (h : s.Obtained R) : Obtained (.single s)
  | pair {p : PairStep} (h : p.Obtained R) : Obtained (.pair p)
  | ofChildNumber {n : ChildNumber} (h : n.index.InRange) : Obtained (.ofChildNumber n)
  | parsed {text : List Char} {s : Step} (h : parse text = .ok s) : Obtained s
  | recorded {v : Value} {s : Step} (hv : R v) (h : ofRecord? v = some s) : Obtained s

/-- The ways to make a path, and to make a path of another one. -/
inductive Path.Obtained : Path → Prop where
  | ofSteps {steps : List Step} (h : ∀ s ∈ steps, s.Obtained R) : Obtained (.ofSteps steps)
  | fromMaster (fingerprint : Fingerprint) {steps : List Step} (h : ∀ s ∈ steps, s.Obtained R) :
      Obtained (.fromMaster fingerprint steps)
  | master : Obtained .master
  | ofChildNumbers {numbers : List ChildNumber} (h : ∀ n ∈ numbers, n.index.InRange) :
      Obtained (.ofChildNumbers numbers)
  | instantiated {text : String} {t : PathTemplate} {coinType account : UInt32} {p : Path}
      (ht : PathTemplate.ofString text = .ok t) (h : t.instantiate coinType account = .ok p) :
      Obtained p
  | parsed {text : String} {p : Path} (h : ofString text = .ok p) : Obtained p
  | decoded {v : Cbor.Value} {p : Path} (h : ofCbor? v = .ok p) : Obtained p
  | decodedContent {v : Cbor.Value} {p : Path} (h : ofCborContent? v = .ok p) : Obtained p
  | recorded {v : Value} {p : Path} (hv : R v) (h : ofRecord? v = some p) : Obtained p
  | push {p : Path} {s : Step} (hp : Obtained p) (hs : s.Obtained R) : Obtained (p.push s)
  | setDepth {p : Path} (hp : Obtained p) (depth : UInt8) : Obtained (p.setDepth depth)
  | setOrigin {p : Path} (hp : Obtained p) (fingerprint : Option Fingerprint) :
      Obtained (p.setOrigin fingerprint)
  | extended {p q : Path} (hp : Obtained p) (hq : Obtained q) : Obtained (p.extended q)

/-! ### Texts -/

variable {R}

theorem IndexSpec.inRange_of_parse {text : List Char} {s : IndexSpec} (h : parse text = .ok s) :
    s.InRange := by
  cases s with
  | wildcard => trivial
  | index i => exact (parse_eq_index_iff.mp h).2

theorem SingleStep.inRange_of_parse {text : List Char} {s : SingleStep}
    (h : parse text = .ok s) : s.spec.InRange := by
  rw [parse] at h
  split at h
  all_goals
    obtain ⟨spec, hspec, rfl⟩ := map_eq_ok_iff.mp h
    exact IndexSpec.inRange_of_parse hspec

theorem PairStep.valid_of_ofSteps? {external internal : SingleStep} {p : PairStep}
    (hexternal : external.spec.InRange) (hinternal : internal.spec.InRange)
    (h : ofSteps? external internal = .ok p) : (Step.pair p).Valid := by
  obtain ⟨hfixed, hfixed', rfl⟩ := ofSteps?_eq_ok_iff.mp h
  exact ⟨⟨hexternal, hinternal⟩, hfixed, hfixed'⟩

theorem PairStep.valid_of_parse {text : List Char} {p : PairStep} (h : parse text = .ok p) :
    (Step.pair p).Valid := by
  rw [parse] at h
  split at h
  · obtain ⟨external, hexternal, h⟩ := bind_eq_ok_iff.mp h
    obtain ⟨internal, hinternal, h⟩ := bind_eq_ok_iff.mp h
    exact valid_of_ofSteps? (SingleStep.inRange_of_parse hexternal)
      (SingleStep.inRange_of_parse hinternal) h
  · cases h

theorem Step.valid_of_parse {text : List Char} {s : Step} (h : parse text = .ok s) : s.Valid := by
  rw [parse] at h
  split at h
  · obtain ⟨p, hp, rfl⟩ := map_eq_ok_iff.mp h
    exact PairStep.valid_of_parse hp
  · obtain ⟨s, hs, rfl⟩ := map_eq_ok_iff.mp h
    exact valid_single_iff.mpr (SingleStep.inRange_of_parse hs)

theorem Path.valid_of_parseSteps {fingerprint : Option Fingerprint} {components : List (List Char)}
    {p : Path} (h : parseSteps fingerprint components = .ok p) : ∀ s ∈ p.steps, s.Valid := by
  obtain ⟨steps, hsteps, h⟩ := bind_eq_ok_iff.mp h
  obtain ⟨_, -, ⟨⟩⟩ := bind_eq_ok_iff.mp h
  intro s hs
  obtain ⟨component, -, hs⟩ := exists_of_mem_mapM hsteps s hs
  rw [parseComponent] at hs
  split at hs
  · cases hs
  · exact Step.valid_of_parse hs

theorem Path.valid_of_ofString {text : String} {p : Path} (h : ofString text = .ok p) :
    ∀ s ∈ p.steps, s.Valid := by
  rw [ofString, parse, parseTrimmed] at h
  split at h
  · cases h
    exact List.forall_mem_nil _
  · split at h
    · exact valid_of_parseSteps h
    · dsimp only at h
      split at h
      · exact valid_of_parseSteps h
      · exact valid_of_parseSteps h

/-- A fixed index of a template that was read is in range. -/
theorem TemplateStep.inRange_of_parse {text : List Char} {s : TemplateStep} {i : ChildIndex}
    (h : parse text = .ok s) (hi : s.index = .fixed i) : i.InRange := by
  have hindex : ∀ {text : List Char}, TemplateIndex.parse text = .ok (.fixed i) → i.InRange := by
    intro text h
    rw [TemplateIndex.parse] at h
    repeat' split at h
    · cases h
    · cases h
    · cases h
    · obtain ⟨j, hj, ⟨⟩⟩ := map_eq_ok_iff.mp h
      exact (ChildIndex.parse_eq_ok_iff.mp hj).2
  rw [parse] at h
  split at h
  all_goals
    obtain ⟨index, hread, rfl⟩ := map_eq_ok_iff.mp h
    obtain rfl : index = .fixed i := hi
    exact hindex hread

theorem PathTemplate.inRange_of_ofString {text : String} {t : PathTemplate}
    (h : ofString text = .ok t) : ∀ s ∈ t.steps, ∀ i, s.index = .fixed i → i.InRange := by
  rw [ofString, parse] at h
  split at h
  · cases h
    exact List.forall_mem_nil _
  · obtain ⟨steps, hsteps, ⟨⟩⟩ := bind_eq_ok_iff.mp h
    intro s hs i hi
    obtain ⟨component, -, hs⟩ := exists_of_mem_mapM hsteps s hs
    rw [parseComponent] at hs
    split at hs
    · cases hs
    · exact TemplateStep.inRange_of_parse hs hi

/-- The steps that come of a template are valid, if its fixed indexes are in range. -/
theorem PathTemplate.valid_of_instantiate {t : PathTemplate} {coinType account : UInt32} {p : Path}
    (ht : ∀ s ∈ t.steps, ∀ i, s.index = .fixed i → i.InRange)
    (h : t.instantiate coinType account = .ok p) : ∀ s ∈ p.steps, s.Valid := by
  obtain ⟨coin, hcoin, h⟩ := bind_eq_ok_iff.mp h
  obtain ⟨number, hnumber, ⟨⟩⟩ := bind_eq_ok_iff.mp h
  intro s hs
  obtain ⟨step, hstep, rfl⟩ := List.mem_map.mp hs
  refine Step.valid_single_iff.mpr ?_
  change (step.index.instantiate coin number).InRange
  cases hindex : step.index with
  | fixed i => exact ht step hstep i hindex
  | wildcard => trivial
  | coinType => exact ChildIndex.inRange_of_ofUInt32? hcoin
  | account => exact ChildIndex.inRange_of_ofUInt32? hnumber

/-! ### What is made with sound records -/

theorem ChildIndex.inRange_ofUInt16 (n : UInt16) : (ofUInt16 n).InRange := by
  have hlt := n.toNat_lt
  rw [InRange, UInt32.lt_iff_toNat_lt]
  change n.toUInt32.toNat < 2147483648
  rw [UInt16.toNat_toUInt32]
  omega

theorem ChildIndex.inRange_ofUInt8 (n : UInt8) : (ofUInt8 n).InRange := by
  have hlt := n.toNat_lt
  rw [InRange, UInt32.lt_iff_toNat_lt]
  change n.toUInt32.toNat < 2147483648
  rw [UInt8.toNat_toUInt32]
  omega

section Sound

variable (hR : ∀ v, R v → Record.Sound v)
include hR

theorem ChildIndex.inRange_of_obtained {i : ChildIndex} (h : i.Obtained R) : i.InRange := by
  cases h with
  | zero | one => decide
  | ofUInt8 n => exact inRange_ofUInt8 n
  | ofUInt16 n => exact inRange_ofUInt16 n
  | ofUInt32 h => exact inRange_of_ofUInt32? h
  | ofChildNumber h => exact h
  | parsed h => exact (parse_eq_ok_iff.mp h).2
  | recorded hv h => exact (hR _ hv).index _ h

theorem IndexSpec.inRange_of_obtained {s : IndexSpec} (h : s.Obtained R) : s.InRange := by
  cases h with
  | index h => exact ChildIndex.inRange_of_obtained hR h
  | wildcard => trivial
  | parsed h => exact inRange_of_parse h
  | recorded hv h => exact (hR _ hv).spec _ h

theorem SingleStep.inRange_of_obtained {s : SingleStep} (h : s.Obtained R) :
    s.spec.InRange := by
  cases h with
  | mk h => exact IndexSpec.inRange_of_obtained hR h
  | ofChildNumber h => exact h
  | parsed h => exact inRange_of_parse h
  | recorded hv h => exact (hR _ hv).single _ h

theorem PairStep.valid_of_obtained {p : PairStep} (h : p.Obtained R) : (Step.pair p).Valid := by
  cases h with
  | ofSteps hexternal hinternal h =>
      exact valid_of_ofSteps? (SingleStep.inRange_of_obtained hR hexternal)
        (SingleStep.inRange_of_obtained hR hinternal) h
  | receiveChange => decide
  | parsed h => exact valid_of_parse h
  | recorded hv h => exact (hR _ hv).pair _ h

theorem Step.valid_of_obtained {s : Step} (h : s.Obtained R) : s.Valid := by
  cases h with
  | single h => exact valid_single_iff.mpr (SingleStep.inRange_of_obtained hR h)
  | pair h => exact PairStep.valid_of_obtained hR h
  | ofChildNumber h => exact valid_single_iff.mpr h
  | parsed h => exact valid_of_parse h
  | recorded hv h => exact (hR _ hv).step _ h

/-- With sound records, steps are valid however a path is made. -/
theorem Path.valid_of_obtained {p : Path} (h : p.Obtained R) : ∀ s ∈ p.steps, s.Valid := by
  induction h with
  | ofSteps h | fromMaster _ h => exact fun s hs => Step.valid_of_obtained hR (h s hs)
  | master => exact List.forall_mem_nil _
  | ofChildNumbers h =>
      intro s hs
      obtain ⟨n, hn, rfl⟩ := List.mem_map.mp hs
      exact Step.valid_single_iff.mpr (h n hn)
  | instantiated ht h =>
      exact PathTemplate.valid_of_instantiate (PathTemplate.inRange_of_ofString ht) h
  | parsed h => exact valid_of_ofString h
  | decoded h => exact (valid_of_ofCbor? h).steps
  | decodedContent h => exact (of_ofCborContent? h).1.steps
  | recorded hv h => exact (hR _ hv).path _ h
  | push _ hs ih =>
      exact List.forall_mem_append.mpr
        ⟨ih, List.forall_mem_singleton.mpr (Step.valid_of_obtained hR hs)⟩
  | setDepth _ _ ih | setOrigin _ _ ih => exact ih
  | extended _ _ ih ih' => exact List.forall_mem_append.mpr ⟨ih, ih'⟩

end Sound

/-- A record of which an invalid value can be read is not sound, and the value goes into a path. -/
theorem Record.sound_of_obtained_valid
    (hindex : ∀ i : ChildIndex, i.Obtained R → i.InRange)
    (hpath : ∀ p : Path, p.Obtained R → ∀ s ∈ p.steps, s.Valid) :
    ∀ v, R v → Record.Sound v := by
  have hstep : ∀ {s : Step}, s.Obtained R → s.Valid := fun {s} h =>
    hpath (.ofSteps [s]) (.ofSteps (List.forall_mem_singleton.mpr h)) s List.mem_cons_self
  intro v hv
  exact {
    index := fun i h => hindex i (.recorded hv h)
    spec := fun s h => (hstep (.single (.mk (.recorded hv h) false))).inRange
    single := fun s h => (hstep (.single (.recorded hv h))).inRange
    pair := fun p h => hstep (.pair (.recorded hv h))
    step := fun s h => hstep (.recorded hv h)
    path := fun p h => hpath p (.recorded hv h) }

/-! ### Child numbers -/

/-- Numbers with an index in range are told from each other by their 32 bits. -/
theorem ChildNumber.toUInt32_inj {m n : ChildNumber} (hm : m.index.InRange) (hn : n.index.InRange)
    (h : m.toUInt32 = n.toUInt32) : m = n := by
  rw [← ofUInt32_toUInt32 hm, h, ofUInt32_toUInt32 hn]

section Resolve

variable {substitute : Option ChildIndex} {branch : Branch}

theorem SingleStep.resolve_eq_none_iff {s : SingleStep} :
    s.resolve substitute = none ↔ s.isWildcard = true ∧ substitute = none := by
  match s with
  | ⟨.index _, _⟩ => exact iff_of_false nofun nofun
  | ⟨.wildcard, _⟩ => exact Option.map_eq_none_iff.trans (and_iff_right rfl).symm

/-- A step with fixed branches stands for no number only for want of an index for its wildcard. -/
theorem Step.resolve_eq_none_iff {s : Step} (h : s.FixedBranches) :
    s.resolve substitute branch = none ↔ s.isWildcard = true ∧ substitute = none := by
  cases s with
  | single s => exact SingleStep.resolve_eq_none_iff
  | pair p =>
      obtain ⟨hexternal, hinternal⟩ := h
      have hfixed : (p.select branch).isWildcard = false := by
        cases branch with
        | external => exact hexternal
        | internal => exact hinternal
      rw [resolve, SingleStep.resolve_eq_none_iff, hfixed]
      exact iff_of_false (fun h => Bool.false_ne_true h.1) fun h => Bool.false_ne_true h.1

/-- A path whose pairs have fixed branches stands for no numbers only for want of an index for its
wildcard. -/
theorem Path.childNumbers?_eq_none_iff {p : Path} (h : ∀ s ∈ p.steps, s.FixedBranches) :
    p.childNumbers? substitute branch = none ↔ p.hasWildcard = true ∧ substitute = none := by
  obtain ⟨fingerprint, steps, depth⟩ := p
  rw [childNumbers?, hasWildcard]
  induction steps with
  | nil => exact iff_of_false (Option.some_ne_none []) fun h => Bool.false_ne_true h.1
  | cons s steps ih =>
      obtain ⟨hs, hsteps⟩ := List.forall_mem_cons.mp h
      rw [List.any_cons, Bool.or_eq_true, or_and_right, ← Step.resolve_eq_none_iff hs, ← ih hsteps,
        List.mapM_cons]
      cases s.resolve substitute branch with
      | none => exact iff_of_true rfl (.inl rfl)
      | some n =>
          change ((steps.mapM (Step.resolve substitute branch)).bind fun ns => some (n :: ns)) =
            none ↔ some n = none ∨ steps.mapM (Step.resolve substitute branch) = none
          cases steps.mapM (Step.resolve substitute branch) with
          | none => exact iff_of_true rfl (.inr rfl)
          | some ns =>
              exact iff_of_false (Option.some_ne_none _)
                (not_or.mpr ⟨Option.some_ne_none n, Option.some_ne_none ns⟩)

theorem Path.inRange_of_childNumbers? {p : Path} (h : ∀ s ∈ p.steps, s.InRange)
    (hsubstitute : ∀ i ∈ substitute, i.InRange) {numbers : List ChildNumber}
    (hnumbers : p.childNumbers? substitute branch = some numbers) :
    ∀ n ∈ numbers, n.index.InRange := by
  obtain ⟨fingerprint, steps, depth⟩ := p
  rw [childNumbers?] at hnumbers
  induction steps generalizing numbers with
  | nil =>
      cases hnumbers
      exact List.forall_mem_nil _
  | cons s steps ih =>
      obtain ⟨hs, hsteps⟩ := List.forall_mem_cons.mp h
      rw [List.mapM_cons] at hnumbers
      obtain ⟨n, hn, hnumbers⟩ := Option.bind_eq_some_iff.mp hnumbers
      obtain ⟨tail, htail, ⟨⟩⟩ := Option.bind_eq_some_iff.mp hnumbers
      exact List.forall_mem_cons.mpr
        ⟨Step.inRange_of_resolve hs hsubstitute hn, ih hsteps htail⟩

end Resolve

/-- The number stands in a path that was made, with an index that was made. -/
def ChildNumber.Resolved (R : Value → Prop) (n : ChildNumber) : Prop :=
  ∃ (p : Path) (substitute : Option ChildIndex) (branch : Branch) (numbers : List ChildNumber),
    p.Obtained R ∧ (∀ i ∈ substitute, i.Obtained R) ∧
      p.childNumbers? substitute branch = some numbers ∧ n ∈ numbers

theorem ChildNumber.inRange_of_resolved (hR : ∀ v, R v → Record.Sound v) {n : ChildNumber}
    (h : n.Resolved R) : n.index.InRange := by
  obtain ⟨p, substitute, branch, numbers, hp, hsubstitute, hnumbers, hn⟩ := h
  exact Path.inRange_of_childNumbers? (fun s hs => (Path.valid_of_obtained hR hp s hs).inRange)
    (fun i hi => ChildIndex.inRange_of_obtained hR (hsubstitute i hi)) hnumbers n hn

/-- The invariants hold of all that is made exactly if the records that are read are sound.  Then
different child numbers are written as different numbers of 32 bits, and a path stands for no
numbers only for want of an index for its wildcard.  A record can hold any index, any pair and any
path, and it is sound exactly if what it holds is valid. -/
theorem Path.obtained_valid_iff (R : Value → Prop) :
    ((∀ v, R v → Record.Sound v) ↔
      (∀ i : ChildIndex, i.Obtained R → i.InRange) ∧
      (∀ q : PairStep, q.Obtained R → (Step.pair q).Valid) ∧
      ∀ p : Path, p.Obtained R → ∀ s ∈ p.steps, s.Valid) ∧
    ((∀ v, R v → Record.Sound v) →
      (∀ m n : ChildNumber, m.Resolved R → n.Resolved R → m ≠ n → m.toUInt32 ≠ n.toUInt32) ∧
      ∀ p : Path, p.Obtained R → ∀ (substitute : Option ChildIndex) (branch : Branch),
        p.childNumbers? substitute branch = none ↔ p.hasWildcard = true ∧ substitute = none) ∧
    (∀ i : ChildIndex, ChildIndex.ofRecord? i.toRecord = some i ∧
      (Record.Sound i.toRecord ↔ i.InRange)) ∧
    (∀ q : PairStep, PairStep.ofRecord? q.toRecord = some q ∧
      (Record.Sound q.toRecord ↔ (Step.pair q).Valid)) ∧
    ∀ p : Path, ofRecord? p.toRecord = some p ∧
      (Record.Sound p.toRecord ↔ ∀ s ∈ p.steps, s.Valid) := by
  refine ⟨⟨?invariants, ?sound⟩, ?numbers, ?index, ?pair, ?path⟩
  case invariants =>
    intro hR
    exact ⟨fun i h => ChildIndex.inRange_of_obtained hR h,
      fun q h => PairStep.valid_of_obtained hR h, fun p h => valid_of_obtained hR h⟩
  case sound =>
    rintro ⟨hindex, -, hpath⟩
    exact Record.sound_of_obtained_valid hindex hpath
  case numbers =>
    intro hR
    refine ⟨fun m n hm hn hne heq => hne ?_, fun p hp substitute branch => ?_⟩
    · exact ChildNumber.toUInt32_inj (ChildNumber.inRange_of_resolved hR hm)
        (ChildNumber.inRange_of_resolved hR hn) heq
    · exact childNumbers?_eq_none_iff fun s hs => (valid_of_obtained hR hp s hs).fixedBranches
  case index => exact fun i => ⟨ChildIndex.ofRecord?_toRecord i, Record.sound_index_iff⟩
  case pair => exact fun q => ⟨PairStep.ofRecord?_toRecord q, Record.sound_pair_iff⟩
  case path => exact fun p => ⟨ofRecord?_toRecord p, Record.sound_path_iff⟩

/-- With the record of `<0;1>/*` read, the path goes on to the number of a receiving address. -/
theorem Path.obtained_valid_of_receiveChange :
    let p : Path := .ofSteps [.pair .receiveChange, .single ⟨.wildcard, false⟩]
    (∀ v, v = p.toRecord → Record.Sound v) ∧ p.Obtained (· = p.toRecord) ∧
      (∀ s ∈ p.steps, s.Valid) ∧
      (p.childNumbers? none .external = none ↔
        p.hasWildcard = true ∧ (none : Option ChildIndex) = none) ∧
      p.childNumbers? (some ⟨5⟩) .external = some [⟨⟨0⟩, false⟩, ⟨⟨5⟩, false⟩] := by
  intro p
  have hvalid : ∀ s ∈ p.steps, s.Valid := by decide
  obtain ⟨hiff, hnumbers, -, -, hpath⟩ := Path.obtained_valid_iff (· = p.toRecord)
  have hR : ∀ v, v = p.toRecord → Record.Sound v := by
    rintro v rfl
    exact (hpath p).2.mpr hvalid
  have hp : p.Obtained (· = p.toRecord) := .recorded rfl (hpath p).1
  exact ⟨hR, hp, (hiff.mp hR).2.2 p hp, (hnumbers hR).2 p hp none .external, by decide⟩

/-- Of any records come an index of 32 bits, which is one number of 32 bits with a hardened index,
and a pair with a wildcard, which has no number whatever index is put in. -/
theorem Path.not_obtained_valid :
    (∃ i : ChildIndex, i.Obtained (fun _ => True) ∧ ¬ i.InRange) ∧
    (∃ q : PairStep, q.Obtained (fun _ => True) ∧ ¬ (Step.pair q).Valid) ∧
    (∃ m n : ChildNumber, m.Resolved (fun _ => True) ∧ n.Resolved (fun _ => True) ∧ m ≠ n ∧
      m.toUInt32 = n.toUInt32) ∧
    ∃ p : Path, p.Obtained (fun _ => True) ∧ p.hasWildcard = false ∧
      ∀ substitute, p.childNumbers? substitute .external = none := by
  let step (i : ChildIndex) (isHardened : Bool) : Step := .single ⟨.index i, isHardened⟩
  let indexes : Path := .ofSteps [step ⟨2147483648⟩ false, step ⟨0⟩ true]
  let pair : PairStep := ⟨⟨.wildcard, false⟩, .normal .one⟩
  have hindexes : indexes.Obtained fun _ => True := .recorded trivial (ofRecord?_toRecord indexes)
  have hresolve : indexes.childNumbers? none .external =
      some [⟨⟨2147483648⟩, false⟩, ⟨⟨0⟩, true⟩] := by decide
  refine ⟨⟨⟨2147483648⟩, ?index, by decide⟩, ⟨pair, ?pair, by decide⟩,
    ⟨⟨⟨2147483648⟩, false⟩, ⟨⟨0⟩, true⟩, ?_, ?_, by decide, by decide⟩,
    ⟨.ofSteps [.pair pair], ?path, by decide, fun _ => rfl⟩⟩
  case index => exact .recorded trivial (ChildIndex.ofRecord?_toRecord _)
  case pair => exact .recorded trivial (PairStep.ofRecord?_toRecord pair)
  case path => exact .recorded trivial (ofRecord?_toRecord _)
  all_goals exact ⟨indexes, none, .external, _, hindexes, nofun, hresolve, by simp⟩

end WalletExchange
