import WalletExchange.Path.Codec
import WalletExchange.Record.Path
import WalletExchange.Proofs.Cbor.Fields

/-!
# Proofs — paths that are read back

A path is read back from what is written of it exactly if a wildcard comes only last, there is at
most one pair, indexes are below the bound, and the branches of pairs are fixed.  The last two hold
of what is read from texts and values, but not of what is read from records.  All of a path comes
back but a recorded depth that is the number of steps.  No reader makes such a depth, so a path that
was read once, from whatever value, is sent on unchanged.

Main statements:

* `Path.checkSteps_lastStepWildcard_iff` — the policy for children, as a structure.
* `Path.ofCbor?_toCbor_iff` — which paths are read back, and as what.
* `Path.valid_of_ofCbor?`, `Path.normal_of_ofCbor?` — what holds of a path, whatever value it is
  read from.
* `Path.ofCbor?_toCbor_self_iff` — the paths that are read at all are those that come back
  unchanged; `Path.not_ofCbor?_toCbor_self` — a pair from a record that does not.
-/

namespace WalletExchange

open Cbor (Value DecodeError Fields untag_tag)

/-! ### Steps -/

theorem ChildIndex.ofUInt32?_eq_ok_iff {n : UInt32} {i : ChildIndex} :
    ofUInt32? n = .ok i ↔ i.value = n ∧ i.InRange := by
  constructor
  · intro h
    refine ⟨?_, inRange_of_ofUInt32? h⟩
    unfold ofUInt32? at h
    split at h
    · cases h; rfl
    · cases h
  · rintro ⟨rfl, h⟩
    exact if_pos h

/-- An index is below the bound. -/
def IndexSpec.InRange : IndexSpec → Prop
  | index i => i.InRange
  | wildcard => True

instance : DecidablePred IndexSpec.InRange
  | .index i => inferInstanceAs (Decidable i.InRange)
  | .wildcard => inferInstanceAs (Decidable True)

namespace Step

/-- The indexes of a step are below the bound. -/
def InRange : Step → Prop
  | single s => s.spec.InRange
  | pair p => p.external.spec.InRange ∧ p.internal.spec.InRange

instance : DecidablePred InRange
  | .single s => inferInstanceAs (Decidable s.spec.InRange)
  | .pair p => inferInstanceAs (Decidable (p.external.spec.InRange ∧ p.internal.spec.InRange))

/-- The branches of a pair are fixed.  The check of the steps does not ask it: for the check a pair
is one step, whatever its branches. -/
def FixedBranches : Step → Prop
  | single _ => True
  | pair p => p.external.isWildcard = false ∧ p.internal.isWildcard = false

instance : DecidablePred FixedBranches
  | .single _ => inferInstanceAs (Decidable True)
  | .pair p => inferInstanceAs (Decidable (p.external.isWildcard = false ∧ _))

/-- A step as every reader but that of records makes it. -/
structure Valid (s : Step) : Prop where
  inRange : s.InRange
  fixedBranches : s.FixedBranches

instance : DecidablePred Valid := fun _ =>
  decidable_of_iff (_ ∧ _) ⟨fun h => ⟨h.1, h.2⟩, fun h => ⟨h.1, h.2⟩⟩

theorem valid_single_iff {s : SingleStep} : (single s).Valid ↔ s.spec.InRange :=
  ⟨fun h => h.inRange, fun h => ⟨h, trivial⟩⟩

theorem forall_valid_iff {steps : List Step} :
    (∀ s ∈ steps, s.Valid) ↔ (∀ s ∈ steps, s.InRange) ∧ ∀ s ∈ steps, s.FixedBranches :=
  ⟨fun h => ⟨fun s hs => (h s hs).inRange, fun s hs => (h s hs).fixedBranches⟩,
    fun h s hs => ⟨h.1 s hs, h.2 s hs⟩⟩

end Step

section Resolve

variable {substitute : Option ChildIndex} {n : ChildNumber}

/-- The child number that a step stands for is below the bound, if the indexes are. -/
theorem SingleStep.inRange_of_resolve {s : SingleStep} (h : s.spec.InRange)
    (hsubstitute : ∀ i ∈ substitute, i.InRange) (hn : s.resolve substitute = some n) :
    n.index.InRange := by
  obtain ⟨i, hi, rfl⟩ := Option.map_eq_some_iff.mp hn
  obtain ⟨j | _, isHardened⟩ := s
  · cases hi
    exact h
  · exact hsubstitute i hi

theorem Step.inRange_of_resolve {s : Step} {branch : Branch} (h : s.InRange)
    (hsubstitute : ∀ i ∈ substitute, i.InRange) (hn : s.resolve substitute branch = some n) :
    n.index.InRange := by
  cases s with
  | single s => exact SingleStep.inRange_of_resolve h hsubstitute hn
  | pair p =>
      obtain ⟨hexternal, hinternal⟩ := h
      -- no index is put into a pair
      have hnone : ∀ i ∈ (none : Option ChildIndex), i.InRange := fun _ h => nomatch h
      cases branch with
      | external => exact SingleStep.inRange_of_resolve hexternal hnone hn
      | internal => exact SingleStep.inRange_of_resolve hinternal hnone hn

end Resolve

theorem asUInt32_unsigned (n : UInt32) : (Value.unsigned n.toUInt64).asUInt32 = .ok n := by
  have hlt : n.toUInt64.toNat < UInt32.size := by
    rw [UInt32.toNat_toUInt64]
    exact n.toNat_lt
  have hcast : n.toUInt64.toUInt32 = n := by simp
  rw [Value.asUInt32, Value.asUInt64]
  change (if n.toUInt64.toNat < UInt32.size then _ else _) = _
  rw [if_pos hlt, hcast]

theorem IndexSpec.ofCbor?_toCbor_iff {s t : IndexSpec} :
    ofCbor? s.toCbor = .ok t ↔ s.InRange ∧ t = s := by
  cases s with
  | wildcard => simp [toCbor, ofCbor?, InRange, eq_comm]
  | index i =>
      simp only [toCbor, ofCbor?, asUInt32_unsigned, ok_bind]
      cases hi : ChildIndex.ofUInt32? i.value with
      | ok j =>
          obtain ⟨hvalue, hrange⟩ := ChildIndex.ofUInt32?_eq_ok_iff.mp hi
          obtain rfl : j = i := by cases i; cases j; congr
          simp [InRange, hrange, eq_comm]
      | error e =>
          have hrange : ¬ i.InRange := by
            intro h
            rw [ChildIndex.ofUInt32?_eq_ok_iff.mpr ⟨rfl, h⟩] at hi
            cases hi
          simp [InRange, hrange]

theorem SingleStep.ofCbor?_toCbor_iff {s t : SingleStep} :
    ofCbor? s.spec.toCbor (.bool s.isHardened) = .ok t ↔ s.spec.InRange ∧ t = s := by
  change (IndexSpec.ofCbor? s.spec.toCbor >>= fun spec => pure (SingleStep.mk spec s.isHardened)) =
    _ ↔ _
  rw [bind_eq_ok_iff]
  constructor
  · rintro ⟨spec, hspec, ⟨⟩⟩
    obtain ⟨hrange, rfl⟩ := IndexSpec.ofCbor?_toCbor_iff.mp hspec
    exact ⟨hrange, rfl⟩
  · rintro ⟨hrange, rfl⟩
    exact ⟨t.spec, IndexSpec.ofCbor?_toCbor_iff.mpr ⟨hrange, rfl⟩, rfl⟩

theorem Step.ofCbor?_pair_iff {p : PairStep} {t : Step} :
    ofCbor? p.toCbor (.bool false) = .ok t ↔ (pair p).Valid ∧ t = pair p := by
  change (PairStep.ofCbor? p.external.spec.toCbor (.bool p.external.isHardened)
    p.internal.spec.toCbor (.bool p.internal.isHardened) >>= fun q => pure (pair q)) = _ ↔ _
  rw [bind_eq_ok_iff]
  constructor
  · rintro ⟨q, hpair, ⟨⟩⟩
    obtain ⟨external, hexternal, hpair⟩ := bind_eq_ok_iff.mp hpair
    obtain ⟨internal, hinternal, hpair⟩ := bind_eq_ok_iff.mp hpair
    obtain ⟨hrange, rfl⟩ := SingleStep.ofCbor?_toCbor_iff.mp hexternal
    obtain ⟨hrange', rfl⟩ := SingleStep.ofCbor?_toCbor_iff.mp hinternal
    cases hof : PairStep.ofSteps? p.external p.internal with
    | error e => rw [hof] at hpair; cases hpair
    | ok q' =>
        rw [hof] at hpair
        cases hpair
        obtain ⟨hfixed, hfixed', rfl⟩ := PairStep.ofSteps?_eq_ok_iff.mp hof
        exact ⟨⟨⟨hrange, hrange'⟩, hfixed, hfixed'⟩, rfl⟩
  · rintro ⟨⟨⟨hrange, hrange'⟩, hfixed, hfixed'⟩, rfl⟩
    refine ⟨p, ?_, rfl⟩
    refine bind_eq_ok_iff.mpr ⟨_, SingleStep.ofCbor?_toCbor_iff.mpr ⟨hrange, rfl⟩, ?_⟩
    refine bind_eq_ok_iff.mpr ⟨_, SingleStep.ofCbor?_toCbor_iff.mpr ⟨hrange', rfl⟩, ?_⟩
    rw [PairStep.ofSteps?_eq_ok_iff.mpr ⟨hfixed, hfixed', rfl⟩]

theorem Step.ofCbor?_single_iff {s : SingleStep} {t : Step} :
    ofCbor? s.spec.toCbor (.bool s.isHardened) = .ok t ↔ (single s).Valid ∧ t = single s := by
  have hread : ofCbor? s.spec.toCbor (.bool s.isHardened) =
      (SingleStep.ofCbor? s.spec.toCbor (.bool s.isHardened)).map single := by
    cases s.spec <;> rfl
  rw [hread, valid_single_iff]
  exact map_eq_ok_iff_of_unique SingleStep.ofCbor?_toCbor_iff

theorem Step.listOfCbor?_toCbor_iff {steps ts : List Step} :
    listOfCbor? (steps.flatMap toCbor) = .ok ts ↔ (∀ s ∈ steps, s.Valid) ∧ ts = steps := by
  induction steps generalizing ts with
  | nil => simp [listOfCbor?, eq_comm]
  | cons s steps ih =>
      have hfirst : ∃ first second, (s :: steps).flatMap toCbor =
          first :: second :: steps.flatMap toCbor ∧
          ∀ t, ofCbor? first second = .ok t ↔ s.Valid ∧ t = s := by
        cases s with
        | single s => exact ⟨_, _, rfl, fun _ => ofCbor?_single_iff⟩
        | pair p => exact ⟨_, _, rfl, fun _ => ofCbor?_pair_iff⟩
      obtain ⟨first, second, happend, hstep⟩ := hfirst
      rw [happend, listOfCbor?, bind_eq_ok_iff, List.forall_mem_cons]
      constructor
      · rintro ⟨t, ht, h⟩
        obtain ⟨us, hus, ⟨⟩⟩ := bind_eq_ok_iff.mp h
        obtain ⟨hvalid, rfl⟩ := (hstep t).mp ht
        obtain ⟨hall, rfl⟩ := ih.mp hus
        exact ⟨⟨hvalid, hall⟩, rfl⟩
      · rintro ⟨⟨hvalid, hall⟩, rfl⟩
        exact ⟨s, (hstep s).mpr ⟨hvalid, rfl⟩, bind_eq_ok_iff.mpr ⟨steps, ih.mpr ⟨hall, rfl⟩, rfl⟩⟩

theorem Step.length_flatMap_toCbor (steps : List Step) :
    (steps.flatMap toCbor).length = 2 * steps.length := by
  induction steps with
  | nil => rfl
  | cons s steps ih =>
      have hs : s.toCbor.length = 2 := by cases s <;> rfl
      rw [List.flatMap_cons, List.length_append, ih, hs, List.length_cons]
      omega

theorem IndexSpec.inRange_of_ofCbor? {v : Value} {s : IndexSpec} (h : ofCbor? v = .ok s) :
    s.InRange := by
  rw [ofCbor?.eq_def] at h
  split at h
  · cases h
    trivial
  · cases h
  · obtain ⟨n, -, h⟩ := bind_eq_ok_iff.mp h
    cases hi : ChildIndex.ofUInt32? n with
    | ok i =>
        rw [hi] at h
        cases h
        exact ChildIndex.inRange_of_ofUInt32? hi
    | error e =>
        rw [hi] at h
        cases h

theorem SingleStep.inRange_of_ofCbor? {spec hardened : Value} {s : SingleStep}
    (h : ofCbor? spec hardened = .ok s) : s.spec.InRange := by
  obtain ⟨isHardened, -, h⟩ := bind_eq_ok_iff.mp h
  obtain ⟨spec, hspec, ⟨⟩⟩ := bind_eq_ok_iff.mp h
  exact IndexSpec.inRange_of_ofCbor? hspec

theorem PairStep.valid_of_ofCbor? {a b c d : Value} {p : PairStep}
    (h : ofCbor? a b c d = .ok p) : (Step.pair p).Valid := by
  obtain ⟨external, hexternal, h⟩ := bind_eq_ok_iff.mp h
  obtain ⟨internal, hinternal, h⟩ := bind_eq_ok_iff.mp h
  cases hof : ofSteps? external internal with
  | error e => rw [hof] at h; cases h
  | ok q =>
      rw [hof] at h
      cases h
      obtain ⟨hfixed, hfixed', rfl⟩ := ofSteps?_eq_ok_iff.mp hof
      exact ⟨⟨SingleStep.inRange_of_ofCbor? hexternal, SingleStep.inRange_of_ofCbor? hinternal⟩,
        hfixed, hfixed'⟩

theorem Step.valid_of_ofCbor? {first second : Value} {s : Step}
    (h : ofCbor? first second = .ok s) : s.Valid := by
  rw [ofCbor?.eq_def] at h
  split at h
  · obtain ⟨_, -, h⟩ := bind_eq_ok_iff.mp h
    obtain ⟨p, hp, ⟨⟩⟩ := bind_eq_ok_iff.mp h
    exact PairStep.valid_of_ofCbor? hp
  · obtain ⟨s, hs, rfl⟩ := map_eq_ok_iff.mp h
    exact valid_single_iff.mpr (SingleStep.inRange_of_ofCbor? hs)

theorem Step.valid_of_listOfCbor? {places : List Value} {steps : List Step}
    (h : listOfCbor? places = .ok steps) : ∀ s ∈ steps, s.Valid := by
  induction places using listOfCbor?.induct generalizing steps with
  | case1 first second rest ih =>
      rw [listOfCbor?] at h
      obtain ⟨step, hstep, h⟩ := bind_eq_ok_iff.mp h
      obtain ⟨steps, hsteps, ⟨⟩⟩ := bind_eq_ok_iff.mp h
      exact List.forall_mem_cons.mpr ⟨valid_of_ofCbor? hstep, ih hsteps⟩
  | case2 places hplaces =>
      rw [listOfCbor?.eq_def] at h
      split at h
      · next first second rest => exact absurd rfl (hplaces first second rest)
      · cases h
        exact List.forall_mem_nil _

/-! ### Paths -/

namespace Path

/-- A wildcard comes only last, and there is at most one pair. -/
structure ChildSteps (steps : List Step) : Prop where
  wildcard_last : ∀ s ∈ steps.dropLast, s.isWildcard = false
  one_pair : steps.countP Step.isPair ≤ 1

instance : DecidablePred ChildSteps := fun _ =>
  decidable_of_iff (_ ∧ _) ⟨fun h => ⟨h.1, h.2⟩, fun h => ⟨h.1, h.2⟩⟩

theorem checkSteps_lastStepWildcard_iff {steps : List Step} :
    checkSteps .lastStepWildcard steps = .ok () ↔ ChildSteps steps := by
  have hany : steps.dropLast.any Step.isWildcard = false ↔
      ∀ s ∈ steps.dropLast, s.isWildcard = false := by
    simp only [List.any_eq_false, Bool.not_eq_true]
  rw [checkSteps]
  constructor
  · intro h
    split at h
    · cases h
    · next hwildcard =>
      split at h
      · cases h
      · next hpairs => exact ⟨hany.mp (Bool.not_eq_true _ ▸ hwildcard), Nat.le_of_not_lt hpairs⟩
  · intro h
    rw [if_neg (Bool.not_eq_true _ ▸ hany.mpr h.wildcard_last), if_neg (Nat.not_lt.mpr h.one_pair)]

instance (p : Path) : Decidable (p.check .lastStepWildcard = .ok ()) :=
  decidable_of_iff (ChildSteps p.steps) checkSteps_lastStepWildcard_iff.symm

/-- The steps of the path are valid, each of them and together. -/
structure Valid (p : Path) : Prop where
  steps : ∀ s ∈ p.steps, s.Valid
  children : ChildSteps p.steps

instance : DecidablePred Valid := fun _ =>
  decidable_of_iff (_ ∧ _) ⟨fun h => ⟨h.1, h.2⟩, fun h => ⟨h.1, h.2⟩⟩

/-- The path with its depth recorded anew: a depth that is the number of steps is forgotten. -/
def canonical (p : Path) : Path :=
  match p.explicitDepth with
  | some depth => Path.setDepth depth ⟨p.fingerprint, p.steps, none⟩
  | none => ⟨p.fingerprint, p.steps, none⟩

@[simp] theorem steps_canonical (p : Path) : p.canonical.steps = p.steps := by
  rw [canonical]
  cases p.explicitDepth <;> rfl

/-- No depth is recorded that the number of steps tells as well. -/
def Normal (p : Path) : Prop := ∀ depth ∈ p.explicitDepth, depth.toNat ≠ p.steps.length

instance : DecidablePred Normal := fun p =>
  Option.decidableForallMem (p := fun depth : UInt8 => depth.toNat ≠ p.steps.length) _

theorem normal_of_explicitDepth_eq_none {p : Path} (h : p.explicitDepth = none) : p.Normal :=
  fun depth hdepth => absurd (h ▸ hdepth) (Option.not_mem_none depth)

theorem not_normal_iff {p : Path} :
    ¬ p.Normal ↔ ∃ depth, p.explicitDepth = some depth ∧ depth.toNat = p.steps.length := by
  simp [Normal]

theorem normal_setDepth (p : Path) (depth : UInt8) : (p.setDepth depth).Normal := by
  intro d hd
  simp only [setDepth, Option.mem_def] at hd
  split at hd
  · cases hd
  · next hne =>
    cases hd
    exact hne

theorem canonical_eq_iff {p : Path} : p.canonical = p ↔ p.Normal := by
  obtain ⟨fingerprint, steps, explicitDepth⟩ := p
  cases explicitDepth with
  | none => simp [canonical, Normal]
  | some depth => simp [canonical, setDepth, Normal]

theorem map_canonical_eq_self {o : Option Path} (h : ∀ p ∈ o, p.Normal) :
    o.map canonical = o := by
  cases o with
  | none => rfl
  | some p => rw [Option.map_some, canonical_eq_iff.mpr (h p rfl)]

theorem normal_canonical (p : Path) : p.canonical.Normal := by
  rw [canonical]
  cases p.explicitDepth with
  | none => exact normal_of_explicitDepth_eq_none rfl
  | some depth => exact normal_setDepth _ depth

/-- The reader of paths checks the steps at the end. -/
theorem checked_eq_ok_iff {p q : Path} :
    (match p.check .lastStepWildcard with
      | .ok () => Except.ok p
      | .error e => .error (DecodeError.invalidValue e.message)) = .ok q ↔
      ChildSteps p.steps ∧ q = p := by
  rw [← checkSteps_lastStepWildcard_iff, ← check]
  cases p.check .lastStepWildcard with
  | ok _ => simp [eq_comm]
  | error e => simp

theorem depthOfCbor?_unsigned (d : UInt8) : depthOfCbor? (.unsigned d.toUInt64) = .ok d := by
  have hlt : d.toUInt64.toNat < 256 := by
    rw [UInt8.toNat_toUInt64]
    exact d.toNat_lt
  have hcast : d.toUInt64.toUInt8 = d := by simp
  change (if d.toUInt64.toNat < 256 then _ else _) = _
  rw [if_pos hlt, hcast]

/-- The entries of the map of a path. -/
def entries (p : Path) : List (UInt64 × Value) :=
  (1, p.stepsToCbor) :: (p.fingerprint.toList.map fun f => (2, .unsigned f.toUInt64)) ++
    p.explicitDepth.toList.map fun d => (3, .unsigned d.toUInt64)

theorem stepsOfCbor?_stepsToCbor (p : Path) :
    stepsOfCbor? p.stepsToCbor = Step.listOfCbor? (p.steps.flatMap Step.toCbor) := by
  change (if (p.steps.flatMap Step.toCbor).length % 2 = 0 then _ else _) = _
  rw [if_pos (by rw [Step.length_flatMap_toCbor]; omega)]

/-- The depth that the reader finds in the map of a path is the one that is recorded. -/
theorem optional_depth (p : Path) :
    (Fields.ofList p.entries).optional 3 depthOfCbor? = .ok p.explicitDepth := by
  have h : p.entries.lookup 3 = p.explicitDepth.map fun d => .unsigned d.toUInt64 := by
    simp [entries, Fields.lookup_cons, List.lookup_append, Fields.lookup_toList]
  rw [Fields.optional_ofList h]
  cases p.explicitDepth with
  | none => rfl
  | some d => simp [depthOfCbor?_unsigned, Except.map]

/-- Which paths are read back from what is written of them, and as what. -/
theorem ofCbor?_toCbor_iff {p q : Path} : ofCbor? p.toCbor = .ok q ↔ p.Valid ∧ q = p.canonical := by
  have hsteps : p.entries.lookup 1 = some p.stepsToCbor := by
    simp [entries]
  have hfingerprint : (Fields.ofList p.entries).optional 2 Value.asUInt32 = .ok p.fingerprint := by
    have h : p.entries.lookup 2 = p.fingerprint.map fun f => .unsigned f.toUInt64 := by
      simp [entries, Fields.lookup_cons, List.lookup_append, Fields.lookup_toList]
    rw [Fields.optional_ofList h]
    cases p.fingerprint with
    | none => rfl
    | some f => simp [asUInt32_unsigned, Except.map]
  rw [toCbor, ofCbor?, untag_tag, ok_bind, toCborContent, ← entries, ofCborContent?,
    Fields.asFields_ofFields, ok_bind, Fields.require_ofList hsteps, ok_bind,
    stepsOfCbor?_stepsToCbor, bind_eq_ok_iff]
  simp only [hfingerprint, optional_depth, ok_bind]
  constructor
  · rintro ⟨steps, hread, h⟩
    obtain ⟨hvalid, rfl⟩ := Step.listOfCbor?_toCbor_iff.mp hread
    obtain ⟨hchildren, rfl⟩ := (checked_eq_ok_iff (p := p.canonical)).mp h
    exact ⟨⟨hvalid, p.steps_canonical ▸ hchildren⟩, rfl⟩
  · rintro ⟨⟨hvalid, hchildren⟩, rfl⟩
    refine ⟨p.steps, Step.listOfCbor?_toCbor_iff.mpr ⟨hvalid, rfl⟩, ?_⟩
    exact (checked_eq_ok_iff (p := p.canonical)).mpr ⟨p.steps_canonical ▸ hchildren, rfl⟩

/-- Whatever map a path is read from, its steps are valid, and it is as it would be read again. -/
theorem of_ofCborContent? {v : Value} {p : Path} (h : ofCborContent? v = .ok p) :
    p.Valid ∧ p.Normal := by
  obtain ⟨fields, -, h⟩ := bind_eq_ok_iff.mp h
  obtain ⟨places, -, h⟩ := bind_eq_ok_iff.mp h
  obtain ⟨steps, hsteps, h⟩ := bind_eq_ok_iff.mp h
  obtain ⟨fingerprint, -, h⟩ := bind_eq_ok_iff.mp h
  obtain ⟨depth, -, h⟩ := bind_eq_ok_iff.mp h
  have hread : ∀ s ∈ steps, s.Valid := by
    obtain ⟨list, -, hsteps⟩ := bind_eq_ok_iff.mp hsteps
    split at hsteps
    · exact Step.valid_of_listOfCbor? hsteps
    · cases hsteps
  -- what is checked is the canonical form of the entries
  let q : Path := ⟨fingerprint, steps, depth⟩
  obtain ⟨hchildren, rfl⟩ := (checked_eq_ok_iff (p := q.canonical)).mp h
  exact ⟨⟨q.steps_canonical ▸ hread, hchildren⟩, q.normal_canonical⟩

/-- Whatever value a path is read from, its steps are valid. -/
theorem valid_of_ofCbor? {v : Value} {p : Path} (h : ofCbor? v = .ok p) : p.Valid := by
  obtain ⟨content, -, h⟩ := bind_eq_ok_iff.mp h
  exact (of_ofCborContent? h).1

/-- Whatever value a path is read from, no depth is recorded that is the number of steps. -/
theorem normal_of_ofCbor? {v : Value} {p : Path} (h : ofCbor? v = .ok p) : p.Normal := by
  obtain ⟨content, -, h⟩ := bind_eq_ok_iff.mp h
  exact (of_ofCborContent? h).2

theorem valid_iff {p : Path} :
    p.Valid ↔ p.check .lastStepWildcard = .ok () ∧ (∀ s ∈ p.steps, s.InRange) ∧
      ∀ s ∈ p.steps, s.FixedBranches := by
  rw [check, checkSteps_lastStepWildcard_iff, ← Step.forall_valid_iff]
  exact ⟨fun h => ⟨h.children, h.steps⟩, fun h => ⟨h.2, h.1⟩⟩

/-- The paths that come back unchanged are those that pass the check, whose recorded depth is not
the number of steps, whose indexes are below the bound and whose pairs have fixed branches; and no
others are read from any value. -/
theorem ofCbor?_toCbor_self_iff {p : Path} :
    (ofCbor? p.toCbor = .ok p ↔
      p.check .lastStepWildcard = .ok () ∧ p.Normal ∧ (∀ s ∈ p.steps, s.InRange) ∧
        ∀ s ∈ p.steps, s.FixedBranches) ∧
    ((∃ v, ofCbor? v = .ok p) ↔
      p.check .lastStepWildcard = .ok () ∧ p.Normal ∧ (∀ s ∈ p.steps, s.InRange) ∧
        ∀ s ∈ p.steps, s.FixedBranches) := by
  have hcond : p.check .lastStepWildcard = .ok () ∧ p.Normal ∧ (∀ s ∈ p.steps, s.InRange) ∧
      (∀ s ∈ p.steps, s.FixedBranches) ↔ p.Valid ∧ p.Normal := by
    rw [valid_iff, and_assoc, and_comm (a := p.Normal)]
  have hself : ofCbor? p.toCbor = .ok p ↔ p.Valid ∧ p.Normal := by
    rw [ofCbor?_toCbor_iff, eq_comm, canonical_eq_iff]
  rw [hcond]
  refine ⟨hself, ?_, fun h => ⟨p.toCbor, hself.mpr h⟩⟩
  rintro ⟨v, h⟩
  exact ⟨valid_of_ofCbor? h, normal_of_ofCbor? h⟩

/-- The path `<*;1>`.  The readers of texts and of values refuse a wildcard for a branch, and so
does the maker of pairs; the reader of records lets it in. -/
def wildcardBranch : Path := ⟨none, [.pair ⟨⟨.wildcard, false⟩, .normal .one⟩], none⟩

theorem ofRecord?_wildcardBranch :
    ofRecord? wildcardBranch.toRecord = some wildcardBranch := by decide +kernel

/-- Without fixed branches a path does not come back, though it passes the check, its recorded depth
is no number of steps and its indexes are below the bound. -/
theorem not_ofCbor?_toCbor_self :
    ofRecord? wildcardBranch.toRecord = some wildcardBranch ∧
    wildcardBranch.check .lastStepWildcard = .ok () ∧ wildcardBranch.Normal ∧
    (∀ s ∈ wildcardBranch.steps, s.InRange) ∧
    ofCbor? wildcardBranch.toCbor = .error (.invalidValue PathError.wildcardInPair.message) :=
  ⟨ofRecord?_wildcardBranch, rfl, by decide, by decide, rfl⟩

-- a value need not come back: a depth that is the number of steps is not written again
example : ofCbor? (.tag Cbor.Tag.keyPath (.ofFields [(1, .array []), (3, .unsigned 0)])) =
    .ok master := rfl

end Path

end WalletExchange
