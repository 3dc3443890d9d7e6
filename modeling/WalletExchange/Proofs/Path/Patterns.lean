import WalletExchange.Proofs.Path.Fixed
import WalletExchange.Proofs.Path.Template

/-!
# Proofs — paths as patterns

A path can be taken as a pattern for other paths, and it can be resolved to child numbers.  A
pattern looks at each step of the other path on its own; to resolve a path, one index is put in
wherever it has a wildcard.  Where the wildcard is the last step at most, both come to the same: the
pattern admits the fixed paths that it can be resolved to, and the index is found at the end of the
path that it admits.  With two wildcards it would admit `1/2`, which no index leads to.

Main statements:

* `Step.resolve_eq_some_iff` — one step: a child number it resolves to is one that it admits, with
  the index that was put in if it is a wildcard.
* `Path.exists_resolve_of_admits` — the index for a whole path.
* `Path.admits_iff_resolves` — a path admits what it can be resolved to, and what it was resolved to
  is a path of its own.
-/

namespace WalletExchange

namespace Step

variable {s : Step} {n : ChildNumber} {i : ChildIndex} {branch : Branch}

/-- A step that is not a pair resolves to the child numbers that it admits; if it is a wildcard, to
the one with the index that was put in. -/
theorem resolve_eq_some_iff (hpair : s.isPair = false) :
    s.resolve (some i) branch = some n ↔
      Path.stepAdmits s (.ofChildNumber n) = true ∧ (s.isWildcard = true → n.index = i) := by
  obtain ⟨j, isHardened⟩ := n
  match s with
  | .pair _ => cases hpair
  | .single ⟨.index k, isHardened'⟩ =>
      change some (ChildNumber.mk k isHardened') = some ⟨j, isHardened⟩ ↔
        (isHardened' == isHardened && k == j) = true ∧ (false = true → j = i)
      simp [and_comm]
  | .single ⟨.wildcard, isHardened'⟩ =>
      change some (ChildNumber.mk i isHardened') = some ⟨j, isHardened⟩ ↔
        (isHardened' == isHardened && true) = true ∧ (true = true → j = i)
      rw [Option.some.injEq, ChildNumber.mk.injEq, Bool.and_true, beq_iff_eq, and_comm]
      exact and_congr_right fun _ => ⟨fun h _ => h.symm, fun h => (h rfl).symm⟩

end Step

namespace Path

variable {p q : Path} {substitute : Option ChildIndex} {branch : Branch} {steps : List Step}
  {numbers : List ChildNumber}

theorem admits_iff_forall₂ :
    p.admits q = true ↔ List.Forall₂ (fun s t => stepAdmits s t = true) p.steps q.steps :=
  all_zip_iff_forall₂ stepAdmits p.steps q.steps

theorem childNumbers?_eq_some_iff :
    p.childNumbers? substitute branch = some numbers ↔
      List.Forall₂ (fun s n => s.resolve substitute branch = some n) p.steps numbers := by
  obtain ⟨fingerprint, steps, depth⟩ := p
  rw [childNumbers?]
  induction steps generalizing numbers with
  | nil => simp [eq_comm]
  | cons s steps ih =>
      rw [List.mapM_cons, Option.bind_eq_bind, Option.bind_eq_some_iff, List.forall₂_cons_left_iff]
      constructor
      · rintro ⟨n, hn, h⟩
        obtain ⟨rest, hrest, ⟨⟩⟩ := Option.bind_eq_some_iff.mp h
        exact ⟨n, rest, hn, ih.mp hrest, rfl⟩
      · rintro ⟨n, rest, hn, hrest, rfl⟩
        exact ⟨n, hn, Option.bind_eq_some_iff.mpr ⟨rest, ih.mpr hrest, rfl⟩⟩

/-- The last child number that a pattern admits has the index to be put into the pattern. -/
theorem exists_resolve_of_admits (hpair : ∀ s ∈ steps, s.isPair = false)
    (hlast : ∀ s ∈ steps.dropLast, s.isWildcard = false)
    (h : List.Forall₂ (fun s n => stepAdmits s (.ofChildNumber n) = true) steps numbers) :
    ∃ i : ChildIndex, ((∀ n ∈ numbers, n.index.InRange) → i.InRange) ∧
      List.Forall₂ (fun s n => s.resolve (some i) branch = some n) steps numbers := by
  induction h with
  | nil => exact ⟨.zero, fun _ => by decide, .nil⟩
  | @cons s n steps numbers hs hrest ih =>
      obtain ⟨hs', hpairs⟩ := List.forall_mem_cons.mp hpair
      cases steps with
      | nil =>
          have hn : s.resolve (some n.index) branch = some n :=
            (Step.resolve_eq_some_iff hs').mpr ⟨hs, fun _ => rfl⟩
          obtain rfl := List.forall₂_nil_left_iff.mp hrest
          exact ⟨n.index, fun hrange => hrange n List.mem_cons_self, .cons hn .nil⟩
      | cons s' steps =>
          -- a step before the last one has an index of its own
          obtain ⟨hfixed, hlast⟩ := List.forall_mem_cons.mp hlast
          obtain ⟨i, hi, hrest⟩ := ih hpairs hlast
          have hn : s.resolve (some i) branch = some n := (Step.resolve_eq_some_iff hs').mpr
            ⟨hs, fun hwildcard => absurd (hfixed ▸ hwildcard) Bool.false_ne_true⟩
          exact ⟨i, fun hrange => hi (List.forall_mem_cons.mp hrange).2, .cons hn hrest⟩

/-- A pattern admits what it resolves to, whatever index is put in. -/
theorem admits_of_resolve {i : ChildIndex} (hpair : ∀ s ∈ steps, s.isPair = false)
    (h : List.Forall₂ (fun s n => s.resolve (some i) branch = some n) steps numbers) :
    List.Forall₂ (fun s n => stepAdmits s (.ofChildNumber n) = true) steps numbers := by
  induction h with
  | nil => exact .nil
  | @cons s n steps numbers hn _ ih =>
      obtain ⟨hs, hpairs⟩ := List.forall_mem_cons.mp hpair
      exact .cons ((Step.resolve_eq_some_iff hs).mp hn).1 (ih hpairs)

/-- A path without pairs that is valid below a key admits exactly the fixed paths whose child
numbers it has for some index in place of its wildcard, and this index is in range if the indexes of
the other path are.  The child numbers of any path are a path of their own that is as long, is fixed
and stands for them. -/
theorem admits_iff_resolves (p : Path) :
    (p.hasPair = false → p.check .lastStepWildcard = .ok () →
      ∀ (q : Path) (branch : Branch), q.isFixed = true →
        (p.admits q = true ↔
          ∃ i : ChildIndex, p.childNumbers? (some i) branch = q.childNumbers? none branch) ∧
        ((∀ s ∈ q.steps, s.Valid) → (p.admits q = true ↔
          ∃ i : ChildIndex, i.InRange ∧
            p.childNumbers? (some i) branch = q.childNumbers? none branch))) ∧
    ∀ (substitute : Option ChildIndex) (branch : Branch) (numbers : List ChildNumber),
      p.childNumbers? substitute branch = some numbers →
        (ofChildNumbers numbers).isFixed = true ∧
        (ofChildNumbers numbers).steps.length = p.steps.length ∧
        ∀ (substitute' : Option ChildIndex) (branch' : Branch),
          (ofChildNumbers numbers).childNumbers? substitute' branch' = some numbers := by
  constructor
  · intro hpair hcheck q branch hq
    obtain ⟨numbers, hnumbers⟩ := isFixed_iff_exists.mp hq
    have hpairs : ∀ s ∈ p.steps, s.isPair = false := by simpa [hasPair] using hpair
    have hlast := (checkSteps_lastStepWildcard_iff.mp hcheck).wildcard_last
    have hadmits : p.admits q = true ↔
        List.Forall₂ (fun s n => stepAdmits s (.ofChildNumber n) = true) p.steps numbers := by
      rw [admits_iff_forall₂, hnumbers, List.forall₂_map_right_iff]
    have hindex : p.admits q = true → ∃ i : ChildIndex,
        ((∀ n ∈ numbers, n.index.InRange) → i.InRange) ∧
          p.childNumbers? (some i) branch = some numbers := by
      intro h
      obtain ⟨i, hi, hresolve⟩ := exists_resolve_of_admits hpairs hlast (hadmits.mp h)
      exact ⟨i, hi, childNumbers?_eq_some_iff.mpr hresolve⟩
    have hconverse : ∀ i : ChildIndex, p.childNumbers? (some i) branch = some numbers →
        p.admits q = true :=
      fun i h => hadmits.mpr (admits_of_resolve hpairs (childNumbers?_eq_some_iff.mp h))
    rw [childNumbers?_of_steps hnumbers]
    refine ⟨⟨fun h => ?_, fun ⟨i, h⟩ => hconverse i h⟩, fun hvalid => ⟨fun h => ?_, ?_⟩⟩
    · obtain ⟨i, -, hresolve⟩ := hindex h
      exact ⟨i, hresolve⟩
    · have hrange : ∀ n ∈ numbers, n.index.InRange := fun n hn =>
        (hvalid (.ofChildNumber n) (hnumbers ▸ List.mem_map_of_mem hn)).inRange
      obtain ⟨i, hi, hresolve⟩ := hindex h
      exact ⟨i, hi hrange, hresolve⟩
    · rintro ⟨i, -, h⟩
      exact hconverse i h
  · intro substitute branch numbers h
    have hlength := (childNumbers?_eq_some_iff.mp h).length_eq
    refine ⟨isFixed_iff_exists.mpr ⟨numbers, rfl⟩, ?_, fun _ _ => childNumbers?_of_steps rfl _ _⟩
    rw [hlength, ofChildNumbers, ofSteps, List.length_map]

/-- A hardened wildcard behind a purpose admits the path of an account, from whatever master key and
at whatever depth; `<0;1>/*` is resolved to the number of a change address. -/
theorem admits_iff_resolves_of_account :
    let p : Path := .ofSteps [.ofChildNumber ⟨⟨44⟩, true⟩, .single ⟨.wildcard, true⟩]
    let q : Path := ⟨some 1, [.ofChildNumber ⟨⟨44⟩, true⟩, .ofChildNumber ⟨⟨7⟩, true⟩], some 9⟩
    let r : Path := .ofSteps [.pair .receiveChange, .single ⟨.wildcard, false⟩]
    let numbers : List ChildNumber := [⟨⟨1⟩, false⟩, ⟨⟨7⟩, false⟩]
    (p.hasPair = false ∧ p.check .lastStepWildcard = .ok () ∧ q.isFixed = true ∧
      (∀ s ∈ q.steps, s.Valid) ∧ p.admits q = true ∧ ∃ i : ChildIndex, i.InRange ∧
        p.childNumbers? (some i) .internal = q.childNumbers? none .internal) ∧
    r.childNumbers? (some ⟨7⟩) .internal = some numbers ∧
      (ofChildNumbers numbers).isFixed = true ∧
      (ofChildNumbers numbers).childNumbers? none .external = some numbers := by
  intro p q r numbers
  have hpair : p.hasPair = false := by decide
  have hcheck : p.check .lastStepWildcard = .ok () := by decide
  have hq : q.isFixed = true := by decide
  have hvalid : ∀ s ∈ q.steps, s.Valid := by decide
  have hr : r.childNumbers? (some ⟨7⟩) .internal = some numbers := by decide
  obtain ⟨-, hrange⟩ := (admits_iff_resolves p).1 hpair hcheck q .internal hq
  obtain ⟨hfixed, -, hnumbers⟩ := (admits_iff_resolves r).2 _ _ _ hr
  have hadmits : p.admits q = true := (hrange hvalid).mpr ⟨⟨7⟩, by decide, by decide⟩
  exact ⟨⟨hpair, hcheck, hq, hvalid, hadmits, (hrange hvalid).mp hadmits⟩, hr, hfixed,
    hnumbers none .external⟩

end Path

end WalletExchange
