import WalletExchange.Path.Basic

/-!
# Proofs — fixed paths

The steps of a fixed path are child numbers.  They are what the path stands for, whatever index is
put in for wildcards and whichever branch is chosen.

Main statements:

* `Path.isFixed_iff_exists` — a path is fixed if its steps are child numbers.
* `Path.childNumbers?_of_steps` — these numbers are what the path stands for.
-/

namespace WalletExchange

theorem Step.isFixed_iff_exists {s : Step} : s.isFixed = true ↔ ∃ n, s = .ofChildNumber n := by
  constructor
  · intro h
    match s with
    | .single ⟨.index i, isHardened⟩ => exact ⟨⟨i, isHardened⟩, rfl⟩
    | .single ⟨.wildcard, _⟩ | .pair _ => cases h
  · rintro ⟨n, rfl⟩
    rfl

/-- Steps that are child numbers are fixed. -/
theorem Step.isFixed_of_mem_map {numbers : List ChildNumber} :
    ∀ s ∈ numbers.map Step.ofChildNumber, s.isFixed = true := by
  intro s hs
  obtain ⟨n, -, rfl⟩ := List.mem_map.mp hs
  rfl

namespace Path

variable {p : Path} {numbers : List ChildNumber}

theorem isFixed_iff_exists :
    p.isFixed = true ↔ ∃ numbers : List ChildNumber, p.steps = numbers.map .ofChildNumber := by
  rw [isFixed, List.all_eq_true]
  constructor
  · intro h
    obtain ⟨fingerprint, steps, depth⟩ := p
    induction steps with
    | nil => exact ⟨[], rfl⟩
    | cons s steps ih =>
        obtain ⟨hs, hsteps⟩ := List.forall_mem_cons.mp h
        obtain ⟨n, rfl⟩ := Step.isFixed_iff_exists.mp hs
        obtain ⟨numbers, hnumbers⟩ := ih hsteps
        exact ⟨n :: numbers, congrArg (List.cons _) hnumbers⟩
  · rintro ⟨numbers, hsteps⟩
    rw [hsteps]
    exact Step.isFixed_of_mem_map

theorem check_fixedOnly_iff : p.check .fixedOnly = .ok () ↔ p.isFixed = true := by
  rw [check, checkSteps, isFixed]
  split
  · next hfixed => exact iff_of_true rfl hfixed
  · next hloose => exact iff_of_false nofun hloose

instance (p : Path) : Decidable (p.check .fixedOnly = .ok ()) :=
  decidable_of_iff _ check_fixedOnly_iff.symm

/-- Steps that are child numbers stand for these numbers. -/
theorem childNumbers?_of_steps (h : p.steps = numbers.map .ofChildNumber)
    (substitute : Option ChildIndex) (branch : Branch) :
    p.childNumbers? substitute branch = some numbers := by
  rw [childNumbers?, h]
  clear h
  induction numbers with
  | nil => rfl
  | cons n numbers ih =>
      rw [List.map_cons, List.mapM_cons, ih]
      rfl

end Path

end WalletExchange
