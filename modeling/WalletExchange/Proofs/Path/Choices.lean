import WalletExchange.Path.Basic

/-!
# Proofs — the choices that a path leaves open

A path stands for child numbers once an index is put in for its wildcards and a branch is chosen
from its pairs.  The index matters to wildcards alone and the branch to pairs alone.  Without an
index a wildcard stands for nothing, and neither does a path that has one.

Main statements:

* `Path.childNumbers?_congr` — the numbers depend on the index only if the path has a wildcard, and
  on the branch only if it has a pair.
* `Path.childNumbers?_of_hasWildcard` — a path with a wildcard needs an index.
-/

namespace WalletExchange

namespace Step

variable {s : Step} {index index' : Option ChildIndex} {branch branch' : Branch}

/-- The index matters to a wildcard alone, and the branch to a pair alone. -/
theorem resolve_congr (hindex : s.isWildcard = true → index = index')
    (hbranch : s.isPair = true → branch = branch') :
    s.resolve index branch = s.resolve index' branch' := by
  match s with
  | .single ⟨.index _, _⟩ => rfl
  | .single ⟨.wildcard, _⟩ =>
      rw [hindex rfl]
      rfl
  | .pair _ => rw [hbranch rfl, resolve, resolve]

theorem resolve_of_isWildcard (h : s.isWildcard = true) : s.resolve none branch = none := by
  match s with
  | .single ⟨.wildcard, _⟩ => rfl
  | .single ⟨.index _, _⟩ | .pair _ => cases h

end Step

namespace Path

variable {p : Path} {index index' : Option ChildIndex} {branch branch' : Branch}

/-- The numbers depend on the index only if the path has a wildcard, and on the branch only if it
has a pair. -/
theorem childNumbers?_congr (hindex : p.hasWildcard = true → index = index')
    (hbranch : p.hasPair = true → branch = branch') :
    p.childNumbers? index branch = p.childNumbers? index' branch' := by
  obtain ⟨fingerprint, steps, depth⟩ := p
  rw [childNumbers?, childNumbers?]
  have hstep : ∀ s ∈ steps, s.resolve index branch = s.resolve index' branch' := fun s hs =>
    Step.resolve_congr (fun h => hindex (List.any_eq_true.mpr ⟨s, hs, h⟩))
      fun h => hbranch (List.any_eq_true.mpr ⟨s, hs, h⟩)
  clear hindex hbranch
  induction steps with
  | nil => rfl
  | cons s steps ih =>
      obtain ⟨hs, hsteps⟩ := List.forall_mem_cons.mp hstep
      have htail :
          steps.mapM (Step.resolve index branch) = steps.mapM (Step.resolve index' branch') :=
        ih hsteps
      rw [List.mapM_cons, List.mapM_cons, hs, htail]

/-- A path with a wildcard needs an index. -/
theorem childNumbers?_of_hasWildcard (h : p.hasWildcard = true) :
    p.childNumbers? none branch = none := by
  obtain ⟨fingerprint, steps, depth⟩ := p
  obtain ⟨s, hs, hwildcard⟩ := List.any_eq_true.mp h
  rw [childNumbers?]
  clear h
  induction steps with
  | nil => cases hs
  | cons first steps ih =>
      rw [List.mapM_cons]
      rcases List.mem_cons.mp hs with rfl | hs
      · rw [Step.resolve_of_isWildcard hwildcard]
        rfl
      · have htail : steps.mapM (Step.resolve none branch) = none := ih hs
        rw [htail]
        cases first.resolve none branch <;> rfl

end Path

end WalletExchange
