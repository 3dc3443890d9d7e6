import WalletExchange.Proofs.Key.Derivation
import WalletExchange.Proofs.Path.Fixed
import WalletExchange.Proofs.Path.Template

/-!
# Proofs — the paths of accounts

The kinds in the catalogue have templates of hardened indexes and placeholders, without a wildcard.
So the path of an account is a list of hardened child numbers, whatever the network, for every
account number below the bound.

Main statements:

* `OutputType.exists_pathOf` — the path of an account as child numbers.
* `OutputType.pathOf_of_overflow` — an account number that is no index is refused.
-/

namespace WalletExchange

/-- The step stands for one hardened index once the numbers are known. -/
def TemplateStep.IsHardenedNumber (s : TemplateStep) : Prop :=
  s.isHardened = true ∧
    match s.index with
    | .fixed i => i.InRange
    | .wildcard => False
    | .coinType | .account => True

instance : DecidablePred TemplateStep.IsHardenedNumber
  | ⟨.fixed i, _⟩ => inferInstanceAs (Decidable (_ ∧ i.InRange))
  | ⟨.wildcard, _⟩ => inferInstanceAs (Decidable (_ ∧ False))
  | ⟨.coinType, _⟩ | ⟨.account, _⟩ => inferInstanceAs (Decidable (_ ∧ True))

/-- Hardened child numbers below the bound. -/
def ChildNumber.AllHardened (numbers : List ChildNumber) : Prop :=
  ∀ n ∈ numbers, n.isHardened = true ∧ n.index.InRange

namespace PathTemplate

theorem exists_number {s : TemplateStep} {coinType account : ChildIndex}
    (hcoinType : coinType.InRange) (haccount : account.InRange) (h : s.IsHardenedNumber) :
    ∃ n : ChildNumber, (n.isHardened = true ∧ n.index.InRange) ∧
      s.instantiate coinType account = .ofChildNumber n := by
  obtain ⟨index, isHardened⟩ := s
  obtain ⟨hhardened, hindex⟩ := h
  cases index with
  | fixed i => exact ⟨⟨i, isHardened⟩, ⟨hhardened, hindex⟩, rfl⟩
  | wildcard => cases hindex
  | coinType => exact ⟨⟨coinType, isHardened⟩, ⟨hhardened, hcoinType⟩, rfl⟩
  | account => exact ⟨⟨account, isHardened⟩, ⟨hhardened, haccount⟩, rfl⟩

theorem exists_numbers {steps : List TemplateStep} {coinType account : ChildIndex}
    (hcoinType : coinType.InRange) (haccount : account.InRange)
    (h : ∀ s ∈ steps, s.IsHardenedNumber) :
    ∃ numbers, numbers.length = steps.length ∧ ChildNumber.AllHardened numbers ∧
      steps.map (TemplateStep.instantiate coinType account) = numbers.map .ofChildNumber := by
  induction steps with
  | nil => exact ⟨[], rfl, List.forall_mem_nil _, rfl⟩
  | cons s steps ih =>
      obtain ⟨hs, hsteps⟩ := List.forall_mem_cons.mp h
      obtain ⟨n, hn, hstep⟩ := exists_number hcoinType haccount hs
      obtain ⟨numbers, hlength, hnumbers, hmap⟩ := ih hsteps
      exact ⟨n :: numbers, congrArg Nat.succ hlength, List.forall_mem_cons.mpr ⟨hn, hnumbers⟩,
        by rw [List.map_cons, List.map_cons, hstep, hmap]⟩

end PathTemplate

namespace OutputType

variable {ty : OutputType} {account : UInt32}

/-- The coin type of a network as an index. -/
def coinType (network : Network) : ChildIndex := ⟨(UseInfo.ofNetwork network).coinType⟩

theorem inRange_coinType (network : Network) : (coinType network).InRange := by
  cases network <;> decide

/-- The templates of the catalogue. -/
theorem exists_template (hty : ty ∈ catalogue) : ∃ t, ty.template = .ok t ∧ t.steps ≠ [] ∧
    t.steps.length ≤ 4 ∧ ∀ s ∈ t.steps, s.IsHardenedNumber := by
  have hall : ∀ ty ∈ catalogue, ty.template.toOption.any (fun t => t.steps ≠ [] ∧
      t.steps.length ≤ 4 ∧ ∀ s ∈ t.steps, s.IsHardenedNumber) = true := by decide
  exact exists_of_any_toOption (hall ty hty)

/-- The path of an account comes of the template of its kind. -/
theorem pathOf_eq_ok {t : PathTemplate} (ht : ty.template = .ok t) (network : Network)
    (haccount : account < ChildIndex.bound) :
    ty.pathOf network account =
      .ok (.ofSteps (t.steps.map (TemplateStep.instantiate (coinType network) ⟨account⟩))) := by
  rw [pathOf, ht]
  change ((t.instantiate (coinType network).value account).mapError _) = _
  rw [PathTemplate.instantiate_eq_ok (inRange_coinType network) haccount]
  rfl

/-- The path of an account is hardened child numbers. -/
theorem exists_pathOf (hty : ty ∈ catalogue) (network : Network)
    (haccount : account < ChildIndex.bound) :
    ∃ numbers, numbers ≠ [] ∧ numbers.length ≤ 4 ∧ ChildNumber.AllHardened numbers ∧
      ty.pathOf network account = .ok (.ofChildNumbers numbers) := by
  obtain ⟨t, ht, hne, hlength, hsteps⟩ := exists_template hty
  have hindexRange : ChildIndex.InRange ⟨account⟩ := haccount
  obtain ⟨numbers, hlength', hnumbers, hmap⟩ :=
    PathTemplate.exists_numbers (inRange_coinType network) hindexRange hsteps
  refine ⟨numbers, ?_, hlength' ▸ hlength, hnumbers, ?_⟩
  · rintro rfl
    exact hne (List.eq_nil_of_length_eq_zero hlength'.symm)
  · rw [pathOf_eq_ok ht network haccount, hmap]
    rfl

/-- An account number that is no index is refused. -/
theorem pathOf_of_overflow (hty : ty ∈ catalogue) (network : Network)
    (haccount : ¬ account < ChildIndex.bound) :
    ty.pathOf network account = .error (.indexOverflow ⟨account⟩) := by
  obtain ⟨t, ht, -⟩ := exists_template hty
  have hcoinType : ChildIndex.ofUInt32? (UseInfo.ofNetwork network).coinType =
      .ok (coinType network) := if_pos (inRange_coinType network)
  have hindex : ChildIndex.ofUInt32? account = .error ⟨account⟩ := if_neg haccount
  rw [pathOf, ht]
  change ((t.instantiate _ _).mapError _) = _
  rw [PathTemplate.instantiate, hcoinType, ok_bind, hindex]
  rfl

end OutputType

end WalletExchange
