import WalletExchange.Proofs.Account.Paths

/-!
# Proofs — the kind of account that a path belongs to

Searching the catalogue for a path is the inverse of making paths: a kind is found exactly if the
path has the steps of one of its accounts, on either network, as long as its indexes are below the
bound; of a record comes an account that is not.  Where the path starts and which depth
it records is not looked at.  No path belongs to two kinds, since any two of them have different
indexes in the first place or, for the two kinds of cosigners of a witness script, in the last one;
so the order of the catalogue does not matter.

Main statements:

* `OutputType.admits_iff` — the paths that a kind in the catalogue admits.
* `OutputType.firstAdmitting?_catalogue` — the kind that is found for a path;
  `OutputType.not_firstAdmitting?_catalogue` — one that is found for no account of it.
-/

namespace WalletExchange.OutputType

variable {ty ty' : OutputType} {types : List OutputType} {p : Path}

/-- The templates of the catalogue are linear. -/
theorem exists_linear_template (hty : ty ∈ catalogue) :
    ∃ t, ty.template = .ok t ∧ TemplateStep.Linear t.steps := by
  have hall : ∀ ty ∈ catalogue,
      ty.template.toOption.any (fun t => TemplateStep.Linear t.steps) = true := by decide
  exact exists_of_any_toOption (hall ty hty)

/-- The templates of two kinds in the catalogue have different indexes in one place. -/
theorem exists_clash {t t' : PathTemplate} (hty : ty ∈ catalogue) (hty' : ty' ∈ catalogue)
    (hne : ty ≠ ty') (ht : ty.template = .ok t) (ht' : ty'.template = .ok t') :
    ∃ q ∈ t.steps.zip t'.steps, q.1.Clashes q.2 := by
  have hall : ∀ ty ∈ catalogue, ∀ ty' ∈ catalogue, ty ≠ ty' → ∀ t ∈ ty.template.toOption,
      ∀ t' ∈ ty'.template.toOption, ∃ q ∈ t.steps.zip t'.steps, q.1.Clashes q.2 := by decide
  exact hall ty hty ty' hty' hne t (toOption_eq_some_iff.mpr ht) t' (toOption_eq_some_iff.mpr ht')

theorem admits_of_template {t : PathTemplate} (ht : ty.template = .ok t) :
    ty.admits p = t.admits p := by
  rw [admits, ht]

/-- No path is admitted by two kinds in the catalogue. -/
theorem eq_of_admits (hty : ty ∈ catalogue) (hty' : ty' ∈ catalogue) (h : ty.admits p = true)
    (h' : ty'.admits p = true) : ty = ty' := by
  by_contra hne
  obtain ⟨t, ht, -⟩ := exists_linear_template hty
  obtain ⟨t', ht', -⟩ := exists_linear_template hty'
  rw [admits_of_template ht] at h
  rw [admits_of_template ht'] at h'
  exact PathTemplate.not_admits_of_clash (exists_clash hty hty' hne ht ht') h h'

/-- The coin types are those of the networks. -/
theorem exists_coinType_eq {i : ChildIndex} (h : i = .zero ∨ i = .one) :
    ∃ network, coinType network = i := by
  rcases h with rfl | rfl
  · exact ⟨.mainnet, rfl⟩
  · exact ⟨.testnet, rfl⟩

theorem coinType_eq_zero_or_one (network : Network) :
    coinType network = .zero ∨ coinType network = .one := by
  cases network with
  | mainnet => exact .inl rfl
  | testnet => exact .inr rfl

/-- The paths with the steps of an account of a kind in the catalogue are those that it admits. -/
theorem admits_iff (hty : ty ∈ catalogue)
    (hrange : ∀ i isHardened, Step.single ⟨.index i, isHardened⟩ ∈ p.steps → i.InRange) :
    ty.admits p = true ↔ ∃ network account, account < ChildIndex.bound ∧
      ∃ path, ty.pathOf network account = .ok path ∧ p.steps = path.steps := by
  obtain ⟨t, ht, hlinear⟩ := exists_linear_template hty
  rw [admits_of_template ht]
  constructor
  · intro h
    obtain ⟨i, account, hi, haccount, hsteps⟩ :=
      PathTemplate.exists_eq_map_instantiate hlinear h
    obtain ⟨network, rfl⟩ := exists_coinType_eq hi
    exact ⟨network, account.value, haccount hrange, _,
      pathOf_eq_ok ht network (haccount hrange), hsteps⟩
  · rintro ⟨network, account, haccount, path, hpath, hsteps⟩
    rw [pathOf_eq_ok ht network haccount] at hpath
    cases hpath
    exact PathTemplate.admits_map_instantiate hlinear (coinType_eq_zero_or_one network) hsteps

theorem of_firstAdmitting?_eq_some (h : firstAdmitting? types p = some ty) :
    ty ∈ types ∧ ty.admits p = true :=
  ⟨List.mem_of_find?_eq_some h, List.find?_some (p := fun ty : OutputType => ty.admits p) h⟩

/-- Among kinds of the catalogue, the one that is found is the one that admits the path. -/
theorem firstAdmitting?_eq_some_iff (htypes : types ⊆ catalogue) :
    firstAdmitting? types p = some ty ↔ ty ∈ types ∧ ty.admits p = true := by
  refine ⟨of_firstAdmitting?_eq_some, fun ⟨hmem, hadmits⟩ => ?_⟩
  have hsome : (firstAdmitting? types p).isSome = true :=
    List.find?_isSome.mpr ⟨ty, hmem, hadmits⟩
  obtain ⟨found, hfound⟩ := Option.isSome_iff_exists.mp hsome
  obtain ⟨hmem', hadmits'⟩ := of_firstAdmitting?_eq_some hfound
  rw [hfound, eq_of_admits (htypes hmem') (htypes hmem) hadmits' hadmits]

/-- The kind that is found for a path whose indexes are below the bound is the one with an account
at its steps; and for every path it is the only one that admits the path, in whatever order the
catalogue is searched. -/
theorem firstAdmitting?_catalogue (p : Path) :
    ((∀ i isHardened, Step.single ⟨.index i, isHardened⟩ ∈ p.steps → i.InRange) →
      ∀ ty ∈ catalogue, firstAdmitting? catalogue p = some ty ↔
        ∃ network account, account < ChildIndex.bound ∧
          ∃ path, ty.pathOf network account = .ok path ∧ p.steps = path.steps) ∧
    (∀ ty ∈ catalogue, ∀ ty' ∈ catalogue,
      ty.admits p = true → ty'.admits p = true → ty = ty') ∧
    ∀ types, types.Perm catalogue → firstAdmitting? types p = firstAdmitting? catalogue p := by
  refine ⟨fun hrange ty hty => ?_, fun ty hty ty' hty' => eq_of_admits hty hty', fun types hperm => ?_⟩
  · rw [firstAdmitting?_eq_some_iff (List.Subset.refl _), ← admits_iff hty hrange]
    exact and_iff_right hty
  · refine Option.ext fun ty => ?_
    rw [firstAdmitting?_eq_some_iff hperm.subset, firstAdmitting?_eq_some_iff (List.Subset.refl _),
      hperm.mem_iff]

/-- A path of a cosigner on a test network, from a known master key and with another depth. -/
theorem firstAdmitting?_catalogue_of_cosigner :
    let steps : List Step := [48, 1, 5, 2].map fun n => .ofChildNumber ⟨⟨n⟩, true⟩
    let p : Path := ⟨some 0xd34db33f, steps, some 9⟩
    (∀ i isHardened, Step.single ⟨.index i, isHardened⟩ ∈ p.steps → i.InRange) ∧
      firstAdmitting? catalogue p = some segwitMultisig ∧
      firstAdmitting? catalogue.reverse p = some segwitMultisig := by
  intro steps p
  have hrange : ∀ i isHardened, Step.single ⟨.index i, isHardened⟩ ∈ p.steps → i.InRange := by
    have hall : ∀ s ∈ p.steps, s.InRange := by decide
    exact fun i isHardened hmem => hall _ hmem
  obtain ⟨hiff, -, horder⟩ := firstAdmitting?_catalogue p
  have hfound : firstAdmitting? catalogue p = some segwitMultisig := by
    refine (hiff hrange segwitMultisig (by simp [catalogue])).mpr ⟨.testnet, 5, by decide, ?_⟩
    exact ⟨.ofSteps steps, by decide, rfl⟩
  exact ⟨hrange, hfound, (horder _ (List.reverse_perm _)).trans hfound⟩

/-- Of a record comes a path with an account that is no index.  A kind is found for it, and none of
the accounts of this kind has its steps. -/
theorem not_firstAdmitting?_catalogue :
    let p : Path := .ofSteps ([44, 0, 0x80000000].map fun n => .ofChildNumber ⟨⟨n⟩, true⟩)
    Path.ofRecord? p.toRecord = some p ∧ firstAdmitting? catalogue p = some legacy ∧
      ¬ ∃ network account, account < ChildIndex.bound ∧
        ∃ path, legacy.pathOf network account = .ok path ∧ p.steps = path.steps := by
  intro p
  refine ⟨Path.ofRecord?_toRecord p, by decide, ?_⟩
  rintro ⟨network, account, haccount, path, hpath, hsteps⟩
  have ht : legacy.template = .ok ⟨[⟨.fixed ⟨44⟩, true⟩, ⟨.coinType, true⟩, ⟨.account, true⟩]⟩ := by
    decide
  rw [pathOf_eq_ok ht network haccount] at hpath
  obtain rfl := Except.ok.inj hpath
  have hlast : some (Step.ofChildNumber ⟨⟨0x80000000⟩, true⟩) =
      some (.ofChildNumber ⟨⟨account⟩, true⟩) := congrArg List.getLast? hsteps
  obtain rfl : 0x80000000 = account := by
    simpa [Step.ofChildNumber, SingleStep.ofChildNumber] using hlast
  exact absurd haccount (by decide)

end WalletExchange.OutputType
