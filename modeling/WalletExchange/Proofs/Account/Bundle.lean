import Mathlib.Data.List.Induction
import WalletExchange.Account.Bundle
import WalletExchange.Proofs.Key.Derivation

/-!
# Proofs — bundles of account descriptors

A bundle keeps its descriptors twice: in a list, in the order of the kinds it was made for, and in
an index by kind.  The order of the index looks at everything that tells two kinds apart, so a kind
is found exactly under itself.  A kind may be listed more than once; each time the same descriptor
is made for it, so it does not matter that only the last one stays in the index.

Main statement:

* `Bundle.make_all_or_nothing` — when there is a bundle, and what is in its list and its index.
-/

namespace WalletExchange

namespace OutputType

/-- The order of kinds looks at one part after the other. -/
theorem compare_eq : (compare : OutputType → OutputType → Ordering) =
    compareLex (compareOn name) (compareLex (compareOn shortName)
      (compareLex (compareOn descriptorSource) (compareLex (compareOn accountPath)
        (compareOn addressPath)))) := by
  funext a b
  change (compare a.name b.name).then _ = _
  simp only [compareLex, compareOn, Ordering.then_eq]

instance : Std.TransOrd OutputType := by
  unfold Std.TransOrd
  rw [compare_eq]
  infer_instance

instance : Std.LawfulEqOrd OutputType where
  compare_self := Std.ReflOrd.compare_self
  eq_of_compare {a b} h := by
    rw [compare_eq] at h
    simp only [compareLex_eq_eq, compareOn, Std.compare_eq_iff_eq] at h
    obtain ⟨hname, hshortName, hsource, haccount, haddress⟩ := h
    cases a
    cases b
    simp only at hname hshortName hsource haccount haddress
    rw [hname, hshortName, hsource, haccount, haddress]

end OutputType

namespace DescriptorIndex

variable {ty ty' : OutputType} {d : OutputDescriptor} {index : DescriptorIndex}
  {entry : OutputType × OutputDescriptor}

theorem find?_cons_self : find? ty ((ty, d) :: index) = some d := by rw [find?, Std.compare_self]

/-- A kind that is not the first one comes behind it, if it is there. -/
theorem find?_cons_of_ne (h : ty ≠ entry.1) :
    find? ty (entry :: index) = if compare ty entry.1 = .lt then none else find? ty index := by
  rw [find?]
  cases hty : compare ty entry.1 with
  | lt | gt => rfl
  | eq => exact absurd (Std.compare_eq_iff_eq.mp hty) h

theorem find?_insert_self : find? ty (insert ty d index) = some d := by
  induction index with
  | nil => exact find?_cons_self
  | cons entry rest ih =>
      rw [insert]
      cases hentry : compare ty entry.1 with
      | lt | eq => exact find?_cons_self
      | gt =>
          dsimp only
          rw [find?, hentry]
          exact ih

/-- Where a kind is put makes no difference to another one. -/
theorem find?_insert_of_ne (h : ty' ≠ ty) : find? ty' (insert ty d index) = find? ty' index := by
  have hcons (rest : DescriptorIndex) : find? ty' ((ty, d) :: rest) =
      if compare ty' ty = .lt then none else find? ty' rest := find?_cons_of_ne h
  induction index with
  | nil =>
      rw [insert, hcons]
      split <;> rfl
  | cons entry rest ih =>
      rw [insert]
      cases hentry : compare ty entry.1 with
      | lt =>
          -- what comes before the new entry comes before the one behind it too
          dsimp only
          rw [hcons]
          split
          · next hlt => rw [find?, Std.TransCmp.lt_trans hlt hentry]
          · rfl
      | eq =>
          obtain rfl := Std.compare_eq_iff_eq.mp hentry
          dsimp only
          rw [hcons, find?_cons_of_ne h]
      | gt =>
          dsimp only
          rw [find?, find?, ih]

/-- In an index of a list the last entry of each kind is found. -/
theorem find?_ofList (entries : List (OutputType × OutputDescriptor)) :
    find? ty (ofList entries) =
      (entries.reverse.find? fun entry => entry.1 = ty).map Prod.snd := by
  induction entries using List.reverseRecOn with
  | nil => rfl
  | append_singleton entries entry ih =>
      rw [ofList, List.foldl_append, ← ofList, List.reverse_append]
      change find? ty (insert entry.1 entry.2 (ofList entries)) =
        (List.find? _ (entry :: entries.reverse)).map _
      by_cases hty : entry.1 = ty
      · rw [List.find?_cons_of_pos (by simpa using hty), ← hty, find?_insert_self]
        rfl
      · rw [List.find?_cons_of_neg (by simpa using hty), find?_insert_of_ne (Ne.symm hty), ih]

theorem find?_ofList_of_mem {entries : List (OutputType × OutputDescriptor)}
    (hty : ty ∈ entries.map Prod.fst) (h : ∀ entry ∈ entries, entry.1 = ty → entry.2 = d) :
    find? ty (ofList entries) = some d := by
  obtain ⟨entry, hentry, hfst⟩ := List.mem_map.mp hty
  have hsome : (entries.reverse.find? fun entry => entry.1 = ty).isSome = true :=
    List.find?_isSome.mpr ⟨entry, List.mem_reverse.mpr hentry, decide_eq_true hfst⟩
  obtain ⟨found, hfound⟩ := Option.isSome_iff_exists.mp hsome
  have hmem := List.mem_reverse.mp (List.mem_of_find?_eq_some hfound)
  have hfoundTy : found.1 = ty := by simpa using List.find?_some hfound
  rw [find?_ofList, hfound, Option.map_some, h found hmem hfoundTy]

theorem find?_ofList_of_not_mem {entries : List (OutputType × OutputDescriptor)}
    (hty : ty ∉ entries.map Prod.fst) : find? ty (ofList entries) = none := by
  rw [find?_ofList, Option.map_eq_none_iff, List.find?_eq_none]
  intro entry hentry h
  exact hty (List.mem_map.mpr ⟨entry, List.mem_reverse.mp hentry, of_decide_eq_true h⟩)

end DescriptorIndex

namespace Bundle

variable {master : XKey} {network : Network} {account : UInt32} {types : List OutputType}
  {b : Bundle}

theorem deriveAll_fst (master : XKey) (network : Network) (account : UInt32)
    (types : List OutputType) : (deriveAll master network account types).1 =
      types.mapM fun ty => (ty.accountDescriptor master network account).1 := by
  induction types with
  | nil => rfl
  | cons ty types ih =>
      rw [deriveAll, List.mapM_cons, ← ih]
      rcases ty.accountDescriptor master network account with ⟨_ | d, _⟩
      · rfl
      · rcases deriveAll master network account types with ⟨_ | ds, _⟩ <;> rfl

/-- A bundle is made of a descriptor for each kind. -/
theorem make_eq_some_iff : (make master network account types).1 = some b ↔
    master.depth = 0 ∧ types ≠ [] ∧ ∃ ds,
      (types.mapM fun ty => (ty.accountDescriptor master network account).1) = .ok ds ∧
        b = ⟨master, network, account, ds, .ofList (types.zip ds)⟩ := by
  have hderive := deriveAll_fst master network account types
  by_cases hne : types = []
  · subst hne
    simp [make]
  by_cases hdepth : master.depth = 0
  · have hmaster : master.isMaster = true := beq_iff_eq.mpr hdepth
    simp only [make, List.isEmpty_iff, hne, if_false, hmaster, Bool.not_true, Bool.false_eq_true,
      hdepth, ne_eq, not_false_eq_true, true_and, ← hderive]
    rcases deriveAll master network account types with ⟨_ | ds, _⟩
    · simp
    · simp [eq_comm]
  · have hmaster : master.isMaster = false := beq_eq_false_iff_ne.mpr hdepth
    simp [make, hne, hmaster, hdepth]

theorem isSome_make_iff : (make master network account types).1.isSome = true ↔
    master.depth = 0 ∧ types ≠ [] ∧
      ∀ ty ∈ types, ∃ d, (ty.accountDescriptor master network account).1 = .ok d := by
  rw [Option.isSome_iff_exists, ← exists_mapM_eq_ok_iff]
  constructor
  · rintro ⟨b, hb⟩
    obtain ⟨hdepth, hne, ds, hds, -⟩ := make_eq_some_iff.mp hb
    exact ⟨hdepth, hne, ds, hds⟩
  · rintro ⟨hdepth, hne, ds, hds⟩
    exact ⟨_, make_eq_some_iff.mpr ⟨hdepth, hne, ds, hds, rfl⟩⟩

/-- A bundle is made if there is a kind, the key is a master key and every kind has a descriptor.
Then the list holds the descriptor of each kind in the order of the kinds, and the index finds the
same descriptor under each of them and nothing under any other. -/
theorem make_all_or_nothing (master : XKey) (network : Network) (account : UInt32)
    (types : List OutputType) :
    ((make master network account types).1.isSome = true ↔ master.depth = 0 ∧ types ≠ [] ∧
      ∀ ty ∈ types, ∃ d, (ty.accountDescriptor master network account).1 = .ok d) ∧
    ∀ b, (make master network account types).1 = some b →
      types.map (fun ty => (ty.accountDescriptor master network account).1) =
        b.descriptors.map .ok ∧
      (∀ ty ∈ types, ∃ d, (ty.accountDescriptor master network account).1 = .ok d ∧
        b.descriptorFor? ty = some d) ∧
      ∀ ty, ty ∉ types → b.descriptorFor? ty = none := by
  refine ⟨isSome_make_iff, fun b hb => ?_⟩
  obtain ⟨-, -, ds, hds, rfl⟩ := make_eq_some_iff.mp hb
  have hmap := mapM_eq_ok_iff.mp hds
  have hlength : types.length = ds.length := by simpa using congrArg List.length hmap
  have hfst : (types.zip ds).map Prod.fst = types := List.map_fst_zip (Nat.le_of_eq hlength)
  refine ⟨hmap, fun ty hty => ?_, fun ty hty => ?_⟩
  · obtain ⟨d, hd⟩ := exists_mapM_eq_ok_iff.mp ⟨ds, hds⟩ ty hty
    refine ⟨d, hd, DescriptorIndex.find?_ofList_of_mem (by rwa [hfst]) ?_⟩
    -- each time the kind is listed, the same descriptor is made for it
    rintro entry hentry rfl
    exact Except.ok.inj ((eq_ok_of_mem_zip hds entry hentry).symm.trans hd)
  · exact DescriptorIndex.find?_ofList_of_not_mem (by rwa [hfst])

/-- A kind that is listed twice, one that differs from it in its name only, and one whose path leads
to no account. -/
theorem make_of_kind_listed_twice :
    let m := OutputType.masterOfOne
    let ty : OutputType := ⟨"Anyone", "anyone", "raw(51)", "ACCOUNT'", none⟩
    let other : OutputType := { ty with accountPath := "*'" }
    (∃ b d, (make (.xprv m) .mainnet 0 [ty, ty]).1 = some b ∧ b.descriptors = [d, d] ∧
      b.descriptorFor? ty = some d ∧ b.descriptorFor? { ty with name := "Someone" } = none) ∧
    (make (.xprv m) .mainnet 0 [ty, other]).1 = none := by
  intro m ty other
  have hty : (ty.accountDescriptor (.xprv m) .mainnet 0).1.toOption.isSome = true := by
    decide +kernel
  have hother : (other.accountDescriptor (.xprv m) .mainnet 0).1.toOption.isSome = false := by
    decide +kernel
  obtain ⟨d, hd⟩ := Option.isSome_iff_exists.mp hty
  have hd := toOption_eq_some_iff.mp hd
  constructor
  · obtain ⟨hsome, hb⟩ := make_all_or_nothing (.xprv m) .mainnet 0 [ty, ty]
    obtain ⟨b, hmake⟩ := Option.isSome_iff_exists.mp
      (hsome.mpr ⟨rfl, List.cons_ne_nil _ _, by simp [hd]⟩)
    obtain ⟨hlist, hlisted, hunlisted⟩ := hb b hmake
    obtain ⟨d', hd', hfind⟩ := hlisted ty List.mem_cons_self
    refine ⟨b, d, hmake, ?_, ?_, hunlisted _ (by decide)⟩
    · rw [List.map_cons, List.map_cons, List.map_nil, hd] at hlist
      have hboth : [d, d].map (Except.ok (ε := AccountError)) = b.descriptors.map .ok := hlist
      exact ((List.map_inj_right fun _ _ => Except.ok.inj).mp hboth).symm
    · rwa [← Except.ok.inj (hd'.symm.trans hd)]
  · obtain ⟨hsome, -⟩ := make_all_or_nothing (.xprv m) .mainnet 0 [ty, other]
    refine Option.not_isSome_iff_eq_none.mp fun h => ?_
    obtain ⟨d, hd⟩ := (hsome.mp h).2.2 other (by simp)
    rw [hd] at hother
    cases hother

end Bundle

end WalletExchange
