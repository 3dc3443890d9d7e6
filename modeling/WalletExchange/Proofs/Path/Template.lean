import Mathlib.Data.List.Forall2
import WalletExchange.Path.Template
import WalletExchange.Proofs.Path.Records

/-!
# Proofs — templates and the paths that fit them

A template admits the paths that come of it when numbers are put in for its placeholders, and no
others: 0 or 1 for the coin type, any index for the account.  It must be linear for this, and the
indexes of the path below the bound, which a record does not promise.  A
wildcard stays in what comes of a template, and a placeholder in two places admits two numbers where
only one can be put in.

Main statements:

* `PathTemplate.exists_eq_map_instantiate`, `PathTemplate.admits_map_instantiate` — a linear
  template admits exactly the steps that come of it.
* `PathTemplate.not_admits_of_clash` — templates with different indexes in one place have no path in
  common.
* `PathTemplate.instantiate_eq_ok_iff` — what comes of a template, and of which numbers.
* `PathTemplate.admits_iff_instance` — admitting a path is finding the numbers that it comes of;
  `PathTemplate.not_admits_iff_instance` — an account beyond the bound is admitted as well.
-/

namespace WalletExchange

/-- Lists of one length that agree in every place. -/
theorem all_zip_iff_forall₂ {α β : Type} (test : α → β → Bool) (as : List α) (bs : List β) :
    (as.length == bs.length && (as.zip bs).all fun (a, b) => test a b) = true ↔
      List.Forall₂ (fun a b => test a b = true) as bs := by
  rw [Bool.and_eq_true, beq_iff_eq, List.all_eq_true, List.forall₂_iff_zip]
  exact and_congr_right fun _ => ⟨fun h _ _ hmem => h _ hmem, fun h _ hmem => h hmem⟩

namespace TemplateStep

/-- The step that comes of the step of a template. -/
def instantiate (coinType account : ChildIndex) (s : TemplateStep) : Step :=
  .single ⟨s.index.instantiate coinType account, s.isHardened⟩

variable {s s' : TemplateStep} {step : Step} {coinType account : ChildIndex}
  {steps : List TemplateStep}

/-- A step that is admitted is a fixed index. -/
theorem exists_of_admits (h : s.admits step = true) :
    ∃ i, step = .single ⟨.index i, s.isHardened⟩ ∧ s.index.admits i = true := by
  cases step with
  | pair p => cases h
  | single single =>
      obtain ⟨spec, isHardened⟩ := single
      cases spec with
      | wildcard => cases h
      | index i =>
          obtain ⟨hhardened, hindex⟩ := (Bool.and_eq_true_iff ..).mp h
          obtain rfl := beq_iff_eq.mp hhardened
          exact ⟨i, rfl, hindex⟩

theorem admits_instantiate (hwildcard : s.index ≠ .wildcard)
    (hcoinType : coinType = .zero ∨ coinType = .one) :
    s.admits (s.instantiate coinType account) = true := by
  obtain ⟨index, isHardened⟩ := s
  cases index with
  | fixed i => simp [instantiate, admits, TemplateIndex.instantiate, TemplateIndex.admits]
  | wildcard => exact absurd rfl hwildcard
  | coinType =>
      simpa [instantiate, admits, TemplateIndex.instantiate, TemplateIndex.admits] using hcoinType
  | account => simp [instantiate, admits, TemplateIndex.instantiate, TemplateIndex.admits]

/-- No step is a wildcard, and each placeholder has one place at most. -/
structure Linear (steps : List TemplateStep) : Prop where
  no_wildcard : ∀ s ∈ steps, s.index ≠ .wildcard
  coinType : (steps.map index).count .coinType ≤ 1
  account : (steps.map index).count .account ≤ 1

instance : DecidablePred Linear := fun _ =>
  decidable_of_iff (_ ∧ _ ∧ _) ⟨fun h => ⟨h.1, h.2.1, h.2.2⟩, fun h => ⟨h.1, h.2, h.3⟩⟩

theorem Linear.tail (h : Linear (s :: steps)) : Linear steps where
  no_wildcard := (List.forall_mem_cons.mp h.no_wildcard).2
  coinType := Nat.le_trans (List.count_le_count_cons ..) h.coinType
  account := Nat.le_trans (List.count_le_count_cons ..) h.account

/-- A placeholder in the first place is in no other one. -/
theorem notMem_of_count {i : TemplateIndex} (h : ((s :: steps).map index).count i ≤ 1)
    (hs : s.index = i) : i ∉ steps.map index := by
  rw [List.map_cons, hs, List.count_cons_self] at h
  exact List.count_eq_zero.mp (Nat.le_zero.mp (Nat.le_of_succ_le_succ h))

/-- What comes of steps depends only on the numbers that are put in. -/
theorem map_instantiate_congr {coinType' account' : ChildIndex}
    (hcoinType : .coinType ∈ steps.map index → coinType = coinType')
    (haccount : .account ∈ steps.map index → account = account') :
    steps.map (instantiate coinType account) = steps.map (instantiate coinType' account') := by
  refine List.map_congr_left fun s hs => ?_
  have hmem : s.index ∈ steps.map index := List.mem_map_of_mem hs
  cases hindex : s.index with
  | fixed | wildcard => simp only [instantiate, hindex, TemplateIndex.instantiate]
  | coinType =>
      simp only [instantiate, hindex, TemplateIndex.instantiate, hcoinType (hindex ▸ hmem)]
  | account =>
      simp only [instantiate, hindex, TemplateIndex.instantiate, haccount (hindex ▸ hmem)]

/-- Both steps are fixed, and at different indexes. -/
def Clashes (s s' : TemplateStep) : Prop :=
  match s.index, s'.index with
  | .fixed i, .fixed j => i ≠ j
  | _, _ => False

instance : DecidableRel Clashes := fun s s' => by
  unfold Clashes
  split <;> infer_instance

theorem Clashes.not_admits (h : s.Clashes s') (hs : s.admits step = true) :
    ¬ s'.admits step = true := by
  intro hs'
  obtain ⟨i, rfl, hi⟩ := exists_of_admits hs
  obtain ⟨j, hij, hj⟩ := exists_of_admits hs'
  obtain ⟨rfl, -⟩ : i = j ∧ s.isHardened = s'.isHardened := by simpa using hij
  unfold Clashes at h
  split at h
  · next k l hk hl =>
    rw [hk] at hi
    rw [hl] at hj
    exact h ((beq_iff_eq.mp hi).symm.trans (beq_iff_eq.mp hj))
  · exact h

end TemplateStep

namespace PathTemplate

open TemplateStep

variable {t t' : PathTemplate} {p : Path}

theorem admits_iff_forall₂ :
    t.admits p = true ↔ List.Forall₂ (fun s step => s.admits step = true) t.steps p.steps :=
  all_zip_iff_forall₂ TemplateStep.admits t.steps p.steps

/-- Steps that a linear template admits come of it, with a number in range for the account if their
indexes are. -/
theorem exists_eq_map_instantiate (hlinear : Linear t.steps) (h : t.admits p = true) :
    ∃ coinType account, (coinType = .zero ∨ coinType = .one) ∧
      ((∀ i isHardened, Step.single ⟨.index i, isHardened⟩ ∈ p.steps → i.InRange) →
        account.InRange) ∧
      p.steps = t.steps.map (TemplateStep.instantiate coinType account) := by
  have hforall := admits_iff_forall₂.mp h
  generalize t.steps = steps at hlinear hforall
  generalize p.steps = path at hforall
  induction hforall with
  | nil => exact ⟨.zero, .zero, .inl rfl, fun _ => by decide, rfl⟩
  | @cons s step steps path hstep _ ih =>
      obtain ⟨i, rfl, hi⟩ := exists_of_admits hstep
      obtain ⟨coinType, account, hcoinType, haccount, rfl⟩ := ih hlinear.tail
      -- the number in the first place is put in everywhere, as its placeholder is nowhere else
      cases hindex : s.index with
      | fixed j =>
          obtain rfl : i = j := by simpa [hindex, TemplateIndex.admits] using hi
          refine ⟨coinType, account, hcoinType, fun hrange => haccount fun j isHardened hmem =>
            hrange j isHardened (List.mem_cons_of_mem _ hmem), ?_⟩
          simp [TemplateStep.instantiate, hindex, TemplateIndex.instantiate]
      | wildcard => exact absurd hindex (hlinear.no_wildcard s List.mem_cons_self)
      | coinType =>
          have hnotMem := notMem_of_count hlinear.coinType hindex
          have hrest : steps.map (TemplateStep.instantiate coinType account) =
              steps.map (TemplateStep.instantiate i account) :=
            map_instantiate_congr (fun hmem => absurd hmem hnotMem) fun _ => rfl
          refine ⟨i, account, by simpa [hindex, TemplateIndex.admits] using hi, fun hrange =>
            haccount fun j isHardened hmem => hrange j isHardened (List.mem_cons_of_mem _ hmem), ?_⟩
          rw [hrest, List.map_cons, TemplateStep.instantiate, hindex]
          rfl
      | account =>
          have hnotMem := notMem_of_count hlinear.account hindex
          have hrest : steps.map (TemplateStep.instantiate coinType account) =
              steps.map (TemplateStep.instantiate coinType i) :=
            map_instantiate_congr (fun _ => rfl) fun hmem => absurd hmem hnotMem
          refine ⟨coinType, i, hcoinType,
            fun hrange => hrange i s.isHardened List.mem_cons_self, ?_⟩
          rw [hrest, List.map_cons, TemplateStep.instantiate, hindex]
          rfl

/-- Steps that come of a linear template are admitted. -/
theorem admits_map_instantiate {coinType account : ChildIndex} (hlinear : Linear t.steps)
    (hcoinType : coinType = .zero ∨ coinType = .one)
    (h : p.steps = t.steps.map (TemplateStep.instantiate coinType account)) :
    t.admits p = true := by
  rw [admits_iff_forall₂, h, List.forall₂_map_right_iff, List.forall₂_same]
  exact fun s hs => admits_instantiate (hlinear.no_wildcard s hs) hcoinType

/-- Two templates with different indexes in one place have no path in common. -/
theorem not_admits_of_clash (h : ∃ q ∈ t.steps.zip t'.steps, q.1.Clashes q.2)
    (ht : t.admits p = true) : ¬ t'.admits p = true := by
  intro ht'
  obtain ⟨⟨s, s'⟩, hmem, hclash⟩ := h
  rw [admits_iff_forall₂] at ht ht'
  obtain ⟨n, hn⟩ := List.mem_iff_getElem?.mp hmem
  obtain ⟨hs, hs'⟩ := List.getElem?_zip_eq_some.mp hn
  obtain ⟨hlt, rfl⟩ := List.getElem?_eq_some_iff.mp hs
  obtain ⟨hlt', rfl⟩ := List.getElem?_eq_some_iff.mp hs'
  exact hclash.not_admits (ht.get hlt (ht.length_eq ▸ hlt)) (ht'.get hlt' (ht'.length_eq ▸ hlt'))

/-! ### Numbers put in -/

variable {coinType account : UInt32}

/-- The path that comes of a template. -/
theorem instantiate_eq_ok (hcoinType : coinType < ChildIndex.bound)
    (haccount : account < ChildIndex.bound) :
    t.instantiate coinType account =
      .ok (.ofSteps (t.steps.map (TemplateStep.instantiate ⟨coinType⟩ ⟨account⟩))) := by
  have hfirst : ChildIndex.ofUInt32? coinType = .ok ⟨coinType⟩ := if_pos hcoinType
  have hsecond : ChildIndex.ofUInt32? account = .ok ⟨account⟩ := if_pos haccount
  rw [instantiate, hfirst, ok_bind, hsecond]
  rfl

/-- A path comes of a template if both numbers are indexes. -/
theorem instantiate_eq_ok_iff {path : Path} :
    t.instantiate coinType account = .ok path ↔
      coinType < ChildIndex.bound ∧ account < ChildIndex.bound ∧
        path = .ofSteps (t.steps.map (TemplateStep.instantiate ⟨coinType⟩ ⟨account⟩)) := by
  constructor
  · intro h
    obtain ⟨first, hfirst, h⟩ := bind_eq_ok_iff.mp h
    obtain ⟨second, hsecond, ⟨⟩⟩ := bind_eq_ok_iff.mp h
    obtain ⟨rfl, hcoinType⟩ := ChildIndex.ofUInt32?_eq_ok_iff.mp hfirst
    obtain ⟨rfl, haccount⟩ := ChildIndex.ofUInt32?_eq_ok_iff.mp hsecond
    exact ⟨hcoinType, haccount, rfl⟩
  · rintro ⟨hcoinType, haccount, rfl⟩
    exact instantiate_eq_ok hcoinType haccount

theorem exists_instantiate_eq_error_iff :
    (∃ e, t.instantiate coinType account = .error e) ↔
      ChildIndex.bound ≤ coinType ∨ ChildIndex.bound ≤ account := by
  have hok : (∃ path, t.instantiate coinType account = .ok path) ↔
      coinType < ChildIndex.bound ∧ account < ChildIndex.bound :=
    ⟨fun ⟨_, h⟩ => ⟨(instantiate_eq_ok_iff.mp h).1, (instantiate_eq_ok_iff.mp h).2.1⟩,
      fun h => ⟨_, instantiate_eq_ok h.1 h.2⟩⟩
  rw [← UInt32.not_lt, ← UInt32.not_lt, ← Classical.not_and_iff_not_or_not, ← hok]
  cases t.instantiate coinType account with
  | ok path => simp
  | error e => simp

/-- A template with a wildcard does not admit what comes of it, as the wildcard is still there. -/
theorem not_admits_of_wildcard {path : Path} (hwildcard : ∃ s ∈ t.steps, s.index = .wildcard)
    (h : t.instantiate coinType account = .ok path) : t.admits path = false := by
  obtain ⟨-, -, rfl⟩ := instantiate_eq_ok_iff.mp h
  obtain ⟨s, hs, hindex⟩ := hwildcard
  rw [← Bool.not_eq_true, admits_iff_forall₂, Path.ofSteps, List.forall₂_map_right_iff,
    List.forall₂_same]
  intro hall
  have hadmits := hall s hs
  rw [TemplateStep.instantiate, hindex] at hadmits
  cases hadmits

/-- A linear template admits the paths whose steps come of it: with any index in the place of the
account, and with one below the bound if the indexes of the path are, as they are unless the path
was read from a record.  With a wildcard it admits none of the paths that come of it.  Nothing comes
of numbers that are no indexes. -/
theorem admits_iff_instance (t : PathTemplate) :
    (Linear t.steps → ∀ p : Path,
      (t.admits p = true ↔
        ∃ coinType account : ChildIndex, (coinType = .zero ∨ coinType = .one) ∧
          p.steps = t.steps.map (TemplateStep.instantiate coinType account)) ∧
      ((∀ i isHardened, Step.single ⟨.index i, isHardened⟩ ∈ p.steps → i.InRange) →
        (t.admits p = true ↔
          ∃ coinType account : UInt32, (coinType = 0 ∨ coinType = 1) ∧ account < ChildIndex.bound ∧
            ∃ path, t.instantiate coinType account = .ok path ∧ p.steps = path.steps))) ∧
    ((∃ s ∈ t.steps, s.index = .wildcard) → ∀ coinType account path,
      t.instantiate coinType account = .ok path → t.admits path = false) ∧
    ∀ coinType account, (∃ e, t.instantiate coinType account = .error e) ↔
      ChildIndex.bound ≤ coinType ∨ ChildIndex.bound ≤ account := by
  refine ⟨fun hlinear p => ⟨⟨fun h => ?_, ?_⟩, fun hrange => ⟨fun h => ?_, ?_⟩⟩,
    fun hwildcard coinType account path => not_admits_of_wildcard hwildcard,
    fun coinType account => exists_instantiate_eq_error_iff⟩
  · obtain ⟨coinType, account, hcoinType, -, hsteps⟩ := exists_eq_map_instantiate hlinear h
    exact ⟨coinType, account, hcoinType, hsteps⟩
  · rintro ⟨coinType, account, hcoinType, hsteps⟩
    exact admits_map_instantiate hlinear hcoinType hsteps
  · obtain ⟨⟨coinType⟩, ⟨account⟩, hcoinType, haccount, hsteps⟩ :=
      exists_eq_map_instantiate hlinear h
    have hvalue : coinType = 0 ∨ coinType = 1 := by
      simpa [ChildIndex.zero, ChildIndex.one] using hcoinType
    have hbound : coinType < ChildIndex.bound := by
      rcases hvalue with rfl | rfl <;> decide
    exact ⟨coinType, account, hvalue, haccount hrange, _,
      instantiate_eq_ok hbound (haccount hrange), hsteps⟩
  · rintro ⟨coinType, account, hcoinType, -, path, hpath, hsteps⟩
    obtain ⟨-, -, rfl⟩ := instantiate_eq_ok_iff.mp hpath
    exact admits_map_instantiate hlinear
      (by simpa [ChildIndex.zero, ChildIndex.one] using hcoinType) hsteps

/-- The template of cosigners and an account on a test network, and a wildcard that stays. -/
theorem admits_iff_instance_of_cosigner :
    let cosigner : PathTemplate :=
      ⟨[⟨.fixed ⟨48⟩, true⟩, ⟨.coinType, true⟩, ⟨.account, true⟩, ⟨.fixed ⟨2⟩, true⟩]⟩
    let addresses : PathTemplate := ⟨[⟨.account, true⟩, ⟨.wildcard, false⟩]⟩
    let steps : List Step := [48, 1, 5, 2].map fun n => .ofChildNumber ⟨⟨n⟩, true⟩
    let p : Path := ⟨some 0xd34db33f, steps, some 9⟩
    Linear cosigner.steps ∧
      (∀ i isHardened, Step.single ⟨.index i, isHardened⟩ ∈ p.steps → i.InRange) ∧
      cosigner.admits p = true ∧
      (∃ path, addresses.instantiate 0 5 = .ok path ∧ addresses.admits path = false) ∧
      ∃ e, addresses.instantiate 0 0x80000000 = .error e := by
  intro cosigner addresses steps p
  have hlinear : Linear cosigner.steps := by decide
  have hrange : ∀ i isHardened, Step.single ⟨.index i, isHardened⟩ ∈ p.steps → i.InRange := by
    have hall : ∀ s ∈ p.steps, s.InRange := by decide
    exact fun i isHardened hmem => hall _ hmem
  have hadmits := ((admits_iff_instance cosigner).1 hlinear p).2 hrange
  obtain ⟨-, hwildcard, herror⟩ := admits_iff_instance addresses
  have haddresses : addresses.instantiate 0 5 = .ok _ := instantiate_eq_ok (by decide) (by decide)
  exact ⟨hlinear, hrange, hadmits.mpr ⟨1, 5, .inr rfl, by decide, .ofSteps steps, rfl, rfl⟩,
    ⟨_, haddresses, hwildcard ⟨⟨.wildcard, false⟩, by decide, rfl⟩ _ _ _ haddresses⟩,
    (herror 0 0x80000000).mpr (.inr (by decide))⟩

/-- Of a record comes a path with an account that is no index.  It is admitted, and it is no path
that comes of the template. -/
theorem not_admits_iff_instance :
    let t : PathTemplate := ⟨[⟨.account, true⟩]⟩
    let p : Path := ⟨none, [.single ⟨.index ⟨0x80000000⟩, true⟩], none⟩
    Linear t.steps ∧ Path.ofRecord? p.toRecord = some p ∧ t.admits p = true ∧
      ¬ ∃ coinType account : UInt32, (coinType = 0 ∨ coinType = 1) ∧ account < ChildIndex.bound ∧
        ∃ path, t.instantiate coinType account = .ok path ∧ p.steps = path.steps := by
  intro t p
  refine ⟨by decide, Path.ofRecord?_toRecord p, by decide, ?_⟩
  rintro ⟨coinType, account, -, haccount, path, hpath, hsteps⟩
  obtain ⟨-, -, rfl⟩ := instantiate_eq_ok_iff.mp hpath
  obtain rfl : 0x80000000 = account := by
    simpa [t, p, Path.ofSteps, TemplateStep.instantiate, TemplateIndex.instantiate] using hsteps
  exact absurd haccount (by decide)

end PathTemplate

end WalletExchange
