import WalletExchange.Proofs.Key.Arrival

/-!
# Proofs — keys that arrive unchanged

A key is consistent if its parts say nothing that an encoding does not keep: no origin in front of a
plain or private key, an origin of an extended key that ends where the key is, no test network but
one, and no recorded depth that the number of steps tells as well.  That is not all a key needs to
be read back: the reader also asks of its child number and of its paths that indexes are below the
bound, and of the pairs of its children that their branches are fixed.  What was read from a text or
a value is so, and what was read from a record need not be.  A consistent key within these bounds
arrives as it was sent.

Main statements:

* `KeyExpression.Consistent.exchanged_eq` — a consistent key arrives unchanged, if it arrives.
* `KeyExpression.sendable_of_inBounds` — a consistent key within the bounds arrives.
-/

namespace WalletExchange

namespace Path

/-- The path is an origin that leads to the child number of its key. -/
structure LeadsTo (p : Path) (child : ChildNumber) : Prop where
  fingerprint : p.fingerprint.isSome = true
  fixed : ∀ s ∈ p.steps, s.isFixed = true
  no_depth : p.explicitDepth = none
  length_le : p.steps.length ≤ 255
  last : (p.steps = [] ∧ child = ⟨.zero, false⟩) ∨
    p.steps.getLast? = some (.ofChildNumber child)

instance (p : Path) (child : ChildNumber) : Decidable (p.LeadsTo child) :=
  decidable_of_iff (_ ∧ _ ∧ _ ∧ _ ∧ _)
    ⟨fun ⟨h₁, h₂, h₃, h₄, h₅⟩ => ⟨h₁, h₂, h₃, h₄, h₅⟩,
      fun ⟨h₁, h₂, h₃, h₄, h₅⟩ => ⟨h₁, h₂, h₃, h₄, h₅⟩⟩

theorem childSteps_of_fixed {steps : List Step} (h : ∀ s ∈ steps, s.isFixed = true) :
    ChildSteps steps := by
  have hfixed : ∀ s ∈ steps, s.isWildcard = false ∧ s.isPair = false := by
    intro s hs
    simpa [Step.isFixed] using h s hs
  refine ⟨fun s hs => (hfixed s (List.dropLast_subset steps hs)).1, ?_⟩
  have hnone : steps.countP Step.isPair = 0 := by
    rw [List.countP_eq_zero]
    intro s hs
    rw [(hfixed s hs).2]
    exact Bool.false_ne_true
  rw [hnone]
  exact Nat.zero_le 1

theorem fixedBranches_of_fixed {s : Step} (h : s.isFixed = true) : s.FixedBranches := by
  cases s with
  | single s => trivial
  | pair p => exact absurd h (by simp [Step.isFixed, Step.isPair])

end Path

/-- The parts of an extended key and of its origin agree. -/
structure HdKey.Consistent (origin : Option Path) (key : HdKey) : Prop where
  network : key.key.network = .bitcoin ∨ key.key.network = .testnet
  origin : ∀ path ∈ origin, path.LeadsTo key.key.child
  master : key.key.depth = 0 → key.key.child = ⟨.zero, false⟩ ∧ key.key.parent = 0
  children : ∀ path ∈ key.children, path.check .lastStepWildcard = .ok ()
  children_depth : ∀ path ∈ key.children, ∀ depth ∈ path.explicitDepth,
    depth.toNat ≠ path.steps.length

instance (origin : Option Path) (key : HdKey) : Decidable (key.Consistent origin) :=
  -- the depth that is recorded is looked at, not every depth there is
  letI (path : Path) : Decidable (∀ depth ∈ path.explicitDepth, depth.toNat ≠ path.steps.length) :=
    Option.decidableForallMem path.explicitDepth
  decidable_of_iff (_ ∧ _ ∧ _ ∧ _ ∧ _)
    ⟨fun ⟨h₁, h₂, h₃, h₄, h₅⟩ => ⟨h₁, h₂, h₃, h₄, h₅⟩,
      fun ⟨h₁, h₂, h₃, h₄, h₅⟩ => ⟨h₁, h₂, h₃, h₄, h₅⟩⟩

/-- The indexes in an extended key and in its paths are below the bound, and the pairs of its
children have fixed branches. -/
structure HdKey.InBounds (origin : Option Path) (key : HdKey) : Prop where
  child : key.key.child.index.InRange
  origin : ∀ path ∈ origin, ∀ s ∈ path.steps, s.InRange
  children : ∀ path ∈ key.children, ∀ s ∈ path.steps, s.InRange
  branches : ∀ path ∈ key.children, ∀ s ∈ path.steps, s.FixedBranches

instance (origin : Option Path) (key : HdKey) : Decidable (key.InBounds origin) :=
  decidable_of_iff (_ ∧ _ ∧ _ ∧ _)
    ⟨fun ⟨h₁, h₂, h₃, h₄⟩ => ⟨h₁, h₂, h₃, h₄⟩, fun ⟨h₁, h₂, h₃, h₄⟩ => ⟨h₁, h₂, h₃, h₄⟩⟩

namespace KeyExpression

/-- The parts of the key expression say nothing that an encoding does not keep. -/
def Consistent (k : KeyExpression) : Prop :=
  match k.material with
  | .plain _ => k.origin = none
  | .wif key => k.origin = none ∧ (key.network = .bitcoin ∨ key.network = .testnet)
  | .hd key => key.Consistent k.origin

instance : DecidablePred Consistent
  | ⟨origin, .plain _⟩ => inferInstanceAs (Decidable (origin = none))
  | ⟨origin, .wif key⟩ => inferInstanceAs (Decidable (origin = none ∧ (key.network = _ ∨ _)))
  | ⟨origin, .hd key⟩ => inferInstanceAs (Decidable (key.Consistent origin))

/-- The indexes and the pairs of the key expression are such as the reader takes. -/
def InBounds (k : KeyExpression) : Prop :=
  match k.material with
  | .plain _ | .wif _ => True
  | .hd key => key.InBounds k.origin

instance : DecidablePred InBounds
  | ⟨_, .plain _⟩ | ⟨_, .wif _⟩ => inferInstanceAs (Decidable True)
  | ⟨origin, .hd key⟩ => inferInstanceAs (Decidable (key.InBounds origin))

variable {k : KeyExpression} {key : HdKey}

/-- The origin that is written is valid if the one of the key is. -/
theorem valid_writtenOrigin? (horigin : ∀ path ∈ k.origin, path.Valid)
    (hchild : key.key.child.index.InRange) :
    ∀ path ∈ k.writtenOrigin? key.key, path.Valid := by
  intro path hpath
  cases horigin' : k.origin with
  | some origin =>
      have hvalid := horigin origin horigin'
      rw [writtenOrigin?, horigin'] at hpath
      cases hpath
      exact ⟨hvalid.steps, hvalid.children⟩
  | none =>
      rw [writtenOrigin?, horigin'] at hpath
      by_cases hzero : key.key.depth = 0
      · simp only [hzero, if_true] at hpath
        cases hpath
      · simp only [hzero, if_false] at hpath
        cases hpath
        refine ⟨List.forall_mem_singleton.mpr (Step.valid_single_iff.mpr hchild), ?_⟩
        exact Path.childSteps_of_fixed (List.forall_mem_singleton.mpr rfl)

/-- A consistent key within the bounds is read back. -/
theorem sendable_of_inBounds (h : k.Consistent) (hbounds : k.InBounds) : k.Sendable := by
  obtain ⟨origin, material⟩ := k
  cases material with
  | plain key | wif key => trivial
  | hd key =>
      have h : key.Consistent origin := h
      have hbounds : key.InBounds origin := hbounds
      refine ⟨valid_writtenOrigin? (fun path hpath => ?_) hbounds.child, fun path hpath => ?_⟩
      · have hfixed := (h.origin path hpath).fixed
        refine ⟨fun s hs => ⟨hbounds.origin path hpath s hs, ?_⟩, Path.childSteps_of_fixed hfixed⟩
        exact Path.fixedBranches_of_fixed (hfixed s hs)
      · exact Path.valid_iff.mpr
          ⟨h.children path hpath, hbounds.children path hpath, hbounds.branches path hpath⟩

/-- The child number that arrives is that of the key. -/
theorem arrivingChild_eq (h : key.Consistent k.origin) :
    k.arrivingChild key.key = key.key.child := by
  rw [arrivingChild]
  cases horigin : k.origin with
  | some origin => exact Path.EndsAt.childOfOrigin_eq (h.origin origin horigin).last
  | none =>
      by_cases hzero : key.key.depth = 0
      · exact (if_pos hzero).trans (h.master hzero).1.symm
      · exact if_neg hzero

theorem keptOrigin?_origin (h : key.Consistent k.origin) : keptOrigin? k.origin = k.origin :=
  (keptOrigin?_eq_self_iff (fun path hpath => (h.origin path hpath).fingerprint)
    fun path hpath => (h.origin path hpath).no_depth).mpr
    fun path hpath => Nat.lt_succ_of_le (h.origin path hpath).length_le

theorem writtenParent_eq (h : key.Consistent k.origin) :
    k.writtenParent key = key.key.parent := by
  rw [writtenParent]
  cases hbare : k.isBareMaster key with
  | false => rfl
  | true =>
      obtain ⟨-, hmaster, -, -⟩ := isBareMaster_iff.mp hbare
      exact (h.master (beq_iff_eq.mp hmaster)).2.symm

/-- A consistent key arrives unchanged. -/
theorem Consistent.exchanged_eq (h : k.Consistent) : k.exchanged = k := by
  obtain ⟨origin, material⟩ := k
  cases material with
  | plain key =>
      obtain rfl : origin = none := h
      rfl
  | wif key =>
      obtain ⟨rfl, hnetwork⟩ :
          origin = none ∧ (key.network = .bitcoin ∨ key.network = .testnet) := h
      simp only [exchanged, BitcoinNetwork.exchanged_eq hnetwork]
      rfl
  | hd key =>
      have h : key.Consistent origin := h
      have hplaced := XKey.placed_eq_self_iff.mpr
        ⟨writtenParent_eq (k := ⟨origin, .hd key⟩) h, arrivingChild_eq (k := ⟨origin, .hd key⟩) h⟩
      change exchangedHd _ key = _
      rw [exchangedHd_eq_placed (BitcoinNetwork.exchanged_eq h.network) h.children_depth, hplaced,
        keptOrigin?_origin (k := ⟨origin, .hd key⟩) h]

end KeyExpression

end WalletExchange
