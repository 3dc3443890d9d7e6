import WalletExchange.Key.Resolve
import WalletExchange.Proofs.Key.Arrival

/-!
# Proofs — what a key that was sent stands for

The children of an extended key are made from its depth, its chain code and the key itself
(`Extended.seed`), and all of these arrive when the key is sent.  The path that a provider is asked
for is made from the fingerprint of the master key, the steps of the origin and the steps of the
children, which arrive too, unless the origin has no fingerprint.

Main statement:

* `KeyExpression.resolve_exchanged` — a key that was sent stands for the key it stood for, and the
  provider is asked for the same paths.
-/

namespace WalletExchange

/-- What the children of an extended key are made from. -/
def Extended.seed {κ : Type} (k : Extended κ) : UInt8 × Block 32 × κ :=
  (k.depth, k.chainCode, k.key)

theorem Extended.seed_eq_iff {κ : Type} {a b : Extended κ} :
    a.seed = b.seed ↔ a.depth = b.depth ∧ a.chainCode = b.chainCode ∧ a.key = b.key := by
  simp [seed]

theorem Extended.seed_place {κ : Type} {a b : Extended κ} (h : a.depth = b.depth)
    (f g : Fingerprint) (n m : ChildNumber) (chainCode : Block 32) (key : κ) :
    (place a f n chainCode key).map seed = (place b g m chainCode key).map seed := by
  rw [place, place, h]
  split
  · rfl
  · simp [Except.map, seed]

/-- Descendants are made from what children are made from. -/
theorem Extended.seed_foldlM {κ : Type}
    {child? : Extended κ → ChildNumber → Except DerivationError (Extended κ)}
    (hchild : ∀ {a b : Extended κ}, a.seed = b.seed →
      ∀ n, (child? a n).map seed = (child? b n).map seed)
    {a b : Extended κ} (h : a.seed = b.seed) (numbers : List ChildNumber) :
    (numbers.foldlM child? a).map seed = (numbers.foldlM child? b).map seed := by
  induction numbers generalizing a b with
  | nil => exact congrArg Except.ok h
  | cons n numbers ih =>
      have hfirst := hchild h n
      rw [List.foldlM_cons, List.foldlM_cons]
      -- both keys have a child, or both fail with the same error
      cases ha : child? a n with
      | error e =>
          rw [ha] at hfirst
          cases hb : child? b n with
          | error e' => rw [hb] at hfirst; exact hfirst
          | ok b' => rw [hb] at hfirst; cases hfirst
      | ok a' =>
          rw [ha] at hfirst
          cases hb : child? b n with
          | error e => rw [hb] at hfirst; cases hfirst
          | ok b' => rw [hb] at hfirst; exact ih (Except.ok.inj hfirst)

theorem Extended.key_eq_of_seed {κ α : Type} {x y : Except DerivationError (Extended κ)}
    (h : x.map seed = y.map seed) (f : κ → α) :
    (x.toOption.map fun k => f k.key) = y.toOption.map fun k => f k.key := by
  cases x with
  | error e =>
      cases y with
      | error e' => rfl
      | ok b => cases h
  | ok a =>
      cases y with
      | error e => cases h
      | ok b => exact congrArg (fun k => some (f k)) (seed_eq_iff.mp (Except.ok.inj h)).2.2

theorem ExtendedPublic.seed_child? {a b : ExtendedPublic} (h : a.seed = b.seed)
    (n : ChildNumber) : (a.child? n).map Extended.seed = (b.child? n).map Extended.seed := by
  obtain ⟨hdepth, hchain, hkey⟩ := Extended.seed_eq_iff.mp h
  rw [child?, child?, hchain, hkey]
  split
  · rfl
  · split
    · split
      · exact Extended.seed_place hdepth ..
      · rfl
    · rfl

theorem ExtendedPrivate.seed_child? {a b : ExtendedPrivate} (h : a.seed = b.seed)
    (n : ChildNumber) : (a.child? n).map Extended.seed = (b.child? n).map Extended.seed := by
  obtain ⟨hdepth, hchain, hkey⟩ := Extended.seed_eq_iff.mp h
  rw [child?, child?, childData, childData, hchain, hkey]
  split
  · split
    · exact Extended.seed_place hdepth ..
    · rfl
  · rfl

namespace KeyExpression

variable {k : KeyExpression} {key : HdKey}

/-- The steps and the fingerprint of the origin that arrives. -/
theorem origin_exchangedHd (key : HdKey)
    (horigin : ∀ origin ∈ k.origin, origin.fingerprint.isSome) :
    (k.exchangedHd key).origin.elim [] Path.steps = k.origin.elim [] Path.steps ∧
      (k.exchangedHd key).origin.bind Path.fingerprint = k.origin.bind Path.fingerprint := by
  rw [exchangedHd_eq]
  cases h : k.origin with
  | none => exact ⟨rfl, rfl⟩
  | some origin =>
      rw [keptOrigin?, Option.filter_some, if_pos (horigin origin h)]
      exact ⟨rfl, rfl⟩

theorem masterFingerprint?_exchangedHd (hmaterial : k.material = .hd key)
    (horigin : ∀ origin ∈ k.origin, origin.fingerprint.isSome) :
    (k.exchangedHd key).masterFingerprint? = k.masterFingerprint? := by
  have hkey : ∀ parent child, (key.key.relocated parent child).fingerprint = key.key.fingerprint :=
    fun parent child => by cases key.key <;> rfl
  rw [masterFingerprint?, masterFingerprint?, (origin_exchangedHd key horigin).2, hmaterial]
  cases k.origin.bind Path.fingerprint with
  | some fingerprint => rfl
  | none => exact congrArg some (hkey _ _)

/-- A child of the key that arrives is that of the key that was sent. -/
theorem resolveChild_exchangedHd (hmaterial : k.material = .hd key)
    (horigin : ∀ origin ∈ k.origin, origin.fingerprint.isSome) (c : ScriptContext)
    (parent : Fingerprint) (child : ChildNumber) (numbers : List ChildNumber) :
    (k.exchangedHd key).resolveChild c (key.key.relocated parent child) numbers =
      k.resolveChild c key.key numbers := by
  have hmaster := masterFingerprint?_exchangedHd hmaterial horigin
  have hsteps := (origin_exchangedHd key horigin).1
  cases h : key.key with
  | xprv secret =>
      -- the provider is asked for children of public keys only
      have hdescendant := Extended.seed_foldlM ExtendedPrivate.seed_child?
        (a := { secret with network := secret.network.exchanged, parent, child }) (b := secret)
        rfl numbers
      exact congrArg Resolution.ofOption
        (Extended.key_eq_of_seed hdescendant fun s => PublicKey.mk s.point true)
  | xpub point =>
      let moved : ExtendedPublic := { point with network := point.network.exchanged, parent, child }
      have hdescendant :=
        Extended.seed_foldlM ExtendedPublic.seed_child? (a := moved) (b := point) rfl numbers
      have hfingerprint : (XKey.xpub moved).fingerprint = (XKey.xpub point).fingerprint := rfl
      have hpath : (k.exchangedHd key).fullPath (.xpub moved) numbers =
          k.fullPath (.xpub point) numbers := by
        rw [fullPath, fullPath, hmaster, hsteps, hfingerprint]
      change (k.exchangedHd key).resolveChild c (.xpub moved) numbers = _
      rw [resolveChild, resolveChild, hpath]
      split
      · rfl
      · exact congrArg Resolution.ofOption
          (Extended.key_eq_of_seed hdescendant fun p => PublicKey.mk p true)

/-- A key that was sent stands for the key it stood for, in every context, and the provider is asked
for the same paths. -/
theorem resolve_exchanged (horigin : ∀ origin ∈ k.origin, origin.fingerprint.isSome)
    (c : ScriptContext) : k.exchanged.resolve c = k.resolve c := by
  obtain ⟨origin, material⟩ := k
  cases material with
  | plain key | wif key => rfl
  | hd key =>
      have hchild := resolveChild_exchangedHd (k := ⟨origin, .hd key⟩) rfl horigin c
      obtain ⟨xkey, children⟩ := key
      cases children with
      | none => exact hchild _ _ []
      | some path =>
          have hnumbers : path.canonical.childNumbers? c.wildcardChild c.branch =
              path.childNumbers? c.wildcardChild c.branch := by
            rw [Path.childNumbers?, Path.steps_canonical, Path.childNumbers?]
          change
            (Resolution.ofOption (path.canonical.childNumbers? c.wildcardChild c.branch) >>= _) =
            (Resolution.ofOption (path.childNumbers? c.wildcardChild c.branch) >>= _)
          rw [hnumbers]
          exact congrArg _ (funext fun numbers => hchild _ _ numbers)

end KeyExpression

end WalletExchange
