import WalletExchange.Account.OutputType
import WalletExchange.Proofs.Except

/-!
# Proofs — where derived keys are

A key that is derived along a path of children is on the network of the key it is derived from, as
many levels deeper as the path has steps, and its child number is the last one of the path.  A
public key has no hardened children.

Main statement:

* `OutputType.below_of_derivePublic` — where the extended public key at the end of a path is.
-/

namespace WalletExchange

namespace Extended

variable {κ : Type} {a b c : Extended κ} {n : ChildNumber} {numbers : List ChildNumber}

/-- The key `b` is where a path from the key `a` leads. -/
structure Below (a : Extended κ) (numbers : List ChildNumber) (b : Extended κ) : Prop where
  network : b.network = a.network
  depth : b.depth.toNat = a.depth.toNat + numbers.length
  child : b.child = numbers.getLast?.getD a.child

theorem Below.refl (a : Extended κ) : Below a [] a := ⟨rfl, rfl, rfl⟩

theorem below_of_place {fingerprint : Fingerprint} {chainCode : Block 32} {key : κ}
    (h : a.place fingerprint n chainCode key = .ok b) : Below a [n] b := by
  rw [place] at h
  split at h
  · cases h
  · next hdepth =>
    cases h
    have hlt := a.depth.toNat_lt
    have hne : a.depth.toNat ≠ 255 := fun h => hdepth (UInt8.toNat_inj.mp h)
    refine ⟨rfl, ?_, rfl⟩
    change (a.depth + 1).toNat = a.depth.toNat + 1
    rw [UInt8.toNat_add]
    exact Nat.mod_eq_of_lt (by change a.depth.toNat + 1 < 256; omega)

theorem Below.cons (h : Below a [n] b) (h' : Below b numbers c) : Below a (n :: numbers) c where
  network := h'.network.trans h.network
  depth := by
    have hfirst : b.depth.toNat = a.depth.toNat + 1 := h.depth
    rw [h'.depth, hfirst, List.length_cons]
    omega
  child := by
    rw [h'.child, h.child]
    cases numbers with
    | nil => rfl
    | cons m numbers => simp [List.getLast?_cons]

/-- A path of children, each of which is below the one before it. -/
theorem below_of_foldlM {child? : Extended κ → ChildNumber → Except DerivationError (Extended κ)}
    (hchild : ∀ {a b : Extended κ} {n : ChildNumber}, child? a n = .ok b → Below a [n] b)
    (h : numbers.foldlM child? a = .ok b) : Below a numbers b := by
  induction numbers generalizing a with
  | nil =>
      cases h
      exact .refl _
  | cons n numbers ih =>
      rw [List.foldlM_cons] at h
      obtain ⟨c, hc, h⟩ := bind_eq_ok_iff.mp h
      exact (hchild hc).cons (ih h)

end Extended

theorem ExtendedPublic.below_of_child? {a b : ExtendedPublic} {n : ChildNumber}
    (h : a.child? n = .ok b) : Extended.Below a [n] b := by
  rw [child?] at h
  split at h
  · cases h
  · split at h
    · split at h
      · exact Extended.below_of_place h
      · cases h
    · cases h

theorem ExtendedPrivate.below_of_child? {a b : ExtendedPrivate} {n : ChildNumber}
    (h : a.child? n = .ok b) : Extended.Below a [n] b := by
  rw [child?] at h
  split at h
  · split at h
    · exact Extended.below_of_place h
    · cases h
  · cases h

namespace OutputType

/-- Below a private key, the extended public key is the one of the private key at the end. -/
theorem exists_of_derivePublic {master : ExtendedPrivate} {numbers : List ChildNumber}
    {key : ExtendedPublic} (h : derivePublic (.xprv master) numbers = .ok key) :
    ∃ child, master.descendant? numbers = .ok child ∧ child.toPublic = key :=
  map_eq_ok_iff.mp h

/-- The extended public key at the end of a path is where the path leads. -/
theorem below_of_derivePublic {master : XKey} {numbers : List ChildNumber} {key : ExtendedPublic}
    (h : derivePublic master numbers = .ok key) : Extended.Below master.toPublic numbers key := by
  cases master with
  | xpub k => exact Extended.below_of_foldlM ExtendedPublic.below_of_child? h
  | xprv k =>
      obtain ⟨secret, hsecret, rfl⟩ := exists_of_derivePublic h
      obtain ⟨hnetwork, hdepth, hchild⟩ :=
        Extended.below_of_foldlM ExtendedPrivate.below_of_child? hsecret
      exact ⟨hnetwork, hdepth, hchild⟩

/-- A public key has no hardened children. -/
theorem derivePublic_of_hardened {k : ExtendedPublic} {n : ChildNumber} {numbers : List ChildNumber}
    (h : n.isHardened = true) :
    derivePublic (.xpub k) (n :: numbers) = .error .hardenedFromPublic := by
  change List.foldlM ExtendedPublic.child? k (n :: numbers) = _
  rw [List.foldlM_cons, ExtendedPublic.child?, if_pos h]
  rfl

/-! ### A master key -/

/-- The master key of the secret one, with a chain code of zeros. -/
def masterOfOne : ExtendedPrivate :=
  ⟨.bitcoin, 0, 0, ⟨.zero, false⟩, ⟨List.replicate 32 0, rfl⟩, ⟨1, by decide, by decide⟩⟩

/-- The key at `45'` below it. -/
def cosignerOfOne : ExtendedPublic :=
  (derivePublic (.xprv masterOfOne) [⟨⟨45⟩, true⟩]).toOption.getD masterOfOne.toPublic

theorem derivePublic_masterOfOne :
    derivePublic (.xprv masterOfOne) [⟨⟨45⟩, true⟩] = .ok cosignerOfOne := by
  have hsome : (derivePublic (.xprv masterOfOne) [⟨⟨45⟩, true⟩]).toOption.isSome = true := by
    decide +kernel
  obtain ⟨key, hkey⟩ := Option.isSome_iff_exists.mp hsome
  rw [cosignerOfOne, hkey, Option.getD_some]
  exact toOption_eq_some_iff.mp hkey

end OutputType

end WalletExchange
