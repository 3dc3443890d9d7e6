import WalletExchange.Proofs.Curve.Group
import WalletExchange.Proofs.Key.Derivation
import WalletExchange.Proofs.Key.Requests

/-!
# Proofs — the routes to a key

There are three routes to the public key of a child: from the extended private key of its parent,
from the extended public key of the parent unless a child on the way is hardened, and from the
master key, by a provider that is asked for the path through the origin of the parent.  They end at
the same key, as adding points of the curve is adding their secrets.

Main statements:

* `ExtendedPrivate.child?_toPublic`, `ExtendedPrivate.descendant?_toPublic` — children that are not
  hardened can be derived before or after the secret is dropped.
* `KeyExpression.resolve_of_routes` — the three routes.
-/

namespace WalletExchange

namespace ExtendedPrivate

variable {k : ExtendedPrivate} {n : ChildNumber} {numbers : List ChildNumber}

@[simp] theorem toPublic_chainCode (k : ExtendedPrivate) : k.toPublic.chainCode = k.chainCode := rfl

@[simp] theorem toPublic_key (k : ExtendedPrivate) : k.toPublic.key = k.key.point := rfl

theorem place_toPublic (k : ExtendedPrivate) (n : ChildNumber) (chainCode : Block 32)
    (secret : Secp256k1.Secret) :
    k.toPublic.place k.fingerprint n chainCode secret.point =
      (k.place k.fingerprint n chainCode secret).map toPublic := by
  have hdepth : k.toPublic.depth = k.depth := rfl
  rw [Extended.place, Extended.place, hdepth]
  split <;> rfl

/-- A child that is not hardened can be derived without the secret. -/
theorem child?_toPublic (k : ExtendedPrivate) (hn : n.isHardened = false) :
    k.toPublic.child? n = (k.child? n).map toPublic := by
  have hhardened : ¬ n.isHardened = true := Bool.eq_false_iff.mp hn
  rw [ExtendedPublic.child?, child?, childData, if_neg hhardened, if_neg hhardened,
    toPublic_chainCode, toPublic_key]
  rcases childDigest k.chainCode k.key.point.compress n with ⟨_ | tweak, chainCode⟩
  · rfl
  · dsimp only
    rw [← Secp256k1.Secret.point_add?]
    cases tweak.add? k.key.value with
    | none => rfl
    | some secret => exact place_toPublic k n chainCode secret

theorem descendant?_append (k : ExtendedPrivate) (numbers numbers' : List ChildNumber) :
    k.descendant? (numbers ++ numbers') =
      k.descendant? numbers >>= fun child => child.descendant? numbers' :=
  List.foldlM_append ..

theorem descendant?_toPublic (k : ExtendedPrivate) (h : ∀ n ∈ numbers, n.isHardened = false) :
    k.toPublic.descendant? numbers = (k.descendant? numbers).map toPublic := by
  induction numbers generalizing k with
  | nil => rfl
  | cons n numbers ih =>
      obtain ⟨hn, hnumbers⟩ := List.forall_mem_cons.mp h
      rw [ExtendedPublic.descendant?, descendant?, List.foldlM_cons, List.foldlM_cons,
        child?_toPublic k hn]
      cases k.child? n with
      | error e => rfl
      | ok child => exact ih child hnumbers

end ExtendedPrivate

/-- The compressed public key at the end of a path. -/
def ExtendedPrivate.publicKeyAt? (k : ExtendedPrivate) (numbers : List ChildNumber) :
    Option PublicKey :=
  (k.descendant? numbers).toOption.map fun child => ⟨child.key.point, true⟩

/-- The provider derives compressed keys from a master key, along the fixed paths from it. -/
def KeyProvider.DerivesFrom (provider : KeyProvider) (master : ExtendedPrivate) : Prop :=
  ∀ numbers : List ChildNumber,
    provider (.fromMaster master.fingerprint (numbers.map .ofChildNumber)) =
      (master.descendant? numbers).toOption.map fun child => ⟨child.key, true, child.network⟩

namespace KeyProvider

/-- The provider that knows a master key. -/
def ofMaster (master : ExtendedPrivate) : KeyProvider := fun path =>
  (path.childNumbers? none .external).bind fun numbers =>
    (master.descendant? numbers).toOption.map fun child => ⟨child.key, true, child.network⟩

theorem derivesFrom_ofMaster (master : ExtendedPrivate) :
    (ofMaster master).DerivesFrom master := by
  intro numbers
  have hnumbers := Path.childNumbers?_of_steps
    (p := .fromMaster master.fingerprint (numbers.map .ofChildNumber)) rfl none .external
  rw [ofMaster, hnumbers, Option.bind_some]

end KeyProvider

namespace KeyExpression

variable {c : ScriptContext} {k : KeyExpression} {origin : Path} {numbers numbers' : List ChildNumber}
  {master parent : ExtendedPrivate}

/-- The key of a child of an extended private key. -/
theorem resolveChild_xprv (k : KeyExpression) (c : ScriptContext) (parent : ExtendedPrivate)
    (numbers : List ChildNumber) :
    (k.resolveChild c (.xprv parent) numbers).value? = parent.publicKeyAt? numbers := rfl

/-- The key of a child that is not hardened, of an extended public key. -/
theorem resolveChild_xpub (h : ∀ n ∈ numbers, n.isHardened = false) :
    (k.resolveChild c (.xpub parent.toPublic) numbers).value? = parent.publicKeyAt? numbers := by
  have hany : ¬ numbers.any ChildNumber.isHardened = true := by simpa using h
  rw [resolveChild, if_neg hany, ExtendedPrivate.descendant?_toPublic parent h,
    ExtendedPrivate.publicKeyAt?]
  cases parent.descendant? numbers <;> rfl

/-- The key of a hardened child, derived from the master key by the provider. -/
theorem resolveChild_of_derivesFrom {provider : KeyProvider} (hprovider : c.provider = some provider)
    (hderives : provider.DerivesFrom master) (horigin : k.origin = some origin)
    (hmaster : origin.fingerprint = some master.fingerprint)
    (hsteps : origin.steps = numbers.map .ofChildNumber)
    (hhardened : numbers'.any ChildNumber.isHardened = true) (point : ExtendedPublic) :
    (k.resolveChild c (.xpub point) numbers').value? =
      master.publicKeyAt? (numbers ++ numbers') := by
  have hpath : k.fullPath (.xpub point) numbers' =
      .fromMaster master.fingerprint ((numbers ++ numbers').map .ofChildNumber) := by
    rw [fullPath, masterFingerprint?, horigin, Option.bind_some, hmaster, Option.elim_some, hsteps,
      List.map_append]
    rfl
  rw [resolveChild_hardened hprovider hhardened, hpath, hderives, ExtendedPrivate.publicKeyAt?,
    Option.map_map]
  rfl

/-- An extended private key with its origin, the extended public key that belongs to it, where a
provider derives keys from the master key, and this public key by itself, where no child is
hardened, all stand for the public key at the end of the whole path from the master key. -/
theorem resolve_of_routes {children : Path} {index : Option ChildIndex} {branch : Branch}
    (hfixed : origin.isFixed = true) (hmaster : origin.fingerprint = some master.fingerprint)
    (horigin : origin.childNumbers? none .external = some numbers)
    (hparent : master.descendant? numbers = .ok parent)
    (hchildren : children.childNumbers? index branch = some numbers')
    (combo : Option ComboOutput) :
    (∀ provider, (resolve ⟨some origin, .hd ⟨.xprv parent, some children⟩⟩
      ⟨index, branch, provider, combo⟩).value? = master.publicKeyAt? (numbers ++ numbers')) ∧
    (∀ provider : KeyProvider, provider.DerivesFrom master →
      (resolve ⟨some origin, .hd ⟨.xpub parent.toPublic, some children⟩⟩
        ⟨index, branch, some provider, combo⟩).value? =
          master.publicKeyAt? (numbers ++ numbers')) ∧
    ((∀ n ∈ numbers', n.isHardened = false) →
      (resolve ⟨some origin, .hd ⟨.xpub parent.toPublic, some children⟩⟩
        ⟨index, branch, none, combo⟩).value? = master.publicKeyAt? (numbers ++ numbers')) := by
  obtain ⟨fixed, hsteps⟩ := Path.isFixed_iff_exists.mp hfixed
  obtain rfl : fixed = numbers :=
    Option.some.inj ((Path.childNumbers?_of_steps hsteps ..).symm.trans horigin)
  -- the whole path leads through the parent
  have hwhole : master.publicKeyAt? (fixed ++ numbers') = parent.publicKeyAt? numbers' := by
    rw [ExtendedPrivate.publicKeyAt?, ExtendedPrivate.descendant?_append, hparent]
    rfl
  refine ⟨fun provider => ?_, fun provider hderives => ?_, fun hnormal => ?_⟩
  · rw [resolve_of_children hchildren, resolveChild_xprv, hwhole]
  · rw [resolve_of_children hchildren]
    by_cases hhardened : numbers'.any ChildNumber.isHardened = true
    · exact resolveChild_of_derivesFrom rfl hderives rfl hmaster hsteps hhardened _
    · rw [resolveChild_xpub (by simpa using hhardened), hwhole]
  · rw [resolve_of_children hchildren, resolveChild_xpub hnormal, hwhole]

/-- The change branch below an account, on all three routes. -/
theorem resolve_of_routes_of_masterOfOne :
    let master := OutputType.masterOfOne
    let origin : Path := .fromMaster master.fingerprint [.single ⟨.index ⟨45⟩, true⟩]
    let children : Path := .ofSteps [.pair .receiveChange]
    ∃ parent key, master.descendant? [⟨⟨45⟩, true⟩] = .ok parent ∧
      (resolve ⟨some origin, .hd ⟨.xprv parent, some children⟩⟩
        ⟨none, .internal, none, none⟩).value? = some key ∧
      (resolve ⟨some origin, .hd ⟨.xpub parent.toPublic, some children⟩⟩
        ⟨none, .internal, some (.ofMaster master), none⟩).value? = some key ∧
      (resolve ⟨some origin, .hd ⟨.xpub parent.toPublic, some children⟩⟩
        ⟨none, .internal, none, none⟩).value? = some key := by
  intro master origin children
  obtain ⟨parent, hparent, -⟩ :=
    OutputType.exists_of_derivePublic OutputType.derivePublic_masterOfOne
  have hsome : (master.publicKeyAt? ([⟨⟨45⟩, true⟩] ++ [⟨.one, false⟩])).isSome = true := by
    decide +kernel
  obtain ⟨key, hkey⟩ := Option.isSome_iff_exists.mp hsome
  have horigin : origin.childNumbers? none .external = some [⟨⟨45⟩, true⟩] := rfl
  have hchildren : children.childNumbers? none .internal = some [⟨.one, false⟩] := rfl
  obtain ⟨hsecret, hprovider, hpublic⟩ :=
    resolve_of_routes (by decide) rfl horigin hparent hchildren none
  exact ⟨parent, key, hparent, (hsecret none).trans hkey,
    (hprovider _ (KeyProvider.derivesFrom_ofMaster master)).trans hkey,
    (hpublic (by decide)).trans hkey⟩

end KeyExpression

end WalletExchange
