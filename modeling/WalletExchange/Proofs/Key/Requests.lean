import WalletExchange.Key.Resolve
import WalletExchange.Proofs.Path.Fixed

/-!
# Proofs — what a provider is asked for one key

A provider of private keys is asked at most once for a key: for an extended public key whose
children, with the index and the branch put in, have a hardened number among them.  The path that it
is asked for, `KeyExpression.request?`, leads from the master key through the origin to the child.

Main statements:

* `KeyExpression.requests_resolve` — what the provider is asked when a key is resolved.
* `KeyExpression.resolve_of_request?_eq_none` — where it need not be asked, it does not matter.
* `KeyExpression.isFixed_iff_of_request?` — the path is fixed exactly if the origin is.
-/

namespace WalletExchange

namespace Resolution

variable {α β : Type}

@[simp] theorem requests_bind (r : Resolution α) (f : α → Resolution β) :
    (r.bind f).requests = r.requests ++ r.value?.elim [] fun a => (f a).requests := by
  unfold bind
  cases r.value? <;> simp

end Resolution

/-- The child numbers that the children of the key stand for in a context. -/
def HdKey.childNumbers? (c : ScriptContext) (key : HdKey) : Option (List ChildNumber) :=
  key.children.elim (some []) (Path.childNumbers? c.wildcardChild c.branch)

namespace KeyExpression

variable {k : KeyExpression} {key : HdKey} {c : ScriptContext} {numbers : List ChildNumber}
  {path : Path}

/-- An extended key is resolved in two steps: the numbers of the child, and its key. -/
theorem resolve_hd (hmaterial : k.material = .hd key) (c : ScriptContext) :
    k.resolve c =
      (key.childNumbers? c).elim (.ofOption none) fun numbers => k.resolveChild c key.key numbers := by
  obtain ⟨key, children⟩ := key
  rw [resolve, hmaterial]
  cases children with
  | none => rfl
  | some path =>
      change Resolution.ofOption (path.childNumbers? c.wildcardChild c.branch) >>= _ =
        (path.childNumbers? c.wildcardChild c.branch).elim _ _
      cases path.childNumbers? c.wildcardChild c.branch <;> rfl

/-- A key with children that stand for numbers is the child with these numbers. -/
theorem resolve_of_children {origin : Option Path} {key : XKey} {children : Path}
    (hchildren : children.childNumbers? c.wildcardChild c.branch = some numbers) :
    resolve ⟨origin, .hd ⟨key, some children⟩⟩ c =
      resolveChild ⟨origin, .hd ⟨key, some children⟩⟩ c key numbers := by
  have hnumbers : (HdKey.mk key (some children)).childNumbers? c = some numbers := hchildren
  rw [resolve_hd rfl, hnumbers, Option.elim_some]

/-- A hardened child of an extended public key is what the provider gives. -/
theorem resolveChild_hardened {point : ExtendedPublic} {provider : KeyProvider}
    (hprovider : c.provider = some provider)
    (hhardened : numbers.any ChildNumber.isHardened = true) :
    k.resolveChild c (.xpub point) numbers =
      ⟨(provider (k.fullPath (.xpub point) numbers)).map PrivateKey.toPublic,
        [k.fullPath (.xpub point) numbers]⟩ := by
  rw [resolveChild, if_pos hhardened, hprovider, Resolution.bind_eq]
  simp only [Resolution.bind_eq, Resolution.bind, Resolution.ofOption, Resolution.ask]
  cases provider (k.fullPath (.xpub point) numbers) <;> rfl

/-- An extended key always has a master key. -/
theorem isSome_masterFingerprint? (hmaterial : k.material = .hd key) :
    k.masterFingerprint?.isSome = true := by
  rw [masterFingerprint?, hmaterial]
  split <;> rfl

/-- The path from the master key through the origin to a child. -/
def childPath (k : KeyExpression) (numbers : List ChildNumber) : Path :=
  ⟨k.masterFingerprint?, k.origin.elim [] Path.steps ++ numbers.map .ofChildNumber, none⟩

theorem fullPath_eq (hmaterial : k.material = .hd key) (numbers : List ChildNumber) :
    k.fullPath key.key numbers = k.childPath numbers := by
  obtain ⟨fingerprint, hfingerprint⟩ :=
    Option.isSome_iff_exists.mp (isSome_masterFingerprint? hmaterial)
  rw [fullPath, childPath, hfingerprint]
  rfl

/-- The path for which a provider is asked when the key is resolved. -/
def request? (c : ScriptContext) (k : KeyExpression) : Option Path :=
  match k.material with
  | .hd ⟨.xpub point, children⟩ =>
    ((HdKey.mk (.xpub point) children).childNumbers? c).bind fun numbers =>
      if numbers.any ChildNumber.isHardened then some (k.childPath numbers) else none
  | _ => none

theorem request?_eq_some_iff : k.request? c = some path ↔ ∃ point children numbers,
    k.material = .hd ⟨.xpub point, children⟩ ∧
      (HdKey.mk (.xpub point) children).childNumbers? c = some numbers ∧
      numbers.any ChildNumber.isHardened = true ∧ path = k.childPath numbers := by
  constructor
  · intro h
    rw [request?] at h
    split at h
    · next point children hmaterial =>
      obtain ⟨numbers, hnumbers, h⟩ := Option.bind_eq_some_iff.mp h
      split at h
      · next hhardened =>
        exact ⟨point, children, numbers, hmaterial, hnumbers, hhardened, (Option.some.inj h).symm⟩
      · cases h
    · cases h
  · rintro ⟨point, children, numbers, hmaterial, hnumbers, hhardened, rfl⟩
    rw [request?, hmaterial]
    dsimp only
    rw [hnumbers, Option.bind_some, if_pos hhardened]

/-- The provider is asked for one path at most. -/
theorem requests_resolve {provider : KeyProvider} (hprovider : c.provider = some provider) :
    (k.resolve c).requests = (k.request? c).toList := by
  obtain ⟨origin, material⟩ := k
  cases material with
  | plain key | wif key => rfl
  | hd key =>
      rw [resolve_hd rfl]
      obtain ⟨key, children⟩ := key
      cases hnumbers : (HdKey.mk key children).childNumbers? c with
      | none => cases key <;> simp [request?, hnumbers]
      | some numbers =>
          cases key with
          | xprv secret => rfl
          | xpub point =>
              rw [request?, Option.elim_some]
              dsimp only
              rw [hnumbers, Option.bind_some]
              by_cases hhardened : numbers.any ChildNumber.isHardened = true
              · have hpath := fullPath_eq (k := ⟨origin, .hd ⟨.xpub point, children⟩⟩) rfl numbers
                rw [resolveChild_hardened hprovider hhardened, if_pos hhardened, hpath]
                rfl
              · rw [resolveChild, if_neg hhardened, if_neg hhardened]
                rfl

/-- Without a provider nobody is asked. -/
theorem requests_resolve_of_none (hprovider : c.provider = none) : (k.resolve c).requests = [] := by
  obtain ⟨origin, material⟩ := k
  cases material with
  | plain key | wif key => rfl
  | hd key =>
      rw [resolve_hd rfl]
      cases key.childNumbers? c with
      | none => rfl
      | some numbers =>
          rw [Option.elim_some]
          obtain ⟨key, children⟩ := key
          cases key with
          | xprv secret => rfl
          | xpub point =>
              rw [resolveChild]
              split
              · rw [hprovider]
                rfl
              · rfl

theorem request?_of_mem_requests (h : path ∈ (k.resolve c).requests) :
    k.request? c = some path := by
  cases hprovider : c.provider with
  | none =>
      rw [requests_resolve_of_none hprovider] at h
      cases h
  | some provider =>
      rw [requests_resolve hprovider] at h
      exact Option.mem_toList.mp h

/-- Where the provider need not be asked, it does not matter who it is. -/
theorem resolve_of_request?_eq_none (h : k.request? c = none) (provider : Option KeyProvider) :
    k.resolve { c with provider } = k.resolve c := by
  obtain ⟨origin, material⟩ := k
  cases material with
  | plain key | wif key => rfl
  | hd key =>
      rw [resolve_hd rfl, resolve_hd rfl]
      obtain ⟨key, children⟩ := key
      have hsame : (HdKey.mk key children).childNumbers? { c with provider } =
          (HdKey.mk key children).childNumbers? c := rfl
      rw [hsame]
      cases hnumbers : (HdKey.mk key children).childNumbers? c with
      | none => rfl
      | some numbers =>
          cases key with
          | xprv secret => rfl
          | xpub point =>
              have hhardened : ¬ numbers.any ChildNumber.isHardened = true := fun hhardened =>
                Option.ne_none_iff_exists'.mpr ⟨_, request?_eq_some_iff.mpr
                  ⟨point, children, numbers, rfl, hnumbers, hhardened, rfl⟩⟩ h
              simp only [Option.elim_some, resolveChild, if_neg hhardened]

/-- The path that the provider is asked for is fixed exactly if the origin of the key is. -/
theorem isFixed_iff_of_request? (h : k.request? c = some path) :
    path.isFixed = true ↔ ∀ origin ∈ k.origin, origin.isFixed = true := by
  obtain ⟨point, children, numbers, -, -, -, rfl⟩ := request?_eq_some_iff.mp h
  have hchildren : (numbers.map Step.ofChildNumber).all Step.isFixed = true :=
    List.all_eq_true.mpr Step.isFixed_of_mem_map
  rw [Path.isFixed, childPath, List.all_append, hchildren, Bool.and_true]
  cases k.origin with
  | none => simp
  | some origin => simp [Path.isFixed]

end KeyExpression

end WalletExchange
