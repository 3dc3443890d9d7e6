import WalletExchange.Proofs.Key.Consistent

/-!
# Proofs — keys as they are read

Whichever way a key is read, from a text or from a value, it is well formed: its origin begins at a
known master key, the paths that go with it are valid, and the child number of an extended key is
below the bound.  Such a key can be sent.  A value says more about the key than a text does: its
origin may hold a wildcard, and its children may be a path without steps.

Main statements:

* `KeyExpression.wellFormed_of_ofCbor?` — a key that was read from a value is well formed.
* `KeyExpression.WellFormed.sendable` — a well-formed key is read back from what is written of it.
-/

namespace WalletExchange

open Cbor (Value DecodeError Fields)

namespace KeyExpression

/-- The key expression is one that can be read. -/
structure WellFormed (k : KeyExpression) : Prop where
  fingerprint : ∀ path ∈ k.origin, path.fingerprint.isSome = true
  origin : ∀ path ∈ k.origin, path.Valid
  child : ∀ key, k.material = .hd key → key.key.child.index.InRange
  children : ∀ key, k.material = .hd key → ∀ path ∈ key.children, path.Valid

variable {k : KeyExpression} {v : Value}

/-- A well-formed key is read back from what is written of it. -/
theorem WellFormed.sendable (h : k.WellFormed) : k.Sendable := by
  obtain ⟨origin, material⟩ := k
  cases material with
  | plain key | wif key => trivial
  | hd key => exact ⟨valid_writtenOrigin? h.origin (h.child key rfl), h.children key rfl⟩

/-- A key that is no extended one is read without an origin, and on no test network but one. -/
theorem of_ecOfCborContent? (h : ecOfCborContent? v = .ok k) :
    k.origin = none ∧ (∀ key, k.material ≠ .hd key) ∧
      ∀ key, k.material = .wif key → key.network.exchanged = key.network := by
  obtain ⟨fields, -, h⟩ := bind_eq_ok_iff.mp h
  obtain ⟨isPrivate, -, h⟩ := bind_eq_ok_iff.mp h
  obtain ⟨value, -, h⟩ := bind_eq_ok_iff.mp h
  obtain ⟨data, -, h⟩ := bind_eq_ok_iff.mp h
  split at h
  · obtain ⟨isCompressed, -, h⟩ := bind_eq_ok_iff.mp h
    obtain ⟨use, -, h⟩ := bind_eq_ok_iff.mp h
    obtain ⟨secret, -, ⟨⟩⟩ := bind_eq_ok_iff.mp h
    refine ⟨rfl, nofun, ?_⟩
    rintro _ ⟨⟩
    exact use.network.exchanged_toBitcoin
  · split at h
    · split at h
      · cases h
        exact ⟨rfl, nofun, nofun⟩
      · cases h
    · cases h

theorem wellFormed_of_ecOfCborContent? (h : ecOfCborContent? v = .ok k) : k.WellFormed := by
  obtain ⟨horigin, hmaterial, -⟩ := of_ecOfCborContent? h
  exact ⟨by simp [horigin], by simp [horigin], fun key hkey => absurd hkey (hmaterial key),
    fun key hkey => absurd hkey (hmaterial key)⟩

theorem inRange_childOfOrigin {origin : Option Path} (h : ∀ path ∈ origin, path.Valid) :
    (childOfOrigin origin).index.InRange := by
  rw [childOfOrigin]
  cases hn : (origin.bind fun p => p.steps.getLast?).bind (Step.resolve none .external) with
  | none => decide
  | some n =>
      obtain ⟨s, hs, hn⟩ := Option.bind_eq_some_iff.mp hn
      obtain ⟨path, hpath, hlast⟩ := Option.bind_eq_some_iff.mp hs
      have hrange := ((h path hpath).steps s (List.mem_of_getLast? hlast)).inRange
      exact Step.inRange_of_resolve hrange (fun _ h => absurd h (Option.not_mem_none _)) hn

theorem of_xkeyOfData? {isPrivate : Bool} {data : Bytes} {place : Extended Unit} {key : XKey}
    (h : xkeyOfData? isPrivate data place = .ok key) :
    key.network = place.network ∧ key.child = place.child := by
  rw [xkeyOfData?] at h
  split at h
  · split at h
    · obtain ⟨secret, -, ⟨⟩⟩ := bind_eq_ok_iff.mp h
      exact ⟨rfl, rfl⟩
    · cases h
  · split at h
    · cases h
      exact ⟨rfl, rfl⟩
    · cases h

/-- The paths of the entries under 6 and 7 are the origin and the children of an extended key, which
is on no test network but one. -/
theorem exists_of_hdOfCborContent? (h : hdOfCborContent? v = .ok k) :
    ∃ fields origin children key, v.asFields = .ok fields ∧
      fields.optional 6 Path.ofCbor? = .ok origin ∧
      fields.optional 7 Path.ofCbor? = .ok children ∧
      key.network.exchanged = key.network ∧ key.child = childOfOrigin origin ∧
      k = ⟨keptOrigin? origin, .hd ⟨key, children⟩⟩ := by
  obtain ⟨fields, hfields, h⟩ := bind_eq_ok_iff.mp h
  obtain ⟨isMaster, -, h⟩ := bind_eq_ok_iff.mp h
  obtain ⟨isPrivate, h⟩ := exists_of_ite_bind h
  obtain ⟨value, -, h⟩ := bind_eq_ok_iff.mp h
  obtain ⟨data, -, h⟩ := bind_eq_ok_iff.mp h
  obtain ⟨value', -, h⟩ := bind_eq_ok_iff.mp h
  obtain ⟨bytes, -, h⟩ := bind_eq_ok_iff.mp h
  obtain ⟨chainCode, -, h⟩ := bind_eq_ok_iff.mp h
  obtain ⟨use, -, h⟩ := bind_eq_ok_iff.mp h
  obtain ⟨origin, horigin, h⟩ := bind_eq_ok_iff.mp h
  obtain ⟨children, hchildren, h⟩ := bind_eq_ok_iff.mp h
  obtain ⟨parent, -, h⟩ := bind_eq_ok_iff.mp h
  obtain ⟨key, hkey, ⟨⟩⟩ := bind_eq_ok_iff.mp h
  obtain ⟨hnetwork, hchild⟩ := of_xkeyOfData? hkey
  have hexchanged : key.network.exchanged = key.network := by
    rw [hnetwork]
    exact use.network.exchanged_toBitcoin
  exact ⟨fields, origin, children, key, hfields, horigin, hchildren, hexchanged, hchild, rfl⟩

/-- The origin of an extended key is kept with the fingerprint and the steps that were read. -/
theorem wellFormed_of_hdOfCborContent? (h : hdOfCborContent? v = .ok k) : k.WellFormed := by
  obtain ⟨fields, origin, children, key, -, horigin, hchildren, -, hchild, rfl⟩ :=
    exists_of_hdOfCborContent? h
  have hvalid : ∀ path ∈ origin, path.Valid := by
    intro path hpath
    obtain ⟨_, hread⟩ := Fields.exists_of_optional horigin path hpath
    exact Path.valid_of_ofCbor? hread
  have hkept : ∀ path ∈ keptOrigin? origin, path.fingerprint.isSome = true ∧ path.Valid := by
    intro path hpath
    obtain ⟨read, hread, rfl⟩ := Option.map_eq_some_iff.mp hpath
    obtain ⟨hread, hsome⟩ := Option.filter_eq_some_iff.mp hread
    exact ⟨hsome, (hvalid read hread).steps, (hvalid read hread).children⟩
  refine ⟨fun path hpath => (hkept path hpath).1, fun path hpath => (hkept path hpath).2, ?_, ?_⟩
  · rintro _ ⟨⟩
    rw [hchild]
    exact inRange_childOfOrigin hvalid
  · rintro _ ⟨⟩ path hpath
    obtain ⟨_, hread⟩ := Fields.exists_of_optional hchildren path hpath
    exact Path.valid_of_ofCbor? hread

/-- A key is read from the map of a plain key or of an extended one, as the tag says. -/
theorem cases_of_ofCbor? (h : ofCbor? v = .ok k) :
    ∃ content, (v = .tag Cbor.Tag.ecKey content ∧ ecOfCborContent? content = .ok k) ∨
      (v = .tag Cbor.Tag.hdKey content ∧ hdOfCborContent? content = .ok k) := by
  cases v with
  | tag number content =>
      refine ⟨content, ?_⟩
      change ofCborContent? number content = .ok k at h
      rw [ofCborContent?] at h
      split at h
      · next hec => exact .inl ⟨congrArg (Value.tag · content) hec, h⟩
      · split at h
        · next hhd => exact .inr ⟨congrArg (Value.tag · content) hhd, h⟩
        · cases h
  | _ => cases h

/-- A key that was read from a value is well formed. -/
theorem wellFormed_of_ofCbor? (h : ofCbor? v = .ok k) : k.WellFormed := by
  obtain ⟨content, ⟨-, h⟩ | ⟨-, h⟩⟩ := cases_of_ofCbor? h
  · exact wellFormed_of_ecOfCborContent? h
  · exact wellFormed_of_hdOfCborContent? h

end KeyExpression

end WalletExchange
