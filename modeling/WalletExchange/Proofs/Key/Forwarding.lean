import WalletExchange.Proofs.Key.WellFormed

/-!
# Proofs — keys that are forwarded

A value says more about a key than is kept when it is read, and what is kept is not all that is
written again.  A key at depth zero without an origin is taken for a master key: a master key is no
child and, in the layout of its own, has no parent, so if a value says anything else of such a key
then the next reader does not learn it.  That is all: a key that was received arrives unchanged in
every other respect, and from then on it never changes.

Main statements:

* `KeyExpression.received_of_ofCbor?` — what holds of a key, whatever value it is read from.
* `KeyExpression.forward_of_ofCbor?` — what is left of a key that is forwarded any number of times,
  and which keys are left as they are.
-/

namespace WalletExchange

namespace KeyExpression

open Cbor (Value DecodeError Fields)

variable {k : KeyExpression} {v : Value}

/-! ### What is received -/

/-- The parts of the key agree as they do in every key that is read from a value. -/
structure Received (k : KeyExpression) : Prop where
  /-- Only an extended key has an origin. -/
  no_origin : (∀ key, k.material ≠ .hd key) → k.origin = none
  /-- The depth of an origin is the number of its steps as a byte. -/
  origin : keptOrigin? k.origin = k.origin
  wif_network : ∀ key, k.material = .wif key → key.network.exchanged = key.network
  hd_network : ∀ key, k.material = .hd key → key.key.network.exchanged = key.key.network
  /-- The child number is the last step of the origin. -/
  child : ∀ key, k.material = .hd key → ∀ origin ∈ k.origin,
    childOfOrigin (some origin) = key.key.child
  children : ∀ key, k.material = .hd key → ∀ path ∈ key.children, path.Normal

theorem received_of_ecOfCborContent? (h : ecOfCborContent? v = .ok k) : k.Received := by
  obtain ⟨horigin, hmaterial, hnetwork⟩ := of_ecOfCborContent? h
  exact
    { no_origin := fun _ => horigin
      origin := by rw [horigin]; rfl
      wif_network := hnetwork
      hd_network := fun key hkey => absurd hkey (hmaterial key)
      child := fun key hkey => absurd hkey (hmaterial key)
      children := fun key hkey => absurd hkey (hmaterial key) }

theorem received_of_hdOfCborContent? (h : hdOfCborContent? v = .ok k) : k.Received := by
  obtain ⟨fields, origin, children, key, -, -, hchildren, hnetwork, hchild, rfl⟩ :=
    exists_of_hdOfCborContent? h
  refine ⟨fun hmaterial => absurd rfl (hmaterial _), keptOrigin?_keptOrigin? origin, nofun, ?_, ?_,
    ?_⟩
  · rintro _ ⟨⟩
    exact hnetwork
  · rintro _ ⟨⟩ path hpath
    -- the origin that is kept has the steps of the one that was read
    obtain ⟨read, hread, rfl⟩ := Option.map_eq_some_iff.mp hpath
    obtain ⟨rfl, -⟩ := Option.filter_eq_some_iff.mp hread
    exact hchild.symm
  · rintro _ ⟨⟩ path hpath
    obtain ⟨_, hread⟩ := Fields.exists_of_optional hchildren path hpath
    exact Path.normal_of_ofCbor? hread

/-- Whatever value a key is read from, its parts agree. -/
theorem received_of_ofCbor? (h : ofCbor? v = .ok k) : k.Received := by
  obtain ⟨content, ⟨-, h⟩ | ⟨-, h⟩⟩ := cases_of_ofCbor? h
  · exact received_of_ecOfCborContent? h
  · exact received_of_hdOfCborContent? h

/-! ### What is left of it -/

/-- What is left of a key that was received when it is sent on: an extended key at depth zero
without an origin is no child any more, and a bare master key has no parent any more. -/
def settled (k : KeyExpression) : KeyExpression :=
  match k.material with
  | .hd key => ⟨k.origin, .hd { key with
      key := key.key.placed (k.writtenParent key)
        (if k.origin = none ∧ key.key.depth = 0 then ⟨.zero, false⟩ else key.key.child) }⟩
  | _ => k

/-- An extended key at depth zero without an origin is no child, and a bare master key has no
parent. -/
structure Settled (k : KeyExpression) : Prop where
  child : ∀ key, k.material = .hd key → k.origin = none → key.key.depth = 0 →
    key.key.child = ⟨.zero, false⟩
  parent : ∀ key, k.material = .hd key → k.isBareMaster key = true → key.key.parent = 0

theorem settled_eq_self_iff : k.settled = k ↔ k.Settled := by
  obtain ⟨origin, material⟩ := k
  cases material with
  | plain key | wif key => exact iff_of_true rfl ⟨nofun, nofun⟩
  | hd key =>
      have hsame : settled ⟨origin, .hd key⟩ = ⟨origin, .hd key⟩ ↔
          (isBareMaster ⟨origin, .hd key⟩ key = true → 0 = key.key.parent) ∧
          (origin = none ∧ key.key.depth = 0 → ⟨.zero, false⟩ = key.key.child) := by
        rw [← ite_eq_right_iff, ← ite_eq_right_iff, ← writtenParent, ← XKey.placed_eq_self_iff]
        obtain ⟨key, children⟩ := key
        simp [settled]
      rw [hsame]
      constructor
      · rintro ⟨hparent, hchild⟩
        constructor
        · rintro _ ⟨⟩ horigin hdepth
          exact (hchild ⟨horigin, hdepth⟩).symm
        · rintro _ ⟨⟩ hbare
          exact (hparent hbare).symm
      · intro h
        exact ⟨fun hbare => (h.parent key rfl hbare).symm,
          fun hroot => (h.child key rfl hroot.1 hroot.2).symm⟩

theorem settled_settled (k : KeyExpression) : k.settled.settled = k.settled := by
  rw [settled_eq_self_iff]
  obtain ⟨origin, material⟩ := k
  cases material with
  | plain key | wif key => exact ⟨nofun, nofun⟩
  | hd key =>
      constructor
      · rintro _ ⟨⟩ horigin hdepth
        rw [XKey.depth_placed] at hdepth
        rw [XKey.child_placed]
        exact if_pos ⟨horigin, hdepth⟩
      · rintro _ ⟨⟩ hbare
        rw [XKey.parent_placed]
        refine if_pos ?_
        simpa [isBareMaster, XKey.isMaster, settled] using hbare

/-- All that is lost of a key that was received is what a master key has not. -/
theorem Received.exchanged_eq (h : k.Received) : k.exchanged = k.settled := by
  obtain ⟨origin, material⟩ := k
  cases material with
  | plain key =>
      obtain rfl : origin = none := h.no_origin nofun
      rfl
  | wif key =>
      obtain rfl : origin = none := h.no_origin nofun
      change ofMaterial (.wif { key with network := key.network.exchanged }) = _
      rw [h.wif_network key rfl]
      rfl
  | hd key =>
      have horigin : keptOrigin? origin = origin := h.origin
      have hchild : arrivingChild ⟨origin, .hd key⟩ key.key =
          if origin = none ∧ key.key.depth = 0 then ⟨.zero, false⟩ else key.key.child := by
        cases origin with
        | some origin => exact h.child key rfl origin rfl
        | none => simp [arrivingChild]
      change exchangedHd _ key = _
      rw [exchangedHd_eq_placed (h.hd_network key rfl) (h.children key rfl), hchild, horigin]
      rfl

/-! ### Forwarding -/

/-- The key that arrives when a key is sent on a number of times. -/
def forward : Nat → KeyExpression → Except DecodeError KeyExpression
  | 0, k => .ok k
  | n + 1, k => ofCbor? k.toCbor >>= forward n

/-- One time: a key that was received is received again, and this is what is left of it. -/
theorem ofCbor?_toCbor_of_ofCbor? (h : ofCbor? v = .ok k) : ofCbor? k.toCbor = .ok k.settled :=
  ofCbor?_toCbor_iff.mpr
    ⟨(wellFormed_of_ofCbor? h).sendable, (received_of_ofCbor? h).exchanged_eq.symm⟩

/-- Any number of times: a key that arrives unchanged always does. -/
theorem forward_eq_self (h : ofCbor? k.toCbor = .ok k) (n : Nat) : forward n k = .ok k := by
  induction n with
  | zero => rfl
  | succ n ih => rw [forward, h, ok_bind, ih]

/-- A key that was received is left settled when it is forwarded, be it once or any number of times,
and it arrives as it was received exactly if it was settled from the first. -/
theorem forward_of_ofCbor? (h : ofCbor? v = .ok k) :
    (∀ n, forward (n + 1) k = .ok k.settled) ∧ (ofCbor? k.toCbor = .ok k ↔ k.Settled) := by
  have hfirst := ofCbor?_toCbor_of_ofCbor? h
  have hstable : ofCbor? k.settled.toCbor = .ok k.settled := by
    rw [ofCbor?_toCbor_of_ofCbor? hfirst, settled_settled]
  refine ⟨fun n => ?_, ?_⟩
  · rw [forward, hfirst, ok_bind, forward_eq_self hstable]
  · rw [hfirst, Except.ok.injEq, settled_eq_self_iff]

/-- A value that no key is written as, with both flags and with an origin that ends with a wildcard
and leads to another depth than its steps. -/
theorem forward_of_ofCbor?_of_wildcard :
    ∃ v k, ofCbor? v = .ok k ∧ k.origin.isSome = true ∧ k.isPrivate = true ∧
      ofCbor? k.toCbor = .ok k ∧ forward 7 k = .ok k.settled := by
  let origin : Path :=
    ⟨some 7, [.single ⟨.index ⟨5⟩, true⟩, .single ⟨.wildcard, false⟩], some 9⟩
  let secret : Secp256k1.Secret := ⟨1, by decide, by decide⟩
  let v : Value := .tag Cbor.Tag.hdKey (.ofFields
    [(1, .bool true), (2, .bool false), (3, .bytes (0 :: secret.toBytes)),
      (4, .bytes (List.replicate 32 0)), (6, origin.toCbor), (8, .unsigned 5)])
  let k : KeyExpression := ⟨some { origin with explicitDepth := none },
    .hd ⟨.xprv ⟨.bitcoin, 9, 5, ⟨.zero, false⟩, ⟨List.replicate 32 0, rfl⟩, secret⟩, none⟩⟩
  have hread : ofCbor? v = .ok k := toOption_eq_some_iff.mp (by decide +kernel)
  obtain ⟨hforward, hsame⟩ := forward_of_ofCbor? hread
  refine ⟨v, k, hread, rfl, rfl, hsame.mpr ⟨?_, ?_⟩, hforward 6⟩
  · rintro _ - ⟨⟩
  · rintro _ ⟨⟩ ⟨⟩

/-- A value gives a child number to a public key at depth zero, another one a parent to a bare
master key, and the next reader learns of neither. -/
theorem not_forward_of_ofCbor?_of_root :
    (∃ v k, ofCbor? v = .ok k ∧ k.isPrivate = false ∧ ofCbor? k.toCbor ≠ .ok k) ∧
    ∃ v k, ofCbor? v = .ok k ∧ k.isPrivate = true ∧ ofCbor? k.toCbor ≠ .ok k := by
  let chainCode : Block 32 := ⟨List.replicate 32 0, rfl⟩
  constructor
  · let origin : Path := ⟨none, [.single (.normal ⟨5⟩)], some 0⟩
    let point : Secp256k1.Point := .generator
    let v : Value := .tag Cbor.Tag.hdKey (.ofFields
      [(3, .bytes point.compress), (4, .bytes chainCode.bytes), (6, origin.toCbor)])
    let k : KeyExpression :=
      ⟨none, .hd ⟨.xpub ⟨.bitcoin, 0, 0, ⟨⟨5⟩, false⟩, chainCode, point⟩, none⟩⟩
    have hread : ofCbor? v = .ok k := toOption_eq_some_iff.mp (by decide +kernel)
    have hne : k.settled ≠ k := by decide +kernel
    refine ⟨v, k, hread, rfl, ?_⟩
    rwa [ofCbor?_toCbor_of_ofCbor? hread, Ne, Except.ok.injEq]
  · let secret : Secp256k1.Secret := ⟨1, by decide, by decide⟩
    let v : Value := .tag Cbor.Tag.hdKey (.ofFields
      [(1, .bool true), (3, .bytes (0 :: secret.toBytes)), (4, .bytes chainCode.bytes),
        (8, .unsigned 5)])
    let k : KeyExpression :=
      ⟨none, .hd ⟨.xprv ⟨.bitcoin, 0, 5, ⟨.zero, false⟩, chainCode, secret⟩, none⟩⟩
    have hread : ofCbor? v = .ok k := toOption_eq_some_iff.mp (by decide +kernel)
    have hne : k.settled ≠ k := by decide +kernel
    refine ⟨v, k, hread, rfl, ?_⟩
    rwa [ofCbor?_toCbor_of_ofCbor? hread, Ne, Except.ok.injEq]

end KeyExpression

end WalletExchange
