import WalletExchange.Proofs.Script.Standard

/-!
# Proofs — addresses that are sent on

An address is sent as a type and a digest or as a script, and for some addresses the reader takes
both.  Either way the payload is found again, since a payload is found for its own script and for no
other one.  The network is read as one of two, so an address that has been read once does not change
any more.

Main statement:

* `Address.exchange_of_address` — what arrives of an address, that it arrives unchanged from then
  on, and which addresses are read from a bare script.
-/

namespace WalletExchange

open Cbor (Value DecodeError Fields untag_tag)

namespace Address

variable {a : Address} {v : Value}

/-- The tagged value of an address is read back, on the network that is left of its own. -/
theorem ofCbor?_toCbor (a : Address) : ofCbor? a.toCbor = .ok ⟨a.payload, a.network.exchanged⟩ := by
  rw [toCbor, ofCbor?, untag_tag, ok_bind, ofCborContent?_toCborContent]

/-- Whatever value an address is read from, its network is one that is told from the others. -/
theorem exists_network_of_ofCbor? (h : ofCbor? v = .ok a) :
    ∃ network : Network, a.network = network.toBitcoin := by
  obtain ⟨content, -, h⟩ := bind_eq_ok_iff.mp h
  obtain ⟨fields, -, h⟩ := bind_eq_ok_iff.mp h
  obtain ⟨use, -, h⟩ := bind_eq_ok_iff.mp h
  obtain ⟨entry, -, h⟩ := bind_eq_ok_iff.mp h
  obtain ⟨data, -, h⟩ := bind_eq_ok_iff.mp h
  obtain ⟨type?, -, h⟩ := bind_eq_ok_iff.mp h
  refine ⟨use.network, ?_⟩
  cases type? with
  | some type =>
      obtain ⟨payload, -, ⟨⟩⟩ := bind_eq_ok_iff.mp h
      rfl
  | none =>
      dsimp only at h
      split at h
      · next b hb =>
        cases h
        exact (ofScript?_eq_ok_iff.mp hb).2
      · cases h

/-- An address that has been read arrives unchanged when it is sent on. -/
theorem ofCbor?_toCbor_of_ofCbor? (h : ofCbor? v = .ok a) : ofCbor? a.toCbor = .ok a := by
  obtain ⟨network, hnetwork⟩ := exists_network_of_ofCbor? h
  have hexchanged : a.network.exchanged = a.network := by
    rw [hnetwork, network.exchanged_toBitcoin]
  rw [ofCbor?_toCbor, hexchanged]

/-- The value of a bare script: use information where it is not standard, and no type. -/
def bareCbor (use : UseInfo) (s : Script) : Value :=
  .tag Cbor.Tag.address (.ofFields (use.field 1 ++ [(3, .bytes s.bytes)]))

/-- A bare script is read as the address that stands for it, of whatever kind this is. -/
theorem ofCbor?_bareCbor_iff {use : UseInfo} {s : Script} :
    ofCbor? (bareCbor use s) = .ok a ↔ a.script = s ∧ a.network = use.network.toBitcoin := by
  let entries : List (UInt64 × Value) := use.field 1 ++ [(3, .bytes s.bytes)]
  have huse : UseInfo.ofField? (Fields.ofList entries) 1 = .ok use := by
    refine UseInfo.ofField?_ofList ?_
    simp [entries, List.lookup_append, UseInfo.lookup_field, Fields.lookup_cons]
  have hdata : entries.lookup 3 = some (.bytes s.bytes) := by
    simp [entries, List.lookup_append, UseInfo.lookup_field]
  have htype : (Fields.ofList entries).optional 2 Value.asUInt64 = .ok none := by
    refine Fields.optional_ofList (o := none) ?_
    simp [entries, List.lookup_append, UseInfo.lookup_field, Fields.lookup_cons]
  rw [bareCbor, ofCbor?, untag_tag, ok_bind, ofCborContent?, Fields.asFields_ofFields, ok_bind,
    huse, ok_bind, Fields.require_ofList hdata, ok_bind, Value.asBytes, ok_bind, htype, ok_bind,
    ← ofScript?_eq_ok_iff]
  dsimp only
  cases ofScript? use.network.toBitcoin s with
  | ok b =>
      constructor
      · rintro ⟨⟩
        rfl
      · rintro ⟨⟩
        rfl
  | error e =>
      constructor
      · rintro ⟨⟩
      · rintro ⟨⟩

/-- An address arrives with its payload and so with its script; of the test networks one is left.
An address that has been read from any value is read again when it is sent on.  A script without a
type is read as the address that stands for it, and scripts that no address stands for are not read.
-/
theorem exchange_of_address (a : Address) :
    (∃ b, ofCbor? a.toCbor = .ok b ∧ b.payload = a.payload ∧ b.script = a.script ∧
      b.network = match a.network with
        | .signet | .regtest => .testnet
        | network => network) ∧
    (∀ v, ofCbor? v = .ok a → ofCbor? a.toCbor = .ok a) ∧
    ∀ use s, ofCbor? (bareCbor use s) = .ok a ↔
      a.script = s ∧ a.network = use.network.toBitcoin := by
  refine ⟨⟨_, a.ofCbor?_toCbor, rfl, rfl, ?_⟩, fun v => ofCbor?_toCbor_of_ofCbor?,
    fun use s => ofCbor?_bareCbor_iff⟩
  cases a.network <;> rfl

/-- The script of the digest of a key, sent without a type for the test network of another asset,
is sent on with the type. -/
theorem exchange_of_bare_keyHash :
    let hash : Block 20 := ⟨List.replicate 20 7, by decide⟩
    let a : Address := ⟨.witness (.ofKeyHash hash), .testnet⟩
    let received := bareCbor ⟨.eth, .testnet⟩ ⟨0 :: 20 :: List.replicate 20 7⟩
    let sent : Value := .tag Cbor.Tag.address (.ofFields
      [(1, (UseInfo.ofNetwork .testnet).toCbor), (2, .unsigned 2), (3, .bytes hash.bytes)])
    ofCbor? received = .ok a ∧ a.toCbor = sent ∧ ofCbor? sent = .ok a := by
  intro hash a received sent
  obtain ⟨-, hforward, hbare⟩ := exchange_of_address a
  have hreceived : ofCbor? received = .ok a := (hbare _ _).mpr ⟨by decide, rfl⟩
  exact ⟨hreceived, rfl, hforward received hreceived⟩

end Address

end WalletExchange
