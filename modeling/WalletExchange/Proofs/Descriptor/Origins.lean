import WalletExchange.Proofs.Descriptor.Writable
import WalletExchange.Proofs.Key.Requests

/-!
# Proofs — the origins of keys that are read

In front of a key there may be its origin: a master key and a fixed path from there, at the end of
which a provider of private keys looks for the children.  In a text an origin is nothing else.  A
value may hold any path in this place that may stand below a key, with a wildcard and a pair, and of
this path only the master key is looked at.  An origin that is not fixed is kept, and the provider is
asked for a path that is not fixed.

Main statements:

* `KeyExpression.hasFixedOrigin_of_ofString`, `Node.hasFixedOrigin_of_runFrom` — an origin in a text
  is fixed.
* `KeyExpression.origin_of_ofCbor?` — what is kept of the origin in a value.
* `KeyExpression.hasFixedOrigin_of_reading` — which keys have a fixed origin, whatever they are read
  from, and what a provider is asked for.
-/

namespace WalletExchange

namespace KeyExpression

/-- The origin of the key, if it has one, is a fixed path from a known master key. -/
def HasFixedOrigin (k : KeyExpression) : Prop :=
  ∀ origin ∈ k.origin, origin.fingerprint.isSome = true ∧ origin.check .fixedOnly = .ok ()

instance : DecidablePred HasFixedOrigin := fun k =>
  inferInstanceAs (Decidable (∀ origin ∈ k.origin, _ ∧ _))

end KeyExpression

/-! ### Origins in texts -/

theorem Grammar.Key.hasFixedOrigin {uncompressed : Bool} {ts : List TokenKind} {k : KeyExpression}
    (h : Key uncompressed ts k) : k.HasFixedOrigin := by
  intro origin horigin
  have hfixed : origin.isFixed = true := List.all_eq_true.mpr (h.writable.origin origin horigin).1
  exact ⟨h.isSome_fingerprint origin horigin, Path.check_fixedOnly_iff.mpr hfixed⟩

theorem Node.hasFixedOrigin_of_runFrom {source : String} {n : Node}
    (h : (Parser.runFrom Parser.wholeScript source).1 = .ok n) :
    ∀ k ∈ n.keys, k.HasFixedOrigin := by
  intro k hk
  obtain ⟨_, -, hphrase⟩ := Parser.runFrom_wholeScript_eq_ok_iff.mp h
  obtain ⟨_, _, hkey⟩ := hphrase.exists_key_of_mem k hk
  exact hkey.hasFixedOrigin

namespace KeyExpression

open Cbor (Value)

variable {k : KeyExpression} {v : Value}

theorem hasFixedOrigin_of_ofString {source : String} (h : ofString source = .ok k) :
    k.HasFixedOrigin := by
  obtain ⟨_, -, hkey⟩ := Parser.ofString_key_eq_ok_iff.mp h
  exact hkey.hasFixedOrigin

/-! ### Origins in values -/

/-- The origin of an extended key in a value: the path under 6 in the map. -/
def sentOrigin? : Value → Option Path
  | .tag number content =>
    if number = Cbor.Tag.hdKey then
      (content.asFields >>= fun fields => fields.optional 6 Path.ofCbor?).toOption.join
    else none
  | _ => none

theorem origin_of_ofCbor? (h : ofCbor? v = .ok k) : k.origin = keptOrigin? (sentOrigin? v) := by
  obtain ⟨content, ⟨rfl, h⟩ | ⟨rfl, h⟩⟩ := cases_of_ofCbor? h
  · have hne : Cbor.Tag.ecKey ≠ Cbor.Tag.hdKey := by decide
    rw [sentOrigin?, if_neg hne]
    exact (of_ecOfCborContent? h).1
  · obtain ⟨fields, origin, children, key, hfields, horigin, -, -, -, rfl⟩ :=
      exists_of_hdOfCborContent? h
    have hread : (content.asFields >>= fun fields => fields.optional 6 Path.ofCbor?) =
        .ok origin := bind_eq_ok_iff.mpr ⟨fields, hfields, horigin⟩
    rw [sentOrigin?, if_pos rfl, hread]
    rfl

/-- An origin without a master key is dropped, and any other one is kept with its steps. -/
theorem hasFixedOrigin_iff_of_ofCbor? (h : ofCbor? v = .ok k) :
    k.HasFixedOrigin ↔ ∀ origin ∈ sentOrigin? v, origin.fingerprint.isSome = true →
      origin.check .fixedOnly = .ok () := by
  rw [HasFixedOrigin, origin_of_ofCbor? h, keptOrigin?]
  cases sentOrigin? v with
  | none =>
      rw [Option.filter_none, Option.map_none]
      exact iff_of_true (by rintro _ ⟨⟩) (by rintro _ ⟨⟩)
  | some origin =>
      by_cases hsome : origin.fingerprint.isSome = true
      · rw [Option.filter_some, if_pos hsome]
        constructor
        · rintro hkept _ ⟨⟩ -
          exact (hkept _ rfl).2
        · rintro hsent _ ⟨⟩
          exact ⟨hsome, hsent origin rfl hsome⟩
      · rw [Option.filter_some, if_neg hsome]
        refine iff_of_true (by rintro _ ⟨⟩) ?_
        rintro _ ⟨⟩ hsome'
        exact absurd hsome' hsome

/-! ### Whatever a key is read from -/

/-- Where a key is read from: a text of its own, a text of a descriptor with the key in it, or a
value. -/
inductive Source where
  | text (source : String)
  | descriptor (source : String)
  | value (v : Value)

namespace Source

/-- The key is read from the source. -/
def Gives : Source → KeyExpression → Prop
  | text source, k => ofString source = .ok k
  | descriptor source, k =>
    ∃ n, (Parser.runFrom Parser.wholeScript source).1 = .ok n ∧ k ∈ n.keys
  | value v, k => ofCbor? v = .ok k

/-- A value, if it has an origin that is kept, has a fixed one. -/
def HoldsFixedOrigin : Source → Prop
  | text _ | descriptor _ => True
  | value v => ∀ origin ∈ sentOrigin? v, origin.fingerprint.isSome = true →
    origin.check .fixedOnly = .ok ()

variable {r : Source}

theorem Gives.isSome_fingerprint (h : r.Gives k) :
    ∀ origin ∈ k.origin, origin.fingerprint.isSome = true := by
  cases r with
  | text source => exact fun origin horigin => (hasFixedOrigin_of_ofString h origin horigin).1
  | descriptor source =>
      obtain ⟨n, hparse, hk⟩ := h
      exact fun origin horigin => (Node.hasFixedOrigin_of_runFrom hparse k hk origin horigin).1
  | value v => exact (wellFormed_of_ofCbor? h).fingerprint

theorem Gives.hasFixedOrigin_iff (h : r.Gives k) : k.HasFixedOrigin ↔ r.HoldsFixedOrigin := by
  cases r with
  | text source => exact iff_of_true (hasFixedOrigin_of_ofString h) trivial
  | descriptor source =>
      obtain ⟨n, hparse, hk⟩ := h
      exact iff_of_true (Node.hasFixedOrigin_of_runFrom hparse k hk) trivial
  | value v => exact hasFixedOrigin_iff_of_ofCbor? h

end Source

/-- An origin that is read begins at a known master key.  It is fixed, and so is every path that a
provider is asked for, exactly if a value that it is read from has a fixed one; in a text it always
is. -/
theorem hasFixedOrigin_of_reading {r : Source} (h : r.Gives k) :
    (∀ origin ∈ k.origin, origin.fingerprint.isSome = true) ∧
    (k.HasFixedOrigin ↔ r.HoldsFixedOrigin) ∧
    ∀ (c : ScriptContext), ∀ path ∈ (k.resolve c).requests,
      (path.check .fixedOnly = .ok () ↔ r.HoldsFixedOrigin) := by
  have hsome := h.isSome_fingerprint
  refine ⟨hsome, h.hasFixedOrigin_iff, fun c path hpath => ?_⟩
  have hfixed : k.HasFixedOrigin ↔ ∀ origin ∈ k.origin, origin.isFixed = true := by
    simp only [HasFixedOrigin, Path.check_fixedOnly_iff]
    exact ⟨fun hall origin ho => (hall origin ho).2, fun hall origin ho =>
      ⟨hsome origin ho, hall origin ho⟩⟩
  rw [Path.check_fixedOnly_iff, isFixed_iff_of_request? (request?_of_mem_requests hpath), ← hfixed]
  exact h.hasFixedOrigin_iff

/-- A key with a fixed origin in a value, for a hardened child of which a provider is asked. -/
theorem hasFixedOrigin_of_reading_of_xpub :
    ∃ v k, ofCbor? v = .ok k ∧ k.origin.isSome = true ∧ k.HasFixedOrigin ∧
      ∃ c, ∃ path ∈ (k.resolve c).requests, path.check .fixedOnly = .ok () := by
  let key : XKey :=
    .xpub ⟨.bitcoin, 1, 0, ⟨⟨44⟩, true⟩, ⟨List.replicate 32 0, rfl⟩, .generator⟩
  let children : Path := .ofSteps [.single ⟨.index .zero, true⟩]
  let k : KeyExpression :=
    ⟨some (.fromMaster 1 [.single ⟨.index ⟨44⟩, true⟩]), .hd ⟨key, some children⟩⟩
  have hread : (Source.value k.toCbor).Gives k := ofCbor?_toCbor_iff.mpr (by decide +kernel)
  have hsent : (Source.value k.toCbor).HoldsFixedOrigin :=
    show ∀ origin ∈ sentOrigin? k.toCbor, origin.fingerprint.isSome = true →
      origin.check .fixedOnly = .ok () by decide +kernel
  let c : ScriptContext := ⟨none, .external, some fun _ => none, none⟩
  have hasked : k.childPath [⟨.zero, true⟩] ∈ (k.resolve c).requests := by decide +kernel
  obtain ⟨-, horigin, hpath⟩ := hasFixedOrigin_of_reading hread
  exact ⟨_, k, hread, rfl, horigin.mpr hsent, c, _, hasked, (hpath c _ hasked).mpr hsent⟩

/-- An origin with a wildcard, behind which a provider is asked for a child. -/
theorem not_hasFixedOrigin_of_wildcard :
    ∃ v k, ofCbor? v = .ok k ∧ ¬ k.HasFixedOrigin ∧
      ∃ c, ∃ path ∈ (k.resolve c).requests, path.check .fixedOnly ≠ .ok () := by
  let key : XKey :=
    .xpub ⟨.bitcoin, 1, 0, ⟨.zero, false⟩, ⟨List.replicate 32 0, rfl⟩, .generator⟩
  let children : Path := .ofSteps [.single ⟨.index .zero, true⟩]
  let k : KeyExpression :=
    ⟨some (.fromMaster 1 [.single ⟨.wildcard, false⟩]), .hd ⟨key, some children⟩⟩
  have hread : ofCbor? k.toCbor = .ok k := ofCbor?_toCbor_iff.mpr (by decide +kernel)
  let c : ScriptContext := ⟨none, .external, some fun _ => none, none⟩
  have hasked : k.childPath [⟨.zero, true⟩] ∈ (k.resolve c).requests := by decide +kernel
  exact ⟨_, k, hread, by decide, c, _, hasked, by decide⟩

end KeyExpression

end WalletExchange
