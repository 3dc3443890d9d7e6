import WalletExchange.Descriptor.Codec
import WalletExchange.Proofs.Key.Exchange
import WalletExchange.Proofs.Script.Address

/-!
# Proofs — script functions that are read back

`Node.exchanged` is what arrives of a tree of script functions: every key in it is `exchanged`, and
an address keeps its payload.  A tree arrives exactly if it is `Sendable`: its keys are, the nesting
is allowed, thresholds are in bounds, and no taproot output has a key without compression.

Main statement:

* `Node.ofCbor?_toCbor_iff` — which trees are read back, and as what.
-/

namespace WalletExchange

open Cbor (Value DecodeError Fields)

namespace Multisig

/-- What arrives of a multisignature. -/
def exchanged (m : Multisig) : Multisig := { m with keys := m.keys.map KeyExpression.exchanged }

/-- The keys arrive, and the threshold is between one and their number. -/
structure Sendable (m : Multisig) : Prop where
  keys : ∀ k ∈ m.keys, k.Sendable
  one_le : 1 ≤ m.threshold.toNat
  le_length : m.threshold.toNat ≤ m.keys.length
  length_le : m.keys.length ≤ maxKeys

instance : DecidablePred Sendable := fun _ =>
  decidable_of_iff (_ ∧ _ ∧ _ ∧ _)
    ⟨fun ⟨h₁, h₂, h₃, h₄⟩ => ⟨h₁, h₂, h₃, h₄⟩, fun ⟨h₁, h₂, h₃, h₄⟩ => ⟨h₁, h₂, h₃, h₄⟩⟩

end Multisig

namespace Node

/-- What arrives of a tree of script functions. -/
def exchanged : Node → Node
  | raw script => raw script
  | key f k => key f k.exchanged
  | multi m => multi m.exchanged
  | wsh inner => wsh inner.exchanged
  | sh inner => sh inner.exchanged
  | addr address => addr ⟨address.payload, address.network.exchanged⟩

/-- The tree arrives when it is sent. -/
def Sendable : Node → Prop
  | raw _ | addr _ => True
  | key f k => k.Sendable ∧ (f = .tr → k.isUncompressed = false)
  | multi m => m.Sendable
  | wsh inner => inner.kind.allowedInside .wsh = true ∧ inner.Sendable
  | sh inner => inner.kind.allowedInside .sh = true ∧ inner.Sendable

instance decidableSendable : DecidablePred Sendable
  | raw _ | addr _ => inferInstanceAs (Decidable True)
  | key f k => inferInstanceAs (Decidable (k.Sendable ∧ (f = .tr → _)))
  | multi m => inferInstanceAs (Decidable m.Sendable)
  | wsh inner | sh inner => @instDecidableAnd _ _ _ (decidableSendable inner)

end Node

theorem KeyExpression.isUncompressed_exchanged (k : KeyExpression) :
    k.exchanged.isUncompressed = k.isUncompressed := by
  obtain ⟨origin, material⟩ := k
  cases material <;> rfl

theorem KeyExpression.mapM_ofCbor?_iff {keys arrived : List KeyExpression} :
    (keys.map toCbor).mapM ofCbor? = .ok arrived ↔
      (∀ k ∈ keys, k.Sendable) ∧ arrived = keys.map exchanged := by
  induction keys generalizing arrived with
  | nil =>
      rw [List.map_nil, List.mapM_nil]
      change Except.ok [] = _ ↔ _
      simp [eq_comm]
  | cons k keys ih =>
      rw [List.map_cons, List.mapM_cons, bind_eq_ok_iff, List.forall_mem_cons]
      constructor
      · rintro ⟨k', hk, h⟩
        obtain ⟨keys', hkeys, ⟨⟩⟩ := bind_eq_ok_iff.mp h
        obtain ⟨hsend, rfl⟩ := ofCbor?_toCbor_iff.mp hk
        obtain ⟨hall, rfl⟩ := ih.mp hkeys
        exact ⟨⟨hsend, hall⟩, rfl⟩
      · rintro ⟨⟨hsend, hall⟩, rfl⟩
        exact ⟨_, ofCbor?_toCbor_iff.mpr ⟨hsend, rfl⟩,
          bind_eq_ok_iff.mpr ⟨_, ih.mpr ⟨hall, rfl⟩, rfl⟩⟩

namespace Multisig

/-- What a multisignature is read for: the threshold is in bounds. -/
theorem not_outOfBounds_iff {threshold : UInt64} {length : Nat} :
    ¬ (threshold = 0 ∨ length < threshold.toNat ∨ maxKeys < length) ↔
      1 ≤ threshold.toNat ∧ threshold.toNat ≤ length ∧ length ≤ maxKeys := by
  have hzero : threshold = 0 ↔ threshold.toNat = 0 := UInt64.toNat_inj.symm
  rw [hzero]
  omega

theorem ofCborContent?_toCborContent_iff {m m' : Multisig} :
    ofCborContent? m.isSorted m.toCborContent = .ok m' ↔ m.Sendable ∧ m' = m.exchanged := by
  let entries : List (UInt64 × Value) :=
    [(1, .unsigned m.threshold), (2, .array (m.keys.map KeyExpression.toCbor))]
  have hthreshold : (Fields.ofList entries).require 1 = .ok (.unsigned m.threshold) :=
    Fields.require_ofList rfl
  have hkeys : (Fields.ofList entries).require 2 =
      .ok (.array (m.keys.map KeyExpression.toCbor)) := Fields.require_ofList rfl
  rw [toCborContent, ofCborContent?, Fields.asFields_ofFields, ok_bind, hthreshold, ok_bind,
    Value.asUInt64, ok_bind, hkeys, ok_bind, Value.asArray, ok_bind, bind_eq_ok_iff]
  constructor
  · rintro ⟨keys, hread, h⟩
    obtain ⟨hall, rfl⟩ := KeyExpression.mapM_ofCbor?_iff.mp hread
    split at h
    · cases h
    · next hbounds =>
      cases h
      rw [List.length_map] at hbounds
      obtain ⟨hone, hle, hmax⟩ := not_outOfBounds_iff.mp hbounds
      exact ⟨⟨hall, hone, hle, hmax⟩, rfl⟩
  · rintro ⟨⟨hall, hone, hle, hmax⟩, rfl⟩
    refine ⟨_, KeyExpression.mapM_ofCbor?_iff.mpr ⟨hall, rfl⟩, ?_⟩
    rw [List.length_map, if_neg (not_outOfBounds_iff.mpr ⟨hone, hle, hmax⟩)]
    rfl

end Multisig

namespace Node

theorem kind_exchanged (n : Node) : n.exchanged.kind = n.kind := by
  cases n <;> rfl

theorem checkInside_eq_ok_iff {parent : NodeKind} {n n' : Node} :
    checkInside parent n = .ok n' ↔ n.kind.allowedInside parent = true ∧ n' = n := by
  rw [checkInside]
  cases n.kind.allowedInside parent <;> simp [eq_comm]

/-- A function in another one is read if it is itself, and if it is allowed there. -/
theorem nested_eq_ok_iff {parent : NodeKind} {wrap : Node → Node} {v : Value} {n : Node} :
    (ofCbor? v >>= fun m => checkInside parent m >>= fun m => pure (wrap m)) = .ok n ↔
      ∃ m, ofCbor? v = .ok m ∧ m.kind.allowedInside parent = true ∧ n = wrap m := by
  rw [bind_eq_ok_iff]
  refine exists_congr fun m => and_congr_right fun _ => ?_
  rw [bind_eq_ok_iff]
  constructor
  · rintro ⟨_, hcheck, ⟨⟩⟩
    obtain ⟨hallowed, rfl⟩ := checkInside_eq_ok_iff.mp hcheck
    exact ⟨hallowed, rfl⟩
  · rintro ⟨hallowed, rfl⟩
    exact ⟨m, checkInside_eq_ok_iff.mpr ⟨hallowed, rfl⟩, rfl⟩

theorem keyOfCbor?_eq_ok_iff {f : KeyFunction} {v : Value} {n : Node} :
    keyOfCbor? f v = .ok n ↔ ∃ k, KeyExpression.ofCbor? v = .ok k ∧
      (f = .tr → k.isUncompressed = false) ∧ n = .key f k := by
  rw [keyOfCbor?, bind_eq_ok_iff]
  refine exists_congr fun k => and_congr_right fun _ => ?_
  by_cases hbad : f = .tr ∧ k.isUncompressed
  · obtain ⟨rfl, hk⟩ := hbad
    rw [if_pos ⟨rfl, hk⟩, hk]
    exact iff_of_false nofun fun h => nomatch h.1 rfl
  · have hgood : f = .tr → k.isUncompressed = false :=
      fun hf => Bool.not_eq_true _ ▸ fun hk => hbad ⟨hf, hk⟩
    rw [if_neg hbad]
    constructor
    · rintro ⟨⟩
      exact ⟨hgood, rfl⟩
    · rintro ⟨-, rfl⟩
      rfl

theorem keyOfCbor?_toCbor_iff {f : KeyFunction} {k : KeyExpression} {n' : Node} :
    keyOfCbor? f k.toCbor = .ok n' ↔ (key f k).Sendable ∧ n' = (key f k).exchanged := by
  rw [keyOfCbor?_eq_ok_iff]
  constructor
  · rintro ⟨_, hk, hcompressed, rfl⟩
    obtain ⟨hsend, rfl⟩ := KeyExpression.ofCbor?_toCbor_iff.mp hk
    rw [k.isUncompressed_exchanged] at hcompressed
    exact ⟨⟨hsend, hcompressed⟩, rfl⟩
  · rintro ⟨⟨hsend, hcompressed⟩, rfl⟩
    exact ⟨_, KeyExpression.ofCbor?_toCbor_iff.mpr ⟨hsend, rfl⟩,
      k.isUncompressed_exchanged.symm ▸ hcompressed, rfl⟩

/-! ### Reading each function -/

theorem ofCbor?_raw (script : Script) : ofCbor? (raw script).toCbor = .ok (raw script) := by
  rw [toCbor, ofCbor?, ofCborContent?]
  rfl

theorem ofCbor?_key (f : KeyFunction) (k : KeyExpression) :
    ofCbor? (key f k).toCbor = keyOfCbor? f k.toCbor := by
  rw [toCbor, ofCbor?, ofCborContent?]
  cases f <;> rfl

theorem ofCbor?_multi (m : Multisig) :
    ofCbor? (multi m).toCbor =
      (Multisig.ofCborContent? m.isSorted m.toCborContent >>= fun m => pure (multi m)) := by
  obtain ⟨threshold, keys, isSorted⟩ := m
  rw [toCbor, ofCbor?, ofCborContent?]
  cases isSorted <;> rfl

theorem ofCbor?_wsh (inner : Node) :
    ofCbor? (wsh inner).toCbor =
      (ofCbor? inner.toCbor >>= fun n => checkInside .wsh n >>= fun n => pure (wsh n)) := by
  rw [toCbor, ofCbor?, ofCborContent?]
  rfl

theorem ofCbor?_sh (inner : Node) :
    ofCbor? (sh inner).toCbor =
      (ofCbor? inner.toCbor >>= fun n => checkInside .sh n >>= fun n => pure (sh n)) := by
  rw [toCbor, ofCbor?, ofCborContent?]
  rfl

theorem ofCbor?_address (content : Value) : ofCbor? (.tag Cbor.Tag.address content) =
    (Address.ofCborContent? content >>= fun a => pure (addr a)) := by
  rw [ofCbor?, ofCborContent?]
  rfl

theorem ofCbor?_addr (address : Address) :
    ofCbor? (addr address).toCbor = .ok (addr ⟨address.payload, address.network.exchanged⟩) := by
  have htag : (addr address).toCbor = .tag Cbor.Tag.address address.toCborContent := rfl
  rw [htag, ofCbor?_address, Address.ofCborContent?_toCborContent]
  rfl

theorem nested_toCbor_iff {parent : NodeKind} {wrap : Node → Node} {inner n : Node}
    (hinner : ∀ {m}, ofCbor? inner.toCbor = .ok m ↔ inner.Sendable ∧ m = inner.exchanged) :
    (ofCbor? inner.toCbor >>= fun m => checkInside parent m >>= fun m => pure (wrap m)) = .ok n ↔
      (inner.kind.allowedInside parent = true ∧ inner.Sendable) ∧ n = wrap inner.exchanged := by
  rw [nested_eq_ok_iff]
  constructor
  · rintro ⟨_, hread, hallowed, rfl⟩
    obtain ⟨hsend, rfl⟩ := hinner.mp hread
    exact ⟨⟨inner.kind_exchanged ▸ hallowed, hsend⟩, rfl⟩
  · rintro ⟨⟨hallowed, hsend⟩, rfl⟩
    exact ⟨_, hinner.mpr ⟨hsend, rfl⟩, inner.kind_exchanged.symm ▸ hallowed, rfl⟩

/-- A tree is read back exactly if it is sendable, and what arrives is `exchanged`. -/
theorem ofCbor?_toCbor_iff {n n' : Node} :
    ofCbor? n.toCbor = .ok n' ↔ n.Sendable ∧ n' = n.exchanged := by
  induction n generalizing n' with
  | raw script =>
      rw [ofCbor?_raw]
      simp [Sendable, exchanged, eq_comm]
  | key f k => rw [ofCbor?_key, keyOfCbor?_toCbor_iff]
  | multi m =>
      rw [ofCbor?_multi, bind_eq_ok_iff]
      constructor
      · rintro ⟨m', hm, ⟨⟩⟩
        obtain ⟨hsend, rfl⟩ := Multisig.ofCborContent?_toCborContent_iff.mp hm
        exact ⟨hsend, rfl⟩
      · rintro ⟨hsend, rfl⟩
        exact ⟨_, Multisig.ofCborContent?_toCborContent_iff.mpr ⟨hsend, rfl⟩, rfl⟩
  | wsh inner ih =>
      rw [ofCbor?_wsh]
      exact nested_toCbor_iff ih
  | sh inner ih =>
      rw [ofCbor?_sh]
      exact nested_toCbor_iff ih
  | addr address =>
      rw [ofCbor?_addr]
      simp [Sendable, exchanged, eq_comm]

end Node

end WalletExchange
