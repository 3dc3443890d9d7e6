import WalletExchange.Proofs.Descriptor.Exchange

/-!
# Proofs — the values that hold a tree

`Node.Coded v n` is the decoder as a relation: the one way in which a value holds a script function,
for each of them.  A function in another one is decoded first and then looked at, whether it is
allowed there; the relation asks for both at once.

Main statements:

* `Node.ofCbor?_eq_ok_iff` — the decoder reads values as the relation says.
* `Node.Coded.exists_key_of_mem` — every key of a tree that was read has been read as one.
-/

namespace WalletExchange

open Cbor (Value DecodeError Fields)

theorem Multisig.of_ofCborContent? {sorted : Bool} {v : Value} {m : Multisig}
    (h : ofCborContent? sorted v = .ok m) :
    (∀ k ∈ m.keys, ∃ w, KeyExpression.ofCbor? w = .ok k) ∧ 1 ≤ m.threshold.toNat ∧
      m.threshold.toNat ≤ m.keys.length ∧ m.keys.length ≤ maxKeys := by
  obtain ⟨fields, -, h⟩ := bind_eq_ok_iff.mp h
  obtain ⟨first, -, h⟩ := bind_eq_ok_iff.mp h
  obtain ⟨threshold, -, h⟩ := bind_eq_ok_iff.mp h
  obtain ⟨second, -, h⟩ := bind_eq_ok_iff.mp h
  obtain ⟨values, -, h⟩ := bind_eq_ok_iff.mp h
  obtain ⟨keys, hkeys, h⟩ := bind_eq_ok_iff.mp h
  split at h
  · cases h
  · next hbounds =>
    cases h
    refine ⟨fun k hk => ?_, not_outOfBounds_iff.mp hbounds⟩
    obtain ⟨w, -, hw⟩ := exists_of_mem_mapM hkeys k hk
    exact ⟨w, hw⟩

namespace Node

/-- The values that hold a script function. -/
inductive Coded : Value → Node → Prop where
  | raw (bytes : Bytes) : Coded (.tag Cbor.Tag.rawScript (.bytes bytes)) (.raw ⟨bytes⟩)
  | key {f : KeyFunction} {v : Value} {k : KeyExpression}
      (argument : KeyExpression.ofCbor? v = .ok k)
      (compressed : f = .tr → k.isUncompressed = false) :
      Coded (.tag f.cborTag v) (.key f k)
  | multi {sorted : Bool} {v : Value} {m : Multisig}
      (content : Multisig.ofCborContent? sorted v = .ok m) :
      Coded (.tag (if sorted then Cbor.Tag.sortedMultisig else Cbor.Tag.multisig) v) (.multi m)
  | wsh {v : Value} {n : Node} (inner : Coded v n) (allowed : n.kind.allowedInside .wsh = true) :
      Coded (.tag Cbor.Tag.witnessScriptHash v) (.wsh n)
  | sh {v : Value} {n : Node} (inner : Coded v n) (allowed : n.kind.allowedInside .sh = true) :
      Coded (.tag Cbor.Tag.scriptHash v) (.sh n)
  | addr {v : Value} {a : Address} (content : Address.ofCborContent? v = .ok a) :
      Coded (.tag Cbor.Tag.address v) (.addr a)

theorem cborTag_of_keyFunctionOfTag? {number : UInt64} {f : KeyFunction}
    (h : keyFunctionOfTag? number = some f) : number = f.cborTag := by
  have hfound := List.find?_some h
  exact (beq_iff_eq.mp hfound).symm

theorem eq_bytes_of_asBytes {v : Value} {bytes : Bytes} (h : v.asBytes = .ok bytes) :
    v = .bytes bytes := by
  cases v with
  | bytes data => cases h; rfl
  | _ => cases h

theorem coded_of_ofCbor? {v : Value} {n : Node} (h : ofCbor? v = .ok n) : Coded v n := by
  rw [ofCbor?.eq_def] at h
  split at h
  · next number content =>
    rw [ofCborContent?] at h
    -- the tags in the order in which they are looked at
    repeat' split at h
    · next htag =>
      obtain ⟨inner, hinner, hallowed, rfl⟩ := nested_eq_ok_iff.mp h
      exact htag ▸ .sh (coded_of_ofCbor? hinner) hallowed
    · next htag =>
      obtain ⟨inner, hinner, hallowed, rfl⟩ := nested_eq_ok_iff.mp h
      exact htag ▸ .wsh (coded_of_ofCbor? hinner) hallowed
    · next htag =>
      obtain ⟨m, hm, ⟨⟩⟩ := bind_eq_ok_iff.mp h
      exact htag ▸ @Coded.multi false _ _ hm
    · next htag =>
      obtain ⟨m, hm, ⟨⟩⟩ := bind_eq_ok_iff.mp h
      exact htag ▸ @Coded.multi true _ _ hm
    · next htag =>
      -- nothing is asked of the bytes of a script
      obtain ⟨bytes, hbytes, ⟨⟩⟩ := bind_eq_ok_iff.mp h
      rw [htag, eq_bytes_of_asBytes hbytes]
      exact .raw bytes
    · next htag =>
      obtain ⟨a, ha, ⟨⟩⟩ := bind_eq_ok_iff.mp h
      exact htag ▸ .addr ha
    · next f hf =>
      obtain ⟨k, hk, hcompressed, rfl⟩ := keyOfCbor?_eq_ok_iff.mp h
      exact cborTag_of_keyFunctionOfTag? hf ▸ .key hk hcompressed
    · cases h
  · cases h
termination_by sizeOf v

/-- The decoder reads values as the relation says. -/
theorem ofCbor?_eq_ok_iff {v : Value} {n : Node} : ofCbor? v = .ok n ↔ Coded v n := by
  refine ⟨coded_of_ofCbor?, fun h => ?_⟩
  induction h with
  | raw bytes => rw [ofCbor?, ofCborContent?]; rfl
  | @key f v k argument compressed =>
      have hread : ofCbor? (.tag f.cborTag v) = keyOfCbor? f v := by
        rw [ofCbor?, ofCborContent?]
        cases f <;> rfl
      rw [hread]
      exact keyOfCbor?_eq_ok_iff.mpr ⟨k, argument, compressed, rfl⟩
  | @multi sorted v m content =>
      cases sorted <;>
      · rw [ofCbor?, ofCborContent?]
        change (Multisig.ofCborContent? _ v >>= fun m => pure (Node.multi m)) = _
        rw [content]
        rfl
  | @wsh v n inner allowed ih =>
      rw [ofCbor?, ofCborContent?]
      exact nested_eq_ok_iff.mpr ⟨n, ih, allowed, rfl⟩
  | @sh v n inner allowed ih =>
      rw [ofCbor?, ofCborContent?]
      exact nested_eq_ok_iff.mpr ⟨n, ih, allowed, rfl⟩
  | @addr v a content =>
      rw [ofCbor?, ofCborContent?]
      change (Address.ofCborContent? v >>= fun a => pure (Node.addr a)) = _
      rw [content]
      rfl

/-- Every key of a tree that was read has been read as one. -/
theorem Coded.exists_key_of_mem {v : Value} {n : Node} (h : Coded v n) :
    ∀ k ∈ n.keys, ∃ w, KeyExpression.ofCbor? w = .ok k := by
  induction h with
  | raw | addr => exact List.forall_mem_nil _
  | key argument => exact List.forall_mem_singleton.mpr ⟨_, argument⟩
  | multi content => exact (Multisig.of_ofCborContent? content).1
  | wsh _ _ ih | sh _ _ ih => exact ih

end Node

end WalletExchange
