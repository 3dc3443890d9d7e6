import WalletExchange.Proofs.Except
import WalletExchange.UseInfo

/-!
# Proofs — maps that are read back

What the readers of a map find in a map that was written from a list of entries: a key is looked up
in the list.  The lemmas about the lookup go through the forms in which entries are written, one
that is always there, one that is there if there is something to write, and use information, which
is there if it is not standard.  An entry that is added to a map makes a difference to its own key
only, and none where it has the default.
-/

namespace WalletExchange

namespace Cbor

variable {α β : Type}

theorem untag_tag (number : UInt64) (content : Value) :
    (Value.tag number content).untag number = .ok content := if_pos rfl

namespace Fields

/-- The entries of a map that is written from a list. -/
def ofList (entries : List (UInt64 × Value)) : Fields := entries.map fun (k, v) => (.unsigned k, v)

theorem asFields_ofFields (entries : List (UInt64 × Value)) :
    (Value.ofFields entries).asFields = .ok (ofList entries) := rfl

variable {entries : List (UInt64 × Value)} {key : UInt64}

theorem find?_ofList : (ofList entries).find? key = entries.lookup key := by
  induction entries with
  | nil => rfl
  | cons entry rest ih =>
      obtain ⟨k, v⟩ := entry
      have hkey : (Value.unsigned k).isKey key = (key == k) := by
        simp only [Value.isKey]
        exact Bool.beq_comm
      simp only [ofList, find?] at ih
      simp only [ofList, find?, List.map_cons, List.find?_cons, hkey, List.lookup_cons]
      cases key == k with
      | true => rfl
      | false => exact ih

theorem require_ofList {v : Value} (h : entries.lookup key = some v) :
    (ofList entries).require key = .ok v := by
  rw [require, find?_ofList, h]

theorem optional_ofList {o : Option Value} {decode : Value → Except DecodeError α}
    (h : entries.lookup key = o) :
    (ofList entries).optional key decode = o.elim (.ok none) fun v => (decode v).map some := by
  rw [optional, find?_ofList, h]
  cases o <;> rfl

/-- An optional entry that was read was read from some value. -/
theorem exists_of_optional {fields : Fields} {decode : Value → Except DecodeError α} {o : Option α}
    (h : fields.optional key decode = .ok o) : ∀ a ∈ o, ∃ v, decode v = .ok a := by
  rintro a rfl
  rw [optional] at h
  split at h
  · next v _ =>
    obtain ⟨_, hdecode, ⟨⟩⟩ := map_eq_ok_iff.mp h
    exact ⟨v, hdecode⟩
  · cases h

theorem getOr_ofList {o : Option Value} {decode : Value → Except DecodeError α} {default : α}
    (h : entries.lookup key = o) :
    (ofList entries).getOr key decode default = o.elim (.ok default) decode := by
  rw [getOr, optional_ofList h]
  cases o with
  | none => rfl
  | some v =>
      change ((decode v).map some).map _ = decode v
      cases decode v <;> rfl

/-- An entry that is always there. -/
theorem lookup_cons (k : UInt64) (v : Value) (rest : List (UInt64 × Value)) :
    List.lookup key ((k, v) :: rest) = if key = k then some v else rest.lookup key := by
  rw [List.lookup_cons]
  by_cases h : key = k
  · simp [h]
  · simp [h, beq_eq_false_iff_ne.mpr h]

/-- An entry that is there if there is something to write. -/
theorem lookup_toList (o : Option β) (f : β → Value) (k : UInt64) :
    (o.toList.map fun b => (k, f b)).lookup key = if key = k then o.map f else none := by
  cases o with
  | none => simp
  | some b =>
      rw [Option.toList_some, List.map_singleton, lookup_cons]
      rfl

end Fields

/-! ### Entries that are added -/

variable {fields before after : Fields} {key : UInt64} {v : Value}

theorem Value.isKey_iff : v.isKey key = true ↔ v = .unsigned key := by
  cases v <;> simp [isKey]

namespace Fields

theorem isSome_find?_iff : (fields.find? key).isSome ↔ .unsigned key ∈ fields.map Prod.fst := by
  rw [find?, Option.isSome_map, List.find?_isSome, List.mem_map]
  simp only [Value.isKey_iff]

theorem find?_eq_none_of_notMem (h : .unsigned key ∉ fields.map Prod.fst) :
    fields.find? key = none := by
  rw [← Option.not_isSome_iff_eq_none, isSome_find?_iff]
  exact h

/-- An entry counts for its own key alone. -/
theorem find?_insert_of_ne {k : UInt64} (h : k ≠ key) :
    find? (before ++ (.unsigned k, v) :: after) key = find? (before ++ after) key := by
  have hkey : (Value.unsigned k).isKey key = false :=
    Bool.eq_false_iff.mpr fun hk => h (Value.unsigned.inj (Value.isKey_iff.mp hk))
  simp [find?, List.find?_append, hkey]

/-- The only entry with its key is found. -/
theorem find?_insert_self (h : .unsigned key ∉ (before ++ after).map Prod.fst) :
    find? (before ++ (.unsigned key, v) :: after) key = some v := by
  have hbefore : List.find? (fun entry => entry.1.isKey key) before = none := by
    rw [List.find?_eq_none]
    intro entry hentry hkey
    exact h (List.mem_map.mpr ⟨entry, List.mem_append_left _ hentry, Value.isKey_iff.mp hkey⟩)
  have hkey : (Value.unsigned key).isKey key = true := Value.isKey_iff.mpr rfl
  simp [find?, List.find?_append, hbefore, hkey]

/-- An entry makes no difference to what is read with a default, be it under another key or be it
the default. -/
theorem getOr_insert {decode : Value → Except DecodeError α} {default : α} {k : UInt64}
    (hk : .unsigned k ∉ (before ++ after).map Prod.fst) (h : k = key → decode v = .ok default) :
    getOr (before ++ (.unsigned k, v) :: after) key decode default =
      getOr (before ++ after) key decode default := by
  rw [getOr, getOr, optional, optional]
  by_cases hkey : k = key
  · subst hkey
    rw [find?_insert_self hk, find?_eq_none_of_notMem hk]
    change ((decode v).map some).map _ = _
    rw [h rfl]
    rfl
  · rw [find?_insert_of_ne hkey]

end Fields

end Cbor

open Cbor (Fields Value)

/-- The network that is left of a network when only the main one is told from the others. -/
def BitcoinNetwork.exchanged (network : BitcoinNetwork) : BitcoinNetwork :=
  (Network.ofBitcoin network).toBitcoin

theorem BitcoinNetwork.exchanged_eq {network : BitcoinNetwork}
    (h : network = .bitcoin ∨ network = .testnet) : network.exchanged = network := by
  rcases h with rfl | rfl <;> rfl

theorem Network.exchanged_toBitcoin (network : Network) :
    network.toBitcoin.exchanged = network.toBitcoin := by
  cases network <;> rfl

namespace UseInfo

theorem ofCbor?_toCbor (u : UseInfo) : ofCbor? u.toCbor = .ok u := by
  obtain ⟨asset, network⟩ := u
  cases asset <;> cases network <;> rfl

theorem lookup_field (u : UseInfo) (key k : UInt64) :
    (u.field k).lookup key = if key = k ∧ u ≠ standard then some u.toCbor else none := by
  rw [field]
  by_cases hu : u = standard
  · simp [hu]
  · rw [if_neg hu, Fields.lookup_cons]
    simp [hu]

/-- Use information that is left out where it is standard is read back. -/
theorem ofField?_ofList {u : UseInfo} {entries : List (UInt64 × Value)} {key : UInt64}
    (h : entries.lookup key = if u ≠ standard then some u.toCbor else none) :
    ofField? (.ofList entries) key = .ok u := by
  rw [ofField?, Fields.getOr_ofList h]
  by_cases hu : u = standard
  · simp [hu]
  · rw [if_pos hu]
    exact ofCbor?_toCbor u

end UseInfo

end WalletExchange
