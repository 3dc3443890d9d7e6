import WalletExchange.Proofs.Cbor.Fields

/-!
# Proofs — the maps in a value

`Value.maps` lists the maps of a value at every depth, each with the tag that stands in front of it.
A structure is always a map behind its own tag, so the tag says which entries a map may have, and a
rule for the maps of a value is a relation between tags and entries (`Value.EachMap`).

A rule for all maps of a value is one for the map at the top and for the maps of its parts.  The
lemmas say this for each form in which values are put together.
-/

namespace WalletExchange.Cbor

mutual

/-- The maps of a value, at every depth, each with the tag in front of it. -/
def Value.mapsBehind (before : Option UInt64) : Value → List (Option UInt64 × Fields)
  | .array items => mapsOfItems items
  | .map entries => (before, entries) :: mapsOfEntries entries
  | .tag number content => content.mapsBehind (some number)
  | .unsigned _ | .negative _ | .bytes _ | .text _ | .bool _ | .null | .float _ => []

/-- The maps of the items of an array. -/
def mapsOfItems : List Value → List (Option UInt64 × Fields)
  | [] => []
  | item :: rest => item.mapsBehind none ++ mapsOfItems rest

/-- The maps of the keys and values of a map. -/
def mapsOfEntries : List (Value × Value) → List (Option UInt64 × Fields)
  | [] => []
  | (key, value) :: rest => key.mapsBehind none ++ value.mapsBehind none ++ mapsOfEntries rest

end

/-- The maps of a value with no tag in front of it. -/
def Value.maps (v : Value) : List (Option UInt64 × Fields) := v.mapsBehind none

theorem mem_mapsOfItems {items : List Value} {m : Option UInt64 × Fields} :
    m ∈ mapsOfItems items ↔ ∃ v ∈ items, m ∈ v.maps := by
  induction items with
  | nil => simp [mapsOfItems]
  | cons v rest ih => simp [mapsOfItems, Value.maps, ih]

theorem mem_mapsOfEntries {entries : List (Value × Value)} {m : Option UInt64 × Fields} :
    m ∈ mapsOfEntries entries ↔ ∃ entry ∈ entries, m ∈ entry.1.maps ∨ m ∈ entry.2.maps := by
  induction entries with
  | nil => simp [mapsOfEntries]
  | cons entry rest ih => simp [mapsOfEntries, Value.maps, ih, or_assoc]

namespace Value

/-- Every map of the value stands behind a tag, and the rule holds of it there. -/
def EachMap (rule : UInt64 → Fields → Prop) (v : Value) : Prop :=
  ∀ m ∈ v.maps, ∃ number, m.1 = some number ∧ rule number m.2

variable {rule : UInt64 → Fields → Prop} {number : UInt64}

theorem eachMap_of_maps_eq_nil {v : Value} (h : v.maps = []) : v.EachMap rule := by
  rw [EachMap, h]
  exact List.forall_mem_nil _

@[simp] theorem eachMap_unsigned (n : UInt64) : (unsigned n).EachMap rule :=
  eachMap_of_maps_eq_nil rfl

@[simp] theorem eachMap_bool (b : Bool) : (bool b).EachMap rule := eachMap_of_maps_eq_nil rfl

@[simp] theorem eachMap_bytes (data : Bytes) : (bytes data).EachMap rule :=
  eachMap_of_maps_eq_nil rfl

theorem eachMap_tag_bytes (data : Bytes) : (tag number (bytes data)).EachMap rule :=
  eachMap_of_maps_eq_nil rfl

/-- Of two tags the inner one counts. -/
theorem eachMap_tag_tag {inner : UInt64} {content : Value} :
    (tag number (tag inner content)).EachMap rule ↔ (tag inner content).EachMap rule := Iff.rfl

theorem eachMap_array {items : List Value} :
    (array items).EachMap rule ↔ ∀ v ∈ items, v.EachMap rule := by
  have hmaps : (array items).maps = mapsOfItems items := rfl
  simp only [EachMap, hmaps, mem_mapsOfItems]
  constructor
  · exact fun h v hv m hm => h m ⟨v, hv, hm⟩
  · rintro h m ⟨v, hv, hm⟩
    exact h v hv m hm

/-- A structure keeps the rule if its own map does and the values of its entries do. -/
theorem eachMap_tag_ofFields {entries : List (UInt64 × Value)} :
    (tag number (ofFields entries)).EachMap rule ↔
      rule number (.ofList entries) ∧ ∀ entry ∈ entries, entry.2.EachMap rule := by
  have hmaps : (tag number (ofFields entries)).maps =
      (some number, Fields.ofList entries) :: mapsOfEntries (Fields.ofList entries) := rfl
  simp only [EachMap, hmaps, List.forall_mem_cons, mem_mapsOfEntries]
  refine and_congr ?_ ?_
  · simp
  · constructor
    · intro h entry hentry m hm
      exact h m ⟨(.unsigned entry.1, entry.2), List.mem_map_of_mem hentry, .inr hm⟩
    · rintro h m ⟨_, hfield, hm⟩
      obtain ⟨entry, hentry, rfl⟩ := List.mem_map.mp hfield
      -- a key is a number and has no maps
      exact hm.elim (fun hkey => absurd hkey List.not_mem_nil) (h entry hentry m)

end Value

/-- An entry that is there if there is something to write. -/
theorem eachMap_of_toList_iff {rule : UInt64 → Fields → Prop} {α : Type} {o : Option α}
    {f : α → Value} {key : UInt64} :
    (∀ entry ∈ o.toList.map fun a => (key, f a), entry.2.EachMap rule) ↔
      ∀ a ∈ o, (f a).EachMap rule := by
  cases o <;> simp

end WalletExchange.Cbor
