import WalletExchange.Proofs.Account.Canonical

/-!
# Proofs — the maps of all messages

A message is whatever is exchanged as a tagged value.  Trees of script functions, descriptors and
accounts are put together from keys and addresses: functions add tags and no maps, and the maps of
multisignatures and accounts have no optional entries.  So the maps of a message are canonical if
those of its paths are, and of these the ones count that are written as they are given: children of
keys and paths of requests.

Main statement:

* `Message.isCanonical_iff` — which messages are canonical, and that no reader takes notice of the
  entries that are left out.
-/

namespace WalletExchange

open Cbor (Value Fields StandardEntry ReadAlike)

/-- A number under 1 and a list under 2, as in multisignatures and accounts: none of it is
optional. -/
theorem Cbor.isCanonical_numbered_iff {number n : UInt64} {items : List Value}
    (hrequired : ∀ fields key v, ¬ StandardEntry number fields key v) :
    (Value.tag number (.ofFields [(1, .unsigned n), (2, .array items)])).IsCanonical ↔
      ∀ v ∈ items, v.IsCanonical := by
  have hmap : Fields.Canonical number (.ofList [(1, .unsigned n), (2, .array items)]) :=
    Fields.canonical_ofList (List.Sublist.refl [1, 2]) (by decide) fun _ _ _ => hrequired _ _ _
  refine Value.eachMap_tag_ofFields.trans ((and_iff_right hmap).trans ?_)
  simp [Value.IsCanonical, Value.eachMap_array]

/-! ### Script functions, descriptors and accounts -/

namespace Node

/-- The paths of the keys that are written as they are given. -/
def givenPaths (n : Node) : List Path := n.keys.flatMap KeyExpression.givenPaths

theorem isCanonical_multi_iff {m : Multisig} :
    (multi m).toCbor.IsCanonical ↔ ∀ p ∈ (multi m).givenPaths, p.Normal := by
  obtain ⟨threshold, keys, isSorted⟩ := m
  have hrequired : ∀ fields key v,
      ¬ StandardEntry (Multisig.cborTag ⟨threshold, keys, isSorted⟩) fields key v := by
    intro fields key v h
    cases isSorted <;> exact h
  refine (Cbor.isCanonical_numbered_iff hrequired).trans ?_
  simp only [givenPaths, Node.keys, List.forall_mem_map, List.forall_mem_flatMap,
    KeyExpression.isCanonical_toCbor_iff]

theorem isCanonical_toCbor_iff {n : Node} :
    n.toCbor.IsCanonical ↔ ∀ p ∈ n.givenPaths, p.Normal := by
  induction n with
  | raw script => exact iff_of_true (Value.eachMap_tag_bytes _) (List.forall_mem_nil _)
  | key f k =>
      rw [givenPaths, keys, List.flatMap_singleton, ← KeyExpression.isCanonical_toCbor_iff]
      exact Value.eachMap_tag_tag
  | multi m => exact isCanonical_multi_iff
  | wsh inner ih | sh inner ih => exact Value.eachMap_tag_tag.trans ih
  | addr a => exact iff_of_true a.isCanonical_toCbor (List.forall_mem_nil _)

end Node

/-- A descriptor is one more tag over its tree. -/
theorem OutputDescriptor.isCanonical_toCbor_iff {d : OutputDescriptor} :
    d.toCbor.IsCanonical ↔ ∀ p ∈ d.node.givenPaths, p.Normal :=
  Value.eachMap_tag_tag.trans Node.isCanonical_toCbor_iff

namespace AccountDescriptors

/-- The paths of all keys that are written as they are given. -/
def givenPaths (a : AccountDescriptors) : List Path :=
  a.descriptors.flatMap fun d => d.node.givenPaths

theorem isCanonical_toCbor_iff {a : AccountDescriptors} :
    a.toCbor.IsCanonical ↔ ∀ p ∈ a.givenPaths, p.Normal := by
  refine (Cbor.isCanonical_numbered_iff fun _ _ _ => id).trans ?_
  simp only [givenPaths, List.forall_mem_map, List.forall_mem_flatMap,
    OutputDescriptor.isCanonical_toCbor_iff]

end AccountDescriptors

/-! ### Requests -/

namespace KeyRequest

variable (r : KeyRequest)

theorem keys_sublist : (r.entries.map Prod.fst).Sublist ([1, 2] ++ [3] ++ [4]) := by
  simp only [entries, List.map_append]
  refine ((List.Sublist.refl [1, 2]).append (UseInfo.keys_field_sublist _ 3)).append ?_
  split <;> simp

theorem not_standardEntry {key : UInt64} {v : Value} (h : r.entries.lookup key = some v) :
    ¬ StandardEntry (.unsigned key) v := by
  intro hstandard
  cases hstandard with
  | useInfo hread =>
      rw [lookup_useInfo] at h
      exact UseInfo.ne_standard_of_lookup h hread
  | isDerivable =>
      rw [lookup_isDerivable] at h
      split at h <;> cases h

theorem isCanonical_toCbor_iff : r.toCbor.IsCanonical ↔ r.path.Normal := by
  have hmap : Fields.Canonical Cbor.Tag.keyRequest (.ofList r.entries) :=
    Fields.canonical_ofList r.keys_sublist (by decide) fun _ _ => r.not_standardEntry
  have hderivable : ∀ entry ∈ (if r.isDerivable then [] else [(4, .bool false)] :
      List (UInt64 × Value)), entry.2.EachMap Fields.Canonical := by
    split <;> simp
  refine Value.eachMap_tag_ofFields.trans ((and_iff_right hmap).trans ?_)
  rw [← Path.isCanonical_toCbor_iff]
  simp only [List.forall_mem_append, List.forall_mem_cons]
  exact ⟨fun h => h.1.1.2.1, fun hpath =>
    ⟨⟨⟨Value.eachMap_bool _, hpath, List.forall_mem_nil _⟩, UseInfo.isCanonical_field _ 3⟩,
      hderivable⟩⟩

end KeyRequest

/-! ### Messages -/

/-- What is exchanged. -/
inductive Message where
  | useInfo (u : UseInfo)
  | path (p : Path)
  | address (a : Address)
  | key (k : KeyExpression)
  | node (n : Node)
  | descriptor (d : OutputDescriptor)
  | account (a : AccountDescriptors)
  | bundle (b : Bundle)
  | request (r : KeyRequest)

namespace Message

/-- The tagged value. -/
def toCbor : Message → Value
  | useInfo u => u.toCbor
  | path p => p.toCbor
  | address a => a.toCbor
  | key k => k.toCbor
  | node n => n.toCbor
  | descriptor d => d.toCbor
  | account a => a.toCbor
  | bundle b => b.toCbor
  | request r => r.toCbor

/-- The paths that are written as they are given: the path itself, the path of a request, and the
children of extended keys.  An origin is written with the depth of its key. -/
def givenPaths : Message → List Path
  | useInfo _ | address _ => []
  | path p => [p]
  | key k => k.givenPaths
  | node n => n.givenPaths
  | descriptor d => d.node.givenPaths
  | account a => a.givenPaths
  | bundle b => b.toAccountDescriptors.givenPaths
  | request r => [r.path]

/-- In all maps of a message the keys are numbers that ascend strictly and no entry is standard,
exactly if the paths that are written as they are given are normal.  In a map without duplicate
keys, no reader takes notice of a standard entry. -/
theorem isCanonical_iff :
    (∀ m : Message, m.toCbor.IsCanonical ↔ ∀ p ∈ m.givenPaths, p.Normal) ∧
      ∀ (number : UInt64) (before after : Fields) (key v : Value),
        StandardEntry number (before ++ (key, v) :: after) key v →
        key ∉ (before ++ after).map Prod.fst →
        ReadAlike (.tag number (.map (before ++ (key, v) :: after)))
          (.tag number (.map (before ++ after))) := by
  refine ⟨fun m => ?_, fun number before after key v => Cbor.readAlike_insert⟩
  cases m with
  | useInfo u => exact iff_of_true u.isCanonical_toCbor (List.forall_mem_nil _)
  | path p => exact Path.isCanonical_toCbor_iff.trans List.forall_mem_singleton.symm
  | address a => exact iff_of_true a.isCanonical_toCbor (List.forall_mem_nil _)
  | key k => exact k.isCanonical_toCbor_iff
  | node n => exact Node.isCanonical_toCbor_iff
  | descriptor d => exact OutputDescriptor.isCanonical_toCbor_iff
  | account a => exact AccountDescriptors.isCanonical_toCbor_iff
  | bundle b => exact AccountDescriptors.isCanonical_toCbor_iff
  | request r => exact r.isCanonical_toCbor_iff.trans List.forall_mem_singleton.symm

/-- Of requests for the child of an unknown key: with the depth of the child recorded, the request
is canonical.  If what is recorded is the number of steps, it is not, and the path is read as if
nothing were recorded. -/
theorem isCanonical_of_recordedDepth :
    let child (depth : Option UInt8) : Path := ⟨none, [.ofChildNumber ⟨⟨7⟩, false⟩], depth⟩
    let requested (depth : UInt8) : Message :=
      .request ⟨.publicKey, child (some depth), .ofNetwork .testnet, true⟩
    (requested 4).toCbor.IsCanonical ∧ ¬ (requested 1).toCbor.IsCanonical ∧
      ReadAlike (child (some 1)).toCbor (child none).toCbor := by
  intro child requested
  obtain ⟨hcanonical, hstandard⟩ := isCanonical_iff
  refine ⟨(hcanonical (requested 4)).mpr (by decide),
    fun h => absurd ((hcanonical (requested 1)).mp h) (by decide), ?_⟩
  let steps : Fields := [(.unsigned 1, (child none).stepsToCbor)]
  have hdepth : Path.StandardEntry (steps ++ [(.unsigned 3, .unsigned 1)]) (.unsigned 3)
      (.unsigned 1) := @Path.StandardEntry.depth _ _ _ 1 rfl rfl rfl
  exact hstandard Cbor.Tag.keyPath steps [] (.unsigned 3) (.unsigned 1) hdepth (by simp [steps])

end Message

end WalletExchange
