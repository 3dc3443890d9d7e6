import WalletExchange.Proofs.Account.StandardEntries
import WalletExchange.Proofs.Cbor.Maps
import WalletExchange.Proofs.Key.Exchange
import WalletExchange.Proofs.Script.Address

/-!
# Proofs — one way to write each value

Peers compare bytes, so a value should be written in one way only.  The order of entries leaves no
choice where keys ascend strictly, and the optional entries leave none where no standard one is
written.  A map of this kind is *canonical*, and so is a value if all maps in it are.

The parts of a map are appended one after the other, each with its own key and each if there is
something to write, so the keys that are there are some of the keys of the layout in their order.
The one entry that is copied without a question is the recorded depth of a path: a path that is not
normal is written with a depth that is the number of its steps.  The origin of an extended key never
is, since its depth is recorded anew when it is written.

Main statements:

* `Path.isCanonical_toCbor_iff` — the value of a path is canonical exactly if the path is normal.
* `KeyExpression.isCanonical_toCbor_iff` — the value of a key is canonical exactly if its children
  are normal.
-/

namespace WalletExchange

open Cbor (Value Fields StandardEntry ReadAlike)

/-! ### Canonical maps -/

namespace Cbor

/-- Keys are unsigned integers that ascend strictly, and no entry is standard. -/
structure Fields.Canonical (number : UInt64) (fields : Fields) : Prop where
  ascending : ∃ keys : List UInt64,
    fields.map Prod.fst = keys.map Value.unsigned ∧ keys.Pairwise (· < ·)
  omitted : ∀ entry ∈ fields, ¬ StandardEntry number fields entry.1 entry.2

/-- Every map of the value, at every depth, is canonical behind the tag in front of it. -/
def Value.IsCanonical (v : Value) : Prop := v.EachMap Fields.Canonical

variable {number : UInt64} {entries : List (UInt64 × Value)} {keys : List UInt64}

theorem Fields.lookup_of_mem (h : (entries.map Prod.fst).Nodup) :
    ∀ entry ∈ entries, entries.lookup entry.1 = some entry.2 := by
  induction entries with
  | nil => exact List.forall_mem_nil _
  | cons first rest ih =>
      obtain ⟨hfirst, hrest⟩ := List.nodup_cons.mp h
      refine List.forall_mem_cons.mpr ⟨List.lookup_cons_self, fun entry hentry => ?_⟩
      have hne : entry.1 ≠ first.1 := fun heq => hfirst (heq ▸ List.mem_map_of_mem hentry)
      rw [show first :: rest = (first.1, first.2) :: rest from rfl, Fields.lookup_cons,
        if_neg hne, ih hrest entry hentry]

/-- A map is canonical if its keys are some of ascending ones, and no entry that is looked up is
standard. -/
theorem Fields.canonical_ofList (hsub : (entries.map Prod.fst).Sublist keys)
    (hkeys : keys.Pairwise (· < ·))
    (hentries : ∀ key v, entries.lookup key = some v →
      ¬ StandardEntry number (ofList entries) (.unsigned key) v) :
    Canonical number (ofList entries) := by
  have hascending : (entries.map Prod.fst).Pairwise (· < ·) := hkeys.sublist hsub
  refine ⟨⟨entries.map Prod.fst, by simp [ofList], hascending⟩, fun field hfield => ?_⟩
  obtain ⟨entry, hentry, rfl⟩ := List.mem_map.mp hfield
  have hnodup : (entries.map Prod.fst).Nodup := hascending.imp fun h => UInt64.ne_of_lt h
  exact hentries _ _ (lookup_of_mem hnodup entry hentry)

/-- An entry that is there if there is something to write has its key or none. -/
theorem Fields.keys_toList_sublist {α : Type} (o : Option α) (f : α → Value) (key : UInt64) :
    ((o.toList.map fun a => (key, f a)).map Prod.fst).Sublist [key] := by
  cases o <;> simp

end Cbor

/-! ### Use information -/

namespace UseInfo

/-- The entries of the map of use information. -/
def entries (u : UseInfo) : List (UInt64 × Value) :=
  (if u.asset = .btc then [] else [(1, .unsigned u.asset.coinType.toUInt64)]) ++
    if u.network = .mainnet then [] else [(2, .unsigned u.network.toUInt64)]

theorem keys_field_sublist (u : UseInfo) (key : UInt64) :
    ((u.field key).map Prod.fst).Sublist [key] := by
  rw [field]
  split <;> simp

theorem not_standardEntry {u : UseInfo} {key : UInt64} {v : Value}
    (h : u.entries.lookup key = some v) : ¬ StandardEntry (.unsigned key) v := by
  obtain ⟨asset, network⟩ := u
  intro hstandard
  cases hstandard with
  | asset hread =>
      cases asset with
      | btc => cases network <;> cases h
      | eth => cases h; cases hread
  | network hread =>
      cases network with
      | mainnet => cases asset <;> cases h
      | testnet => cases asset <;> cases h <;> cases hread

theorem keys_sublist (u : UseInfo) : (u.entries.map Prod.fst).Sublist [1, 2] := by
  obtain ⟨asset, network⟩ := u
  cases asset <;> cases network <;> decide

theorem isCanonical_toCbor (u : UseInfo) : u.toCbor.IsCanonical := by
  refine Value.eachMap_tag_ofFields.mpr ⟨?_, ?_⟩
  · exact Fields.canonical_ofList u.keys_sublist (by decide) fun _ _ => not_standardEntry
  · simp only [List.forall_mem_append]
    constructor <;> split <;> simp

theorem isCanonical_field (u : UseInfo) (key : UInt64) :
    ∀ entry ∈ u.field key, entry.2.IsCanonical := by
  rw [field]
  split
  · exact List.forall_mem_nil _
  · exact List.forall_mem_singleton.mpr u.isCanonical_toCbor

/-- Use information that is written is not standard. -/
theorem ne_standard_of_lookup {u : UseInfo} {v : Value}
    (h : (if u ≠ standard then some u.toCbor else none) = some v) : ofCbor? v ≠ .ok standard := by
  intro hread
  split at h
  · next hne =>
    cases h
    rw [ofCbor?_toCbor] at hread
    exact hne (Except.ok.inj hread)
  · cases h

end UseInfo

/-! ### Paths -/

namespace Path

theorem eachMap_stepsToCbor (rule : UInt64 → Fields → Prop) (p : Path) :
    p.stepsToCbor.EachMap rule := by
  have hspec (s : IndexSpec) : s.toCbor.EachMap rule := by
    cases s with
    | index i => exact Value.eachMap_unsigned _
    | wildcard => exact Value.eachMap_array.mpr (List.forall_mem_nil _)
  refine Value.eachMap_array.mpr fun v hv => ?_
  obtain ⟨s, -, hs⟩ := List.mem_flatMap.mp hv
  cases s with
  | single s =>
      simp only [Step.toCbor, List.mem_cons, List.not_mem_nil, or_false] at hs
      rcases hs with rfl | rfl
      · exact hspec s.spec
      · exact Value.eachMap_bool _
  | pair pair =>
      simp only [Step.toCbor, List.mem_cons, List.not_mem_nil, or_false] at hs
      rcases hs with rfl | rfl
      · rw [PairStep.toCbor, Value.eachMap_array]
        simp [hspec]
      · exact Value.eachMap_bool _

theorem find?_steps (p : Path) :
    Fields.find? (.ofList p.entries) 1 = some (.array (p.steps.flatMap Step.toCbor)) := by
  rw [Fields.find?_ofList]
  simp [entries, stepsToCbor]

theorem keys_sublist (p : Path) : (p.entries.map Prod.fst).Sublist ([1] ++ [2] ++ [3]) := by
  rw [entries, List.map_append]
  exact ((List.Sublist.refl [1]).append (Fields.keys_toList_sublist _ _ 2)).append
    (Fields.keys_toList_sublist _ _ 3)

/-- The entry for the depth is standard exactly if the path is not normal. -/
theorem canonical_entries_iff {p : Path} :
    Fields.Canonical Cbor.Tag.keyPath (.ofList p.entries) ↔ p.Normal := by
  have hlookup : p.entries.lookup 3 = p.explicitDepth.map fun d => .unsigned d.toUInt64 := by
    simp [entries, Fields.lookup_cons, List.lookup_append, Fields.lookup_toList]
  have hplaces := Step.length_flatMap_toCbor p.steps
  constructor
  · intro h depth hdepth hlength
    have hmem : (.unsigned 3, .unsigned depth.toUInt64) ∈ Fields.ofList p.entries := by
      rw [Option.mem_def] at hdepth
      simp [entries, Fields.ofList, hdepth]
    refine h.omitted _ hmem (.depth p.find?_steps (depthOfCbor?_unsigned depth) ?_)
    rw [hplaces, hlength]
  · intro hnormal
    refine Fields.canonical_ofList p.keys_sublist (by decide) fun key v h hstandard => ?_
    obtain @⟨places, _, depth, hfind, hread, hlength⟩ := hstandard
    rw [hlookup] at h
    obtain ⟨recorded, hrecorded, rfl⟩ := Option.map_eq_some_iff.mp h
    rw [depthOfCbor?_unsigned] at hread
    cases hread
    rw [p.find?_steps] at hfind
    cases hfind
    exact hnormal depth hrecorded (by omega)

theorem isCanonical_toCbor_iff {p : Path} : p.toCbor.IsCanonical ↔ p.Normal := by
  have hparts : ∀ entry ∈ p.entries, entry.2.IsCanonical := by
    simp only [entries, Value.IsCanonical, List.forall_mem_append, List.forall_mem_cons,
      Cbor.eachMap_of_toList_iff]
    exact ⟨⟨p.eachMap_stepsToCbor _, fun _ _ => Value.eachMap_unsigned _⟩,
      fun _ _ => Value.eachMap_unsigned _⟩
  rw [← canonical_entries_iff]
  exact Value.eachMap_tag_ofFields.trans (and_iff_left hparts)

end Path

/-! ### Addresses -/

namespace Address

theorem keys_sublist (a : Address) : (a.entries.map Prod.fst).Sublist ([1] ++ ([2] ++ [3])) := by
  simp only [entries, List.map_append]
  exact (UseInfo.keys_field_sublist _ 1).append
    ((Fields.keys_toList_sublist _ _ 2).append (List.Sublist.refl [3]))

theorem isCanonical_toCbor (a : Address) : a.toCbor.IsCanonical := by
  rw [toCbor, toCborContent_eq]
  refine Value.eachMap_tag_ofFields.mpr ⟨?_, ?_⟩
  · refine Fields.canonical_ofList a.keys_sublist (by decide) fun key v h hstandard => ?_
    obtain @⟨_, hread⟩ := hstandard
    refine UseInfo.ne_standard_of_lookup (u := .ofNetwork (.ofBitcoin a.network)) ?_ hread
    rw [← h]
    simp [entries, List.lookup_append, UseInfo.lookup_field, Fields.lookup_cons,
      Fields.lookup_toList]
  · simp only [entries, List.forall_mem_append, Cbor.eachMap_of_toList_iff]
    exact ⟨UseInfo.isCanonical_field _ 1, fun _ _ => Value.eachMap_unsigned _,
      List.forall_mem_singleton.mpr (Value.eachMap_bytes _)⟩

end Address

/-! ### Keys -/

namespace KeyExpression

variable (k : KeyExpression) (key : HdKey)

theorem keys_hdEntries_sublist : ((k.hdEntries key).map Prod.fst).Sublist
    ([1, 2] ++ ([3, 4] ++ [5]) ++ [6] ++ [7] ++ [8]) := by
  have hdata := (List.Sublist.refl [3, 4]).append (UseInfo.keys_field_sublist key.key.useInfo 5)
  rw [hdEntries]
  split
  · simp only [List.map_cons, List.map_append, List.append_assoc]
    have hflag : List.Sublist [(1 : UInt64)] [1, 2] := by decide
    exact hflag.append (hdata.trans (List.sublist_append_left _ ([6] ++ ([7] ++ [8]))))
  · simp only [List.map_append]
    refine (((List.Sublist.append ?_ hdata).append (Fields.keys_toList_sublist _ _ 6)).append
      (Fields.keys_toList_sublist _ _ 7)).append ?_
    · split <;> simp
    · split <;> simp

theorem not_standardEntry_hdEntries {number : UInt64} {v : Value}
    (h : (k.hdEntries key).lookup number = some v) : ¬ HdStandardEntry (.unsigned number) v := by
  obtain ⟨h1, h2, -, -, h5, -, -, h8⟩ := lookup_hdEntries k key
  intro hstandard
  cases hstandard with
  | isMaster =>
      rw [h1] at h
      split at h <;> cases h
  | isPrivate =>
      rw [h2] at h
      split at h <;> cases h
  | useInfo hread =>
      rw [h5] at h
      exact UseInfo.ne_standard_of_lookup h hread
  | parent hread =>
      rw [h8] at h
      split at h
      · cases h
      · next hne =>
        cases h
        rw [asUInt32_unsigned] at hread
        exact hne (Except.ok.inj hread)

/-- The depth of an origin is recorded when it is written. -/
theorem normal_writtenOrigin? : ∀ p ∈ k.writtenOrigin? key.key, p.Normal := by
  intro p hp
  rw [Option.mem_def, writtenOrigin?] at hp
  split at hp
  · cases hp
    exact Path.normal_setDepth _ _
  · split at hp
    · cases hp
    · cases hp
      exact Path.normal_setDepth _ _

/-- Beside numbers, flags and bytes there are use information and up to two paths in the map of an
extended key. -/
theorem isCanonical_hdEntries_iff : (∀ entry ∈ k.hdEntries key, entry.2.IsCanonical) ↔
    ∀ p ∈ key.children, p.Normal := by
  have hdata : ∀ entry ∈ ([(3, .bytes key.key.keyBytes), (4, .bytes key.key.chainCode.bytes)] ++
      key.key.useInfo.field 5 : List (UInt64 × Value)), entry.2.IsCanonical := by
    simp only [List.forall_mem_append, List.forall_mem_cons]
    exact ⟨⟨Value.eachMap_bytes _, Value.eachMap_bytes _, List.forall_mem_nil _⟩,
      UseInfo.isCanonical_field _ 5⟩
  have horigin : ∀ p ∈ k.writtenOrigin? key.key, p.toCbor.IsCanonical := fun p hp =>
    Path.isCanonical_toCbor_iff.mpr (k.normal_writtenOrigin? key p hp)
  rw [hdEntries]
  split
  · next hbare =>
    obtain ⟨-, -, -, hchildren⟩ := isBareMaster_iff.mp hbare
    refine iff_of_true (List.forall_mem_cons.mpr ⟨Value.eachMap_bool _, hdata⟩) ?_
    simp [hchildren]
  · have hflag : ∀ entry ∈ (if key.key.isPrivate then [(2, .bool true)] else [] :
        List (UInt64 × Value)), entry.2.EachMap Fields.Canonical := by
      split <;> simp
    have hparent : ∀ entry ∈ (if key.key.parent = 0 then []
        else [(8, .unsigned key.key.parent.toUInt64)] : List (UInt64 × Value)),
        entry.2.EachMap Fields.Canonical := by
      split <;> simp
    simp only [← Path.isCanonical_toCbor_iff]
    unfold Value.IsCanonical at hdata horigin ⊢
    rw [List.forall_mem_append, List.forall_mem_append, List.forall_mem_append,
      List.forall_mem_append, Cbor.eachMap_of_toList_iff, Cbor.eachMap_of_toList_iff]
    exact ⟨fun h => h.1.2, fun hchildren => ⟨⟨⟨⟨hflag, hdata⟩, horigin⟩, hchildren⟩, hparent⟩⟩

/-- The paths that are written as they are given; an origin is written with the depth of the key. -/
def givenPaths (k : KeyExpression) : List Path :=
  match k.material with
  | .plain _ | .wif _ => []
  | .hd key => key.children.toList

theorem isCanonical_toCbor_plain (key : PublicKey) :
    (Value.tag Cbor.Tag.ecKey (.ofFields [(3, .bytes key.toBytes)])).IsCanonical := by
  refine Value.eachMap_tag_ofFields.mpr ⟨?_, ?_⟩
  · refine Fields.canonical_ofList (List.Sublist.refl [3]) (by decide)
      fun number v h hstandard => ?_
    cases hstandard <;> cases h
  · exact List.forall_mem_singleton.mpr (Value.eachMap_bytes _)

theorem keys_wifEntries_sublist (key : PrivateKey) :
    ((wifEntries key).map Prod.fst).Sublist ([2, 3] ++ [4] ++ [5]) := by
  simp only [wifEntries, List.map_append]
  refine ((List.Sublist.refl [2, 3]).append (UseInfo.keys_field_sublist _ 4)).append ?_
  split <;> simp

theorem not_standardEntry_wifEntries {key : PrivateKey} {number : UInt64} {v : Value}
    (h : (wifEntries key).lookup number = some v) : ¬ EcStandardEntry (.unsigned number) v := by
  intro hstandard
  cases hstandard with
  | isPrivate => cases h
  | useInfo hread =>
      rw [lookup_wif_useInfo] at h
      exact UseInfo.ne_standard_of_lookup h hread
  | isCompressed =>
      rw [lookup_wif_isCompressed] at h
      split at h <;> cases h

theorem isCanonical_toCbor_wif (key : PrivateKey) :
    (Value.tag Cbor.Tag.ecKey (.ofFields (wifEntries key))).IsCanonical := by
  refine Value.eachMap_tag_ofFields.mpr ⟨?_, ?_⟩
  · exact Fields.canonical_ofList (keys_wifEntries_sublist key) (by decide)
      fun _ _ => not_standardEntry_wifEntries
  · simp only [wifEntries, List.forall_mem_append, List.forall_mem_cons]
    refine ⟨⟨⟨Value.eachMap_bool _, Value.eachMap_bytes _, List.forall_mem_nil _⟩,
      UseInfo.isCanonical_field _ 4⟩, ?_⟩
    split <;> simp

theorem isCanonical_toCbor_iff : k.toCbor.IsCanonical ↔ ∀ p ∈ k.givenPaths, p.Normal := by
  obtain ⟨origin, material⟩ := k
  cases material with
  | plain key => exact iff_of_true (isCanonical_toCbor_plain key) (List.forall_mem_nil _)
  | wif key => exact iff_of_true (isCanonical_toCbor_wif key) (List.forall_mem_nil _)
  | hd key =>
      have hmap : Fields.Canonical Cbor.Tag.hdKey (.ofList (hdEntries ⟨origin, .hd key⟩ key)) :=
        Fields.canonical_ofList (keys_hdEntries_sublist _ key) (by decide)
          fun number v => not_standardEntry_hdEntries _ key
      have hvalue : toCbor ⟨origin, .hd key⟩ =
          .tag Cbor.Tag.hdKey (.ofFields (hdEntries ⟨origin, .hd key⟩ key)) :=
        congrArg (Value.tag Cbor.Tag.hdKey) (hdToCborContent_eq _ key)
      rw [hvalue]
      refine Value.eachMap_tag_ofFields.trans ((and_iff_right hmap).trans ?_)
      refine (isCanonical_hdEntries_iff _ key).trans ?_
      simp [givenPaths]

end KeyExpression

end WalletExchange
