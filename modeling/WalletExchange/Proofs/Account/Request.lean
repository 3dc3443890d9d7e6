import WalletExchange.Proofs.Cbor.Fields
import WalletExchange.Proofs.Cbor.RoundTrip
import WalletExchange.Proofs.Path.Codec
import WalletExchange.Proofs.Path.Text
import WalletExchange.Record.Request

/-!
# Proofs — requests for keys, written and read

A request is written as a map that leaves out what is standard: the use information of Bitcoin on
the main network, and that the key is to be derivable.  The reader fills in the same, so an entry
with the standard value may be there or not.  As a record, a request has its path as a text, and a
text of a path has no place for a recorded depth.

Main statements:

* `KeyRequest.omission_of_standard` — which requests come back, which entries are written, and that
  an entry with the standard value makes no difference.
* `KeyRequest.record_of_ofCbor?` — a decoded request comes back from its record but for the recorded
  depth of its path.
-/

namespace WalletExchange

open Cbor (Value Fields DecodeError untag_tag)

theorem KeyType.ofIsPrivate_isPrivate (t : KeyType) : ofIsPrivate t.isPrivate = t := by
  cases t <;> rfl

/-- An entry for the depth makes the bytes of a path longer. -/
theorem Path.encode_withoutDepth_eq_iff {p : Path} :
    ({ p with explicitDepth := none } : Path).toCbor.encode = p.toCbor.encode ↔
      p.explicitDepth = none := by
  obtain ⟨fingerprint, steps, depth⟩ := p
  cases depth with
  | none => exact iff_of_true rfl rfl
  | some depth =>
      refine iff_of_false (fun h => ?_) nofun
      have hlength := congrArg List.length h
      -- up to 23 entries, a map has a head of one byte
      have hhead {n : Nat} (hn : n < 24) : (Cbor.head 5 n).length = 1 := by
        rw [Cbor.head, if_pos hn]
        rfl
      have hkey : Cbor.head 0 3 = [] := by
        cases fingerprint <;>
          simp [Path.toCbor, toCborContent, Value.ofFields, Value.encode, Cbor.encodeEntries, hhead,
            stepsToCbor] at hlength <;>
          exact hlength.1
      exact absurd (congrArg List.length hkey) (Nat.ne_of_gt (Cbor.length_head_pos 0 3))

/-! ### Written and read -/

namespace KeyRequest

variable {r : KeyRequest}

/-- The entries of the map of a request. -/
def entries (r : KeyRequest) : List (UInt64 × Value) :=
  [(1, .bool r.keyType.isPrivate), (2, r.path.toCbor)] ++ r.useInfo.field 3 ++
    if r.isDerivable then [] else [(4, .bool false)]

theorem lookup_useInfo (r : KeyRequest) :
    r.entries.lookup 3 = if r.useInfo ≠ .standard then some r.useInfo.toCbor else none := by
  rw [entries]
  cases r.isDerivable <;>
    simp [List.lookup_append, Fields.lookup_cons, UseInfo.lookup_field]

theorem lookup_isDerivable (r : KeyRequest) :
    r.entries.lookup 4 = if r.isDerivable then none else some (.bool false) := by
  rw [entries]
  cases r.isDerivable <;>
    simp [List.lookup_append, Fields.lookup_cons, UseInfo.lookup_field]

/-- A request comes back with its path as the path comes back. -/
theorem ofCbor?_toCbor_eq (r : KeyRequest) :
    ofCbor? r.toCbor = (Path.ofCbor? r.path.toCbor).map fun path => { r with path := path } := by
  have htype : r.entries.lookup 1 = some (.bool r.keyType.isPrivate) := by simp [entries]
  have hpath : r.entries.lookup 2 = some r.path.toCbor := by simp [entries, Fields.lookup_cons]
  have hderivable : (Fields.ofList r.entries).getOr 4 Value.asBool true = .ok r.isDerivable := by
    rw [Fields.getOr_ofList r.lookup_isDerivable]
    cases r.isDerivable <;> rfl
  rw [toCbor, ofCbor?, untag_tag, ok_bind, toCborContent, ← entries, ofCborContent?,
    Fields.asFields_ofFields, ok_bind, Fields.require_ofList htype, ok_bind,
    Fields.require_ofList hpath, UseInfo.ofField?_ofList r.lookup_useInfo, hderivable]
  simp only [Value.asBool, ok_bind, KeyType.ofIsPrivate_isPrivate]
  cases Path.ofCbor? r.path.toCbor <;> rfl

theorem ofCbor?_toCbor_self : ofCbor? r.toCbor = .ok r ↔ r.path.Valid ∧ r.path.Normal := by
  rw [ofCbor?_toCbor_eq, map_eq_ok_iff, ← Path.canonical_eq_iff]
  constructor
  · rintro ⟨path, hpath, hr⟩
    obtain rfl : path = r.path := congrArg KeyRequest.path hr
    obtain ⟨hvalid, hcanonical⟩ := Path.ofCbor?_toCbor_iff.mp hpath
    exact ⟨hvalid, hcanonical.symm⟩
  · rintro ⟨hvalid, hcanonical⟩
    exact ⟨r.path, Path.ofCbor?_toCbor_iff.mpr ⟨hvalid, hcanonical.symm⟩, rfl⟩

/-- The reader looks at four keys, and fills in what is absent under two of them. -/
theorem ofCborContent?_congr {fields other : Fields} (htype : fields.find? 1 = other.find? 1)
    (hpath : fields.find? 2 = other.find? 2)
    (huseInfo : UseInfo.ofField? fields 3 = UseInfo.ofField? other 3)
    (hderivable : fields.getOr 4 Value.asBool true = other.getOr 4 Value.asBool true) :
    ofCborContent? (.map fields) = ofCborContent? (.map other) := by
  simp only [ofCborContent?, Value.asFields, ok_bind, Fields.require, htype, hpath, huseInfo,
    hderivable]

/-- The entry says what is meant where it is absent. -/
inductive StandardEntry : Value → Value → Prop where
  | useInfo {v : Value} (h : UseInfo.ofCbor? v = .ok .standard) : StandardEntry (.unsigned 3) v
  | isDerivable : StandardEntry (.unsigned 4) (.bool true)

theorem ofCborContent?_insert {before after : Fields} {key v : Value} (h : StandardEntry key v)
    (hkey : key ∉ (before ++ after).map Prod.fst) :
    ofCborContent? (.map (before ++ (key, v) :: after)) =
      ofCborContent? (.map (before ++ after)) := by
  cases h with
  | useInfo h =>
      exact ofCborContent?_congr (Fields.find?_insert_of_ne (by decide))
        (Fields.find?_insert_of_ne (by decide)) (Fields.getOr_insert hkey fun _ => h)
        (Fields.getOr_insert hkey (by simp))
  | isDerivable =>
      exact ofCborContent?_congr (Fields.find?_insert_of_ne (by decide))
        (Fields.find?_insert_of_ne (by decide)) (Fields.getOr_insert hkey (by simp))
        (Fields.getOr_insert hkey fun _ => rfl)

/-- A request comes back exactly if its path does: it passes the check, its indexes are below the
bound, its pairs have fixed branches, and no depth is recorded that is the number of steps.  The map
of a request has use information only if this is not standard, and says something on derivable keys
only if none is to be derived.  In a map without duplicate keys, an entry with the standard value
makes no difference. -/
theorem omission_of_standard (r : KeyRequest) :
    (ofCbor? r.toCbor = .ok r ↔
      r.path.check .lastStepWildcard = .ok () ∧ (∀ s ∈ r.path.steps, s.InRange) ∧
        (∀ s ∈ r.path.steps, s.FixedBranches) ∧ r.path.Normal) ∧
    (∃ fields, r.toCbor = .tag Cbor.Tag.keyRequest (.map fields) ∧
      (.unsigned 3 ∈ fields.map Prod.fst ↔ r.useInfo ≠ .standard) ∧
      (.unsigned 4 ∈ fields.map Prod.fst ↔ r.isDerivable = false)) ∧
    ∀ (before after : Fields) (key v : Value), StandardEntry key v →
      ((before ++ (key, v) :: after).map Prod.fst).Nodup →
      ofCbor? (.tag Cbor.Tag.keyRequest (.map (before ++ (key, v) :: after))) =
        ofCbor? (.tag Cbor.Tag.keyRequest (.map (before ++ after))) := by
  refine ⟨?self, ⟨Fields.ofList r.entries, rfl, ?useInfo, ?isDerivable⟩, ?insert⟩
  case self => rw [ofCbor?_toCbor_self, Path.valid_iff, and_assoc, and_assoc]
  case useInfo =>
    rw [← Fields.isSome_find?_iff, Fields.find?_ofList, lookup_useInfo]
    by_cases h : r.useInfo = .standard <;> simp [h]
  case isDerivable =>
    rw [← Fields.isSome_find?_iff, Fields.find?_ofList, lookup_isDerivable]
    cases r.isDerivable <;> simp
  case insert =>
    intro before after key v h hnodup
    have hkey : key ∉ (before ++ after).map Prod.fst := by
      rw [List.map_append, List.map_cons, List.perm_middle.nodup_iff] at hnodup
      rw [List.map_append]
      exact (List.nodup_cons.mp hnodup).1
    rw [ofCbor?, ofCbor?, untag_tag, untag_tag, ok_bind, ok_bind, ofCborContent?_insert h hkey]

/-- Of a request for an account on a test network, with an entry for derivable keys added. -/
theorem omission_of_standard_of_testnet :
    let r : KeyRequest := ⟨.publicKey, .ofChildNumbers [⟨⟨84⟩, true⟩], .ofNetwork .testnet, true⟩
    ofCbor? r.toCbor = .ok r ∧
      ofCbor? (.tag Cbor.Tag.keyRequest
        (.map (Fields.ofList r.entries ++ [(.unsigned 4, .bool true)]))) = ofCbor? r.toCbor := by
  intro r
  have h := omission_of_standard r
  have hself : ofCbor? r.toCbor = .ok r := h.1.mpr ⟨rfl, by decide, by decide, by decide⟩
  have hinsert := h.2.2 (Fields.ofList r.entries) [] (.unsigned 4) (.bool true) .isDerivable
  rw [List.append_nil] at hinsert
  have hkeys : (Fields.ofList r.entries).map Prod.fst = [.unsigned 1, .unsigned 2, .unsigned 3] :=
    rfl
  exact ⟨hself, hinsert (by simp [hkeys])⟩

/-- A request whose path has a wildcard for a branch does not come back, though the path passes the
check, has its indexes below the bound and records no depth.  Records hold such a path. -/
theorem not_omission_of_standard :
    let r : KeyRequest := ⟨.publicKey, .wildcardBranch, .standard, true⟩
    Path.ofRecord? r.path.toRecord = some r.path ∧ r.path.check .lastStepWildcard = .ok () ∧
      (∀ s ∈ r.path.steps, s.InRange) ∧ r.path.Normal ∧ ofCbor? r.toCbor ≠ .ok r := by
  intro r
  have hinvalid : ¬ r.path.Valid := by decide
  exact ⟨Path.ofRecord?_wildcardBranch, rfl, by decide, by decide,
    fun h => hinvalid (ofCbor?_toCbor_self.mp h).1⟩

/-! ### Recorded and read -/

theorem ofRecord?_toRecord (r : KeyRequest) :
    ofRecord? r.toRecord =
      (Path.ofString (toString r.path)).toOption.map fun path => { r with path := path } := by
  obtain ⟨keyType, path, ⟨asset, network⟩, isDerivable⟩ := r
  have hkeyType : KeyType.ofRecord? keyType.toRecord = some keyType := by cases keyType <;> rfl
  have huseInfo :
      UseInfo.ofRecord? (UseInfo.toRecord ⟨asset, network⟩) = some ⟨asset, network⟩ := by
    cases asset <;> cases network <;> rfl
  change (do
    let keyType ← KeyType.ofRecord? keyType.toRecord
    let path ← (Path.ofString (toString path)).toOption
    let useInfo ← UseInfo.ofRecord? (UseInfo.toRecord ⟨asset, network⟩)
    pure (KeyRequest.mk keyType path useInfo isDerivable)) = _
  rw [hkeyType, huseInfo]
  cases (Path.ofString (toString path)).toOption <;> rfl

/-- The request without the recorded depth of its path. -/
def withoutDepth (r : KeyRequest) : KeyRequest :=
  { r with path := { r.path with explicitDepth := none } }

theorem ofRecord?_toRecord_of_valid (h : r.path.Valid) :
    ofRecord? r.toRecord = some r.withoutDepth := by
  have htext : (toString r.path).toList = r.path.render := String.toList_ofList
  have hpath : Path.ofString (toString r.path) = .ok r.withoutDepth.path := by
    rw [Path.ofString, htext, Path.parse_render_iff]
    exact ⟨h, rfl⟩
  rw [ofRecord?_toRecord, hpath]
  rfl

theorem withoutDepth_eq_iff : r.withoutDepth = r ↔ r.path.explicitDepth = none := by
  obtain ⟨keyType, ⟨fingerprint, steps, depth⟩, useInfo, isDerivable⟩ := r
  simp [withoutDepth, eq_comm]

/-- The bytes of the path are some of the bytes of the request, and the others do not depend on
them. -/
theorem exists_encode_toCbor (r : KeyRequest) : ∃ before after : Bytes, ∀ path : Path,
    ({ r with path := path } : KeyRequest).toCbor.encode =
      before ++ (path.toCbor.encode ++ after) := by
  let others := r.useInfo.field 3 ++ if r.isDerivable then [] else [(4, .bool false)]
  refine ⟨Cbor.head 6 Cbor.Tag.keyRequest.toNat ++ (Cbor.head 5 (others.length + 2) ++
    ((Value.unsigned 1).encode ++ ((Value.bool r.keyType.isPrivate).encode ++
      (Value.unsigned 2).encode))), Cbor.encodeEntries (Fields.ofList others), fun path => ?_⟩
  simp only [toCbor, toCborContent, Value.ofFields, Value.encode, List.cons_append, List.nil_append,
    List.map_cons, List.length_cons, List.length_map, Cbor.encodeEntries, List.append_assoc]
  rfl

theorem encode_withoutDepth_eq_iff :
    r.withoutDepth.toCbor.encode = r.toCbor.encode ↔ r.path.explicitDepth = none := by
  obtain ⟨before, after, hencode⟩ := r.exists_encode_toCbor
  rw [withoutDepth, hencode, ← Path.encode_withoutDepth_eq_iff]
  have hr : r.toCbor.encode = before ++ (r.path.toCbor.encode ++ after) := hencode r.path
  rw [hr, List.append_cancel_left_eq, List.append_cancel_right_eq]

/-- Whatever value a request is read from, its path is valid. -/
theorem valid_path_of_ofCbor? {v : Value} (h : ofCbor? v = .ok r) : r.path.Valid := by
  obtain ⟨content, -, h⟩ := bind_eq_ok_iff.mp h
  obtain ⟨fields, -, h⟩ := bind_eq_ok_iff.mp h
  obtain ⟨flag, -, h⟩ := bind_eq_ok_iff.mp h
  obtain ⟨isPrivate, -, h⟩ := bind_eq_ok_iff.mp h
  obtain ⟨entry, -, h⟩ := bind_eq_ok_iff.mp h
  obtain ⟨path, hpath, h⟩ := bind_eq_ok_iff.mp h
  obtain ⟨useInfo, -, h⟩ := bind_eq_ok_iff.mp h
  obtain ⟨isDerivable, -, ⟨⟩⟩ := bind_eq_ok_iff.mp h
  exact Path.valid_of_ofCbor? hpath

/-- A decoded request comes back from its record but for the recorded depth of its path, for which a
text has no place: it is the same request, and it is written with the same bytes, exactly if no
depth is recorded. -/
theorem record_of_ofCbor? {v : Value} (h : ofCbor? v = .ok r) :
    ofRecord? r.toRecord = some r.withoutDepth ∧
      (r.withoutDepth = r ↔ r.path.explicitDepth = none) ∧
      (r.withoutDepth.toCbor.encode = r.toCbor.encode ↔ r.path.explicitDepth = none) :=
  ⟨ofRecord?_toRecord_of_valid (valid_path_of_ofCbor? h), withoutDepth_eq_iff,
    encode_withoutDepth_eq_iff⟩

/-- The value of a request for the master key with a recorded depth of five. -/
def recordedDepth : Value :=
  .tag Cbor.Tag.keyRequest (.ofFields [(1, .bool false),
    (2, .tag Cbor.Tag.keyPath (.ofFields [(1, .array []), (3, .unsigned 5)]))])

/-- The request of `recordedDepth` comes back without the depth. -/
theorem record_of_ofCbor?_of_recordedDepth :
    let r : KeyRequest := ⟨.publicKey, ⟨none, [], some 5⟩, .standard, true⟩
    ofCbor? recordedDepth = .ok r ∧
      ofRecord? r.toRecord = some ⟨.publicKey, .master, .standard, true⟩ :=
  have hread : ofCbor? recordedDepth = .ok ⟨.publicKey, ⟨none, [], some 5⟩, .standard, true⟩ := rfl
  ⟨hread, (record_of_ofCbor? hread).1⟩

/-- Not every decoded request comes back from its record as the same request with the same
bytes. -/
theorem not_record_of_ofCbor? :
    ∃ v r r', ofCbor? v = .ok r ∧ ofRecord? r.toRecord = some r' ∧ r' ≠ r ∧
      r'.toCbor.encode ≠ r.toCbor.encode := by
  refine ⟨recordedDepth, ⟨.publicKey, ⟨none, [], some 5⟩, .standard, true⟩,
    ⟨.publicKey, .master, .standard, true⟩, rfl, ?_, by decide, by decide⟩
  exact ofRecord?_toRecord_of_valid (by decide)

end KeyRequest

end WalletExchange
