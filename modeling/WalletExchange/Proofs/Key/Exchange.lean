import WalletExchange.Key.Codec
import WalletExchange.Proofs.Key.Serialized
import WalletExchange.Proofs.Path.Codec

/-!
# Proofs — keys that are read back

A key that is sent as CBOR does not arrive as it was.  `KeyExpression.exchanged` is what arrives: a
plain or private key without its origin, an extended key with the depth it had, with the last step
of its origin as child number, and without an origin that has no fingerprint.  Which test network a
key is for is lost.

Main statement:

* `KeyExpression.ofCbor?_toCbor_iff` — a key arrives exactly if the paths that go with it are valid,
  and then it is `exchanged`.
-/

namespace WalletExchange

open Cbor (Value DecodeError Fields)
open Secp256k1 (Point Secret)

/-- The extended key in another place of the tree, on the network that is left of its own. -/
def XKey.relocated (parent : Fingerprint) (child : ChildNumber) : XKey → XKey
  | .xpub k => .xpub { k with network := k.network.exchanged, parent := parent, child := child }
  | .xprv k => .xprv { k with network := k.network.exchanged, parent := parent, child := child }

namespace KeyExpression

/-- A master key with its secret and nothing around it, which has a layout of its own. -/
def isBareMaster (k : KeyExpression) (key : HdKey) : Bool :=
  key.key.isPrivate && key.key.isMaster && k.origin.isNone && key.children.isNone

/-- The fingerprint of the parent that is written; the layout of a bare master key has none. -/
def writtenParent (k : KeyExpression) (key : HdKey) : Fingerprint :=
  if k.isBareMaster key then 0 else key.key.parent

/-- What arrives of an extended key. -/
def exchangedHd (k : KeyExpression) (key : HdKey) : KeyExpression :=
  let origin := k.writtenOrigin? key.key
  ⟨keptOrigin? origin, .hd
    { key := key.key.relocated (k.writtenParent key) (childOfOrigin origin)
      children := key.children.map Path.canonical }⟩

/-- What arrives of a key. -/
def exchanged (k : KeyExpression) : KeyExpression :=
  match k.material with
  | .plain key => .ofMaterial (.plain key)
  | .wif key => .ofMaterial (.wif { key with network := key.network.exchanged })
  | .hd key => k.exchangedHd key

/-- The paths that are sent with an extended key are valid. -/
def Sendable (k : KeyExpression) : Prop :=
  match k.material with
  | .plain _ | .wif _ => True
  | .hd key => (∀ origin ∈ k.writtenOrigin? key.key, origin.Valid) ∧
    ∀ children ∈ key.children, children.Valid

instance : DecidablePred Sendable
  | ⟨_, .plain _⟩ | ⟨_, .wif _⟩ => inferInstanceAs (Decidable True)
  | ⟨_, .hd _⟩ => inferInstanceAs (Decidable ((∀ _ ∈ _, Path.Valid _) ∧ ∀ _ ∈ _, Path.Valid _))

/-! ### Plain keys -/

theorem ecOfCborContent?_plain (key : PublicKey) :
    ecOfCborContent? (.ofFields [(3, .bytes key.toBytes)]) = .ok (.ofMaterial (.plain key)) := by
  have hprivate : (Fields.ofList [(3, .bytes key.toBytes)]).getOr 2 Value.asBool false =
      .ok false := Fields.getOr_ofList (o := none) rfl
  have hdata : (Fields.ofList [(3, .bytes key.toBytes)]).require 3 = .ok (.bytes key.toBytes) :=
    Fields.require_ofList rfl
  have hlength : (key.toBytes.length == 33 || key.toBytes.length == 65) = true := by
    rw [key.length_toBytes]
    cases key.isCompressed <;> rfl
  rw [ecOfCborContent?, Fields.asFields_ofFields, ok_bind, hprivate, ok_bind, hdata, ok_bind,
    Value.asBytes, ok_bind]
  simp [hlength, PublicKey.ofBytes?_toBytes]
  rfl

/-- The entries of the map of a private key. -/
def wifEntries (key : PrivateKey) : List (UInt64 × Value) :=
  [(2, .bool true), (3, .bytes key.secret.toBytes)] ++
    (UseInfo.ofNetwork (.ofBitcoin key.network)).field 4 ++
    if key.isCompressed then [] else [(5, .bool false)]

theorem lookup_wif_useInfo (key : PrivateKey) : (wifEntries key).lookup 4 =
    if UseInfo.ofNetwork (.ofBitcoin key.network) ≠ .standard then
      some (UseInfo.ofNetwork (.ofBitcoin key.network)).toCbor else none := by
  cases hc : key.isCompressed <;>
    simp [wifEntries, hc, Fields.lookup_cons, List.lookup_append, UseInfo.lookup_field]

theorem lookup_wif_isCompressed (key : PrivateKey) : (wifEntries key).lookup 5 =
    if key.isCompressed then none else some (.bool false) := by
  cases hc : key.isCompressed <;>
    simp [wifEntries, hc, Fields.lookup_cons, List.lookup_append, UseInfo.lookup_field]

theorem ecOfCborContent?_wif (key : PrivateKey) :
    ecOfCborContent? (.ofFields (wifEntries key)) =
      .ok (.ofMaterial (.wif { key with network := key.network.exchanged })) := by
  have hprivate : (Fields.ofList (wifEntries key)).getOr 2 Value.asBool false = .ok true :=
    Fields.getOr_ofList (o := some (.bool true)) rfl
  have hdata : (Fields.ofList (wifEntries key)).require 3 = .ok (.bytes key.secret.toBytes) :=
    Fields.require_ofList rfl
  have hform : (Fields.ofList (wifEntries key)).getOr 5 Value.asBool true =
      .ok key.isCompressed := by
    rw [Fields.getOr_ofList (lookup_wif_isCompressed key)]
    cases key.isCompressed <;> rfl
  have huse : UseInfo.ofField? (Fields.ofList (wifEntries key)) 4 =
      .ok (UseInfo.ofNetwork (.ofBitcoin key.network)) :=
    UseInfo.ofField?_ofList (lookup_wif_useInfo key)
  rw [ecOfCborContent?, Fields.asFields_ofFields, ok_bind, hprivate, ok_bind, hdata, ok_bind,
    Value.asBytes, ok_bind]
  simp [hform, huse, secretOfBytes?, ok_bind]
  rfl

/-! ### Extended keys -/

/-- The entries of the map of an extended key. -/
def hdEntries (k : KeyExpression) (key : HdKey) : List (UInt64 × Value) :=
  let data : List (UInt64 × Value) :=
    [(3, .bytes key.key.keyBytes), (4, .bytes key.key.chainCode.bytes)] ++ key.key.useInfo.field 5
  if k.isBareMaster key then (1, .bool true) :: data
  else (if key.key.isPrivate then [(2, .bool true)] else []) ++ data ++
    ((k.writtenOrigin? key.key).toList.map fun origin => (6, origin.toCbor)) ++
    (key.children.toList.map fun children => (7, children.toCbor)) ++
    if key.key.parent = 0 then [] else [(8, .unsigned key.key.parent.toUInt64)]

theorem hdToCborContent_eq (k : KeyExpression) (key : HdKey) :
    k.hdToCborContent key = .ofFields (k.hdEntries key) := by
  rw [hdToCborContent, hdEntries, isBareMaster]
  split <;> rfl

section Entries

variable {k : KeyExpression} {key : HdKey}

theorem isBareMaster_iff : k.isBareMaster key = true ↔
    key.key.isPrivate = true ∧ key.key.isMaster = true ∧ k.origin = none ∧ key.children = none := by
  simp [isBareMaster, and_assoc]

theorem writtenOrigin?_of_isBareMaster (h : k.isBareMaster key = true) :
    k.writtenOrigin? key.key = none := by
  obtain ⟨-, hmaster, horigin, -⟩ := isBareMaster_iff.mp h
  rw [writtenOrigin?, horigin]
  exact if_pos (beq_iff_eq.mp hmaster)

/-- What is looked up in the map of an extended key; both layouts are alike but for the flags. -/
theorem lookup_hdEntries (k : KeyExpression) (key : HdKey) :
    (k.hdEntries key).lookup 1 = (if k.isBareMaster key then some (.bool true) else none) ∧
    (k.hdEntries key).lookup 2 =
      (if !k.isBareMaster key && key.key.isPrivate then some (.bool true) else none) ∧
    (k.hdEntries key).lookup 3 = some (.bytes key.key.keyBytes) ∧
    (k.hdEntries key).lookup 4 = some (.bytes key.key.chainCode.bytes) ∧
    (k.hdEntries key).lookup 5 =
      (if key.key.useInfo ≠ .standard then some key.key.useInfo.toCbor else none) ∧
    (k.hdEntries key).lookup 6 = (k.writtenOrigin? key.key).map Path.toCbor ∧
    (k.hdEntries key).lookup 7 = key.children.map Path.toCbor ∧
    (k.hdEntries key).lookup 8 = if k.writtenParent key = 0 then none
      else some (.unsigned (k.writtenParent key).toUInt64) := by
  cases hbare : k.isBareMaster key with
  | true =>
      have horigin := writtenOrigin?_of_isBareMaster hbare
      obtain ⟨-, -, -, hchildren⟩ := isBareMaster_iff.mp hbare
      simp [hdEntries, hbare, horigin, hchildren, writtenParent, Fields.lookup_cons,
        UseInfo.lookup_field]
  | false =>
      cases hprivate : key.key.isPrivate <;> by_cases hparent : key.key.parent = 0 <;>
        simp [hdEntries, hbare, hprivate, hparent, writtenParent, Fields.lookup_cons,
          List.lookup_append, Fields.lookup_toList, UseInfo.lookup_field]

/-- A path in an entry is read back if it is valid. -/
theorem optional_path_iff {entries : List (UInt64 × Value)} {number : UInt64} {o o' : Option Path}
    (h : entries.lookup number = o.map Path.toCbor) :
    (Fields.ofList entries).optional number Path.ofCbor? = .ok o' ↔
      (∀ p ∈ o, p.Valid) ∧ o' = o.map Path.canonical := by
  rw [Fields.optional_ofList h]
  cases o with
  | none => simp [eq_comm]
  | some p =>
      simp only [Option.map_some, Option.elim_some, map_eq_ok_iff, Path.ofCbor?_toCbor_iff,
        Option.mem_def, Option.some.injEq, forall_eq']
      constructor
      · rintro ⟨_, ⟨hvalid, rfl⟩, rfl⟩
        exact ⟨hvalid, rfl⟩
      · rintro ⟨hvalid, rfl⟩
        exact ⟨_, ⟨hvalid, rfl⟩, rfl⟩

/-- A depth that has just been recorded is recorded as it would be anew. -/
theorem canonical_writtenOrigin? :
    (k.writtenOrigin? key.key).map Path.canonical = k.writtenOrigin? key.key := by
  have hset : ∀ (p : Path) (d : UInt8), (p.setDepth d).canonical = p.setDepth d :=
    fun p d => Path.canonical_eq_iff.mpr (p.normal_setDepth d)
  rw [writtenOrigin?]
  split
  · rw [Option.map_some, hset]
  · split
    · rfl
    · rw [Option.map_some, hset]

/-- The origin that is written leads to the depth of the key. -/
theorem depth_writtenOrigin? :
    (k.writtenOrigin? key.key).elim 0 Path.depth = key.key.depth := by
  have hset : ∀ (p : Path) (d : UInt8), (p.setDepth d).depth = d := by
    intro p d
    by_cases hd : d.toNat = p.steps.length
    · simp [Path.depth, Path.setDepth, ← hd]
    · simp [Path.depth, Path.setDepth, hd]
  rw [writtenOrigin?]
  split
  · exact hset _ _
  · split
    · next hzero => exact hzero.symm
    · exact hset _ _

theorem xkeyOfData?_keyBytes (key : XKey) (parent : Fingerprint) (child : ChildNumber) :
    xkeyOfData? key.isPrivate key.keyBytes
      { network := key.useInfo.network.toBitcoin, depth := key.depth, parent := parent,
        child := child, chainCode := key.chainCode, key := () } =
      .ok (key.relocated parent child) := by
  cases key with
  | xpub k =>
      simp [xkeyOfData?, XKey.isPrivate, XKey.keyBytes]
      rfl
  | xprv k =>
      simp [xkeyOfData?, XKey.isPrivate, XKey.keyBytes, secretOfBytes?]
      rfl

/-- How the two flags are read: the one under 2 only where the one under 1 does not say it all. -/
theorem getOr_flags (rest : Bool → Except DecodeError KeyExpression) :
    ((Fields.ofList (k.hdEntries key)).getOr 1 Value.asBool false >>= fun isMaster =>
      if isMaster then pure true >>= rest
      else (Fields.ofList (k.hdEntries key)).getOr 2 Value.asBool false >>= rest) =
      rest key.key.isPrivate := by
  obtain ⟨h1, h2, -⟩ := lookup_hdEntries k key
  rw [Fields.getOr_ofList h1, Fields.getOr_ofList h2]
  cases hbare : k.isBareMaster key with
  | true => rw [(isBareMaster_iff.mp hbare).1]; rfl
  | false => cases key.key.isPrivate <;> rfl

theorem getOr_parent : (Fields.ofList (k.hdEntries key)).getOr 8 Value.asUInt32 0 =
    .ok (k.writtenParent key) := by
  obtain ⟨-, -, -, -, -, -, -, h8⟩ := lookup_hdEntries k key
  rw [Fields.getOr_ofList h8]
  by_cases hzero : k.writtenParent key = 0
  · rw [if_pos hzero, hzero]; rfl
  · rw [if_neg hzero]; exact asUInt32_unsigned _

/-- All that can fail when an extended key is read back is a path. -/
theorem hdOfCborContent?_eq :
    hdOfCborContent? (k.hdToCborContent key) =
      ((Fields.ofList (k.hdEntries key)).optional 6 Path.ofCbor? >>= fun origin =>
        (Fields.ofList (k.hdEntries key)).optional 7 Path.ofCbor? >>= fun children =>
        xkeyOfData? key.key.isPrivate key.key.keyBytes
          { network := key.key.useInfo.network.toBitcoin, depth := origin.elim 0 Path.depth,
            parent := k.writtenParent key, child := childOfOrigin origin,
            chainCode := key.key.chainCode, key := () } >>= fun xkey =>
        pure ⟨keptOrigin? origin, .hd ⟨xkey, children⟩⟩) := by
  obtain ⟨-, -, h3, h4, h5, -⟩ := lookup_hdEntries k key
  have hchain : chainCodeOfBytes? key.key.chainCode.bytes = .ok key.key.chainCode := by
    simp [chainCodeOfBytes?]
  rw [hdToCborContent_eq, hdOfCborContent?, Fields.asFields_ofFields, ok_bind]
  refine (getOr_flags _).trans ?_
  simp only [Fields.require_ofList h3, Fields.require_ofList h4, Value.asBytes, hchain,
    UseInfo.ofField?_ofList h5, getOr_parent, ok_bind]

/-- An extended key is read back exactly if the paths that are sent with it are valid. -/
theorem hdOfCborContent?_iff {k' : KeyExpression} :
    hdOfCborContent? (k.hdToCborContent key) = .ok k' ↔
      ((∀ origin ∈ k.writtenOrigin? key.key, origin.Valid) ∧
        ∀ children ∈ key.children, children.Valid) ∧ k' = k.exchangedHd key := by
  obtain ⟨-, -, -, -, -, h6, h7, -⟩ := lookup_hdEntries k key
  rw [hdOfCborContent?_eq]
  constructor
  · intro h
    obtain ⟨origin, horigin, h⟩ := bind_eq_ok_iff.mp h
    obtain ⟨children, hchildren, h⟩ := bind_eq_ok_iff.mp h
    obtain ⟨hvalid, rfl⟩ := (optional_path_iff h6).mp horigin
    obtain ⟨hvalid', rfl⟩ := (optional_path_iff h7).mp hchildren
    rw [canonical_writtenOrigin?, depth_writtenOrigin?, xkeyOfData?_keyBytes] at h
    cases h
    exact ⟨⟨hvalid, hvalid'⟩, rfl⟩
  · rintro ⟨⟨hvalid, hvalid'⟩, rfl⟩
    rw [(optional_path_iff h6).mpr ⟨hvalid, rfl⟩, ok_bind,
      (optional_path_iff h7).mpr ⟨hvalid', rfl⟩, ok_bind, canonical_writtenOrigin?,
      depth_writtenOrigin?, xkeyOfData?_keyBytes]
    rfl

end Entries

/-- A key is read back exactly if the paths that are sent with it are valid, and what arrives is
`exchanged`. -/
theorem ofCbor?_toCbor_iff {k k' : KeyExpression} :
    ofCbor? k.toCbor = .ok k' ↔ k.Sendable ∧ k' = k.exchanged := by
  obtain ⟨origin, material⟩ := k
  cases material with
  | plain key =>
      have hread : ofCbor? (toCbor ⟨origin, .plain key⟩) = .ok (.ofMaterial (.plain key)) :=
        ecOfCborContent?_plain key
      rw [hread]
      simp [Sendable, exchanged, eq_comm]
  | wif key =>
      have hread : ofCbor? (toCbor ⟨origin, .wif key⟩) =
          .ok (.ofMaterial (.wif { key with network := key.network.exchanged })) :=
        ecOfCborContent?_wif key
      rw [hread]
      simp [Sendable, exchanged, eq_comm]
  | hd key => exact hdOfCborContent?_iff (k := ⟨origin, .hd key⟩)

end KeyExpression

end WalletExchange
