import WalletExchange.Proofs.Account.Bundle
import WalletExchange.Proofs.Account.Descriptors

/-!
# Proofs — bundles that are exchanged

The key of an account is consistent with its origin: it is as deep as the origin has steps, and its
child number is the last of them.  Nothing of this is lost when it is put into a text and read
again, and whatever was read from a text is within the bounds.  So the descriptors of a bundle arrive as they were made, and each of them names the master
key of the bundle.

Main statement:

* `Bundle.exchange_of_catalogue` — a bundle is read back from its bytes.
-/

namespace WalletExchange

open Cbor (Value Fields Structured)

namespace OutputType

variable {ty : OutputType} {shape : KeyExpression → Node} {numbers : List ChildNumber} {m : XKey}
  {network : Network} {account : UInt32} {fingerprint : Fingerprint}

/-- The key of an account, as it is read back, is within the bounds. -/
theorem inBounds_addressKey {key : XKey} (h : ChildNumber.AllHardened numbers) :
    (addressKey fingerprint (numbers.map .ofChildNumber) key.printed).InBounds := by
  have hsteps := valid_and_isFixed h
  refine ⟨key.inRange_printed, ?_, ?_, ?_⟩
  all_goals rintro _ ⟨⟩
  · exact fun s hs => (hsteps s hs).1.inRange
  · decide
  · decide

/-- The key of an account, as it is read back, and its origin agree. -/
theorem consistent_addressKey {key : ExtendedPublic} (h : ChildNumber.AllHardened numbers)
    (hne : numbers ≠ []) (hlength : numbers.length ≤ 4)
    (hkey : derivePublic m numbers = .ok key) :
    (addressKey fingerprint (numbers.map .ofChildNumber) (XKey.xpub key).printed).Consistent := by
  have hbelow := below_of_derivePublic hkey
  have hsteps := valid_and_isFixed h
  have hprinted : (XKey.xpub key).printed.child = key.child :=
    ChildNumber.ofUInt32_toUInt32 (inRange_of_derivePublic h hne hkey)
  obtain ⟨last, hlast⟩ := Option.isSome_iff_exists.mp (List.getLast?_isSome.mpr hne)
  refine ⟨?network, ?origin, ?master, ?children, ?children_depth⟩
  case network =>
    change key.network.exchanged = .bitcoin ∨ key.network.exchanged = .testnet
    cases key.network <;> decide
  case origin =>
    rintro _ ⟨⟩
    refine ⟨rfl, fun s hs => (hsteps s hs).2, rfl, ?_, .inr ?_⟩
    · change (numbers.map Step.ofChildNumber).length ≤ 255
      rw [List.length_map]
      omega
    · change (numbers.map Step.ofChildNumber).getLast? = _
      rw [List.getLast?_map, hprinted, hbelow.child, hlast]
      rfl
  case master =>
    -- the key is below the master key, so it is no master key itself
    intro hdepth
    have hzero : key.depth.toNat = 0 := congrArg UInt8.toNat hdepth
    have hpos := List.length_pos_iff.mpr hne
    rw [hbelow.depth] at hzero
    omega
  case children =>
    rintro _ ⟨⟩
    decide
  case children_depth => rintro _ ⟨⟩ _ ⟨⟩

/-- What a descriptor of an account is made of arrives unchanged, and its key names the master key.
-/
theorem arrives_of_accountDescriptor {d : OutputDescriptor} (hty : ty ∈ catalogue)
    (hd : (ty.accountDescriptor m network account).1 = .ok d) :
    d.node.Shaped ∧ Node.ofCbor? d.node.toCbor = .ok d.node ∧ .ofNode d.node = d ∧
      d.node.keys ≠ [] ∧
      ∀ k ∈ d.node.keys, k.masterFingerprint? = some m.fingerprint := by
  rw [← map_fst_shapes] at hty
  obtain ⟨⟨_, shape⟩, hshape, rfl⟩ := List.mem_map.mp hty
  by_cases hdepth : m.depth = 0
  · by_cases haccount : account < ChildIndex.bound
    · obtain ⟨numbers, hne, hlength, h, hpath⟩ := exists_pathOf hty network haccount
      rw [accountDescriptor_of_path hshape hdepth h hne hpath] at hd
      obtain ⟨key, hkey, rfl⟩ := map_eq_ok_iff.mp hd
      have hkey := mapError_eq_ok_iff.mp hkey
      obtain ⟨hkeys, -, hshaped, -, -, hconsistent⟩ := shape_spec hshape
        (addressKey m.fingerprint (numbers.map .ofChildNumber) (XKey.xpub key).printed)
      have hbounds : ∀ k ∈ (shape _).keys, k.InBounds :=
        hkeys ▸ List.forall_mem_singleton.mpr (inBounds_addressKey h)
      have hread := Node.ofCbor?_toCbor_of_consistent
        (hconsistent (consistent_addressKey h hne hlength hkey) rfl) hbounds
      refine ⟨hshaped, hread, rfl, ?_⟩
      change (shape _).keys ≠ [] ∧ ∀ k ∈ (shape _).keys, _
      rw [hkeys]
      exact ⟨List.cons_ne_nil _ _, List.forall_mem_singleton.mpr rfl⟩
    · rw [accountDescriptor_fst,
        accountKey_of_pathError hdepth (pathOf_of_overflow hty network haccount)] at hd
      cases hd
  · rw [accountDescriptor_fst, accountKey_of_depth _ _ _ hdepth] at hd
    cases hd

end OutputType

namespace AccountDescriptors

variable {a : AccountDescriptors}

/-- Descriptors that are read back one by one are read back from the value of all. -/
theorem ofCbor?_toCbor (h : ∀ d ∈ a.descriptors, Node.ofCbor? d.node.toCbor = .ok d.node) :
    ofCbor? a.toCbor =
      .ok ⟨a.masterFingerprint, a.descriptors.map fun d => .ofNode d.node⟩ := by
  let entries : List (UInt64 × Value) :=
    [(1, .unsigned a.masterFingerprint.toUInt64),
      (2, .array (a.descriptors.map OutputDescriptor.toCbor))]
  have hfingerprint : (Fields.ofList entries).require 1 =
      .ok (.unsigned a.masterFingerprint.toUInt64) := Fields.require_ofList rfl
  have hdescriptors : (Fields.ofList entries).require 2 =
      .ok (.array (a.descriptors.map OutputDescriptor.toCbor)) := Fields.require_ofList rfl
  have hread : (a.descriptors.map OutputDescriptor.toCbor).mapM OutputDescriptor.ofCbor? =
      .ok (a.descriptors.map fun d => .ofNode d.node) := by
    rw [mapM_eq_ok_iff, List.map_map, List.map_map]
    exact List.map_congr_left fun d hd => OutputDescriptor.ofCbor?_toCbor (h d hd)
  rw [toCbor, ofCbor?, Cbor.untag_tag, ok_bind, toCborContent, ofCborContent?,
    Fields.asFields_ofFields, ok_bind, hfingerprint, ok_bind, asUInt32_unsigned, ok_bind,
    hdescriptors, ok_bind, Value.asArray, ok_bind, hread]
  rfl

theorem structured_toCbor (h : ∀ d ∈ a.descriptors, d.node.Shaped) :
    Structured Cbor.depthLimit a.toCbor := by
  refine .tag (by decide) (Structured.ofFields ?_)
  refine List.forall_mem_cons.mpr ⟨.unsigned _, List.forall_mem_singleton.mpr (.array ?_)⟩
  intro v hv
  obtain ⟨d, hd, rfl⟩ := List.mem_map.mp hv
  exact OutputDescriptor.structured_toCbor (h d hd) (by decide)

/-- Descriptors that are read back one by one and are not read from text are read back from the
bytes. -/
theorem decode_toCbor (hshaped : ∀ d ∈ a.descriptors, d.node.Shaped)
    (hread : ∀ d ∈ a.descriptors, Node.ofCbor? d.node.toCbor = .ok d.node)
    (hsource : ∀ d ∈ a.descriptors, .ofNode d.node = d)
    (hlength : a.toCbor.encode.length < UInt64.size) :
    (Value.decode? a.toCbor.encode >>= ofCbor?) = .ok a := by
  have hsame : (a.descriptors.map fun d => .ofNode d.node) = a.descriptors := by
    rw [List.map_congr_left hsource, List.map_id']
  rw [Cbor.decode?_encode (structured_toCbor hshaped) hlength, ok_bind, ofCbor?_toCbor hread,
    hsame]

end AccountDescriptors

namespace Bundle

variable {m : XKey} {network : Network} {account : UInt32} {types : List OutputType} {b : Bundle}

theorem arrives_of_make (htypes : ∀ ty ∈ types, ty ∈ OutputType.catalogue)
    (hmake : (make m network account types).1 = some b) :
    ∀ d ∈ b.descriptors, d.node.Shaped ∧ Node.ofCbor? d.node.toCbor = .ok d.node ∧
      .ofNode d.node = d ∧ d.node.keys ≠ [] ∧
      ∀ k ∈ d.node.keys, k.masterFingerprint? = some b.masterFingerprint := by
  obtain ⟨-, -, ds, hds, rfl⟩ := make_eq_some_iff.mp hmake
  intro d hd
  obtain ⟨ty, hty, hd⟩ := exists_of_mem_mapM hds d hd
  exact OutputType.arrives_of_accountDescriptor (htypes ty hty) hd

/-- A bundle of kinds in the catalogue is read back from its bytes, if a length can say how many
there are: its fingerprint, and its descriptors in their order, whose keys all name the master key.
-/
theorem exchange_of_catalogue {m : ExtendedPrivate}
    (htypes : ∀ ty ∈ types, ty ∈ OutputType.catalogue)
    (hmake : (make (.xprv m) network account types).1 = some b)
    (hlength : b.toCbor.encode.length < UInt64.size) :
    ∃ a, (Value.decode? b.toCbor.encode >>= AccountDescriptors.ofCbor?) = .ok a ∧
      a.masterFingerprint = b.masterFingerprint ∧ a.descriptors = b.descriptors ∧
      ∀ d ∈ a.descriptors, d.node.keys ≠ [] ∧
        ∀ k ∈ d.node.keys, k.masterFingerprint? = some b.masterFingerprint := by
  have hspec := arrives_of_make htypes hmake
  exact ⟨b.toAccountDescriptors,
    AccountDescriptors.decode_toCbor (fun d hd => (hspec d hd).1) (fun d hd => (hspec d hd).2.1)
      (fun d hd => (hspec d hd).2.2.1) hlength,
    rfl, rfl, fun d hd => (hspec d hd).2.2.2⟩

/-- Cosigners of the secret one, with one kind listed twice. -/
theorem exchange_of_secret_one :
    let m := OutputType.masterOfOne
    ∃ b a, (make (.xprv m) .testnet 7 [.legacyMultisig, .legacyMultisig]).1 = some b ∧
      (Value.decode? b.toCbor.encode >>= AccountDescriptors.ofCbor?) = .ok a ∧
      a.descriptors.length = 2 ∧
      ∀ d ∈ a.descriptors, ∀ k ∈ d.node.keys, k.masterFingerprint? = some m.fingerprint := by
  intro m
  let steps : List Step := [.ofChildNumber ⟨⟨45⟩, true⟩]
  let key : XKey := .xpub OutputType.cosignerOfOne
  let types : List OutputType := [.legacyMultisig, .legacyMultisig]
  let d : OutputDescriptor :=
    .ofNode (.sh (.key .cosigner (OutputType.addressKey m.fingerprint steps key.printed)))
  let b : Bundle := ⟨.xprv m, .testnet, 7, [d, d], .ofList (types.zip [d, d])⟩
  have hd : (OutputType.legacyMultisig.accountDescriptor (.xprv m) .testnet 7).1 = .ok d := by
    have hshape : (OutputType.legacyMultisig, fun k => Node.sh (.key .cosigner k)) ∈
        OutputType.shapes := by simp [OutputType.shapes]
    have hhardened : ChildNumber.AllHardened [⟨⟨45⟩, true⟩] :=
      List.forall_mem_singleton.mpr (by decide)
    have hpath : OutputType.legacyMultisig.pathOf .testnet 7 =
        .ok (.ofChildNumbers [⟨⟨45⟩, true⟩]) := by decide
    rw [OutputType.accountDescriptor_of_path hshape rfl hhardened (List.cons_ne_nil _ _) hpath,
      OutputType.derivePublic_masterOfOne]
    rfl
  have hmake : (make (.xprv m) .testnet 7 types).1 = some b := by
    refine make_eq_some_iff.mpr ⟨rfl, List.cons_ne_nil _ _, [d, d], ?_, rfl⟩
    rw [mapM_eq_ok_iff, List.map_cons, List.map_cons, hd]
    rfl
  have hlength : b.toCbor.encode.length < UInt64.size := by decide +kernel
  obtain ⟨a, hread, -, hdescriptors, hkeys⟩ :=
    exchange_of_catalogue (by decide) hmake hlength
  exact ⟨b, a, hmake, hread, congrArg List.length hdescriptors, fun d hd => (hkeys d hd).2⟩

end Bundle

end WalletExchange
