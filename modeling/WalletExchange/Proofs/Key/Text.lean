import WalletExchange.Proofs.Key.Arrival
import WalletExchange.Proofs.Text.Base58

/-!
# Proofs — extended keys as text

The 78 bytes of an extended key are its fields one after the other, each of a fixed length, and so
they are found again.  A text does not tell the test networks apart; all the rest comes back.  The
first four bytes are chosen such that every text begins with the same four characters for its
network and kind.

Main statements:

* `XKey.parsePublic?_render`, `XKey.parsePrivate?_render` — an extended key is read back from its
  text.
* `XKey.exists_render_eq` — the characters that the text begins with.
-/

namespace WalletExchange

open Secp256k1 (Point Secret)

namespace ChildNumber

/-- A child number below the bound is read back from its 32 bits. -/
theorem ofUInt32_toUInt32 {n : ChildNumber} (h : n.index.InRange) : ofUInt32 n.toUInt32 = n := by
  obtain ⟨⟨value⟩, isHardened⟩ := n
  have hlt : value.toNat < 2 ^ 31 := UInt32.lt_iff_toNat_lt.mp h
  cases isHardened with
  | false => exact if_pos h
  | true =>
      have hor : (value ||| ChildIndex.bound).toNat = 2 ^ 31 + value.toNat := by
        rw [UInt32.toNat_or, Nat.or_comm]
        exact (Nat.two_pow_add_eq_or_of_lt hlt 1).symm
      have hbound : ¬ (value ||| ChildIndex.bound) < ChildIndex.bound := by
        rw [UInt32.lt_iff_toNat_lt, hor]
        exact Nat.not_lt.mpr (Nat.le_add_right _ _)
      have hsub : (value ||| ChildIndex.bound) - ChildIndex.bound = value := by
        rw [← UInt32.toNat_inj, UInt32.toNat_sub_of_le _ _ (UInt32.not_lt.mp hbound), hor]
        exact Nat.add_sub_cancel_left _ _
      change ofUInt32 (value ||| ChildIndex.bound) = _
      rw [ofUInt32, if_neg hbound, hsub]

end ChildNumber

namespace XKey

/-- What a text keeps of an extended key. -/
def printed (k : XKey) : XKey := k.relocated k.parent (.ofUInt32 k.child.toUInt32)

theorem length_version (isPrivate : Bool) (network : BitcoinNetwork) :
    (version isPrivate network).length = 4 := by
  cases isPrivate <;> cases network <;> rfl

theorem length_keyBytes (k : XKey) : k.keyBytes.length = 33 := by
  cases k with
  | xpub k => exact k.key.length_compress
  | xprv k => simp [keyBytes]

theorem length_toBytes (k : XKey) : k.toBytes.length = 78 := by
  simp [toBytes, length_version, k.chainCode.length_bytes, length_keyBytes]

theorem networkOfVersion?_version (isPrivate : Bool) (network : BitcoinNetwork) :
    networkOfVersion? isPrivate (version isPrivate network) = some network.exchanged := by
  cases isPrivate <;> cases network <;> rfl

/-- The fields of an extended key are found again in its bytes. -/
theorem fieldsOfBytes?_toBytes {κ : Type} (k : XKey) {readKey : Bytes → Option κ} {key : κ}
    (hkey : readKey k.keyBytes = some key) :
    fieldsOfBytes? k.isPrivate readKey k.toBytes =
      some ⟨k.network.exchanged, k.depth, k.parent, .ofUInt32 k.child.toUInt32, k.chainCode,
        key⟩ := by
  have hv := length_version k.isPrivate k.network
  have hcode := k.chainCode.length_bytes
  have hnumber (n : UInt32) : UInt32.ofNat (Bytes.toNat (Bytes.ofNat 4 n.toNat)) = n := by
    rw [Bytes.toNat_ofNat (show n.toNat < Bytes.capacity 4 from n.toNat_lt), UInt32.ofNat_toNat]
  -- behind the first four bytes each field is taken after those in front of it are dropped
  have hnetwork : k.toBytes.take 4 = version k.isPrivate k.network := by
    simp [toBytes, hv]
  have hdepth : k.toBytes.getD 4 0 = k.depth := by
    simp [toBytes, hv]
  have hparent : (k.toBytes.drop 5).take 4 = Bytes.ofNat 4 k.parent.toNat := by
    simp [toBytes, List.drop_append, List.drop_eq_nil_of_le, hv]
  have hchild : (k.toBytes.drop 9).take 4 = Bytes.ofNat 4 k.child.toUInt32.toNat := by
    simp [toBytes, List.drop_append, List.drop_eq_nil_of_le, hv]
  have hchain : (k.toBytes.drop 13).take 32 = k.chainCode.bytes := by
    simp [toBytes, List.drop_append, List.drop_eq_nil_of_le, hv, hcode]
  have hrest : k.toBytes.drop 45 = k.keyBytes := by
    simp [toBytes, List.drop_append, List.drop_eq_nil_of_le, hv, hcode]
  rw [fieldsOfBytes?, if_neg (not_not.mpr k.length_toBytes), hnetwork, networkOfVersion?_version,
    hdepth, hparent, hchild, hchain, hrest, hkey, Block.ofBytes?_bytes, hnumber, hnumber]
  rfl

theorem parsePublic?_render (k : ExtendedPublic) :
    parsePublic? (XKey.xpub k).render = some (XKey.xpub k).printed := by
  have hfields : fieldsOfBytes? false Point.ofBytes? (XKey.xpub k).toBytes = some _ :=
    fieldsOfBytes?_toBytes (.xpub k) k.key.ofBytes?_compress
  rw [parsePublic?, render, Base58.decodeChecked?_encodeChecked, Option.bind_eq_bind,
    Option.bind_some, hfields]
  rfl

theorem parsePrivate?_render (k : ExtendedPrivate) :
    parsePrivate? (XKey.xprv k).render = some (XKey.xprv k).printed := by
  have hfields : fieldsOfBytes? true (fun key => Secret.ofBytes? (key.drop 1))
      (XKey.xprv k).toBytes = some _ :=
    fieldsOfBytes?_toBytes (.xprv k) k.key.ofBytes?_toBytes
  rw [parsePrivate?, render, Base58.decodeChecked?_encodeChecked, Option.bind_eq_bind,
    Option.bind_some, hfields]
  rfl

theorem inRange_printed (k : XKey) : k.printed.child.index.InRange := by
  cases k with
  | xpub k => exact ChildNumber.inRange_ofUInt32 _
  | xprv k => exact ChildNumber.inRange_ofUInt32 _

/-- A key is read back as it was if its child number is below the bound and a text can tell its
network. -/
theorem printed_eq_self_iff {k : XKey} :
    k.printed = k ↔ k.child.index.InRange ∧ k.network.exchanged = k.network := by
  constructor
  · intro h
    have hnetwork : k.printed.network = k.network.exchanged := by cases k <;> rfl
    rw [h] at hnetwork
    exact ⟨h ▸ k.inRange_printed, hnetwork.symm⟩
  · rintro ⟨hchild, hnetwork⟩
    rw [printed, ChildNumber.ofUInt32_toUInt32 hchild, relocated_eq_placed hnetwork,
      placed_eq_self_iff.mpr ⟨rfl, rfl⟩]

/-- A text keeps all of a key that was read from one. -/
theorem printed_of_parse? {text : List Char} {key : XKey}
    (h : parsePublic? text = some key ∨ parsePrivate? text = some key) : key.printed = key := by
  obtain ⟨hchild, hnetwork⟩ := of_parse? h
  exact printed_eq_self_iff.mpr ⟨hchild, BitcoinNetwork.exchanged_eq hnetwork⟩

/-- What a text keeps of a key has the same text. -/
theorem render_printed {k : XKey} (hchild : k.child.index.InRange) :
    k.printed.render = k.render := by
  have hversion : version k.isPrivate k.network.exchanged = version k.isPrivate k.network := by
    cases k.isPrivate <;> cases k.network <;> rfl
  have hbytes : k.printed.toBytes = k.toBytes := by
    rw [printed, ChildNumber.ofUInt32_toUInt32 hchild, toBytes, toBytes, ← hversion]
    cases k <;> rfl
  rw [render, hbytes, render]

/-! ### The first characters -/

/-- The four characters that a text begins with. -/
def heading (isPrivate : Bool) (network : BitcoinNetwork) : String :=
  match isPrivate, network with
  | false, .bitcoin => "xpub"
  | true, .bitcoin => "xprv"
  | false, _ => "tpub"
  | true, _ => "tprv"

/-- The four digits of these characters, as a number. -/
def leading (isPrivate : Bool) (network : BitcoinNetwork) : Nat :=
  match isPrivate, network with
  | false, .bitcoin => 10892318
  | true, .bitcoin => 10892163
  | false, _ => 10111870
  | true, _ => 10111715

/-- The network and the kind of a key are seen from the first four characters of its text. -/
theorem exists_render_eq (k : XKey) :
    ∃ rest, k.render = (heading k.isPrivate k.network).toList ++ rest := by
  obtain ⟨tail, hbytes⟩ : ∃ tail, k.toBytes = version k.isPrivate k.network ++ tail :=
    ⟨_, by rw [toBytes, List.append_assoc, List.append_assoc, List.append_assoc]⟩
  have hlength : tail.length + 4 = 78 := by
    have h := congrArg List.length hbytes
    rw [length_toBytes, List.length_append, length_version] at h
    omega
  have hbounds : (version k.isPrivate k.network).headD 0 ≠ 0 ∧
      leading k.isPrivate k.network * 58 ^ 107 ≤
        (version k.isPrivate k.network).toNat * 256 ^ 78 ∧
      ((version k.isPrivate k.network).toNat + 1) * 256 ^ 78 ≤
        (leading k.isPrivate k.network + 1) * 58 ^ 107 ∧
      [Base58.characters (leading k.isPrivate k.network)] =
        [(heading k.isPrivate k.network).toList] := by
    cases k.isPrivate <;> cases k.network <;> decide +kernel
  obtain ⟨hfront, hlow, hhigh, hheading⟩ := hbounds
  obtain ⟨_, hmem, rest, hrest⟩ := Base58.exists_heading [heading k.isPrivate k.network] 107 _
    hfront hlength hlow hhigh hheading
  obtain rfl := List.mem_singleton.mp hmem
  refine ⟨rest, ?_⟩
  rw [render, hrest, ← hbytes]

end XKey

end WalletExchange
