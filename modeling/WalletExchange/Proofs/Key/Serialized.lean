import WalletExchange.Key.Extended
import WalletExchange.Proofs.Bytes

/-!
# Proofs — serialized keys

Each public key has one serialized form: `PublicKey.ofBytes?` accepts exactly the byte strings
`PublicKey.toBytes` writes (`ofBytes?_eq_ok_iff`).  A point read from bytes is no new point: its
coordinates are the numbers that the bytes spell, so writing it again gives the bytes back.  An
extended key that was read from a text has a child number below the bound and is for one of two
networks.
-/

namespace WalletExchange

namespace Secp256k1

theorem field_lt_capacity : field < Bytes.capacity 32 := by decide +kernel

theorem order_lt_capacity : order < Bytes.capacity 32 := by decide +kernel

namespace Point

theorem x_lt_capacity (p : Point) : p.x < Bytes.capacity 32 :=
  Nat.lt_trans p.onCurve.1 field_lt_capacity

theorem y_lt_capacity (p : Point) : p.y < Bytes.capacity 32 :=
  Nat.lt_trans p.onCurve.2.1 field_lt_capacity

theorem coordinates_of_ofCoordinates? {x y : Nat} {p : Point} (h : ofCoordinates? x y = some p) :
    p.x = x ∧ p.y = y := by
  unfold ofCoordinates? at h
  split at h
  · cases h; exact ⟨rfl, rfl⟩
  · cases h

theorem coordinates_of_lift? {x : Nat} {odd : Bool} {p : Point} (h : lift? x odd = some p) :
    p.x = x ∧ isOdd p.y = odd := by
  obtain ⟨y, hy, hp⟩ := Option.bind_eq_some_iff.mp h
  obtain ⟨rfl, rfl⟩ := coordinates_of_ofCoordinates? hp
  exact ⟨rfl, (of_ordinate?_eq_some hy).2.2.2⟩

@[simp] theorem length_compress (p : Point) : p.compress.length = 33 := by simp [compress]

@[simp] theorem length_expand (p : Point) : p.expand.length = 65 := by simp [expand]

@[simp] theorem ofBytes?_compress (p : Point) : ofBytes? p.compress = some p := by
  have hx : Bytes.toNat (Bytes.ofNat 32 p.x) = p.x := Bytes.toNat_ofNat p.x_lt_capacity
  cases hodd : isOdd p.y with
  | true => simpa [compress, ofBytes?, hodd, hx] using lift?_self p
  | false => simpa [compress, ofBytes?, hodd, hx] using lift?_self p

@[simp] theorem ofBytes?_expand (p : Point) : ofBytes? p.expand = some p := by
  have hx : Bytes.toNat (Bytes.ofNat 32 p.x) = p.x := Bytes.toNat_ofNat p.x_lt_capacity
  have hy : Bytes.toNat (Bytes.ofNat 32 p.y) = p.y := Bytes.toNat_ofNat p.y_lt_capacity
  simp [expand, ofBytes?, hx, hy]

/-- A point in 33 bytes is written back in the same bytes. -/
theorem compress_of_ofBytes? {bytes : Bytes} {p : Point} (hlen : bytes.length = 33)
    (h : ofBytes? bytes = some p) : p.compress = bytes := by
  cases bytes with
  | nil => cases h
  | cons first rest =>
      have hrest : rest.length = 32 := by simpa using hlen
      simp only [ofBytes?, hrest, if_true] at h
      split at h
      · next hfirst =>
        obtain ⟨hx, hodd⟩ := coordinates_of_lift? h
        simp [compress, hx, hodd, hfirst, Bytes.ofNat_toNat hrest]
      · split at h
        · next hfirst =>
          obtain ⟨hx, hodd⟩ := coordinates_of_lift? h
          simp [compress, hx, hodd, hfirst, Bytes.ofNat_toNat hrest]
        · cases h

/-- A point in 65 bytes of which the first is 4 is written back in the same bytes. -/
theorem expand_of_ofBytes? {bytes : Bytes} {p : Point} (hlen : bytes.length = 65)
    (hhead : bytes.head? = some 0x04) (h : ofBytes? bytes = some p) : p.expand = bytes := by
  cases bytes with
  | nil => cases h
  | cons first rest =>
      obtain rfl : first = 0x04 := Option.some.inj hhead
      have hrest : rest.length = 64 := by simpa using hlen
      have htake : (rest.take 32).length = 32 := by simp [hrest]
      have hdrop : (rest.drop 32).length = 32 := by simp [hrest]
      simp only [ofBytes?, hrest] at h
      obtain ⟨hx, hy⟩ := coordinates_of_ofCoordinates? (by simpa using h)
      simp only [expand, hx, hy, Bytes.ofNat_toNat htake, Bytes.ofNat_toNat hdrop,
        List.cons_append, List.take_append_drop]

end Point

namespace Secret

@[simp] theorem length_toBytes (s : Secret) : s.toBytes.length = 32 := by simp [toBytes]

@[simp] theorem ofBytes?_toBytes (s : Secret) : ofBytes? s.toBytes = some s := by
  have hlt : s.value < Bytes.capacity 32 := Nat.lt_trans s.lt_order order_lt_capacity
  simp [toBytes, ofBytes?, ofNat?, Bytes.toNat_ofNat hlt, s.positive, s.lt_order]

/-- Each secret has one serialized form. -/
theorem ofBytes?_eq_some_iff {bytes : Bytes} {s : Secret} :
    ofBytes? bytes = some s ↔ s.toBytes = bytes := by
  constructor
  · intro h
    obtain ⟨hlength, h⟩ := Option.ite_none_right_eq_some.mp h
    obtain ⟨_, h⟩ := Option.dite_none_right_eq_some.mp h
    cases h
    exact Bytes.ofNat_toNat hlength
  · rintro rfl
    exact s.ofBytes?_toBytes

end Secret

end Secp256k1

open Secp256k1 (Point)

namespace PublicKey

theorem length_toBytes (k : PublicKey) : k.toBytes.length = if k.isCompressed then 33 else 65 := by
  cases h : k.isCompressed <;> simp [toBytes, h]

@[simp] theorem ofBytes?_toBytes (k : PublicKey) : ofBytes? k.toBytes = .ok k := by
  obtain ⟨p, isCompressed⟩ := k
  cases isCompressed with
  | true => simp [toBytes, ofBytes?]
  | false => simp [toBytes, ofBytes?, show p.expand.head? = some 0x04 from rfl]

/-- The serialized form of a public key is the only byte string that reads as it. -/
theorem ofBytes?_eq_ok_iff {bytes : Bytes} {k : PublicKey} :
    ofBytes? bytes = .ok k ↔ bytes = k.toBytes := by
  refine ⟨fun h => ?_, fun h => h ▸ ofBytes?_toBytes k⟩
  unfold ofBytes? at h
  split at h
  · next hlen =>
    split at h
    · next p hp => cases h; exact (Point.compress_of_ofBytes? hlen hp).symm
    · cases h
  · split at h
    · next hlen =>
      split at h
      · next hhead =>
        split at h
        · next p hp => cases h; exact (Point.expand_of_ofBytes? hlen hhead hp).symm
        · cases h
      · cases h
    · cases h

end PublicKey

/-! ### Extended keys -/

theorem ChildNumber.inRange_ofUInt32 (n : UInt32) : (ofUInt32 n).index.InRange := by
  rw [ofUInt32]
  split
  · assumption
  · next hbound =>
    have hle : ChildIndex.bound ≤ n := UInt32.not_lt.mp hbound
    have hvalue : ChildIndex.bound.toNat = 2 ^ 31 := rfl
    have hle' : ChildIndex.bound.toNat ≤ n.toNat := hle
    have hlt := n.toNat_lt
    rw [ChildIndex.InRange, UInt32.lt_iff_toNat_lt, UInt32.toNat_sub_of_le _ _ hle]
    omega

namespace XKey

theorem network_of_networkOfVersion? {isPrivate : Bool} {first : Bytes} {network : BitcoinNetwork}
    (h : networkOfVersion? isPrivate first = some network) :
    network = .bitcoin ∨ network = .testnet := by
  simpa using List.mem_of_find?_eq_some h

theorem of_fieldsOfBytes? {κ : Type} {isPrivate : Bool} {readKey : Bytes → Option κ}
    {data : Bytes} {key : Extended κ} (h : fieldsOfBytes? isPrivate readKey data = some key) :
    key.child.index.InRange ∧ (key.network = .bitcoin ∨ key.network = .testnet) := by
  rw [fieldsOfBytes?] at h
  split at h
  · cases h
  · obtain ⟨network, hnetwork, h⟩ := Option.bind_eq_some_iff.mp h
    obtain ⟨chainCode, -, h⟩ := Option.bind_eq_some_iff.mp h
    obtain ⟨key, -, ⟨⟩⟩ := Option.bind_eq_some_iff.mp h
    exact ⟨ChildNumber.inRange_ofUInt32 _, network_of_networkOfVersion? hnetwork⟩

/-- An extended key that was read from a text has a child number below the bound, and no test
network but one. -/
theorem of_parse? {text : List Char} {key : XKey}
    (h : parsePublic? text = some key ∨ parsePrivate? text = some key) :
    key.child.index.InRange ∧ (key.network = .bitcoin ∨ key.network = .testnet) := by
  rcases h with h | h
  all_goals
    obtain ⟨data, -, h⟩ := Option.bind_eq_some_iff.mp h
    obtain ⟨key, hkey, ⟨⟩⟩ := Option.bind_eq_some_iff.mp h
    exact of_fieldsOfBytes? hkey

end XKey

end WalletExchange
