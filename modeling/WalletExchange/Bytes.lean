/-!
# Byte strings

Byte strings are lists of bytes, and a `Block` is a byte string of a fixed length.  `Bytes.toNat`
and `Bytes.ofNat` read and write a number in base 256, most significant byte first; `chunks` cuts a
list into pieces of one length.
-/

namespace WalletExchange

/-- A byte string. -/
abbrev Bytes := List UInt8

namespace Bytes

/-- The number that the bytes spell, most significant byte first. -/
def toNat (bytes : Bytes) : Nat :=
  bytes.foldl (fun n b => 256 * n + b.toNat) 0

/-- The last `width` digits of `n` in base 256, most significant first. -/
def ofNat : (width n : Nat) → Bytes
  | 0, _ => []
  | width + 1, n => ofNat width (n / 256) ++ [UInt8.ofNat n]

@[simp] theorem length_ofNat (width n : Nat) : (ofNat width n).length = width := by
  induction width generalizing n with
  | zero => rfl
  | succ width ih => simp [ofNat, ih]

@[simp] theorem toNat_nil : toNat [] = 0 := rfl

theorem toNat_append_singleton (bytes : Bytes) (b : UInt8) :
    toNat (bytes ++ [b]) = 256 * toNat bytes + b.toNat := by
  simp [toNat]

/-- How many numbers `width` digits can spell. -/
def capacity : (width : Nat) → Nat
  | 0 => 1
  | width + 1 => 256 * capacity width

/-- A number below the capacity of its digits is read back from them. -/
theorem toNat_ofNat {width n : Nat} (h : n < capacity width) : toNat (ofNat width n) = n := by
  induction width generalizing n with
  | zero =>
    have hzero : n = 0 := Nat.lt_one_iff.1 h
    simp [ofNat, hzero]
  | succ width ih =>
    have hdiv : n / 256 < capacity width := Nat.div_lt_of_lt_mul h
    rw [ofNat, toNat_append_singleton, ih hdiv, UInt8.toNat_ofNat']
    omega

end Bytes

/-- A byte string of a fixed length. -/
structure Block (length : Nat) where
  bytes : Bytes
  length_bytes : bytes.length = length
  deriving DecidableEq, Repr

namespace Block

/-- A byte string as a block, if it has the length. -/
def ofBytes? {length : Nat} (bytes : Bytes) : Option (Block length) :=
  if h : bytes.length = length then some ⟨bytes, h⟩ else none

@[simp] theorem ofBytes?_bytes {length : Nat} (b : Block length) :
    ofBytes? b.bytes = some b := by
  simp [ofBytes?, b.length_bytes]

theorem bytes_of_ofBytes? {length : Nat} {bytes : Bytes} {b : Block length}
    (h : ofBytes? bytes = some b) : b.bytes = bytes := by
  unfold ofBytes? at h
  split at h
  · cases h
    rfl
  · cases h

/-- The bytes after the first `n`. -/
def drop {length : Nat} (n : Nat) (b : Block length) : Block (length - n) :=
  ⟨b.bytes.drop n, by simp [b.length_bytes]⟩

end Block

/-- The consecutive pieces of length `size`; a shorter rest at the end is dropped. -/
def chunks {α : Type} (size : Nat) (xs : List α) : List (List α) :=
  (List.range (xs.length / size)).map fun i => (xs.drop (i * size)).take size

end WalletExchange
