import WalletExchange.Bytes

/-!
# Proofs — numbers in base 256

`Bytes.toNat` and `Bytes.ofNat width` are inverse to each other between the byte strings of one
width and the numbers below its capacity: `toNat_ofNat` (beside the definitions) goes one way,
`ofNat_toNat` the other.  So a byte string of known length is determined by the number it spells.
-/

namespace WalletExchange.Bytes

/-- A byte string that is not empty has a last byte. -/
theorem exists_append_singleton {bytes : Bytes} {width : Nat} (h : bytes.length = width + 1) :
    ∃ front last, bytes = front ++ [last] ∧ front.length = width := by
  rcases List.eq_nil_or_concat bytes with rfl | ⟨front, last, rfl⟩
  · cases h
  · exact ⟨front, last, List.concat_eq_append, by simpa using h⟩

/-- The digits of the number that a byte string spells are its bytes. -/
theorem ofNat_toNat {bytes : Bytes} {width : Nat} (h : bytes.length = width) :
    ofNat width (toNat bytes) = bytes := by
  -- `ofNat` peels off the last digit, so the induction is from the end.
  induction width generalizing bytes with
  | zero => rw [List.length_eq_zero_iff.mp h]; rfl
  | succ width ih =>
      obtain ⟨front, last, rfl, hfront⟩ := exists_append_singleton h
      have hlast : last.toNat < 256 := last.toNat_lt
      have hdiv : (256 * toNat front + last.toNat) / 256 = toNat front := by omega
      have hmod : UInt8.ofNat (256 * toNat front + last.toNat) = last := by
        apply UInt8.toNat_inj.mp
        rw [UInt8.toNat_ofNat']
        omega
      rw [toNat_append_singleton, ofNat, hdiv, ih hfront, hmod]

end WalletExchange.Bytes
