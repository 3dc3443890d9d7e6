import WalletExchange.Descriptor.Checksum
import WalletExchange.Proofs.Text

/-!
# Proofs — checksums of texts

Which texts have a checksum, and why it is found again behind the last `#`: it is made of letters
and digits, so a text that ends with a checksum is cut in front of it.

Main statements:

* `isSome_ofText?_iff` — a text has a checksum if its characters are in the alphabet.
* `mark_not_mem` — no checksum has the mark that is in front of checksums.
-/

namespace WalletExchange

namespace Checksum

variable {text sum : List Char}

theorem positions?_cons (c : Char) (text : List Char) :
    positions? (c :: text) =
      (inputAlphabet.idxOf? c).bind fun i => (positions? text).map fun is => i :: is := by
  rw [positions?, List.mapM_cons, positions?]
  cases inputAlphabet.idxOf? c with
  | none => rfl
  | some i => cases text.mapM fun c => inputAlphabet.idxOf? c <;> rfl

theorem isSome_positions?_iff : (positions? text).isSome ↔ ∀ c ∈ text, c ∈ inputAlphabet := by
  induction text with
  | nil => exact ⟨fun _ => List.forall_mem_nil _, fun _ => rfl⟩
  | cons c text ih =>
      rw [List.forall_mem_cons, ← ih, ← List.isSome_idxOf?, positions?_cons]
      cases inputAlphabet.idxOf? c with
      | none => exact ⟨fun h => (nomatch h), fun h => (nomatch h.1)⟩
      | some i => rw [Option.bind_some, Option.isSome_map, Option.isSome_some, and_iff_right rfl]

/-- A text has a checksum if its characters are in the alphabet. -/
theorem isSome_ofText?_iff : (ofText? text).isSome ↔ ∀ c ∈ text, c ∈ inputAlphabet := by
  rw [ofText?, Option.isSome_map, isSome_positions?_iff]

/-- Letters and digits are in the alphabet. -/
theorem mem_inputAlphabet {c : Char} (h : c.isAlphanum = true) : c ∈ inputAlphabet := by
  have hall : ∀ n ∈ List.range 123, (Char.ofNat n).isAlphanum = true →
      Char.ofNat n ∈ inputAlphabet := by decide +kernel
  have hrange := Text.range_of_isAlphanum h
  have hlt : c.toNat < 123 := by omega
  have hmem := hall c.toNat (List.mem_range.mpr hlt)
  rw [Char.ofNat_toNat] at hmem
  exact hmem h

theorem mem_outputAlphabet (register : Nat) : ∀ c ∈ render register, c ∈ outputAlphabet := by
  intro c hc
  obtain ⟨i, -, rfl⟩ := List.mem_map.mp hc
  have hlt : (register >>> (5 * (7 - i))) % 32 < outputAlphabet.length := Nat.mod_lt _ (by decide)
  rw [List.getD_eq_getElem?_getD, List.getElem?_eq_getElem hlt]
  exact List.getElem_mem hlt

/-- No checksum has the mark that is in front of checksums. -/
theorem mark_not_mem (h : ofText? text = some sum) : '#' ∉ sum := by
  obtain ⟨positions, -, rfl⟩ := Option.map_eq_some_iff.mp h
  intro hmem
  exact absurd (mem_outputAlphabet _ _ hmem) (by decide)

end Checksum

end WalletExchange
