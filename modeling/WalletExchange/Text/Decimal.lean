/-!
# Decimal numbers

`render` writes a natural number in base ten; `read?` takes back any non-empty run of ASCII digits,
with or without leading zeros.  `read?_render` says that nothing is lost on the way.
-/

namespace WalletExchange.Decimal

/-- The decimal digits of a number, without leading zeros. -/
def render (n : Nat) : List Char := Nat.toDigits 10 n

/-- The number that a list of digits spells. -/
def value (digits : List Char) : Nat :=
  digits.foldl (fun n c => 10 * n + (c.toNat - '0'.toNat)) 0

/-- Read a non-empty list of ASCII digits. -/
def read? (text : List Char) : Option Nat :=
  if text ≠ [] ∧ text.all Char.isDigit then some (value text) else none

theorem value_append_singleton (digits : List Char) (c : Char) :
    value (digits ++ [c]) = 10 * value digits + (c.toNat - '0'.toNat) := by
  simp [value]

theorem value_render (n : Nat) : value (render n) = n := by
  induction n using Nat.strongRecOn with
  | ind n ih =>
    by_cases h : n < 10
    · rw [render, Nat.toDigits_of_lt_base h]
      simpa [value] using Nat.toNat_digitChar_sub_48_of_lt_ten h
    · have hdiv : value (Nat.toDigits 10 (n / 10)) = n / 10 := ih (n / 10) (by omega)
      rw [render, Nat.toDigits_of_base_le (by decide) (by omega), value_append_singleton, hdiv]
      have := Nat.toNat_digitChar_sub_48_of_lt_ten (n := n % 10) (by omega)
      simp only [show '0'.toNat = 48 from rfl]
      omega

theorem render_ne_nil (n : Nat) : render n ≠ [] := Nat.toDigits_ne_nil

theorem isDigit_of_mem_render {n : Nat} {c : Char} (h : c ∈ render n) : c.isDigit :=
  Nat.isDigit_of_mem_toDigits (by decide) (by decide) h

/-- What is written is read back. -/
theorem read?_render (n : Nat) : read? (render n) = some n := by
  have hall : (render n).all Char.isDigit := List.all_eq_true.2 fun _ => isDigit_of_mem_render
  rw [read?, if_pos ⟨render_ne_nil n, hall⟩, value_render]

end WalletExchange.Decimal
