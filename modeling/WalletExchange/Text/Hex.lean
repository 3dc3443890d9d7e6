import WalletExchange.Bytes

/-!
# Hexadecimal

Two digits a byte, high half first.  `encode` writes lower case, `decode?` reads either case and
refuses an odd number of digits; `decode?_encode` says that nothing is lost on the way.
-/

namespace WalletExchange.Hex

/-- The value of a hexadecimal digit of either case. -/
def digitValue? (c : Char) : Option Nat :=
  if c.isDigit then some (c.toNat - '0'.toNat)
  else if 'a' ≤ c ∧ c ≤ 'f' then some (c.toNat - 'a'.toNat + 10)
  else if 'A' ≤ c ∧ c ≤ 'F' then some (c.toNat - 'A'.toNat + 10)
  else none

/-- A hexadecimal digit of either case. -/
def isDigit (c : Char) : Bool := (digitValue? c).isSome

/-- The two digits of each byte. -/
def encode : Bytes → List Char
  | [] => []
  | b :: rest => Nat.digitChar (b.toNat / 16) :: Nat.digitChar (b.toNat % 16) :: encode rest

/-- The bytes that pairs of digits spell. -/
def decode? : List Char → Option Bytes
  | [] => some []
  | [_] => none
  | high :: low :: rest => do
    let h ← digitValue? high
    let l ← digitValue? low
    let tail ← decode? rest
    return UInt8.ofNat (16 * h + l) :: tail

/-- The digits of each byte as a string. -/
def text (bytes : Bytes) : String := String.ofList (encode bytes)

theorem digitValue?_digitChar {n : Nat} (h : n < 16) : digitValue? (Nat.digitChar n) = some n := by
  have hall : ∀ k ∈ List.range 16, digitValue? (Nat.digitChar k) = some k := by decide
  exact hall n (List.mem_range.2 h)

/-- What is written is read back. -/
theorem decode?_encode (bytes : Bytes) : decode? (encode bytes) = some bytes := by
  induction bytes with
  | nil => rfl
  | cons b rest ih =>
    have hb : b.toNat < 256 := b.toNat_lt
    have hsum : UInt8.ofNat (16 * (b.toNat / 16) + b.toNat % 16) = b := by
      rw [show 16 * (b.toNat / 16) + b.toNat % 16 = b.toNat by omega]
      exact UInt8.ofNat_toNat
    simp only [encode, decode?, digitValue?_digitChar (show b.toNat / 16 < 16 by omega),
      digitValue?_digitChar (show b.toNat % 16 < 16 by omega), ih, Option.bind_eq_bind,
      Option.bind_some, hsum]
    rfl

theorem length_encode (bytes : Bytes) : (encode bytes).length = 2 * bytes.length := by
  induction bytes with
  | nil => rfl
  | cons b rest ih => simp only [encode, List.length_cons, ih]; omega

end WalletExchange.Hex
