/-!
# Floating-point formats

Half, single and double precision differ in the number of bits of the exponent and of the fraction.
`Format.widen` turns the narrower forms into double precision, and `Format.narrow?` finds the
narrower form of a double precision number that has one.
-/

namespace WalletExchange.Cbor.Float

/-- A binary format narrower than double precision. -/
structure Format where
  exponentBits : Nat
  fractionBits : Nat

/-- Half precision. -/
def half : Format := ⟨5, 10⟩

/-- Single precision. -/
def single : Format := ⟨8, 23⟩

namespace Format

/-- The exponent of infinities and of numbers that are none. -/
def topExponent (f : Format) : Nat := (1 <<< f.exponentBits) - 1

/-- What is added to the exponent of a number. -/
def bias (f : Format) : Nat := (1 <<< (f.exponentBits - 1)) - 1

/-- The bits of a sign, an exponent and a fraction in double precision. -/
def double (sign exponent fraction : Nat) : UInt64 :=
  UInt64.ofNat (sign <<< 63 ||| exponent <<< 52 ||| fraction)

/-- The double precision form of bits in a narrower format.  A fraction under the top exponent is
marked quiet. -/
def widen (f : Format) (bits : Nat) : UInt64 :=
  let fraction := bits % (1 <<< f.fractionBits)
  let exponent := (bits >>> f.fractionBits) % (1 <<< f.exponentBits)
  let sign := (bits >>> (f.fractionBits + f.exponentBits)) % 2
  let wide := fraction <<< (52 - f.fractionBits)
  if exponent = f.topExponent then
    double sign 2047 (if fraction = 0 then 0 else wide ||| (1 <<< 51))
  else if exponent = 0 then
    if fraction = 0 then double sign 0 0
    else
      let top := fraction.log2
      double sign (1024 - f.bias - f.fractionBits + top)
        ((fraction - (1 <<< top)) <<< (52 - top))
  else double sign (exponent + 1023 - f.bias) wide

/-- The bits of a double precision number cut down to a narrower format. -/
def cut (f : Format) (bits : UInt64) : Nat :=
  let n := bits.toNat
  let fraction := n % (1 <<< 52)
  let exponent := (n >>> 52) % 2048
  let sign := (n >>> 63) <<< (f.fractionBits + f.exponentBits)
  let short := fraction >>> (52 - f.fractionBits)
  if exponent = 2047 then sign ||| f.topExponent <<< f.fractionBits ||| short
  else if exponent + f.bias ≤ 1023 then
    sign ||| ((1 <<< 52) + fraction) >>> (1023 - f.bias - exponent + 53 - f.fractionBits)
  else sign ||| (exponent + f.bias - 1023) <<< f.fractionBits ||| short

/-- The bits in a narrower format that have the same double precision form. -/
def narrow? (f : Format) (bits : UInt64) : Option Nat :=
  let short := f.cut bits
  if f.widen short = bits then some short else none

theorem widen_of_narrow? {f : Format} {bits : UInt64} {short : Nat}
    (h : f.narrow? bits = some short) : f.widen short = bits := by
  simp only [narrow?] at h
  split at h <;> simp_all

end Format

end WalletExchange.Cbor.Float
