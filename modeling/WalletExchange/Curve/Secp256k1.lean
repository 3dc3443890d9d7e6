import WalletExchange.Bytes

/-!
# The curve of the keys

Points of `y² = x³ + 7` over the field of `field` elements, the group they form, and their
serialized forms.  Sums are computed in coordinates `(x / z², y / z³)`, so that a multiple of a
point takes one inversion.

* `Point.compress` and `Point.expand` write a point in 33 and 65 bytes, `Point.ofBytes?` reads
  either form and refuses what is no point of the curve.
* `Secret` is a number that can multiply the generator; `Secret.point` is the product.
-/

namespace WalletExchange

namespace Secp256k1

/-- The number of elements of the field. -/
def field : Nat := 0xfffffffffffffffffffffffffffffffffffffffffffffffffffffffefffffc2f

/-- The number of points of the curve. -/
def order : Nat := 0xfffffffffffffffffffffffffffffffebaaedce6af48a03bbfd25e8cd0364141

/-- `base ^ exponent` modulo `field`, for an exponent below `2 ^ 256`. -/
def power (base exponent : Nat) : Nat :=
  (List.range 256).foldr
    (fun i acc =>
      let square := acc * acc % field
      if exponent.testBit i then square * base % field else square)
    1

/-- The inverse of a field element other than zero. -/
def inverse (x : Nat) : Nat := power x (field - 2)

/-- The square root of a field element that has one. -/
def root (x : Nat) : Nat := power x ((field + 1) / 4)

/-- The difference of two field elements. -/
def sub (x y : Nat) : Nat := (x + (field - y)) % field

/-- The right side of the equation of the curve. -/
def cubic (x : Nat) : Nat := (x * x % field * x + 7) % field

/-- A number is odd. -/
def isOdd (n : Nat) : Bool := n % 2 == 1

/-- The second coordinate of a point by its first coordinate and by whether it is odd. -/
def ordinate? (x : Nat) (odd : Bool) : Option Nat :=
  let r := root (cubic x)
  let y := if isOdd r == odd then r else field - r
  if x < field ∧ y < field ∧ y * y % field = cubic x ∧ isOdd y = odd then some y else none

/-- A second coordinate found by its parity has that parity and satisfies the equation. -/
theorem of_ordinate?_eq_some {x y : Nat} {odd : Bool} (h : ordinate? x odd = some y) :
    x < field ∧ y < field ∧ y * y % field = cubic x ∧ isOdd y = odd := by
  simp only [ordinate?] at h
  generalize (if isOdd (root (cubic x)) == odd then root (cubic x)
    else field - root (cubic x)) = z at h
  split at h
  · cases h
    assumption
  · cases h

/-- A point other than the neutral one: its second coordinate is the one that belongs to its first
coordinate and its parity. -/
structure Point where
  x : Nat
  y : Nat
  ordinate : ordinate? x (isOdd y) = some y
  deriving DecidableEq, Repr

namespace Point

/-- The generator. -/
def generator : Point where
  x := 0x79be667ef9dcbbac55a06295ce870b07029bfcdb2dce28d959f2815b16f81798
  y := 0x483ada7726a3c4655da4fbfc0e1108a8fd17b448a68554199c47d08ffb10d4b8
  ordinate := by decide +kernel

/-- The point with given coordinates, if there is one. -/
def ofCoordinates? (x y : Nat) : Option Point :=
  if h : ordinate? x (isOdd y) = some y then some ⟨x, y, h⟩ else none

/-- The point with a given first coordinate whose second coordinate is odd or even. -/
def lift? (x : Nat) (odd : Bool) : Option Point := (ordinate? x odd).bind (ofCoordinates? x)

@[simp] theorem ofCoordinates?_self (p : Point) : ofCoordinates? p.x p.y = some p := by
  simp [ofCoordinates?, p.ordinate]

/-- A point is found by its first coordinate and the parity of the second one. -/
@[simp] theorem lift?_self (p : Point) : lift? p.x (isOdd p.y) = some p := by
  simp [lift?, p.ordinate]

/-- The coordinates of a point are field elements that satisfy the equation of the curve. -/
theorem onCurve (p : Point) : p.x < field ∧ p.y < field ∧ p.y * p.y % field = cubic p.x :=
  have ⟨hx, hy, hxy, _⟩ := of_ordinate?_eq_some p.ordinate
  ⟨hx, hy, hxy⟩

/-- The form of 33 bytes: the parity of the second coordinate and the first coordinate. -/
def compress (p : Point) : Bytes :=
  (if isOdd p.y then 0x03 else 0x02) :: Bytes.ofNat 32 p.x

/-- The form of 65 bytes: both coordinates. -/
def expand (p : Point) : Bytes :=
  0x04 :: Bytes.ofNat 32 p.x ++ Bytes.ofNat 32 p.y

/-- Read a serialized point: 33 bytes, or 65 bytes whose first byte is 4, or 6 or 7 if it also tells
whether the second coordinate is odd. -/
def ofBytes? (bytes : Bytes) : Option Point :=
  match bytes with
  | [] => none
  | first :: rest =>
    if rest.length = 32 then
      if first = 0x02 then lift? (Bytes.toNat rest) false
      else if first = 0x03 then lift? (Bytes.toNat rest) true
      else none
    else if rest.length = 64 then
      let y := Bytes.toNat (rest.drop 32)
      if first = 0x04 ∨ first = 0x06 ∧ isOdd y = false ∨ first = 0x07 ∧ isOdd y = true then
        ofCoordinates? (Bytes.toNat (rest.take 32)) y
      else none
    else none

end Point

/-- A point in the coordinates of the sums; the neutral point has `z = 0`. -/
structure Weighted where
  x : Nat
  y : Nat
  z : Nat

namespace Weighted

/-- The neutral point. -/
def neutral : Weighted := ⟨1, 1, 0⟩

/-- A point with weight one. -/
def ofPoint (p : Point) : Weighted := ⟨p.x, p.y, 1⟩

/-- Twice a point. -/
def double (p : Weighted) : Weighted :=
  let yy := p.y * p.y % field
  let s := 4 * p.x * yy % field
  let m := 3 * p.x * p.x % field
  let x := sub (m * m % field) (2 * s % field)
  ⟨x, sub (m * sub s x % field) (8 * yy * yy % field), 2 * p.y * p.z % field⟩

/-- The sum of two points. -/
def add (p q : Weighted) : Weighted :=
  if p.z = 0 then q
  else if q.z = 0 then p
  else
    let pzz := p.z * p.z % field
    let qzz := q.z * q.z % field
    let u := p.x * qzz % field
    let v := q.x * pzz % field
    let s := p.y * qzz % field * q.z % field
    let t := q.y * pzz % field * p.z % field
    if u = v then
      if s = t then double p else neutral
    else
      let h := sub v u
      let r := sub t s
      let hh := h * h % field
      let hhh := hh * h % field
      let uhh := u * hh % field
      let x := sub (sub (r * r % field) hhh) (2 * uhh % field)
      ⟨x, sub (r * sub uhh x % field) (s * hhh % field), h * p.z % field * q.z % field⟩

/-- The point itself, unless it is neutral. -/
def toPoint? (p : Weighted) : Option Point :=
  if p.z = 0 then none
  else
    let i := inverse p.z
    let ii := i * i % field
    Point.ofCoordinates? (p.x * ii % field) (p.y * ii % field * i % field)

/-- The multiple of a point by a number below `2 ^ 256`. -/
def multiple (k : Nat) (p : Weighted) : Weighted :=
  (List.range 256).foldr
    (fun i acc => if k.testBit i then add (double acc) p else double acc)
    neutral

end Weighted

/-- The sum of two points, unless it is the neutral point. -/
def Point.add? (p q : Point) : Option Point :=
  (Weighted.add (.ofPoint p) (.ofPoint q)).toPoint?

/-- The multiple of the generator by a number, unless it is the neutral point. -/
def generate? (k : Nat) : Option Point :=
  (Weighted.multiple k (.ofPoint .generator)).toPoint?

/-- A number that can multiply the generator: positive and below the order of the curve. -/
structure Secret where
  value : Nat
  positive : 0 < value
  lt_order : value < order
  deriving DecidableEq

namespace Secret

/-- A number as a secret, if it is in range. -/
def ofNat? (n : Nat) : Option Secret :=
  if h : 0 < n ∧ n < order then some ⟨n, h.1, h.2⟩ else none

/-- Read a secret from 32 bytes. -/
def ofBytes? (bytes : Bytes) : Option Secret :=
  if bytes.length = 32 then ofNat? (Bytes.toNat bytes) else none

/-- The secret in 32 bytes. -/
def toBytes (s : Secret) : Bytes := Bytes.ofNat 32 s.value

/-- The sum of a secret and a number modulo the order, if it is a secret again. -/
def add? (s : Secret) (n : Nat) : Option Secret := ofNat? ((s.value + n) % order)

/-- The multiple of the generator; a secret is below the order, so the product is never neutral. -/
def point (s : Secret) : Point := (generate? s.value).getD .generator

end Secret

end Secp256k1

end WalletExchange
