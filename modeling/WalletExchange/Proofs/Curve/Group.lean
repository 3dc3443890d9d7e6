import Mathlib.AlgebraicGeometry.EllipticCurve.Affine.Point
import WalletExchange.Proofs.Curve.Field

/-!
# Proofs — the group of the curve

The points of the curve and a neutral element form a group, `curve.Point`.  Sums and multiples that
are computed in coordinates `(x / z², y / z³)` are the ones of this group, and a point is found again
from its coordinates.  The generator has the order that the curve is said to have, so a secret always
has a point, and secrets are added modulo this order as their points are added.

Main statements:

* `Weighted.Holds.double`, `Weighted.Holds.add`, `Weighted.Holds.multiple` — what is computed.
* `Weighted.Holds.group_toPoint?` — the point that is found from coordinates.
* `addOrderOf_generator` — the order of the generator.
* `Secret.point_add?` — the point of a sum of secrets is the sum of their points.
-/

namespace WalletExchange.Secp256k1

/-- The curve `y² = x³ + 7`. -/
def curve : WeierstrassCurve.Affine (ZMod field) where
  a₁ := 0
  a₂ := 0
  a₃ := 0
  a₄ := 0
  a₆ := 7

namespace curve

variable {x y x' y' : ZMod field}

@[simp] theorem negY_eq : curve.negY x y = -y := by
  simp [curve, WeierstrassCurve.Affine.negY]

theorem addX_eq {l : ZMod field} : curve.addX x x' l = l ^ 2 - x - x' := by
  simp [curve, WeierstrassCurve.Affine.addX]

theorem addY_eq {l : ZMod field} :
    curve.addY x x' y l = -(l * (l ^ 2 - x - x' - x) + y) := by
  rw [WeierstrassCurve.Affine.addY, negY_eq, WeierstrassCurve.Affine.negAddY, addX_eq]

theorem equation_iff : curve.Equation x y ↔ y ^ 2 = x ^ 3 + 7 := by
  simp [curve, WeierstrassCurve.Affine.equation_iff]

theorem discriminant_ne_zero : curve.Δ ≠ 0 := by
  have hΔ : curve.Δ = -((21168 : Nat) : ZMod field) := by
    simp [curve, WeierstrassCurve.Δ, WeierstrassCurve.b₂, WeierstrassCurve.b₄, WeierstrassCurve.b₆,
      WeierstrassCurve.b₈]
    norm_num
  rw [hΔ]
  exact neg_ne_zero.mpr (cast_ne_zero (by decide) (by decide))

/-- The curve has no singular points. -/
theorem nonsingular (h : y ^ 2 = x ^ 3 + 7) : curve.Nonsingular x y :=
  (WeierstrassCurve.Affine.equation_iff_nonsingular_of_Δ_ne_zero discriminant_ne_zero).mp
    (equation_iff.mpr h)

theorem two_ne_zero : (2 : ZMod field) ≠ 0 := by
  exact_mod_cast cast_ne_zero (x := 2) (by decide) (by decide)

theorem ne_negY (hy : y ≠ 0) : y ≠ curve.negY x y := by
  rw [negY_eq]
  intro h
  exact mul_ne_zero two_ne_zero hy (by linear_combination h)

theorem slope_self (hy : y ≠ 0) : curve.slope x x y y = 3 * x ^ 2 / (2 * y) := by
  rw [WeierstrassCurve.Affine.slope_of_Y_ne rfl (ne_negY hy), negY_eq]
  simp only [curve]
  ring_nf

end curve

namespace Weighted

open WeierstrassCurve.Affine (Point)

/-- The coordinates stand for an element of the group. -/
def Holds (p : Weighted) : curve.Point → Prop
  | .zero => p.z = 0
  | .some x y _ => (p.z : ZMod field) ≠ 0 ∧ (p.x : ZMod field) = x * p.z ^ 2 ∧
    (p.y : ZMod field) = y * p.z ^ 3

variable {p q : Weighted} {P Q : curve.Point} {x y x' y' : ZMod field} {h : curve.Nonsingular x y}
  {h' : curve.Nonsingular x' y'}

theorem Holds.z_ne_zero (hp : p.Holds (.some x y h)) : p.z ≠ 0 := by
  intro hz
  exact hp.1 (by rw [hz, Nat.cast_zero])

/-! ### Twice a point -/

theorem double_cast (p : Weighted) :
    let x := 9 * (p.x : ZMod field) ^ 4 - 8 * p.x * p.y ^ 2
    (p.double.x : ZMod field) = x ∧
    (p.double.y : ZMod field) = 3 * p.x ^ 2 * (4 * p.x * p.y ^ 2 - x) - 8 * p.y ^ 4 ∧
    (p.double.z : ZMod field) = 2 * p.y * p.z := by
  simp only [double, sub_cast_mod, sub_cast_sub, ZMod.natCast_mod, Nat.cast_mul, Nat.cast_ofNat]
  exact ⟨by ring, by ring, trivial⟩

theorem double_z_eq_zero (h : (p.y : ZMod field) = 0 ∨ (p.z : ZMod field) = 0) :
    p.double.z = 0 := by
  obtain ⟨-, -, hz⟩ := double_cast p
  refine eq_of_cast (mod_field_lt _) (by decide) ?_
  rcases h with h | h <;> simp [hz, h]

/-- The tangent of a point that is not its own opposite. -/
theorem Holds.double_of_ne_zero (hp : p.Holds (.some x y h)) (hy : y ≠ 0) :
    p.double.Holds (.some x y h + .some x y h) := by
  obtain ⟨hz, hx, hy'⟩ := hp
  obtain ⟨hdx, hdy, hdz⟩ := double_cast p
  have htwo := curve.two_ne_zero
  rw [Point.add_self_of_Y_ne (curve.ne_negY hy)]
  refine ⟨?_, ?_, ?_⟩
  · have hdz' : (p.double.z : ZMod field) = 2 * y * p.z ^ 4 := by
      rw [hdz, hy']
      ring
    rw [hdz']
    exact mul_ne_zero (mul_ne_zero htwo hy) (pow_ne_zero 4 hz)
  · rw [curve.addX_eq, curve.slope_self hy, hdx, hdz, hx, hy']
    field_simp
    ring
  · rw [curve.addY_eq, curve.slope_self hy, hdy, hdz, hx, hy']
    field_simp
    ring

theorem Holds.double (hp : p.Holds P) : p.double.Holds (P + P) := by
  match P with
  | .zero =>
      have hz : p.z = 0 := hp
      exact double_z_eq_zero (.inr (by rw [hz, Nat.cast_zero]))
  | .some x y h =>
      by_cases hy : y = 0
      · have hopposite : y = curve.negY x y := by rw [curve.negY_eq, hy, neg_zero]
        rw [Point.add_self_of_Y_eq hopposite]
        exact double_z_eq_zero (.inl (by rw [hp.2.2, hy, zero_mul]))
      · exact hp.double_of_ne_zero hy

/-! ### The sum of two points -/

theorem cross_mul_eq_iff {a b c d : Nat} :
    a * (b * b % field) % field = c * (d * d % field) % field ↔
      (a : ZMod field) * b ^ 2 = c * d ^ 2 := by
  rw [← ZMod.natCast_eq_natCast_iff', Nat.cast_mul, Nat.cast_mul, ZMod.natCast_mod,
    ZMod.natCast_mod, Nat.cast_mul, Nat.cast_mul, pow_two, pow_two]

theorem cross_mul_mul_eq_iff {a b c d : Nat} :
    a * (b * b % field) % field * b % field = c * (d * d % field) % field * d % field ↔
      (a : ZMod field) * b ^ 3 = c * d ^ 3 := by
  rw [← ZMod.natCast_eq_natCast_iff']
  simp only [Nat.cast_mul, ZMod.natCast_mod]
  ring_nf

/-- Points with the same first coordinate are the same or opposite. -/
theorem add_of_eq (hp : p.z ≠ 0) (hq : q.z ≠ 0)
    (hx : (p.x : ZMod field) * q.z ^ 2 = q.x * p.z ^ 2) :
    add p q = if (p.y : ZMod field) * q.z ^ 3 = q.y * p.z ^ 3 then double p else neutral := by
  rw [add, if_neg hp, if_neg hq]
  simp only [if_pos (cross_mul_eq_iff.mpr hx), cross_mul_mul_eq_iff]

/-- The coordinates of the sum of points with different first coordinates. -/
theorem add_cast (hp : p.z ≠ 0) (hq : q.z ≠ 0)
    (hx : (p.x : ZMod field) * q.z ^ 2 ≠ q.x * p.z ^ 2) :
    let u := (p.x : ZMod field) * q.z ^ 2
    let s := (p.y : ZMod field) * q.z ^ 3
    let h := (q.x : ZMod field) * p.z ^ 2 - u
    let r := (q.y : ZMod field) * p.z ^ 3 - s
    let x := r ^ 2 - h ^ 3 - 2 * (u * h ^ 2)
    ((add p q).x : ZMod field) = x ∧
    ((add p q).y : ZMod field) = r * (u * h ^ 2 - x) - s * h ^ 3 ∧
    ((add p q).z : ZMod field) = h * p.z * q.z := by
  rw [add, if_neg hp, if_neg hq]
  simp only [if_neg (mt cross_mul_eq_iff.mp hx), sub_cast_mod, sub_cast_sub, ZMod.natCast_mod,
    Nat.cast_mul, Nat.cast_ofNat]
  refine ⟨?_, ?_, ?_⟩ <;> ring

/-- The cross products compare the coordinates of two points. -/
theorem Holds.cross_eq_iff (hp : p.Holds (.some x y h)) (hq : q.Holds (.some x' y' h')) :
    ((p.x : ZMod field) * q.z ^ 2 = q.x * p.z ^ 2 ↔ x = x') ∧
    ((p.y : ZMod field) * q.z ^ 3 = q.y * p.z ^ 3 ↔ y = y') := by
  obtain ⟨hpz, hpx, hpy⟩ := hp
  obtain ⟨hqz, hqx, hqy⟩ := hq
  have hz : (p.z : ZMod field) * q.z ≠ 0 := mul_ne_zero hpz hqz
  constructor
  · rw [hpx, hqx, mul_assoc, mul_assoc, ← mul_pow, ← mul_pow, mul_comm (q.z : ZMod field)]
    exact mul_left_inj' (pow_ne_zero 2 hz)
  · rw [hpy, hqy, mul_assoc, mul_assoc, ← mul_pow, ← mul_pow, mul_comm (q.z : ZMod field)]
    exact mul_left_inj' (pow_ne_zero 3 hz)

/-- The line through two points with different first coordinates. -/
theorem Holds.add_of_ne (hp : p.Holds (.some x y h)) (hq : q.Holds (.some x' y' h'))
    (hx : x ≠ x') : (add p q).Holds (.some x y h + .some x' y' h') := by
  have hcross := mt (hp.cross_eq_iff hq).1.mp hx
  obtain ⟨hsx, hsy, hsz⟩ := add_cast hp.z_ne_zero hq.z_ne_zero hcross
  obtain ⟨hpz, hpx, hpy⟩ := hp
  obtain ⟨hqz, hqx, hqy⟩ := hq
  have hne : x - x' ≠ 0 := sub_ne_zero.mpr hx
  have hslope : curve.slope x x' y y' = (y - y') / (x - x') :=
    WeierstrassCurve.Affine.slope_of_X_ne hx
  rw [Point.add_of_X_ne hx]
  refine ⟨?_, ?_, ?_⟩
  · rw [hsz]
    exact mul_ne_zero (mul_ne_zero (sub_ne_zero.mpr fun h => hcross h.symm) hpz) hqz
  · rw [curve.addX_eq, hslope, hsx, hsz, hpx, hqx, hpy, hqy]
    field_simp
    ring
  · rw [curve.addY_eq, hslope, hsy, hsz, hpx, hqx, hpy, hqy]
    field_simp
    ring

theorem Holds.add (hp : p.Holds P) (hq : q.Holds Q) : (add p q).Holds (P + Q) := by
  match P, Q with
  | .zero, Q =>
      rw [Weighted.add, if_pos (show p.z = 0 from hp)]
      exact (zero_add Q).symm ▸ hq
  | .some x y h, .zero =>
      rw [Weighted.add, if_neg hp.z_ne_zero, if_pos (show q.z = 0 from hq)]
      exact (add_zero (Point.some x y h)).symm ▸ hp
  | .some x y h, .some x' y' h' =>
      by_cases hx : x = x'
      · obtain ⟨hcross, hcross'⟩ := hp.cross_eq_iff hq
        rw [add_of_eq hp.z_ne_zero hq.z_ne_zero (hcross.mpr hx)]
        split
        · next hsame =>
          obtain rfl := hx
          obtain rfl := hcross'.mp hsame
          exact hp.double
        · next hdiffer =>
          have hopposite := (WeierstrassCurve.Affine.Y_eq_of_X_eq h.1 h'.1 hx).resolve_left
            (mt hcross'.mpr hdiffer)
          rw [Point.add_of_Y_eq hx hopposite]
          rfl
      · exact hp.add_of_ne hq hx

theorem Holds.multiple (hp : p.Holds P) {k : Nat} (hk : k < 2 ^ 256) :
    (multiple k p).Holds (k • P) := by
  have hneutral : neutral.Holds 0 := rfl
  exact foldr_testBit hneutral (fun h => h.double) (fun h => h.add hp) 256 k hk

end Weighted

/-! ### Points -/

namespace Point

theorem equation (p : Point) : (p.y : ZMod field) ^ 2 = (p.x : ZMod field) ^ 3 + 7 := by
  obtain ⟨-, -, h⟩ := p.onCurve
  rw [← cubic_cast, ← h, ZMod.natCast_mod, Nat.cast_mul, pow_two]

/-- The point as an element of the group. -/
def toGroup (p : Point) : curve.Point := .some p.x p.y (curve.nonsingular p.equation)

theorem toGroup_ne_zero (p : Point) : p.toGroup ≠ 0 := WeierstrassCurve.Affine.Point.some_ne_zero _

theorem toGroup_injective : Function.Injective toGroup := by
  intro p q h
  obtain ⟨hx, hy⟩ := WeierstrassCurve.Affine.Point.some.inj h
  have hx := eq_of_cast p.onCurve.1 q.onCurve.1 hx
  have hy := eq_of_cast p.onCurve.2.1 q.onCurve.2.1 hy
  cases p
  cases q
  cases hx
  cases hy
  rfl

/-- A point or the neutral element. -/
def group (p : Option Point) : curve.Point := p.elim 0 toGroup

theorem group_injective : Function.Injective group := by
  intro p q h
  cases p <;> cases q
  · rfl
  · exact absurd h.symm (toGroup_ne_zero _)
  · exact absurd h (toGroup_ne_zero _)
  · exact congrArg some (toGroup_injective h)

end Point

open Weighted (Holds)

theorem Weighted.Holds.ofPoint (p : Point) : (Weighted.ofPoint p).Holds p.toGroup := by
  refine ⟨?_, ?_, ?_⟩ <;> simp [Weighted.ofPoint]

/-- The point that is found in coordinates. -/
theorem Weighted.Holds.group_toPoint? {p : Weighted} {P : curve.Point} (h : p.Holds P) :
    Point.group p.toPoint? = P := by
  match P with
  | .zero =>
      rw [toPoint?, if_pos (show p.z = 0 from h)]
      rfl
  | .some x y hxy =>
      have hpz := h.z_ne_zero
      obtain ⟨hz, hx, hy⟩ := h
      generalize ha : p.x * (inverse p.z * inverse p.z % field) % field = a
      generalize hb :
        p.y * (inverse p.z * inverse p.z % field) % field * inverse p.z % field = b
      have hax : (a : ZMod field) = x := by
        rw [← ha]
        simp only [ZMod.natCast_mod, Nat.cast_mul, inverse_cast, hx]
        field_simp
      have hby : (b : ZMod field) = y := by
        rw [← hb]
        simp only [ZMod.natCast_mod, Nat.cast_mul, inverse_cast, hy]
        field_simp
      have hfound : ordinate? a (isOdd b) = some b := by
        refine ordinate?_of_equation (ha ▸ mod_field_lt _) (hb ▸ mod_field_lt _) ?_
        rw [hax, hby]
        exact curve.equation_iff.mp hxy.1
      have hpoint : p.toPoint? = some ⟨a, b, hfound⟩ := by
        rw [toPoint?, if_neg hpz]
        simp only [ha, hb, Point.ofCoordinates?, dif_pos hfound]
      rw [hpoint]
      change WeierstrassCurve.Affine.Point.some (a : ZMod field) (b : ZMod field) _ = _
      congr

theorem Point.group_add? (p q : Point) : group (p.add? q) = p.toGroup + q.toGroup :=
  ((Holds.ofPoint p).add (Holds.ofPoint q)).group_toPoint?

theorem group_generate? {k : Nat} (hk : k < 2 ^ 256) :
    Point.group (generate? k) = k • Point.generator.toGroup :=
  ((Holds.ofPoint .generator).multiple hk).group_toPoint?

/-! ### Multiples of the generator -/

theorem addOrderOf_generator : addOrderOf Point.generator.toGroup = order := by
  have : Fact order.Prime := ⟨prime_order⟩
  refine addOrderOf_eq_prime ?_ (Point.toGroup_ne_zero _)
  have hneutral : generate? order = none := by decide +kernel
  rw [← group_generate? (by decide), hneutral]
  rfl

namespace Secret

theorem generate?_value (s : Secret) : generate? s.value = some s.point := by
  have hmultiple := group_generate? (Nat.lt_trans s.lt_order (by decide))
  cases h : generate? s.value with
  | some p => rw [point, h, Option.getD_some]
  | none =>
      rw [h] at hmultiple
      have hdvd := addOrderOf_dvd_of_nsmul_eq_zero hmultiple.symm
      rw [addOrderOf_generator] at hdvd
      exact absurd (Nat.le_of_dvd s.positive hdvd) (Nat.not_le.mpr s.lt_order)

theorem toGroup_point (s : Secret) : s.point.toGroup = s.value • Point.generator.toGroup := by
  rw [← group_generate? (Nat.lt_trans s.lt_order (by decide)), generate?_value]
  rfl

theorem group_ofNat? {n : Nat} (hn : n < order) :
    Point.group ((ofNat? n).map point) = n • Point.generator.toGroup := by
  by_cases h : 0 < n
  · rw [ofNat?, dif_pos ⟨h, hn⟩]
    exact toGroup_point _
  · obtain rfl : n = 0 := by omega
    rfl

/-- The point of a sum of secrets is the sum of their points. -/
theorem point_add? (s t : Secret) : (s.add? t.value).map point = s.point.add? t.point := by
  apply Point.group_injective
  rw [add?, group_ofNat? (Nat.mod_lt _ (by decide)), Point.group_add?, toGroup_point, toGroup_point,
    ← add_nsmul, ← addOrderOf_generator]
  exact mod_addOrderOf_nsmul ..

end Secret

end WalletExchange.Secp256k1
