import Mathlib.FieldTheory.Finite.Basic
import Mathlib.NumberTheory.LucasPrimality
import Mathlib.Tactic.NormNum.Prime
import WalletExchange.Curve.Secp256k1

/-!
# Proofs — the field of the curve

Numbers modulo `field` form a field, as `field` is a prime; so is the order of the curve.  Both are
proved with a generator of the units, from the prime factors of what is one less, by the same powers
that the curve is computed with.

Main statements:

* `power_cast` — powers are computed by repeated squaring.
* `prime_field`, `prime_order` — the number of elements of the field and of points are primes.
* `inverse_cast`, `ordinate?_of_equation` — inverses, and points by their first coordinate.
-/

namespace WalletExchange.Secp256k1

/-! ### Repeated doubling -/

/-- What is done for the binary digits of a number, from the first one, adds a multiple. -/
theorem foldr_testBit {α M : Type} [AddMonoid M] {R : α → M → Prop} {twice more : α → α} {a : α}
    {m : M} (hinit : R a 0) (htwice : ∀ {b x}, R b x → R (twice b) (x + x))
    (hmore : ∀ {b x}, R b x → R (more b) (x + m)) (bits : Nat) :
    ∀ k < 2 ^ bits, R ((List.range bits).foldr
      (fun i b => if k.testBit i then more (twice b) else twice b) a) (k • m) := by
  induction bits with
  | zero =>
      intro k hk
      obtain rfl : k = 0 := Nat.lt_one_iff.mp hk
      rwa [zero_nsmul]
  | succ bits ih =>
      intro k hk
      have hhalf := htwice (ih (k / 2) (by omega))
      rw [← two_nsmul, ← mul_nsmul'] at hhalf
      rw [List.range_succ_eq_map, List.foldr_cons, List.foldr_map]
      simp only [Nat.succ_eq_add_one, Nat.testBit_succ, Nat.testBit_zero]
      have hdigit := Nat.div_add_mod k 2
      split
      · next hodd =>
        have hk : 2 * (k / 2) + 1 = k := by rwa [of_decide_eq_true hodd] at hdigit
        have hsum := hmore hhalf
        rwa [← succ_nsmul, hk] at hsum
      · next heven =>
        have hne : k % 2 ≠ 1 := fun h => heven (decide_eq_true h)
        have hk : 2 * (k / 2) = k := by omega
        rwa [hk] at hhalf

/-- A power with respect to any modulus, computed as in the field. -/
def powerMod (modulus base exponent : Nat) : Nat :=
  (List.range 256).foldr
    (fun i acc =>
      let square := acc * acc % modulus
      if exponent.testBit i then square * base % modulus else square)
    1

theorem powerMod_cast {modulus base exponent : Nat} (h : exponent < 2 ^ 256) :
    (powerMod modulus base exponent : ZMod modulus) = (base : ZMod modulus) ^ exponent := by
  let R (a : Nat) (x : Additive (ZMod modulus)) : Prop := (a : ZMod modulus) = x.toMul
  have htwice : ∀ {b x}, R b x → R (b * b % modulus) (x + x) := by
    intro b x (h : (b : ZMod modulus) = x.toMul)
    change ((b * b % modulus : Nat) : ZMod modulus) = x.toMul * x.toMul
    rw [ZMod.natCast_mod, Nat.cast_mul, h]
  have hmore : ∀ {b x}, R b x → R (b * base % modulus) (x + Additive.ofMul (base : ZMod modulus)) := by
    intro b x (h : (b : ZMod modulus) = x.toMul)
    change ((b * base % modulus : Nat) : ZMod modulus) = x.toMul * base
    rw [ZMod.natCast_mod, Nat.cast_mul, h]
  exact foldr_testBit (R := R) Nat.cast_one htwice hmore 256 exponent h

/-! ### Primes -/

/-- A number is a prime if some number has the order that a generator of the units has.  The prime
factors of what is one less are given in two lists, those that are found to be primes by trial and
those that are not. -/
theorem prime_of_powerMod {p : Nat} (a : Nat) (small large : List Nat)
    (hsmall : ∀ q ∈ small, q.Prime) (hlarge : ∀ q ∈ large, q.Prime)
    (hpower : p ≤ 2 ^ 256 ∧ (small ++ large).prod + 1 = p ∧ powerMod p a (p - 1) = 1 ∧
      ∀ q ∈ small ++ large, powerMod p a ((p - 1) / q) % p ≠ 1 % p) : p.Prime := by
  obtain ⟨hle, hprod, hone, hne⟩ := hpower
  have hpred : p - 1 = (small ++ large).prod := by omega
  have hprime : ∀ q ∈ small ++ large, q.Prime := List.forall_mem_append.mpr ⟨hsmall, hlarge⟩
  refine lucas_primality p a ?_ fun q hq hdvd => ?_
  · rw [← powerMod_cast (by omega), hone, Nat.cast_one]
  · rw [hpred] at hdvd
    obtain ⟨r, hr, hqr⟩ := hq.prime.dvd_prod_iff.mp hdvd
    obtain rfl := (Nat.prime_dvd_prime_iff_eq hq (hprime r hr)).mp hqr
    have hlt : (p - 1) / q < 2 ^ 256 := lt_of_le_of_lt (Nat.div_le_self ..) (by omega)
    rw [← powerMod_cast hlt, ← Nat.cast_one (R := ZMod p), Ne, ZMod.natCast_eq_natCast_iff']
    exact hne q hr

theorem prime_field : field.Prime := by
  have h₁ : Nat.Prime 13331831 :=
    prime_of_powerMod 13 [2, 5, 971, 1373] [] (by norm_num) (by simp) (by decide +kernel)
  have h₂ : Nat.Prime 173378833005251801 :=
    prime_of_powerMod 6 [2, 2, 2, 5, 5, 2621, 24809] [13331831] (by norm_num) (by simp [h₁])
      (by decide +kernel)
  have h₃ : Nat.Prime 22149492674086928081353 :=
    prime_of_powerMod 5 [2, 2, 2, 3, 5323] [173378833005251801] (by norm_num) (by simp [h₂])
      (by decide +kernel)
  have h₄ : Nat.Prime 132896956044521568488119 :=
    prime_of_powerMod 6 [2, 3] [22149492674086928081353] (by norm_num) (by simp [h₃])
      (by decide +kernel)
  have h₅ : Nat.Prime 1206781 :=
    prime_of_powerMod 10 [2, 2, 3, 5, 20113] [] (by norm_num) (by simp) (by decide +kernel)
  have h₆ : Nat.Prime 7240687 :=
    prime_of_powerMod 3 [2, 3] [1206781] (by norm_num) (by simp [h₅]) (by decide +kernel)
  have h₇ : Nat.Prime 107590001 :=
    prime_of_powerMod 3 [2, 2, 2, 2, 5, 5, 5, 5, 7, 29, 53] [] (by norm_num) (by simp)
      (by decide +kernel)
  have h₈ : Nat.Prime 255515944373312847190720520512484175977 :=
    prime_of_powerMod 3 [2, 2, 2, 7, 7, 11, 1627, 2657, 4423, 41201, 96557] [7240687, 107590001]
      (by norm_num) (by simp [h₆, h₇]) (by decide +kernel)
  have h₉ : Nat.Prime
      205115282021455665897114700593932402728804164701536103180137503955397371 :=
    prime_of_powerMod 10 [2, 3, 5, 29, 29, 31, 7723]
      [132896956044521568488119, 255515944373312847190720520512484175977]
      (by norm_num) (by simp [h₄, h₈]) (by decide +kernel)
  exact prime_of_powerMod 3 [2, 3, 7, 13441]
    [205115282021455665897114700593932402728804164701536103180137503955397371]
    (by norm_num) (by simp [h₉]) (by decide +kernel)

theorem prime_order : order.Prime := by
  have h₁ : Nat.Prime 4681609 :=
    prime_of_powerMod 23 [2, 2, 2, 3, 97, 2011] [] (by norm_num) (by simp) (by decide +kernel)
  have h₂ : Nat.Prime 107361793816595537 :=
    prime_of_powerMod 3 [2, 2, 2, 2, 16699, 85831] [4681609] (by norm_num) (by simp [h₁])
      (by decide +kernel)
  have h₃ : Nat.Prime 44706919 :=
    prime_of_powerMod 6 [2, 3, 797, 9349] [] (by norm_num) (by simp) (by decide +kernel)
  have h₄ : Nat.Prime 174723607534414371449 :=
    prime_of_powerMod 3 [2, 2, 2, 17, 59, 4051, 120233] [44706919] (by norm_num) (by simp [h₃])
      (by decide +kernel)
  have h₅ : Nat.Prime 545358713 :=
    prime_of_powerMod 5 [2, 2, 2, 41, 59, 28181] [] (by norm_num) (by simp) (by decide +kernel)
  have h₆ : Nat.Prime 1627771 :=
    prime_of_powerMod 3 [2, 3, 5, 29, 1871] [] (by norm_num) (by simp) (by decide +kernel)
  have h₇ : Nat.Prime 297159362677 :=
    prime_of_powerMod 2 [2, 2, 3, 3, 11, 461] [1627771] (by norm_num) (by simp [h₆])
      (by decide +kernel)
  have h₈ : Nat.Prime 29047611873442575647497758179 :=
    prime_of_powerMod 2 [2, 293, 305873] [545358713, 297159362677] (by norm_num)
      (by simp [h₅, h₇]) (by decide +kernel)
  have h₉ : Nat.Prime 341948486974166000522343609283189 :=
    prime_of_powerMod 2 [2, 2, 3, 3, 3, 109] [29047611873442575647497758179] (by norm_num)
      (by simp [h₈]) (by decide +kernel)
  exact prime_of_powerMod 7 [2, 2, 2, 2, 2, 2, 3, 149, 631]
    [107361793816595537, 174723607534414371449, 341948486974166000522343609283189]
    (by norm_num) (by simp [h₂, h₄, h₉]) (by decide +kernel)

instance : Fact field.Prime := ⟨prime_field⟩

/-! ### The field -/

theorem power_cast (base : Nat) {exponent : Nat} (h : exponent < 2 ^ 256) :
    (power base exponent : ZMod field) = (base : ZMod field) ^ exponent := powerMod_cast h

theorem inverse_cast (x : Nat) : (inverse x : ZMod field) = (x : ZMod field)⁻¹ := by
  rw [inverse, power_cast x (by decide)]
  by_cases hx : (x : ZMod field) = 0
  · rw [hx, inv_zero]
    exact zero_pow (by decide)
  · refine eq_inv_of_mul_eq_one_left ?_
    rw [← pow_succ]
    exact ZMod.pow_card_sub_one_eq_one hx

theorem eq_of_cast {x y : Nat} (hx : x < field) (hy : y < field)
    (h : (x : ZMod field) = y) : x = y := by
  have hmod := (ZMod.natCast_eq_natCast_iff' ..).mp h
  rwa [Nat.mod_eq_of_lt hx, Nat.mod_eq_of_lt hy] at hmod

theorem cast_ne_zero {x : Nat} (hpos : 0 < x) (hlt : x < field) : (x : ZMod field) ≠ 0 := by
  intro h
  exact Nat.ne_of_gt hpos (eq_of_cast hlt (by decide) (h.trans Nat.cast_zero.symm))

theorem mod_field_lt (x : Nat) : x % field < field := Nat.mod_lt _ (by decide)

@[simp] theorem sub_cast_mod (x y : Nat) :
    (sub x (y % field) : ZMod field) = (x : ZMod field) - y := by
  rw [sub, ZMod.natCast_mod, Nat.cast_add, Nat.cast_sub (mod_field_lt y).le, ZMod.natCast_self,
    ZMod.natCast_mod, zero_sub, ← sub_eq_add_neg]

@[simp] theorem sub_cast_sub (x y z : Nat) :
    (sub x (sub y z) : ZMod field) = (x : ZMod field) - sub y z := by
  rw [show sub y z = sub y z % field from (Nat.mod_mod ..).symm, sub_cast_mod, ZMod.natCast_mod]

theorem cubic_cast (x : Nat) : (cubic x : ZMod field) = (x : ZMod field) ^ 3 + 7 := by
  simp only [cubic, ZMod.natCast_mod, Nat.cast_add, Nat.cast_mul, Nat.cast_ofNat]
  ring

/-! ### Roots -/

theorem power_lt (base exponent : Nat) : power base exponent < field := by
  rw [power, show 256 = 255 + 1 from rfl, List.range_succ_eq_map, List.foldr_cons]
  dsimp only
  split
  · exact mod_field_lt _
  · exact mod_field_lt _

theorem root_lt (c : Nat) : root c < field := power_lt ..

/-- Half of one more than the number of elements is even, so that a square has a power for a root. -/
theorem root_sq {c : Nat} {y : ZMod field} (h : (c : ZMod field) = y ^ 2) :
    (root c : ZMod field) ^ 2 = y ^ 2 := by
  rw [root, power_cast c (by decide), h]
  by_cases hy : y = 0
  · rw [hy, zero_pow two_ne_zero, zero_pow (by decide), zero_pow two_ne_zero]
  · have hunit : y ^ (field - 1) = 1 := ZMod.pow_card_sub_one_eq_one hy
    calc ((y ^ 2) ^ ((field + 1) / 4)) ^ 2
      _ = y ^ (2 * ((field + 1) / 4) * 2) := by rw [← pow_mul, ← pow_mul, mul_assoc]
      _ = y ^ (field - 1 + 2) := by rw [show 2 * ((field + 1) / 4) * 2 = field - 1 + 2 by decide]
      _ = y ^ 2 := by rw [pow_add, hunit, one_mul]

/-- Numbers with the same square are the same or make up the field. -/
theorem eq_or_add_eq_field {r y : Nat} (hr : r < field) (hy : y < field)
    (h : (r : ZMod field) ^ 2 = (y : ZMod field) ^ 2) : r = y ∨ r + y = field := by
  rcases sq_eq_sq_iff_eq_or_eq_neg.mp h with h | h
  · exact .inl (eq_of_cast hr hy h)
  · have hsum : ((r + y : Nat) : ZMod field) = 0 := by rw [Nat.cast_add, h, neg_add_cancel]
    obtain ⟨n, hn⟩ := (ZMod.natCast_eq_zero_iff ..).mp hsum
    match n with
    | 0 => exact .inl (by omega)
    | 1 => exact .inr (by omega)
    | n + 2 =>
        have : field * (n + 2) = field * n + field + field := by ring
        omega

/-- The second coordinate of a point of the curve is found by its parity. -/
theorem ordinate?_of_equation {x y : Nat} (hx : x < field) (hy : y < field)
    (h : (y : ZMod field) ^ 2 = (x : ZMod field) ^ 3 + 7) : ordinate? x (isOdd y) = some y := by
  have hcubic : (cubic x : ZMod field) = (y : ZMod field) ^ 2 := (cubic_cast x).trans h.symm
  have hequation : y * y % field = cubic x := by
    refine eq_of_cast (mod_field_lt _) (mod_field_lt _) ?_
    rw [ZMod.natCast_mod, Nat.cast_mul, ← pow_two, hcubic]
  have hroot : (if isOdd (root (cubic x)) == isOdd y then root (cubic x)
      else field - root (cubic x)) = y := by
    rcases eq_or_add_eq_field (root_lt _) hy (root_sq hcubic) with heq | hsum
    · rw [heq, BEq.rfl, if_pos rfl]
    · -- the field has an odd number of elements, so the parities differ
      have hodd : field % 2 = 1 := by decide
      generalize root (cubic x) = r at hsum ⊢
      have hne : (isOdd r == isOdd y) = false := by
        rw [beq_eq_false_iff_ne, isOdd, isOdd]
        intro hsame
        have hiff : r % 2 = 1 ↔ y % 2 = 1 := by
          rw [← beq_iff_eq (a := r % 2), ← beq_iff_eq (a := y % 2), hsame]
        omega
      rw [hne, if_neg Bool.false_ne_true]
      omega
  rw [ordinate?, hroot, if_pos ⟨hx, hy, hequation, rfl⟩]

end WalletExchange.Secp256k1
